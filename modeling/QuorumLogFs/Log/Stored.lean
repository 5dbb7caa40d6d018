import QuorumLogFs.Log.FileView

/-!
# The lines of a file

A file that has been written to line by line holds its lines in chunk files, in the order of its
path list, and in its write buffer. A flush moves the lines of the buffer behind those on disk:
`Stored.flushLines`. This needs that a chunk file which is appended to is the last one (`InOrder`),
and that follows when the timestamps are ordered the way the chunk files are named (`Timed`).
-/

namespace QuorumLogFs.Log

open QuorumLogFs.Basis

/-- The lines of a list of chunks. A chunk is its first line and the lines behind it. -/
def linesIn (cs : List (Line × List Line)) : List Line := cs.flatMap fun c => c.1 :: c.2

/-- The record lists these chunks under the names of their first lines, and the chunk files hold
them. -/
structure Stored (d : Mdata × ChunkFiles) (cs : List (Line × List Line)) : Prop where
  paths : d.1.paths = cs.map fun c => c.1.stamp.chunk CHUNK_PATH d.1.fileName
  bytes : ∀ c ∈ cs, d.2 (c.1.stamp.chunk CHUNK_PATH d.1.fileName) = some (bytesOf (c.1 :: c.2))
  nodup : d.1.paths.Nodup
  known : ∀ p, d.2 p ≠ none → p ∈ d.1.paths
  size : d.1.size = wrap32 (bytesOf (linesIn cs)).length

/-- Each append creates a chunk file or goes to the last one of the path list. -/
def InOrder (paths : List (List Char)) : List (List Char × List Char) → Prop
  | [] => True
  | w :: writes => (w.1 ∈ paths → paths.getLast? = some w.1) ∧
      InOrder (if w.1 ∈ paths then paths else paths ++ [w.1]) writes

/-- The lines are ordered by this clock, which tells two timestamps apart exactly if their chunk
files have different names. -/
structure Timed (clock : Stamp → ℕ) (file_name : List Char) (ls : List Line) : Prop where
  sorted : ls.Pairwise fun l m => clock l.stamp ≤ clock m.stamp
  faithful : ∀ l ∈ ls, ∀ m ∈ ls, clock l.stamp = clock m.stamp ↔
    l.stamp.chunk CHUNK_PATH file_name = m.stamp.chunk CHUNK_PATH file_name

/-- The file holds these lines, on disk and in the buffer. -/
def FileView.Stores (v : FileView) (ls : List Line) : Prop :=
  ∃ cs buffered, Stored (v.mdata, v.chunkFiles) cs ∧ v.text = bytesOf buffered ∧
    linesIn cs ++ buffered = ls

/-- The lines of a text, without the empty ones. -/
def nonEmptyLines (text : List Char) : List (List Char) :=
  (text.splitOn '\n').filter (· ≠ [])

variable {clock : Stamp → ℕ} {file_name name : List Char} {ls ls' run : List Line} {first l : Line}
  {d d' : Mdata × ChunkFiles} {cs : List (Line × List Line)}

@[simp] theorem linesIn_append (cs cs' : List (Line × List Line)) :
    linesIn (cs ++ cs') = linesIn cs ++ linesIn cs' := List.flatMap_append

@[simp] theorem linesIn_singleton (c : Line × List Line) : linesIn [c] = c.1 :: c.2 := by
  simp [linesIn]

theorem Timed.sublist (h : Timed clock file_name ls) (hsub : ls'.Sublist ls) :
    Timed clock file_name ls' :=
  ⟨h.sorted.sublist hsub, fun l hl m hm => h.faithful l (hsub.subset hl) m (hsub.subset hm)⟩

/-! ## Appending a piece -/

/-- A piece goes behind the lines on disk. -/
theorem Stored.append (h : Stored d cs)
    (hlast : first.stamp.chunk CHUNK_PATH d.1.fileName ∈ d.1.paths →
      d.1.paths.getLast? = some (first.stamp.chunk CHUNK_PATH d.1.fileName))
    (hop : appendChunk (first.stamp.chunk CHUNK_PATH d.1.fileName) (bytesOf (first :: run)) d =
      some d') :
    d'.1.paths = (if first.stamp.chunk CHUNK_PATH d.1.fileName ∈ d.1.paths then d.1.paths
      else d.1.paths ++ [first.stamp.chunk CHUNK_PATH d.1.fileName]) ∧
      ∃ cs', Stored d' cs' ∧ linesIn cs' = linesIn cs ++ first :: run := by
  have hname := appendChunk_fileName hop
  obtain ⟨hfiles, hsize, hpaths⟩ := appendChunk_eq_some hop
  rw [h.size, wrap32_wrap32_add] at hsize
  generalize hchunk : first.stamp.chunk CHUNK_PATH d.1.fileName = p at hlast hfiles hpaths ⊢
  by_cases hnone : d.2 p = none
  · -- a new chunk file
    rw [if_pos hnone] at hpaths
    rw [hnone, Option.getD_none, List.nil_append] at hfiles
    have hnew : p ∉ d.1.paths := by
      rw [h.paths]
      intro hmem
      obtain ⟨c, hc, heq⟩ := List.mem_map.mp hmem
      have := h.bytes c hc
      rw [heq, hnone] at this
      cases this
    refine ⟨by rw [hpaths, if_neg hnew], cs ++ [(first, run)], ⟨?_, ?_, ?_, ?_, ?_⟩, by simp⟩
    · rw [hpaths, h.paths, hname, List.map_append, ← hchunk]
      rfl
    · intro c hc
      rw [hname, hfiles]
      rcases List.mem_append.mp hc with hc | hc
      · have hne : c.1.stamp.chunk CHUNK_PATH d.1.fileName ≠ p := by
          intro heq
          exact hnew (heq ▸ h.paths ▸ List.mem_map.mpr ⟨c, hc, rfl⟩)
        rw [Function.update_of_ne hne]
        exact h.bytes c hc
      · rw [List.mem_singleton.mp hc, hchunk, Function.update_self]
    · rw [hpaths]
      simpa using h.nodup.concat hnew
    · intro q hq
      rw [hpaths]
      by_cases hqp : q = p
      · simp [hqp]
      · rw [hfiles, Function.update_of_ne hqp] at hq
        exact List.mem_append_left _ (h.known q hq)
    · rw [hsize, linesIn_append, linesIn_singleton, bytesOf_append, List.length_append]
      rfl
  · -- the last chunk file
    rw [if_neg hnone] at hpaths
    have hmem := h.known p hnone
    obtain ⟨cs₀, m, rfl, hm⟩ : ∃ cs₀ m, cs = cs₀ ++ [m] ∧
        m.1.stamp.chunk CHUNK_PATH d.1.fileName = p := by
      have hlast := hlast hmem
      rw [h.paths, List.getLast?_map] at hlast
      obtain ⟨m, hm, heq⟩ := Option.map_eq_some_iff.mp hlast
      obtain ⟨cs₀, rfl⟩ := List.getLast?_eq_some_iff.mp hm
      exact ⟨cs₀, m, rfl, heq⟩
    have hold : d.2 p = some (bytesOf (m.1 :: m.2)) := by
      rw [← hm]
      exact h.bytes m (by simp)
    rw [hold, Option.getD_some, ← bytesOf_append, List.cons_append] at hfiles
    refine ⟨by rw [hpaths, if_pos hmem], cs₀ ++ [(m.1, m.2 ++ first :: run)], ⟨?_, ?_, ?_, ?_, ?_⟩,
      by simp⟩
    · rw [hpaths, h.paths, hname, List.map_append, List.map_append]
      rfl
    · intro c hc
      rw [hname, hfiles]
      rcases List.mem_append.mp hc with hc | hc
      · have hne : c.1.stamp.chunk CHUNK_PATH d.1.fileName ≠ p := by
          have hnodup := h.nodup
          rw [h.paths, List.map_append, List.nodup_append] at hnodup
          exact fun heq => hnodup.2.2 _ (List.mem_map.mpr ⟨c, hc, rfl⟩) _ (by simp) (heq.trans hm.symm)
        rw [Function.update_of_ne hne]
        exact h.bytes c (List.mem_append_left _ hc)
      · rw [List.mem_singleton.mp hc, hm, Function.update_self]
    · rw [hpaths]
      exact h.nodup
    · intro q hq
      rw [hpaths]
      by_cases hqp : q = p
      · exact hqp ▸ hmem
      · rw [hfiles, Function.update_of_ne hqp] at hq
        exact h.known q hq
    · rw [hsize, linesIn_append, linesIn_append, linesIn_singleton, linesIn_singleton,
        ← List.cons_append, ← List.append_assoc, bytesOf_append _ (first :: run), List.length_append]
      rfl

/-- A flush moves the lines of the buffer behind those on disk. -/
theorem Stored.flushLines (h : Stored d cs)
    (horder : InOrder d.1.paths
      (pieces CHUNK_PATH d.1.fileName first.stamp (bytesOf (first :: run)) ls))
    (hop : flushLines CHUNK_PATH first.stamp (bytesOf (first :: run)) ls d = some d') :
    ∃ cs', Stored d' cs' ∧ linesIn cs' = linesIn cs ++ first :: (run ++ ls) := by
  induction ls generalizing first run d cs with
  | nil =>
    rw [List.append_nil]
    exact (h.append horder.1 hop).2
  | cons l ls ih =>
    unfold Log.flushLines at hop
    unfold pieces at horder
    split at hop
    · -- the line joins the piece
      rename_i hsame
      have hbytes : bytesOf (first :: run) ++ l.bytes = bytesOf (first :: (run ++ [l])) := by simp
      have hlines : first :: (run ++ l :: ls) = first :: (run ++ [l] ++ ls) := by simp
      rw [hbytes] at hop
      rw [if_pos hsame, hbytes] at horder
      rw [hlines]
      exact ih h horder hop
    · -- the piece is written and the line opens the next one
      rename_i hnew
      obtain ⟨e, he, hop⟩ := Option.bind_eq_some_iff.mp hop
      have hline : l.bytes = bytesOf [l] := by simp
      rw [if_neg hnew, hline] at horder
      obtain ⟨hpaths, cs', hcs', hlines⟩ := h.append horder.1 he
      rw [hline] at hop
      have horder' := horder.2
      rw [← hpaths, ← appendChunk_fileName he] at horder'
      obtain ⟨cs'', hcs'', hlines'⟩ := ih hcs' horder' hop
      exact ⟨cs'', hcs'', by rw [hlines', hlines]; simp⟩

/-! ## Ordered timestamps -/

/-- A chunk file that a later line would be appended to is the last one. -/
theorem Timed.last_of_mem {heads : List Line} (h : Timed clock file_name (heads ++ [first]))
    (hmem : first.stamp.chunk CHUNK_PATH file_name ∈
      heads.map fun l => l.stamp.chunk CHUNK_PATH file_name) :
    (heads.map fun l => l.stamp.chunk CHUNK_PATH file_name).getLast? =
      some (first.stamp.chunk CHUNK_PATH file_name) := by
  obtain ⟨l, hl, hname⟩ := List.mem_map.mp hmem
  obtain ⟨heads₀, m, rfl⟩ : ∃ heads₀ m, heads = heads₀ ++ [m] :=
    ⟨_, _, (List.dropLast_append_getLast (List.ne_nil_of_mem hl)).symm⟩
  rw [List.getLast?_map, List.getLast?_concat, Option.map_some, Option.some.injEq]
  rcases List.mem_append.mp hl with hl₀ | hl₀
  · -- the last chunk lies between `l` and the line, so it has the same time
    have hsorted := h.sorted
    rw [List.append_assoc] at hsorted
    obtain ⟨-, hrest, hbetween⟩ := List.pairwise_append.mp hsorted
    have hlm : clock l.stamp ≤ clock m.stamp := hbetween l hl₀ m (by simp)
    have hmf : clock m.stamp ≤ clock first.stamp :=
      (List.pairwise_append.mp hrest).2.2 m (by simp) first (by simp)
    have hlf : clock l.stamp = clock first.stamp :=
      (h.faithful l (by simp [hl₀]) first (by simp)).mpr hname
    exact (h.faithful m (by simp) first (by simp)).mp (by omega)
  · rw [← List.mem_singleton.mp hl₀]
    exact hname

/-- The pieces of lines that are not older than those on disk. -/
theorem Timed.inOrder {heads : List Line} (pending : List Char)
    (h : Timed clock file_name (heads ++ first :: ls)) :
    InOrder (heads.map fun l => l.stamp.chunk CHUNK_PATH file_name)
      (pieces CHUNK_PATH file_name first.stamp pending ls) := by
  induction ls generalizing first heads pending with
  | nil => exact ⟨h.last_of_mem, trivial⟩
  | cons l ls ih =>
    unfold pieces
    split
    · exact ih _ (h.sublist (by simp))
    · have hfirst : Timed clock file_name (heads ++ [first]) := h.sublist (by simp)
      refine ⟨hfirst.last_of_mem, ?_⟩
      split
      · exact ih _ (h.sublist (by simp))
      · have hheads : heads.map (fun l => l.stamp.chunk CHUNK_PATH file_name) ++
            [first.stamp.chunk CHUNK_PATH file_name] =
            (heads ++ [first]).map fun l => l.stamp.chunk CHUNK_PATH file_name := by simp
        rw [hheads]
        exact ih _ (h.sublist (by simp))

theorem heads_sublist (cs : List (Line × List Line)) : (cs.map Prod.fst).Sublist (linesIn cs) := by
  induction cs with
  | nil => exact List.Sublist.refl _
  | cons c cs ih => exact (ih.trans (List.sublist_append_right c.2 _)).cons_cons c.1

/-- The buffer of a file whose lines are ordered. -/
theorem Timed.inOrder_stored (htimed : Timed clock d.1.fileName (linesIn cs ++ first :: ls))
    (h : Stored d cs) (pending : List Char) :
    InOrder d.1.paths (pieces CHUNK_PATH d.1.fileName first.stamp pending ls) := by
  have hpaths : d.1.paths =
      (cs.map Prod.fst).map fun l => l.stamp.chunk CHUNK_PATH d.1.fileName := by
    rw [h.paths, List.map_map]
    rfl
  rw [hpaths]
  exact (htimed.sublist ((heads_sublist cs).append (List.Sublist.refl _))).inOrder pending

/-! ## The buffer is flushed -/

theorem length_CHUNK_PATH_le : CHUNK_PATH.length ≤ 150 := by decide

/-- The appends of a flush of complete lines are their pieces. -/
theorem chunkWrites_lines (junk : Junk) (file_name : List Char) {b : CBlock}
    (hbuf : b.buf = padded BLOCK_SIZE (bytesOf (l :: ls)))
    (hlen : (bytesOf (l :: ls)).length < BLOCK_SIZE) :
    chunkWrites junk CHUNK_PATH file_name b BLOCK_SIZE =
      some (pieces CHUNK_PATH file_name l.stamp l.bytes ls) := by
  have hpaths : ∀ k ∈ l :: ls, (CHUNK_PATH ++ k.stamp.folder).length < MAX_PATH_NAME_SIZE :=
    fun k _ => k.stamp.folder_fits length_CHUNK_PATH_le
  rw [← List.append_nil (bytesOf (l :: ls))] at hbuf hlen
  unfold chunkWrites
  rw [flushBuffer_lines recordChunk junk _ hpaths isPartial_nil hbuf hlen, appendAll_recordChunk]
  rfl

/-- A flush that leaves nothing behind and appends in order. -/
theorem FileView.Stores.flush {v v' : FileView} {junk : Junk} (h : v.Stores ls) (hne : v.text ≠ [])
    (hlen : v.text.length < BLOCK_SIZE)
    (hleaves : remaining junk BLOCK_SIZE (padded BLOCK_SIZE v.text) = [])
    (horder : ∀ writes ∈ chunkWrites junk CHUNK_PATH v.mdata.fileName (blockOf v.text) BLOCK_SIZE,
      InOrder v.mdata.paths writes)
    (hop : v.flush junk = some v') : v'.Stores ls := by
  obtain ⟨cs, buffered, hstored, htext, rfl⟩ := h
  cases buffered with
  | nil => exact absurd htext hne
  | cons l ls =>
    have hwrites := chunkWrites_lines (b := blockOf v.text) junk v.mdata.fileName
      (congrArg (padded BLOCK_SIZE) htext) (htext ▸ hlen)
    rw [FileView.flush_eq, hwrites, Option.bind_some, hleaves] at hop
    obtain ⟨d, hd, rfl⟩ := Option.map_eq_some_iff.mp hop
    have hpieces : appendAll appendChunk (pieces CHUNK_PATH v.mdata.fileName l.stamp l.bytes ls)
        (v.mdata, v.chunkFiles) = flushLines CHUNK_PATH l.stamp l.bytes ls (v.mdata, v.chunkFiles) :=
      appendAll_pieces l.stamp l.bytes ls (v.mdata, v.chunkFiles)
    rw [hpieces, show l.bytes = bytesOf [l] by simp] at hd
    have horder' := horder _ hwrites
    rw [show l.bytes = bytesOf [l] by simp] at horder'
    obtain ⟨cs', hcs', hlines⟩ := hstored.flushLines horder' hd
    exact ⟨cs', [], hcs', rfl, by rw [hlines, List.append_nil]; rfl⟩

/-! ## The lines are read -/

theorem nonEmptyLines_nil : nonEmptyLines [] = [] := rfl

theorem nonEmptyLines_newline (text : List Char) :
    nonEmptyLines ('\n' :: text) = nonEmptyLines text := by
  unfold nonEmptyLines
  rw [← List.nil_append ('\n' :: text),
    List.splitOn_append_cons_self_of_not_mem List.not_mem_nil]
  rfl

theorem nonEmptyLines_bytesOf (ls : List Line) (text : List Char) :
    nonEmptyLines (bytesOf ls ++ text) = ls.map Line.render ++ nonEmptyLines text := by
  induction ls with
  | nil => rfl
  | cons l ls ih =>
    have hline : bytesOf (l :: ls) ++ text = l.render ++ '\n' :: (bytesOf ls ++ text) := by
      simp [Line.bytes]
    unfold nonEmptyLines at ih ⊢
    rw [hline, List.splitOn_append_cons_self_of_not_mem l.newline_notMem, List.filter_cons_of_pos
      (by simpa using l.render_ne_nil), ih]
    rfl

/-- What `lfs_read` makes of the chunks. -/
def chunkText (cs : List (Line × List Line)) : List Char :=
  cs.flatMap fun c => bytesOf (c.1 :: c.2) ++ ['\n']

theorem nonEmptyLines_chunkText (cs : List (Line × List Line)) (text : List Char) :
    nonEmptyLines (chunkText cs ++ text) = (linesIn cs).map Line.render ++ nonEmptyLines text := by
  induction cs with
  | nil => rfl
  | cons c cs ih =>
    have hchunk : chunkText (c :: cs) ++ text =
        bytesOf (c.1 :: c.2) ++ '\n' :: (chunkText cs ++ text) := by
      simp [chunkText]
    have hlines : linesIn (c :: cs) = c.1 :: c.2 ++ linesIn cs := rfl
    rw [hchunk, nonEmptyLines_bytesOf, nonEmptyLines_newline, ih, hlines, List.map_append,
      List.append_assoc]

theorem nul_notMem_chunkText (cs : List (Line × List Line)) : nul ∉ chunkText cs := by
  intro h
  obtain ⟨c, -, hc⟩ := List.mem_flatMap.mp h
  rcases List.mem_append.mp hc with hc | hc
  · exact nul_notMem_bytesOf _ hc
  · exact absurd (List.mem_singleton.mp hc) (by decide)

/-- `fread` takes a file whole that is not longer than the size. -/
theorem fread_eq {size : ℤ} {bytes : List Char} (h : size < 0 ∨ bytes.length ≤ size) :
    fread size bytes = bytes := by
  unfold fread
  split
  · rfl
  · exact List.take_of_length_le (by omega)

theorem Stored.readChunks (h : Stored d cs) (hsize : (bytesOf (linesIn cs)).length < 2 ^ 32) :
    readChunks d.1.size d.2 d.1.paths = some (chunkText cs) := by
  have hchunk : ∀ c ∈ cs, fread d.1.size (bytesOf (c.1 :: c.2)) = bytesOf (c.1 :: c.2) := by
    intro c hc
    have hle : (bytesOf (c.1 :: c.2)).length ≤ (bytesOf (linesIn cs)).length := by
      obtain ⟨a, b, rfl⟩ := List.append_of_mem hc
      rw [linesIn_append, bytesOf_append, List.length_append]
      show _ ≤ _ + (bytesOf (c.1 :: c.2 ++ linesIn b)).length
      rw [bytesOf_append, List.length_append]
      omega
    refine fread_eq ?_
    rw [h.size]
    rcases wrap32_natCast hsize with heq | hneg
    · exact Or.inr (by rw [heq]; exact_mod_cast hle)
    · exact Or.inl hneg
  have hall : ∀ cs', (∀ c ∈ cs', c ∈ cs) →
      Log.readChunks d.1.size d.2 (cs'.map fun c => c.1.stamp.chunk CHUNK_PATH d.1.fileName) =
        some (chunkText cs') := by
    intro cs' hsub
    induction cs' with
    | nil => rfl
    | cons c cs' ih =>
      obtain ⟨hc, hsub⟩ := List.forall_mem_cons.mp hsub
      rw [List.map_cons, Log.readChunks, h.bytes c hc, ih hsub]
      show some (fread d.1.size (bytesOf (c.1 :: c.2)) ++ '\n' :: chunkText cs') = _
      rw [hchunk c hc]
      simp [chunkText]
  rw [h.paths]
  exact hall cs fun _ => id

theorem fillBuffer_eq {buf chunks text out : List Char} (hchunks : nul ∉ chunks)
    (hop : fillBuffer buf chunks text = some out) : out = chunks ++ text := by
  unfold fillBuffer at hop
  split at hop
  · obtain ⟨mem, hmem, rfl⟩ := Option.map_eq_some_iff.mp hop
    unfold strcat at hmem
    rw [cstr_append_nul hchunks] at hmem
    split at hmem
    · obtain rfl := Option.some.inj hmem
      rw [← List.length_append, List.take_left]
    · cases hmem
  · cases hop

/-- A buffer with room for the text and a terminator is filled. -/
theorem fillBuffer_of_fits {buf chunks text : List Char} (hchunks : nul ∉ chunks)
    (hfits : (chunks ++ text).length < buf.length) (hmax : ((chunks ++ text).length : ℤ) ≤ INT_MAX) :
    fillBuffer buf chunks text = some (chunks ++ text) := by
  rw [List.length_append] at hfits hmax
  unfold fillBuffer strcat
  rw [if_pos ⟨by omega, by exact_mod_cast hmax⟩, cstr_append_nul hchunks, if_pos, Option.map_some,
    ← List.length_append, List.take_left]
  simp only [List.length_append, List.length_cons, List.length_drop]
  omega

theorem length_chunkText_le (cs : List (Line × List Line)) :
    (chunkText cs).length ≤ (bytesOf (linesIn cs)).length + (linesIn cs).length := by
  induction cs with
  | nil => exact le_rfl
  | cons c cs ih =>
    have hchunk : chunkText (c :: cs) = bytesOf (c.1 :: c.2) ++ '\n' :: chunkText cs := by
      simp [chunkText]
    have hlines : linesIn (c :: cs) = c.1 :: c.2 ++ linesIn cs := rfl
    rw [hchunk, hlines, bytesOf_append]
    simp only [List.length_append, List.length_cons] at ih ⊢
    omega

/-- What the file delivers, into every buffer that is large enough: the lines that it stores. -/
theorem FileView.Stores.output {v : FileView} (h : v.Stores ls)
    (hsize : ((bytesOf ls).length + ls.length : ℤ) ≤ INT_MAX) :
    ∃ text, nonEmptyLines text = ls.map Line.render ∧
      (∀ buf out, v.output buf = some out → out = text) ∧
      ∀ buf, text.length < buf.length → v.output buf = some text := by
  obtain ⟨cs, buffered, hstored, htext, rfl⟩ := h
  have hchunks := length_chunkText_le cs
  rw [bytesOf_append] at hsize
  simp only [List.length_append, INT_MAX] at hsize
  have houtput : ∀ buf, v.output buf = fillBuffer buf (chunkText cs) (bytesOf buffered) := by
    intro buf
    unfold FileView.output
    rw [hstored.readChunks (by omega), Option.bind_eq_bind, Option.bind_some, htext]
  refine ⟨chunkText cs ++ bytesOf buffered, ?_, fun buf out hout => ?_, fun buf hbuf => ?_⟩
  · rw [nonEmptyLines_chunkText, List.map_append, ← List.append_nil (bytesOf buffered),
      nonEmptyLines_bytesOf, nonEmptyLines_nil, List.append_nil]
  · exact fillBuffer_eq (nul_notMem_chunkText cs) ((houtput buf).symm.trans hout)
  · rw [houtput]
    refine fillBuffer_of_fits (nul_notMem_chunkText cs) hbuf ?_
    rw [List.length_append, INT_MAX]
    omega

/-! ## A write -/

theorem FileView.stores_fresh (name : List Char) : (FileView.fresh name).Stores [] :=
  ⟨[], [], ⟨rfl, List.forall_mem_nil _, List.nodup_nil, fun _ hp => absurd rfl hp, rfl⟩, rfl, rfl⟩

/-- Lines are written; a flush that makes room for them leaves nothing behind and appends in order. -/
theorem FileView.Stores.write {v v' : FileView} {text : List Char} {junk : Junk} (h : v.Stores ls)
    (htext : text = bytesOf ls') (hlen : v.text.length < BLOCK_SIZE)
    (hclean : v.text ≠ [] → BLOCK_SIZE < v.text.length + text.length →
      remaining junk BLOCK_SIZE (padded BLOCK_SIZE v.text) = [] ∧
        ∀ writes ∈ chunkWrites junk CHUNK_PATH v.mdata.fileName (blockOf v.text) BLOCK_SIZE,
          InOrder v.mdata.paths writes)
    (hop : v.step (.write text junk) = some v') : v'.Stores (ls ++ ls') := by
  obtain ⟨w, hw, hop⟩ := Option.bind_eq_some_iff.mp hop
  split at hop
  · rename_i hfits
    obtain rfl := Option.some.inj hop
    obtain ⟨cs, buffered, hstored, hbuffered, hall⟩ : w.Stores ls := by
      unfold FileView.room at hw
      split at hw
      · rename_i hover
        by_cases hne : v.text = []
        · rw [hne, List.length_nil, Nat.zero_add] at hover
          omega
        · exact h.flush hne hlen (hclean hne hover).1 (hclean hne hover).2 hw
      · exact Option.some.inj hw ▸ h
    refine ⟨cs, buffered ++ ls', hstored, ?_, ?_⟩
    · show w.text ++ text = _
      rw [hbuffered, htext, bytesOf_append]
    · rw [← hall, List.append_assoc]
  · cases hop

end QuorumLogFs.Log
