import QuorumLogFs.Log.Balance
import QuorumLogFs.Log.ReadBack

/-!
# The path array of a record

Reference: `write_buffer_to_disk` in `Cache.c`, `MDATA` in `log_fs.h`.

A flush stores the name of each chunk file that it creates at `path[num_paths++]`, and in neither of the
two places does it look at `MAX_PATHS`. The count comes from a metadata file, whose reader does not look
at its sign. `pathIndices` lists the indices that it writes; `RoomForPaths`
is the condition under which they are in the array.
-/

namespace QuorumLogFs.Log

open QuorumLogFs.Basis

/-- The indices of `path` that are written while these appends are made: one for each chunk file that
does not exist yet. -/
def pathIndices : ℤ → ChunkFiles → List (List Char × List Char) → List ℤ
  | _, _, [] => []
  | num_paths, files, (name, bytes) :: writes =>
    if files name = none then
      num_paths :: pathIndices (num_paths + 1) (appendAt files name bytes) writes
    else pathIndices num_paths (appendAt files name bytes) writes

/-- The flush of write buffer `j` stays in the array of its record. -/
def PathsInside (s : Fs) (j : ℕ) (junk : Junk) : Prop :=
  ∀ i ∈ (s.bufferCache.cblocks j).mdata,
    ∀ writes ∈ chunkWrites junk CHUNK_PATH (s.records i).fileName (s.bufferCache.cblocks j)
        s.bufferCache.cacheBlockSize,
      ∀ k ∈ pathIndices (s.records i).numPaths s.chunkFiles writes, 0 ≤ k ∧ k < MAX_PATHS

/-- The timestamps of the lines that start a new date. -/
def newDays : Stamp → List Line → List Stamp
  | _, [] => []
  | start, l :: ls =>
    if l.stamp.sameDate start then newDays start ls else l.stamp :: newDays l.stamp ls

/-- The chunk files that a text goes to: those of its first line and of the lines that start a new date.
A line that a flush has left goes to its own. -/
inductive Starts (junk : Junk) (file_name : List Char) : List Char → List (List Char) → Prop where
  | empty : Starts junk file_name []
      [chunkFileName CHUNK_PATH junk.folderName file_name junk.startTime]
  | lines (l : Line) (ls : List Line) : Starts junk file_name (bytesOf (l :: ls))
      ((l.stamp :: newDays l.stamp ls).map fun t => t.chunk CHUNK_PATH file_name)
  | left (l : Line) : Starts junk file_name l.render [l.stamp.chunk CHUNK_PATH file_name]

/-- The chunk files among these that do not exist yet. -/
def newChunks (files : ChunkFiles) (names : List (List Char)) : Finset (List Char) :=
  names.toFinset.filter fun p => files p = none

/-- What a write buffer holds: complete lines, possibly behind a line that a flush has left. -/
inductive Stocked : List Char → Prop where
  | lines (ls : List Line) : Stocked (bytesOf ls)
  | left (l : Line) (ls : List Line) : Stocked (l.render ++ bytesOf ls)

/-- Nothing, or a line without its newline. -/
def LeftOver (rest : List Char) : Prop := rest = [] ∨ ∃ l : Line, rest = l.render

/-- The array has a place for each new chunk file that the text in write buffer `j` starts, and its first
free one is not in front of it. -/
def RoomForPaths (s : Fs) (j : ℕ) (junk : Junk) : Prop :=
  ∀ i ∈ (s.bufferCache.cblocks j).mdata, ∀ names,
    Starts junk (s.records i).fileName (cstr (s.bufferCache.cblocks j).buf) names →
      (newChunks s.chunkFiles names).Nonempty → 0 ≤ (s.records i).numPaths ∧
        (s.records i).numPaths + (newChunks s.chunkFiles names).card ≤ MAX_PATHS

instance (s : Fs) (j : ℕ) (junk : Junk) : Decidable (PathsInside s j junk) :=
  inferInstanceAs (Decidable (∀ i ∈ _, ∀ writes ∈ _, ∀ k ∈ _, _ ≤ _ ∧ _ < _))

variable {s s' : Fs} {junk : Junk} {file_name name bytes text : List Char} {files : ChunkFiles}
  {names : List (List Char)} {d d' : Mdata × ChunkFiles} {writes : List (List Char × List Char)}
  {l : Line} {ls : List Line} {b b' : CBlock} {j : ℕ}

/-! ## The indices -/

theorem mem_newChunks {p : List Char} : p ∈ newChunks files names ↔ p ∈ names ∧ files p = none := by
  rw [newChunks, Finset.mem_filter, List.mem_toFinset]

/-- A chunk file that is created is new, and from then on it is not. -/
theorem newChunks_cons_new (h : files name = none) (bytes : List Char) (names : List (List Char)) :
    name ∉ newChunks (appendAt files name bytes) names ∧
      newChunks files (name :: names) =
        insert name (newChunks (appendAt files name bytes) names) := by
  refine ⟨fun hmem => ?_, ?_⟩
  · rw [mem_newChunks, appendAt_self] at hmem
    cases hmem.2
  · ext p
    rw [Finset.mem_insert, mem_newChunks, mem_newChunks, List.mem_cons]
    by_cases hp : p = name
    · simp [hp, h]
    · rw [appendAt_of_ne hp]
      simp [hp]

theorem newChunks_cons_old (h : files name ≠ none) (bytes : List Char) (names : List (List Char)) :
    newChunks files (name :: names) = newChunks (appendAt files name bytes) names := by
  ext p
  rw [mem_newChunks, mem_newChunks, List.mem_cons]
  by_cases hp : p = name
  · subst hp
    simp [h, appendAt_self]
  · rw [appendAt_of_ne hp]
    simp [hp]

/-- The indices follow each other, as many as there are new chunk files. -/
theorem pathIndices_eq (n : ℤ) (files : ChunkFiles) (writes : List (List Char × List Char)) :
    pathIndices n files writes =
      (List.range (newChunks files (writes.map Prod.fst)).card).map fun k : ℕ => n + k := by
  induction writes generalizing n files with
  | nil => rfl
  | cons w writes ih =>
    obtain ⟨name, bytes⟩ := w
    rw [pathIndices, List.map_cons]
    by_cases hnone : files name = none
    · obtain ⟨hnew, heq⟩ := newChunks_cons_new hnone bytes (writes.map Prod.fst)
      rw [if_pos hnone, ih, heq, Finset.card_insert_of_notMem hnew, List.range_succ_eq_map,
        List.map_cons, List.map_map]
      congr 1
      · simp
      · apply List.map_congr_left
        intro k _
        show n + 1 + (k : ℤ) = n + (k + 1 : ℕ)
        push_cast
        ring
    · rw [if_neg hnone, ih, newChunks_cons_old hnone bytes]

theorem pathIndices_inside_iff {n : ℤ} :
    (∀ k ∈ pathIndices n files writes, 0 ≤ k ∧ k < MAX_PATHS) ↔
      ((newChunks files (writes.map Prod.fst)).Nonempty →
        0 ≤ n ∧ n + (newChunks files (writes.map Prod.fst)).card ≤ MAX_PATHS) := by
  rw [pathIndices_eq, List.forall_mem_map, ← Finset.card_pos]
  constructor
  · intro h hpos
    have hfirst := h 0 (List.mem_range.mpr hpos)
    have hlast := h ((newChunks files (writes.map Prod.fst)).card - 1) (List.mem_range.mpr (by omega))
    omega
  · intro h k hk
    have hlt := List.mem_range.mp hk
    have := h (by omega)
    omega

/-- The appends are made if and only if the indices are in the array. -/
theorem appendAll_iff_inside (hnames : ∀ w ∈ writes, w.1.length < MAX_FILE_NAME_SIZE) :
    (∃ d', appendAll appendChunk writes d = some d') ↔
      ∀ k ∈ pathIndices d.1.numPaths d.2 writes, 0 ≤ k ∧ k < MAX_PATHS := by
  induction writes generalizing d with
  | nil => exact iff_of_true ⟨d, rfl⟩ (List.forall_mem_nil _)
  | cons w writes ih =>
    obtain ⟨name, bytes⟩ := w
    obtain ⟨hname, hnames⟩ := List.forall_mem_cons.mp hnames
    rw [appendAll, pathIndices, appendChunk, if_pos hname]
    cases hfile : d.2 name with
    | none =>
      have hstore : appendAt d.2 name bytes = Function.update d.2 name (some bytes) := by
        rw [appendAt, hfile]
        rfl
      rw [if_pos rfl, List.forall_mem_cons, hstore, Mdata.pushPath]
      by_cases hroom : 0 ≤ d.1.numPaths ∧ d.1.numPaths < MAX_PATHS
      · rw [dif_pos hroom, and_iff_right hroom]
        exact ih (d := (_, _)) hnames
      · rw [dif_neg hroom]
        exact iff_of_false (fun h => by obtain ⟨_, h⟩ := h; cases h) fun h => hroom h.1
    | some old =>
      have hstore : appendAt d.2 name bytes = Function.update d.2 name (some (old ++ bytes)) := by
        rw [appendAt, hfile]
        rfl
      rw [if_neg (by simp), hstore]
      exact ih (d := (_, _)) hnames

/-- Each index that is written makes the record's list longer. -/
theorem numPaths_appendAll (h : appendAll appendChunk writes d = some d') :
    d'.1.numPaths = d.1.numPaths + (newChunks d.2 (writes.map Prod.fst)).card := by
  induction writes generalizing d with
  | nil =>
    obtain rfl := Option.some.inj h
    simp [newChunks]
  | cons w writes ih =>
    obtain ⟨name, bytes⟩ := w
    obtain ⟨e, he, h⟩ := Option.bind_eq_some_iff.mp h
    have hfiles : e.2 = appendAt d.2 name bytes := (appendChunk_eq_some he).1
    have hrest := ih h
    unfold appendChunk at he
    split at he
    · split at he
      · rename_i hnone
        obtain ⟨m, hm, rfl⟩ := Option.map_eq_some_iff.mp he
        obtain ⟨hnew, heq⟩ := newChunks_cons_new hnone bytes (writes.map Prod.fst)
        have hcount := (Mdata.numPaths_pushPath hm).1
        rw [hrest, hfiles, List.map_cons, heq, Finset.card_insert_of_notMem hnew]
        show m.numPaths + _ = _
        push_cast
        omega
      · rename_i old hold
        obtain rfl := Option.some.inj he
        rw [hrest, hfiles, List.map_cons, newChunks_cons_old (by simp [hold]) bytes]
        rfl
    · cases he

/-! ## The chunk files of a flush -/

theorem map_fst_pieces (file_name : List Char) (start : Stamp) (pending : List Char)
    (ls : List Line) :
    (pieces CHUNK_PATH file_name start pending ls).map Prod.fst =
      (start :: newDays start ls).map fun t => t.chunk CHUNK_PATH file_name := by
  induction ls generalizing start pending with
  | nil => rfl
  | cons l ls ih =>
    rw [pieces, newDays]
    split
    · exact ih start _
    · rw [List.map_cons, ih]
      rfl

/-- When no line follows the first one, the flush makes one append. -/
theorem chunkWrites_one (file_name : List Char) {v : FlushVars (List (List Char × List Char))}
    (hfirst : flushFirst junk CHUNK_PATH b.buf [] = some v) (hend : stringAt b.buf v.offset = some [])
    (hline : v.line.length < BLOCK_SIZE) :
    ∃ bytes, chunkWrites junk CHUNK_PATH file_name b BLOCK_SIZE =
      some [(chunkFileName CHUNK_PATH v.folderName file_name v.startTime, bytes)] := by
  have hloop : flushLoop recordChunk junk CHUNK_PATH file_name b.buf (b.buf.length + 1) v = some v := by
    unfold flushLoop
    rw [hend]
    rfl
  refine ⟨(b.buf.drop v.startOffset).take (v.offset - v.startOffset), ?_⟩
  rw [chunkWrites, flushBuffer_eq, flushAppends, hfirst, Option.bind_some, hloop, Option.bind_some,
    FlushVars.writeChunk, recordChunk, flushFirst_disk hfirst, Option.map_some, Option.bind_some]
  unfold CBlock.refill
  rw [strcpy_zeros, if_pos hline]
  split <;> rfl

/-! ## What a flush finds -/

/-- The two lines as one: a line that a flush has left and the next one. -/
def Line.join (l m : Line)
    (h : l.level.length + 1 + l.stamp.render.length + 1 + (l.text ++ m.render).length <
      MAX_LINE_SIZE) : Line :=
  { l with
    text := l.text ++ m.render
    text_clean := by
      simp [l.text_clean.1, l.text_clean.2, m.newline_notMem, m.nul_notMem]
    fits := h }

theorem Line.render_join {l m : Line} (h) : (l.join m h).render = l.render ++ m.render := by
  simp [Line.render, Line.join]

/-- A line that is read first fits the array of the flush. -/
theorem first_fits {s first : List Char} {writes : List (List Char × List Char)}
    (hwrites : chunkWrites junk CHUNK_PATH file_name b BLOCK_SIZE = some writes)
    (hs : stringAt b.buf 0 = some s) (hread : readLine s = some first) :
    first.length < MAX_LINE_SIZE := by
  obtain ⟨w, hw, -⟩ := chunkWrites_eq_some hwrites
  unfold flushAppends at hw
  simp only [Option.bind_eq_some_iff] at hw
  obtain ⟨v, ⟨u, hu, -⟩, -⟩ := hw
  obtain ⟨s', hs', ⟨hnone, -⟩ | ⟨line, _, _, _, hline, hlen, -⟩⟩ := flushFirst_eq_some hu
  · obtain rfl := Option.some.inj (hs.symm.trans hs')
    rw [hread] at hnone
    cases hnone
  · obtain rfl := Option.some.inj (hs.symm.trans hs')
    obtain rfl := Option.some.inj (hread.symm.trans hline)
    exact hlen

/-- A text that is flushed starts certain chunk files. -/
theorem Stocked.starts {writes : List (List Char × List Char)} (h : Stocked text)
    (hholds : b.Holds text)
    (hwrites : chunkWrites junk CHUNK_PATH file_name b BLOCK_SIZE = some writes) :
    ∃ names, Starts junk file_name text names := by
  cases h with
  | lines ls =>
    cases ls with
    | nil => exact ⟨_, .empty⟩
    | cons l ls => exact ⟨_, .lines l ls⟩
  | left l ls =>
    cases ls with
    | nil =>
      rw [bytesOf_nil, List.append_nil]
      exact ⟨_, .left l⟩
    | cons m ls =>
      -- the two lines are read as one
      have hread : readLine (l.render ++ bytesOf (m :: ls)) = some (l.render ++ m.render) := by
        have hnewline : '\n' ∉ l.render ++ m.render := by simp [l.newline_notMem, m.newline_notMem]
        have := readLine_line (by simp [l.render_ne_nil]) hnewline (bytesOf ls)
        simpa [Line.bytes] using this
      have hlen := first_fits hwrites hholds.stringAt hread
      have hfits : l.level.length + 1 + l.stamp.render.length + 1 + (l.text ++ m.render).length <
          MAX_LINE_SIZE := by
        simp only [Line.render, List.length_append, List.length_cons] at hlen ⊢
        omega
      have heq : l.render ++ bytesOf (m :: ls) = bytesOf (l.join m hfits :: ls) := by
        simp [Line.bytes, Line.render_join]
      rw [heq]
      exact ⟨_, .lines _ ls⟩

/-- Behind a first line and the lines that follow it, the last of them is left, or nothing. -/
theorem leftOver_remaining {s mem : List Char} (hs : stringAt b.buf 0 = some s)
    (hread : readLine s = some l.render)
    (hbuf : b.buf.drop (l.render.length + 1) = bytesOf ls ++ nul :: mem) :
    LeftOver (remaining junk BLOCK_SIZE b.buf) := by
  rw [← joinLines_render] at hbuf
  have hlines : ∀ k ∈ ls.map Line.render, IsLine k := by
    intro k hk
    obtain ⟨m, -, rfl⟩ := List.mem_map.mp hk
    exact m.isLine
  obtain ⟨hscanned, -⟩ := scanned_first junk hs hread hbuf hlines
  obtain ⟨m, -, hlast⟩ := lastLine_mem l ls
  have hline : (scanned junk b.buf).2 = m.render := by
    rw [hscanned, ← hlast]
    rfl
  unfold remaining
  split
  · exact Or.inl rfl
  · exact Or.inr ⟨m, hline⟩

/-- The flush appends to the chunk files that the text starts, and leaves nothing or a line. -/
theorem Starts.flush (h : Starts junk file_name text names) (hholds : b.Holds text) :
    (∃ writes, chunkWrites junk CHUNK_PATH file_name b BLOCK_SIZE = some writes ∧
      writes.map Prod.fst = names) ∧ LeftOver (remaining junk BLOCK_SIZE b.buf) := by
  have hs := hholds.stringAt
  have hbuf : b.buf = text ++ nul :: zeros (BLOCK_SIZE - (text.length + 1)) := by
    rw [hholds.buf, append_nul_zeros text hholds.fits]
  cases h with
  | empty =>
    -- no line is read
    have hfirst : flushFirst junk CHUNK_PATH b.buf ([] : List (List Char × List Char)) =
        some ⟨0, 0, [], [], junk.startTime, junk.folderName, []⟩ := by
      unfold flushFirst
      rw [hs]
      rfl
    obtain ⟨bytes, hwrites⟩ := chunkWrites_one file_name hfirst hs BLOCK_SIZE_pos
    refine ⟨⟨_, hwrites, rfl⟩, Or.inl ?_⟩
    unfold remaining scanned
    rw [hs, Option.bind_some, readLine_nil]
    exact ite_self _
  | lines l ls =>
    refine ⟨⟨_, chunkWrites_lines junk file_name hholds.buf hholds.fits, map_fst_pieces _ _ _ _⟩, ?_⟩
    have hread : readLine (bytesOf (l :: ls)) = some l.render := by
      simpa [Line.bytes] using readLine_bytes l (bytesOf ls)
    have hdrop : b.buf.drop (l.render.length + 1) =
        bytesOf ls ++ nul :: zeros (BLOCK_SIZE - ((bytesOf (l :: ls)).length + 1)) := by
      rw [hbuf]
      simp [Line.bytes]
    exact leftOver_remaining hs hread hdrop
  | left l =>
    -- the rest of the block is behind the NUL of the line
    have hroom : BLOCK_SIZE - (l.render.length + 1) = BLOCK_SIZE - (l.render.length + 2) + 1 := by
      have hshort : l.render.length < 200 := l.length_render_lt
      have hblock : BLOCK_SIZE = 4096 := rfl
      omega
    have hdrop : b.buf.drop (l.render.length + 1) =
        bytesOf [] ++ nul :: zeros (BLOCK_SIZE - (l.render.length + 2)) := by
      rw [hbuf, hroom, zeros_succ]
      simp
    have hread := readLine_partial l.render_ne_nil l.newline_notMem
    have hfirst : flushFirst junk CHUNK_PATH b.buf ([] : List (List Char × List Char)) = some _ :=
      flushFirst_render (l.stamp.folder_fits length_CHUNK_PATH_le) hs hread []
    have hend : stringAt b.buf (l.render.length + 1) = some [] := by
      rw [stringAt, hdrop, if_pos (by simp)]
      rfl
    obtain ⟨bytes, hwrites⟩ := chunkWrites_one file_name hfirst hend
      (l.length_render_lt.trans (by decide))
    exact ⟨⟨_, hwrites, rfl⟩, leftOver_remaining hs hread hdrop⟩

theorem flushLeaves_stocked : FlushLeaves Stocked LeftOver where
  nil := Or.inl rfl
  texts rest h := by
    rcases h with rfl | ⟨l, rfl⟩
    · exact .lines []
    · simpa using Stocked.left l []
  flush junk b b' d d' text htext hholds hflush := by
    rw [writeBufferToDisk_eq junk CHUNK_PATH b BLOCK_SIZE_pos] at hflush
    obtain ⟨writes, hwrites, hflush⟩ := Option.bind_eq_some_iff.mp hflush
    obtain ⟨e, -, heq⟩ := Option.map_eq_some_iff.mp hflush
    obtain ⟨rfl, -⟩ := Prod.mk.inj heq
    obtain ⟨names, hstarts⟩ := htext.starts hholds hwrites
    have hleft := (hstarts.flush hholds).2
    refine ⟨remaining junk BLOCK_SIZE b.buf, hleft, nul_notMem_remaining _ _ _, ?_, rfl, rfl⟩
    rcases hleft with hleft | ⟨l, hleft⟩
    · rw [hleft]
      exact BLOCK_SIZE_pos
    · rw [hleft]
      exact l.length_render_lt.trans (by decide)

theorem Stocked.append (h : Stocked text) (ls : List Line) : Stocked (text ++ bytesOf ls) := by
  cases h with
  | lines ls' =>
    rw [← bytesOf_append]
    exact .lines _
  | left l ls' =>
    rw [List.append_assoc, ← bytesOf_append]
    exact .left l _

/-! ## Runs -/

/-- What is asked of the indices that a flush writes is asked of the chunk files that its text starts. -/
theorem flushIndices_iff {R : ℤ → Prop} {C : ℤ → Finset (List Char) → Prop}
    (hiff : ∀ n files writes, (∀ k ∈ pathIndices n files writes, R k) ↔
      C n (newChunks files (writes.map Prod.fst))) (h : HoldsTexts Stocked s) :
    (∀ i ∈ (s.bufferCache.cblocks j).mdata,
      ∀ writes ∈ chunkWrites junk CHUNK_PATH (s.records i).fileName (s.bufferCache.cblocks j)
          s.bufferCache.cacheBlockSize,
        ∀ k ∈ pathIndices (s.records i).numPaths s.chunkFiles writes, R k) ↔
      ∀ i ∈ (s.bufferCache.cblocks j).mdata, ∀ names,
        Starts junk (s.records i).fileName (cstr (s.bufferCache.cblocks j).buf) names →
          C (s.records i).numPaths (newChunks s.chunkFiles names) := by
  obtain ⟨text, htext, hholds⟩ := h.holds j
  have hstring : cstr (s.bufferCache.cblocks j).buf = text := by
    rw [hholds.buf, cstr_padded hholds.noNul]
  rw [hstring, h.blockSize]
  refine forall_congr' fun i => forall_congr' fun _ => ?_
  constructor
  · intro hindices names hstarts
    obtain ⟨⟨writes, hwrites, rfl⟩, -⟩ := hstarts.flush hholds
    exact (hiff _ _ _).mp (hindices writes hwrites)
  · intro hchunks writes hwrites
    obtain ⟨names, hstarts⟩ := htext.starts hholds hwrites
    obtain ⟨⟨writes', hwrites', rfl⟩, -⟩ := hstarts.flush hholds
    obtain rfl := Option.some.inj (hwrites'.symm.trans hwrites)
    exact (hiff _ _ _).mpr (hchunks _ hstarts)

/-- A flush of such a text stays in the array exactly if there is room for its chunk files. -/
theorem pathsInside_iff (h : HoldsTexts Stocked s) : PathsInside s j junk ↔ RoomForPaths s j junk :=
  flushIndices_iff (R := fun k => 0 ≤ k ∧ k < MAX_PATHS)
    (C := fun n new => new.Nonempty → 0 ≤ n ∧ n + new.card ≤ MAX_PATHS)
    (fun _ _ _ => pathIndices_inside_iff) h

/-- Conditions on flushes that agree wherever the buffers hold such texts agree on a call. -/
theorem HoldsTexts.eachFlush_iff {P L : List Char → Prop} {Q Q' : Fs → ℕ → Junk → Prop} {op : Op}
    (h : HoldsTexts P s) (hleaves : FlushLeaves P L)
    (hiff : ∀ s j junk, HoldsTexts P s → (Q s j junk ↔ Q' s j junk)) :
    EachFlush Q s op ↔ EachFlush Q' s op := by
  cases op with
  | write f buf junk =>
    refine forall_congr' fun text => forall_congr' fun _ => forall_congr' fun r =>
      forall_congr' fun hr => ?_
    have h₁ : HoldsTexts P r.1 :=
      h.congr (metaDataBlock_bufferCache (s := { s with loadPath := s.loadPath ++ f.path }) hr)
    refine and_congr ?_ ?_
    · exact forall_congr' fun j => forall_congr' fun _ => hiff _ _ _ h₁
    · refine forall_congr' fun w => forall_congr' fun hw => forall_congr' fun _ => hiff _ _ _ ?_
      exact (h₁.wbufDataBlock hleaves hw).1
  | mknod f => exact Iff.rfl
  | «open» f => exact Iff.rfl
  | getattr f stack => exact Iff.rfl
  | read f buf stack => exact Iff.rfl

/-- Such conditions agree on runs that start with fresh write buffers and whose writes carry lines. -/
theorem each_eachFlush_iff {Q Q' : Fs → ℕ → Junk → Prop} {ops : List Op} {linesOf : Op → List Line}
    (hfresh : s.bufferCache = createCache (4096 * 10) 4096 .WRITE_BUFFER)
    (hcarries : ∀ op ∈ ops, op.Carries (linesOf op))
    (hiff : ∀ s j junk, HoldsTexts Stocked s → (Q s j junk ↔ Q' s j junk)) :
    Each step (EachFlush Q) s ops ↔ Each step (EachFlush Q') s ops := by
  have henv : Each step (fun _ op => ∃ ls, op.Carries ls) s ops := fun es' op hp _ _ =>
    ⟨_, hcarries op (hp.subset (List.mem_append_right es' (List.mem_singleton_self op)))⟩
  refine each_congr (holdsTexts_fresh (.lines []) hfresh) (fun s op s' h hcarries hop => ?_)
    (fun s op h _ => h.eachFlush_iff flushLeaves_stocked hiff) henv
  obtain ⟨ls, hls⟩ := hcarries
  refine h.step flushLeaves_stocked ?_ hop
  rintro f buf junk rfl text htext old hold
  have heq : text = bytesOf ls := (stringAt_eq_some htext).trans hls
  rw [heq]
  exact hold.append ls

/-- In a run that starts with fresh write buffers, and whose writes carry complete lines, every write to
the path array is inside if and only if each flush finds room for the chunk files that it creates. -/
theorem paths_inside_iff {ops : List Op} {linesOf : Op → List Line}
    (hfresh : s.bufferCache = createCache (4096 * 10) 4096 .WRITE_BUFFER)
    (hcarries : ∀ op ∈ ops, op.Carries (linesOf op)) :
    Each step (EachFlush PathsInside) s ops ↔ Each step (EachFlush RoomForPaths) s ops :=
  each_eachFlush_iff hfresh hcarries fun _ _ _ => pathsInside_iff

/-- The lines of the writes of `overfull`. -/
def overfullLines : Op → List Line
  | .write _ buf _ =>
    if cstr buf = bytesOf (List.replicate 2 longLine) then List.replicate 2 longLine
    else List.replicate 40 longLine
  | _ => []

theorem carries_overfullLines : ∀ op ∈ overfull, op.Carries (overfullLines op) := by
  have hbytes : ∀ n, cstr (bytesOf (List.replicate n longLine) ++ [nul]) =
      bytesOf (List.replicate n longLine) := fun n => cstr_append_nul (nul_notMem_bytesOf _) []
  have hlines : bytesOf (List.replicate 40 longLine) ≠ bytesOf (List.replicate 2 longLine) := by
    decide +kernel
  simp only [overfull, writesOf, List.map_cons, List.map_nil, List.forall_mem_cons]
  refine ⟨rfl, ?_, ?_, List.forall_mem_nil _⟩
  · rw [Op.Carries, overfullLines, hbytes, if_pos rfl]
  · rw [Op.Carries, overfullLines, hbytes, if_neg hlines]

/-- The second write flushes the first. -/
theorem inside_overfull : Each step (EachFlush PathsInside) Fs.init overfull := by
  decide +kernel

theorem paths_inside_iff_overfull : Each step (EachFlush RoomForPaths) Fs.init overfull :=
  (paths_inside_iff rfl carries_overfullLines).mp inside_overfull

end QuorumLogFs.Log
