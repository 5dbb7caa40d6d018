import QuorumLogFs.Log.ExactWrite
import QuorumLogFs.Log.PathArray
import QuorumLogFs.Log.RoundTrip

/-!
# The end of the path array

Reference: `write_buffer_to_disk` in `Cache.c`, `MAX_PATHS` in `log_fs.h`.

`num_paths` is never compared with `MAX_PATHS`. The stores stay below the end of the array exactly as
long as each flush finds the chunk files that it creates and those listed before to be `MAX_PATHS` at
most. Nothing in the code sees to it: forty lines of as many years fill a buffer, so after 26 writes a
file has filled its array, and the 27th stores behind it.
-/

namespace QuorumLogFs.Log

open QuorumLogFs.Basis

/-- The flush of write buffer `j` stores no path behind the array of its record. -/
def PathsBelow (s : Fs) (j : ℕ) (junk : Junk) : Prop :=
  ∀ i ∈ (s.bufferCache.cblocks j).mdata,
    ∀ writes ∈ chunkWrites junk CHUNK_PATH (s.records i).fileName (s.bufferCache.cblocks j)
        s.bufferCache.cacheBlockSize,
      ∀ k ∈ pathIndices (s.records i).numPaths s.chunkFiles writes, k < MAX_PATHS

/-- The record's paths and the chunk files that the text in write buffer `j` adds are not too many. -/
def FewPaths (s : Fs) (j : ℕ) (junk : Junk) : Prop :=
  ∀ i ∈ (s.bufferCache.cblocks j).mdata, ∀ names,
    Starts junk (s.records i).fileName (cstr (s.bufferCache.cblocks j).buf) names →
      (newChunks s.chunkFiles names).Nonempty →
        (s.records i).numPaths + (newChunks s.chunkFiles names).card ≤ MAX_PATHS

variable {k j : ℕ} {s s' : Fs} {junk : Junk} {files : ChunkFiles}
  {writes : List (List Char × List Char)}

theorem pathIndices_below_iff {n : ℤ} :
    (∀ k ∈ pathIndices n files writes, k < MAX_PATHS) ↔
      ((newChunks files (writes.map Prod.fst)).Nonempty →
        n + (newChunks files (writes.map Prod.fst)).card ≤ MAX_PATHS) := by
  rw [pathIndices_eq, List.forall_mem_map, ← Finset.card_pos]
  constructor
  · intro h hpos
    have hlast := h ((newChunks files (writes.map Prod.fst)).card - 1) (List.mem_range.mpr (by omega))
    omega
  · intro h k hk
    have hlt := List.mem_range.mp hk
    have := h (by omega)
    omega

/-- A flush of lines stays below the end exactly if it does not add too many chunk files. -/
theorem pathsBelow_iff (h : HoldsTexts Stocked s) : PathsBelow s j junk ↔ FewPaths s j junk :=
  flushIndices_iff (R := fun k => k < MAX_PATHS)
    (C := fun n new => new.Nonempty → n + new.card ≤ MAX_PATHS)
    (fun _ _ _ => pathIndices_below_iff) h

/-- In a run that starts with fresh write buffers, and whose writes carry complete lines, no path is
stored behind the array if and only if no flush adds too many chunk files. -/
theorem paths_below_iff {ops : List Op} {linesOf : Op → List Line}
    (hfresh : s.bufferCache = createCache (4096 * 10) 4096 .WRITE_BUFFER)
    (hcarries : ∀ op ∈ ops, op.Carries (linesOf op)) :
    Each step (EachFlush PathsBelow) s ops ↔ Each step (EachFlush FewPaths) s ops :=
  each_eachFlush_iff hfresh hcarries fun _ _ _ => pathsBelow_iff

/-- The second write flushes the first. -/
theorem paths_below_iff_overfull : Each step (EachFlush FewPaths) Fs.init overfull := by
  refine (paths_below_iff rfl carries_overfullLines).mp ?_
  exact inside_overfull.imp fun s op =>
    EachFlush.imp fun s j junk h i hi writes hwrites k hk => (h i hi writes hwrites k hk).2

/-! ## A line for each year -/

theorem length_toDigits_year {n : ℕ} (h : 1000 ≤ n ∧ n < 10000) :
    (Nat.toDigits 10 n).length = 4 := by
  have hle : (Nat.toDigits 10 n).length ≤ 4 :=
    (Nat.length_toDigits_le_iff (by decide) (by decide)).mpr h.2
  have hgt : ¬(Nat.toDigits 10 n).length ≤ 3 := fun hle =>
    absurd ((Nat.length_toDigits_le_iff (by decide) (by decide)).mp hle) (by omega)
  omega

theorem year_bounds (n : ℕ) : 1000 ≤ 1000 + n % 9000 ∧ 1000 + n % 9000 < 10000 := by
  omega

theorem notMem_toDigits {n : ℕ} {c : Char} (hc : c.isDigit = false) : c ∉ Nat.toDigits 10 n := by
  intro h
  rw [isDigit_of_mem_toDigits h] at hc
  cases hc

/-- The `17` March of the year `1000 + n`. -/
def yearStamp (n : ℕ) : Stamp :=
  { march17.stamp with
    year := ⟨Nat.toDigits 10 (1000 + n % 9000), isWord_decimal (1000 + n % 9000 : ℕ),
      notMem_toDigits (by decide), notMem_toDigits (by decide)⟩
    year_digits := fun c => isDigit_of_mem_toDigits
    year_fits := by
      rw [length_toDigits_year (year_bounds n)]
      decide }

theorem length_render_yearStamp (n : ℕ) : (yearStamp n).render.length = 28 := by
  have hyear : (yearStamp n).year.chars.length = 4 := length_toDigits_year (year_bounds n)
  simp only [Stamp.render, List.length_append, List.length_cons, hyear]
  rfl

theorem yearNo_yearStamp {n : ℕ} (hn : n < 9000) : (yearStamp n).yearNo = 1000 + n := by
  rw [Stamp.yearNo]
  show Nat.ofDigitChars 10 (Nat.toDigits 10 (1000 + n % 9000)) 0 = 1000 + n
  rw [Nat.ofDigitChars_toDigits (by decide) (by decide), Nat.mod_eq_of_lt hn]

/-- A line of 100 bytes of that year. -/
def yearLine (n : ℕ) : Line where
  level := march17.level
  stamp := yearStamp n
  text := List.replicate 64 'x'
  level_ne := march17.level_ne
  level_noBar := march17.level_noBar
  level_clean := march17.level_clean
  text_clean := by decide
  stamp_fits := by
    rw [length_render_yearStamp]
    decide
  fits := by
    rw [length_render_yearStamp, List.length_replicate]
    decide

theorem length_yearLine (n : ℕ) : (yearLine n).render.length = 99 := by
  rw [Line.render, List.length_append, List.length_cons, List.length_append, List.length_cons]
  show march17.level.length +
    ((yearStamp n).render.length + ((List.replicate 64 'x').length + 1) + 1) = 99
  rw [length_render_yearStamp, List.length_replicate]
  rfl

/-- Lines of consecutive years. -/
def yearLines (n c : ℕ) : List Line := (List.range' n c).map yearLine

theorem yearLines_succ (n c : ℕ) : yearLines n (c + 1) = yearLine n :: yearLines (n + 1) c := rfl

theorem yearLines_add (n c c' : ℕ) : yearLines n (c + c') = yearLines n c ++ yearLines (n + c) c' := by
  rw [yearLines, yearLines, yearLines, ← List.map_append, List.range'_append_1]

theorem length_bytesOf_yearLines (n c : ℕ) : (bytesOf (yearLines n c)).length = 100 * c := by
  induction c generalizing n with
  | zero => rfl
  | succ c ih =>
    rw [yearLines_succ, bytesOf_cons, List.length_append, ih, Line.bytes, List.length_append,
      length_yearLine, List.length_singleton]
    omega

theorem length_lastLine_yearLines (n c : ℕ) :
    (lastLine (yearLine n) (yearLines (n + 1) c)).length = 99 := by
  obtain ⟨l, hl, heq⟩ := lastLine_mem (yearLine n) (yearLines (n + 1) c)
  rw [← yearLines_succ] at hl
  obtain ⟨i, -, rfl⟩ := List.mem_map.mp hl
  rw [heq, length_yearLine]

/-! ## A chunk file for each year -/

/-- The chunk file of a year. -/
def yearChunk (n : ℕ) : List Char := (yearStamp n).chunk CHUNK_PATH firstFile.chars

theorem length_yearChunk (n : ℕ) : (yearChunk n).length < MAX_FILE_NAME_SIZE := by
  have hfolder := (yearStamp n).length_folder_le
  have htime := (yearStamp n).time_fits
  have hpath : CHUNK_PATH.length = 30 := by decide
  have hname : firstFile.chars.length = 2 := by decide
  simp only [yearChunk, Stamp.chunk, chunkFileName, List.length_append, List.length_cons,
    MAX_FILE_NAME_SIZE]
  omega

theorem yearChunk_inj {n m : ℕ} (hn : n < 9000) (hm : m < 9000) (h : yearChunk n = yearChunk m) :
    n = m := by
  have hfolder : (yearStamp n).folder = (yearStamp m).folder :=
    List.append_cancel_right (List.append_cancel_left h)
  have hyear : (yearStamp n).year.chars = (yearStamp m).year.chars :=
    (List.cons.inj (List.append_cancel_left (List.cons.inj (List.append_cancel_left hfolder)).2)).2
  have hno : (yearStamp n).yearNo = (yearStamp m).yearNo := congrArg (Nat.ofDigitChars 10 · 0) hyear
  rw [yearNo_yearStamp hn, yearNo_yearStamp hm] at hno
  omega

/-- Each line starts a new date. -/
theorem newDays_yearLines {n c : ℕ} (hn : n + c < 9000) :
    newDays (yearStamp n) (yearLines (n + 1) c) = (List.range' (n + 1) c).map yearStamp := by
  induction c generalizing n with
  | zero => rfl
  | succ c ih =>
    have hdate : (yearStamp (n + 1)).sameDate (yearStamp n) = false := by
      refine decide_eq_false fun h => ?_
      have hno := h.2.2
      rw [yearNo_yearStamp (by omega), yearNo_yearStamp (by omega)] at hno
      omega
    rw [yearLines_succ, newDays, show (yearLine (n + 1)).stamp = yearStamp (n + 1) from rfl, hdate,
      if_neg Bool.false_ne_true, ih (by omega)]
    rfl

theorem map_fst_yearPieces {n c : ℕ} (hn : n + c < 9000) :
    (pieces CHUNK_PATH firstFile.chars (yearStamp n) (yearLine n).bytes (yearLines (n + 1) c)).map
      Prod.fst = (List.range' n (c + 1)).map yearChunk := by
  rw [map_fst_pieces, newDays_yearLines hn]
  show ((List.range' n (c + 1)).map yearStamp).map _ = _
  rw [List.map_map]
  rfl

/-- The chunk files of different years are different ones. -/
theorem card_newChunks_years {n c : ℕ} (hn : n + c ≤ 9000)
    (hfree : ∀ i, n ≤ i → i < 9000 → files (yearChunk i) = none) :
    (newChunks files ((List.range' n c).map yearChunk)).card = c := by
  have hnodup : ((List.range' n c).map yearChunk).Nodup := by
    refine List.Nodup.map_on (fun i hi j hj heq => ?_) List.nodup_range'
    have := List.mem_range'_1.mp hi
    have := List.mem_range'_1.mp hj
    exact yearChunk_inj (by omega) (by omega) heq
  rw [newChunks, Finset.filter_true_of_mem, List.toFinset_card_of_nodup hnodup, List.length_map,
    List.length_range']
  intro p hp
  obtain ⟨i, hi, rfl⟩ := List.mem_map.mp (List.mem_toFinset.mp hp)
  have := List.mem_range'_1.mp hi
  exact hfree i (by omega) (by omega)

/-- The record lists this many chunk files, those of the first years. -/
structure ListsYears (n : ℕ) (m : Mdata) : Prop where
  name : m.fileName = firstFile.chars
  count : m.numPaths = n
  paths : ∀ p ∈ m.paths, ∃ i < n, p = yearChunk i

/-- A flush of the lines of later years lists their chunk files. -/
theorem ListsYears.flush {n c : ℕ} {d : Mdata × ChunkFiles} (h : ListsYears n d.1)
    (hfree : ∀ i, n ≤ i → i < 9000 → d.2 (yearChunk i) = none)
    (hroom : n + (c + 1) ≤ MAX_PATHS) :
    ∃ d', flushLines CHUNK_PATH (yearStamp n) (yearLine n).bytes (yearLines (n + 1) c) d = some d' ∧
      ListsYears (n + (c + 1)) d'.1 := by
  have hmax : MAX_PATHS = 1000 := rfl
  have hnames := map_fst_yearPieces (n := n) (c := c) (by omega)
  have hcard := card_newChunks_years (n := n) (c := c + 1) (by omega) hfree
  rw [← hnames, ← h.name] at hcard
  rw [← h.name] at hnames
  obtain ⟨writes, hwrites⟩ : ∃ writes, pieces CHUNK_PATH d.1.fileName (yearStamp n)
    (yearLine n).bytes (yearLines (n + 1) c) = writes := ⟨_, rfl⟩
  rw [hwrites] at hnames hcard
  have hmem : ∀ w ∈ writes, ∃ i < n + (c + 1), w.1 = yearChunk i := by
    intro w hw
    have hname := List.mem_map_of_mem (f := Prod.fst) hw
    rw [hnames] at hname
    obtain ⟨i, hi, heq⟩ := List.mem_map.mp hname
    exact ⟨i, (List.mem_range'_1.mp hi).2, heq.symm⟩
  obtain ⟨d', hd'⟩ : ∃ d', appendAll appendChunk writes d = some d' := by
    refine (appendAll_iff_inside fun w hw => ?_).mpr (pathIndices_inside_iff.mpr fun _ => ?_)
    · obtain ⟨i, -, heq⟩ := hmem w hw
      rw [heq]
      exact length_yearChunk i
    · rw [h.count, hcard]
      omega
  refine ⟨d', by rw [← appendAll_pieces, hwrites, hd'], ?_, ?_, ?_⟩
  · exact appendAll_keeps (P := fun e => e.1.fileName = firstFile.chars)
      (fun _ _ e e' he hname => (appendChunk_fileName he).trans hname) hd' h.name
  · rw [numPaths_appendAll hd', hcard, h.count]
    push_cast
    ring
  · refine appendAll_keeps (P := fun e => ∀ p ∈ e.1.paths, ∃ i < n + (c + 1), p = yearChunk i)
      (fun w hw e e' he hpaths p hp => ?_) hd' fun p hp => ?_
    · rw [(appendChunk_eq_some he).2.2] at hp
      split at hp
      · rcases List.mem_append.mp hp with hp | hp
        · exact hpaths p hp
        · obtain ⟨i, hlt, heq⟩ := hmem w hw
          exact ⟨i, hlt, (List.mem_singleton.mp hp).trans heq⟩
      · exact hpaths p hp
    · obtain ⟨i, hi, heq⟩ := h.paths p hp
      exact ⟨i, by omega, heq⟩

/-! ## The run -/

/-- A write to a file without a buffer that takes a free one. -/
theorem lfsWrite_free {f : Name} {buf text : List Char} {i j : ℕ} {junk : WriteJunk}
    (hload : (s.loadPath ++ f.path).length < LOAD_PATH_SIZE) (htext : stringAt buf 0 = some text)
    (hblock : findMetaDataBlock s.records s.metaDataCache f.chars = some i)
    (hnone : findMetaDataBlock s.records s.bufferCache f.chars = none)
    (hvictim : victim (fun j => (s.bufferCache.cblocks j).lruCounter) s.bufferCache.numBlocks = some j)
    (hfree : (s.bufferCache.cblocks j).freeFlag = true)
    (hsize : s.bufferCache.cacheBlockSize = BLOCK_SIZE)
    (hholds : (s.bufferCache.cblocks j).Holds []) (hfits : text.length < BLOCK_SIZE) :
    ∃ s', lfsWrite s f.path buf 0 0 junk = some (s', text.length) ∧
      s'.loadPath = s.loadPath ++ f.path := by
  let t : Fs := { s with
    loadPath := s.loadPath ++ f.path, metaDataCache := updateLru s.metaDataCache i }
  let u : Fs :=
    Fs.assign { t with bufferCache := t.bufferCache.take j } j (t.metaDataCache.cblocks i).mdata
  have htake : wbufDataBlock t f.path (t.metaDataCache.cblocks i).mdata junk.evict = some (u, j) :=
    wbufDataBlock_free hnone hvictim hfree
  have hoffset : (u.bufferCache.cblocks j).offset = 0 := by
    rw [show u.bufferCache.cblocks j = _ from Cache.cblocks_set_self _ j _]
    exact (take_offset _ _ _).trans hholds.offset
  have hbuf : (u.bufferCache.cblocks j).buf = zeros BLOCK_SIZE := by
    rw [show u.bufferCache.cblocks j = _ from Cache.cblocks_set_self _ j _]
    exact (take_buf _ _ _).trans (hholds.buf.trans (padded_nil _))
  have hroom : makeRoom u j text junk.full = some u := by
    refine if_neg ?_
    rw [hoffset, show u.bufferCache.cacheBlockSize = BLOCK_SIZE from hsize]
    omega
  obtain ⟨s', happend, -, hpath, -⟩ := appendText_zeros hbuf hfits
  exact ⟨s', lfsWrite_of_parts hload htext (metaDataBlock_found hblock) htake hroom happend, hpath⟩

/-- The lines of write `k`: forty years, which leave a buffer no room. -/
def yearText (k : ℕ) : List Line := yearLines (40 * k) 40

/-- The byte behind the block is a newline. -/
def newlineBehind : WriteJunk := { full := { behind := fun _ => '\n' } }

/-- The write of these lines. -/
def yearWrite (k : ℕ) : Op := .write firstFile (bytesOf (yearText k) ++ [nul]) newlineBehind

/-- The state after `k + 1` writes: the chunk files of all but the last of them are listed, and the last
one is in the buffer. -/
structure YearsWritten (k : ℕ) (s : Fs) : Prop where
  tidy : Tidy 1 s
  view : ∃ v, Shows s 0 v ∧ v.text = bytesOf (yearText k) ∧ ListsYears (40 * k) v.mdata
  path : s.loadPath.length ≤ 3 * k + 41

theorem yearText_eq (k : ℕ) : yearText k = yearLine (40 * k) :: yearLines (40 * k + 1) 39 := rfl

theorem length_bytesOf_yearText (k : ℕ) : (bytesOf (yearText k)).length = 4000 :=
  length_bytesOf_yearLines (40 * k) 40

theorem stringAt_yearText (k : ℕ) :
    stringAt (bytesOf (yearText k) ++ [nul]) 0 = some (bytesOf (yearText k)) :=
  stringAt_append_nul (nul_notMem_bytesOf _) []

theorem drained_yearText (k : ℕ) :
    Drained newlineBehind.full BLOCK_SIZE (yearLine (40 * k)) (yearLines (40 * k + 1) 39) := by
  refine ⟨?_, rfl⟩
  rw [← yearText_eq, length_bytesOf_yearText, length_lastLine_yearLines]
  decide

/-- The buffer that holds the lines of the last write. -/
theorem YearsWritten.uses (h : YearsWritten k s) : ListsYears (40 * k) (s.records 0) ∧
    findMetaDataBlock s.records s.metaDataCache firstFile.chars = some 0 ∧
      ∃ j, findMetaDataBlock s.records s.bufferCache firstFile.chars = some j ∧
        (s.bufferCache.cblocks j).mdata = some 0 ∧
          (s.bufferCache.cblocks j).Holds (bytesOf (yearText k)) := by
  obtain ⟨v, hv, htext, hlists⟩ := h.view
  rw [← hv.mdata] at hlists
  have hused : ∃ j, s.bufferCache.Uses j 0 := by
    by_contra hnone
    have hlen := length_bytesOf_yearText k
    rw [← htext, hv.noText fun j hj => hnone ⟨j, hj⟩] at hlen
    cases hlen
  obtain ⟨j, hj⟩ := hused
  rw [← hlists.name]
  exact ⟨hlists, h.tidy.findMetaDataBlock Nat.one_pos, j, h.tidy.findBuffer Nat.one_pos hj, hj.mdata,
    htext ▸ hv.text j hj⟩

/-- The chunk files of the later years do not exist. -/
theorem YearsWritten.free (h : YearsWritten k s) {i : ℕ} (hi : 40 * k ≤ i) (hlt : i < 9000) :
    s.chunkFiles (yearChunk i) = none := by
  obtain ⟨hlists, -⟩ := h.uses
  by_contra hne
  obtain ⟨m, hm, hmem⟩ := h.tidy.owned _ hne
  obtain rfl : m = 0 := by omega
  obtain ⟨i', hi', heq⟩ := hlists.paths _ hmem
  have := yearChunk_inj hlt (by omega) heq
  omega

theorem YearsWritten.next (h : YearsWritten k s) (hk : 40 * k + 40 ≤ MAX_PATHS) :
    ∃ s', step s (yearWrite (k + 1)) = some s' ∧ YearsWritten (k + 1) s' := by
  have hmax : MAX_PATHS = 1000 := rfl
  obtain ⟨hlists, hblock, j, hbuffer, hmdata, hholds⟩ := h.uses
  have hload : (s.loadPath ++ firstFile.path).length < LOAD_PATH_SIZE := by
    have hpath := h.path
    have hfile : firstFile.path.length = 3 := by decide
    rw [List.length_append, hfile, LOAD_PATH_SIZE]
    omega
  obtain ⟨d, hd, hlists'⟩ := ListsYears.flush (d := (s.records 0, s.chunkFiles)) hlists
    (fun i => h.free) hk
  have hfits : d.1.Fits := by
    refine ⟨?_, ?_, fun p hp => ?_⟩
    · rw [hlists'.name]
      decide
    · rw [hlists'.count]
      omega
    · obtain ⟨i, -, rfl⟩ := hlists'.paths p hp
      exact (length_yearChunk i).trans (by decide)
  obtain ⟨s', hs', -, hpath, hrecords⟩ : ∃ s', lfsWrite s firstFile.path
      (bytesOf (yearText (k + 1)) ++ [nul]) 0 0 newlineBehind = some (s', _) ∧ _ :=
    lfsWrite_flush hload (stringAt_yearText _) hblock hbuffer h.tidy.blockSize hmdata
      (yearText_eq k ▸ hholds)
      (by rw [← yearText_eq, length_bytesOf_yearText, length_bytesOf_yearText]; decide)
      (drained_yearText k) (by rw [length_bytesOf_yearText]; decide) hd (hfits.written _)
  refine ⟨s', congrArg (Option.map Prod.fst) hs', ?_⟩
  obtain ⟨htidy, -, i, hi, -, hself, -⟩ := h.tidy.write (h.tidy.keepsApart_one hlists.name) hs'
  obtain rfl : i = 0 := by omega
  obtain ⟨v, hv, hvtext, -⟩ := h.view
  obtain ⟨v', hv', hshows⟩ := hself v hv
  refine ⟨htidy, ⟨v', hshows, ?_, ?_⟩, ?_⟩
  · rw [cstr_append_nul (nul_notMem_bytesOf _)] at hv'
    refine FileView.text_of_step ?_ ?_ hv'
    · rw [hvtext, length_bytesOf_yearText, length_bytesOf_yearText]
      decide
    · rw [hvtext, yearText_eq]
      have hlen : (bytesOf (yearText k)).length < BLOCK_SIZE := length_bytesOf_yearText k ▸ by decide
      exact (leavesNothing_lines hlen (drained_yearText k)).remaining
  · rw [← hshows.mdata, hrecords, Function.update_self]
    exact hlists'
  · have hfile : firstFile.path.length = 3 := by decide
    have := h.path
    rw [hpath, List.length_append, hfile]
    omega

/-- The file is created, and `k + 1` times forty years are written to it. -/
def yearRun (k : ℕ) : List Op := .mknod firstFile :: (List.range (k + 1)).map yearWrite

/-- The first write takes a free buffer. -/
theorem yearsWritten_zero : ∃ s, run step Fs.init (yearRun 0) = some s ∧ YearsWritten 0 s := by
  have hmknod : ((lfsMknod Fs.init firstFile.path).bind fun r =>
      victim (fun j => (r.1.bufferCache.cblocks j).lruCounter) r.1.bufferCache.numBlocks) = some 0 := by
    decide
  obtain ⟨⟨t, code⟩, hop, hvictim⟩ := Option.bind_eq_some_iff.mp hmknod
  have ht : step Fs.init (.mknod firstFile) = some t := congrArg (Option.map Prod.fst) hop
  obtain ⟨htidy, hshows, -⟩ := tidy_init.mknod rfl (by decide) hop
  obtain ⟨i, files, -, -, heq⟩ := lfsMknod_eq_some hop
  have hpath : t.loadPath = LOAD_PATH ++ firstFile.path := by rw [heq]
  have hcache : t.bufferCache = createCache (4096 * 10) 4096 .WRITE_BUFFER := by rw [heq]; rfl
  have hfree : ∀ j, (t.bufferCache.cblocks j).freeFlag = true := fun j => by rw [hcache]; rfl
  have hname : (t.records 0).fileName = firstFile.chars := by rw [hshows.mdata]; rfl
  have hnone : findMetaDataBlock t.records t.bufferCache firstFile.chars = none := by
    cases hfind : findMetaDataBlock t.records t.bufferCache firstFile.chars with
    | none => rfl
    | some j =>
      have hused := (CBlock.isFor_iff.mp (findMetaDataBlock_some hfind).2).1
      rw [hfree j] at hused
      cases hused
  have hlength := length_bytesOf_yearText 0
  have hload : LOAD_PATH.length + firstFile.path.length + firstFile.path.length = 41 := by decide
  obtain ⟨s, hwrite, hpath'⟩ : ∃ s, lfsWrite t firstFile.path (bytesOf (yearText 0) ++ [nul]) 0 0
      newlineBehind = some (s, _) ∧ _ :=
    lfsWrite_free (by rw [hpath, List.length_append, List.length_append, hload]; decide)
      (stringAt_yearText 0)
      (hname ▸ htidy.findMetaDataBlock Nat.one_pos) hnone hvictim (hfree 0) htidy.blockSize
      (htidy.free 0 (by rw [hcache]; decide) (hfree 0)) (by rw [hlength]; decide)
  obtain ⟨htidy', -, i, hi, -, hself, -⟩ := htidy.write (htidy.keepsApart_one hname) hwrite
  obtain rfl : i = 0 := by omega
  obtain ⟨v, hv, hshows'⟩ := hself _ hshows
  rw [cstr_append_nul (nul_notMem_bytesOf _)] at hv
  obtain rfl := FileView.step_of_room (by rw [hlength]; decide) hv
  have hs : step t (yearWrite 0) = some s := congrArg (Option.map Prod.fst) hwrite
  refine ⟨s, ?_, htidy', ⟨_, hshows', rfl, rfl, rfl, nofun⟩, ?_⟩
  · rw [yearRun, run_cons, ht, Option.bind_some, List.range_one, List.map_singleton, run_cons, hs]
    rfl
  · rw [hpath', hpath, List.length_append, List.length_append, hload]

theorem yearsWritten (k : ℕ) (hk : 40 * k ≤ MAX_PATHS) :
    ∃ s, run step Fs.init (yearRun k) = some s ∧ YearsWritten k s := by
  induction k with
  | zero => exact yearsWritten_zero
  | succ k ih =>
    obtain ⟨s, hs, hwritten⟩ := ih (by omega)
    obtain ⟨s', hs', hwritten'⟩ := hwritten.next (by omega)
    refine ⟨s', ?_, hwritten'⟩
    rw [yearRun, List.range_succ, List.map_append, ← List.cons_append, List.map_singleton, run_snoc]
    exact Option.bind_eq_some_iff.mpr ⟨s, hs, hs'⟩

/-! ## Behind the array -/

/-- When the array is full, the next write flushes lines of later years. -/
theorem YearsWritten.not_below (h : YearsWritten k s) (hfull : MAX_PATHS ≤ 40 * k) (hk : 40 * k < 9000) :
    ¬EachFlush PathsBelow s (yearWrite (k + 1)) := by
  obtain ⟨hlists, hblock, j, hbuffer, hmdata, hholds⟩ := h.uses
  intro hflush
  let t : Fs := { s with
    loadPath := s.loadPath ++ firstFile.path, metaDataCache := updateLru s.metaDataCache 0 }
  have hblock' : metaDataBlock { s with loadPath := s.loadPath ++ firstFile.path } firstFile.path
      newlineBehind.stack = some (t, 0) :=
    metaDataBlock_found hblock
  have hbuffer' : wbufDataBlock t firstFile.path (t.metaDataCache.cblocks 0).mdata
      newlineBehind.evict = some (t, j) :=
    wbufDataBlock_found hbuffer
  have hover : t.bufferCache.cacheBlockSize <
      (t.bufferCache.cblocks j).offset + (bytesOf (yearText (k + 1))).length := by
    show s.bufferCache.cacheBlockSize < (s.bufferCache.cblocks j).offset + _
    rw [h.tidy.blockSize, hholds.offset, length_bytesOf_yearText, length_bytesOf_yearText]
    decide
  have hbelow : PathsBelow t j newlineBehind.full :=
    (hflush _ (stringAt_yearText _) _ hblock').2 _ hbuffer' hover
  obtain ⟨writes, hpieces⟩ : ∃ writes, pieces CHUNK_PATH (s.records 0).fileName (yearStamp (40 * k))
    (yearLine (40 * k)).bytes (yearLines (40 * k + 1) 39) = writes := ⟨_, rfl⟩
  have hwrites : chunkWrites newlineBehind.full CHUNK_PATH (s.records 0).fileName
      (s.bufferCache.cblocks j) s.bufferCache.cacheBlockSize = some writes := by
    rw [h.tidy.blockSize, ← hpieces]
    exact chunkWrites_lines _ _ (yearText_eq k ▸ hholds.buf) (yearText_eq k ▸ hholds.fits)
  have hroom : (newChunks s.chunkFiles (writes.map Prod.fst)).Nonempty → (s.records 0).numPaths +
      (newChunks s.chunkFiles (writes.map Prod.fst)).card ≤ MAX_PATHS :=
    pathIndices_below_iff.mp (hbelow 0 hmdata writes hwrites)
  -- the first line starts a chunk file that does not exist
  have hnew : yearChunk (40 * k) ∈ newChunks s.chunkFiles (writes.map Prod.fst) := by
    rw [mem_newChunks, ← hpieces, map_fst_pieces, hlists.name]
    exact ⟨List.mem_cons_self, h.free le_rfl hk⟩
  have hcount := hroom ⟨_, hnew⟩
  have hpos := Finset.card_pos.mpr ⟨_, hnew⟩
  rw [hlists.count] at hcount
  omega

theorem carries_yearRun (k : ℕ) :
    List.Forall₂ (fun ls op => op.Carries ls) ([] :: (List.range (k + 1)).map yearText)
      (yearRun k) := by
  refine .cons rfl (List.forall₂_map_left_iff.mpr (List.forall₂_map_right_iff.mpr ?_))
  exact List.forall₂_same.mpr fun i _ => cstr_append_nul (nul_notMem_bytesOf _) []

/-- The writes carry the lines of consecutive years. -/
theorem flatMap_yearText (k : ℕ) : (List.range k).flatMap yearText = yearLines 0 (40 * k) := by
  induction k with
  | zero => rfl
  | succ k ih =>
    rw [List.range_succ, List.flatMap_append, ih, List.flatMap_singleton, Nat.mul_succ, yearLines_add,
      Nat.zero_add, yearText]

/-- The lines of 27 writes, in the order of their timestamps, need more paths than there are. -/
theorem not_paths_below_yearRun :
    List.Forall₂ (fun ls op => op.Carries ls) ([] :: (List.range 27).map yearText) (yearRun 26) ∧
      ((List.range 27).flatMap yearText).Pairwise (fun l m => l.stamp.yearNo < m.stamp.yearNo) ∧
        ¬Each step (EachFlush PathsBelow) Fs.init (yearRun 26) := by
  refine ⟨carries_yearRun 26, ?_, fun heach => ?_⟩
  · rw [flatMap_yearText]
    refine List.pairwise_map.mpr (List.Pairwise.imp_of_mem (fun hn hm hlt => ?_) List.pairwise_lt_range')
    have := List.mem_range'_1.mp hn
    have := List.mem_range'_1.mp hm
    show (yearStamp _).yearNo < (yearStamp _).yearNo
    rw [yearNo_yearStamp (by omega), yearNo_yearStamp (by omega)]
    omega
  · obtain ⟨s, hs, hwritten⟩ := yearsWritten 25 (by decide)
    rw [yearRun, List.range_succ, List.map_append, ← List.cons_append] at heach
    exact hwritten.not_below (by decide) (by decide) (heach.last hs)

end QuorumLogFs.Log
