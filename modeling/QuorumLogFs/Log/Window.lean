import QuorumLogFs.Log.Bounds

/-!
# Reading a window of a file

Reference: `lfs_read` in `lfs_fuse.c`.

`lfs_read` looks at neither `size` nor `offset`: it always delivers the whole content, with a NUL
behind it. So it reads the window that it was asked for only if that is everything and the buffer has
room for one byte more.
-/

namespace QuorumLogFs.Log

open QuorumLogFs.Basis

/-- What `lfs_read` is going to deliver: the chunks with their separators, and the string in the write
buffer. -/
def readParts (s : Fs) (path stack : List Char) : Option (Fs × List Char × List Char) := do
  let (s, i) ← metaDataBlock s path stack
  let mdata := s.records i
  let chunks ← readChunks mdata.size s.chunkFiles mdata.paths
  let text ← bufferedText s path
  some (s, chunks, text)

/-- The caller's memory after `lfs_read` has filled it, and the number of bytes that is returned. -/
def fillMem (buf chunks text : List Char) : Option (List Char × ℕ) :=
  if chunks.length < buf.length ∧ (chunks.length + text.length : ℤ) ≤ INT_MAX then
    (strcat (chunks ++ nul :: buf.drop (chunks.length + 1)) text).map
      (·, chunks.length + text.length)
  else none

/-- `lfs_read` of `size` bytes at `offset`, with the memory at `buf` afterwards. -/
def lfsReadMem (s : Fs) (path buf : List Char) (_size _offset : ℕ) (stack : List Char) :
    Option (Fs × List Char × ℕ) := do
  let (s, chunks, text) ← readParts s path stack
  let (mem, n) ← fillMem buf chunks text
  some (s, mem, n)

/-- With a buffer of `size` bytes, the call returns the bytes of `content` in the window from `offset`
on and writes nothing behind the buffer. -/
def ReadsWindow (s : Fs) (path buf : List Char) (size offset : ℕ) (stack content : List Char) : Prop :=
  ∃ s' mem n, lfsReadMem s path buf size offset stack = some (s', mem, n) ∧
    n = ((content.drop offset).take size).length ∧ mem.take n = (content.drop offset).take size

variable {s s' : Fs} {path buf stack chunks text extra : List Char}

/-- `lfsRead` delivers the bytes that `lfsReadMem` counts. -/
theorem lfsRead_eq (s : Fs) (path buf : List Char) (size offset : ℕ) (stack : List Char) :
    lfsRead s path buf size offset stack =
      (lfsReadMem s path buf size offset stack).map fun r => (r.1, r.2.1.take r.2.2) := by
  have hfill : ∀ chunks text, fillBuffer buf chunks text =
      (fillMem buf chunks text).map fun r => r.1.take r.2 := by
    intro chunks text
    unfold fillBuffer fillMem
    split
    · rw [Option.map_map]
      rfl
    · rfl
  unfold lfsRead lfsReadMem readParts
  cases metaDataBlock s path stack with
  | none => rfl
  | some r =>
    simp only [Option.bind_eq_bind, Option.bind_some, hfill]
    cases readChunks (r.1.records r.2).size r.1.chunkFiles (r.1.records r.2).paths with
    | none => rfl
    | some chunks =>
      cases bufferedText r.1 path with
      | none => rfl
      | some text => cases hmem : fillMem buf chunks text <;> simp [hmem]

/-! ## What is written where -/

/-- The string in the chunks ends at their first NUL, or at the one behind them. -/
theorem cstr_chunks (chunks rest : List Char) : cstr (chunks ++ nul :: rest) = cstr chunks := by
  by_cases h : nul ∈ chunks
  · obtain ⟨w, rest', rfl, hw⟩ := List.eq_append_cons_of_mem h
    rw [List.append_assoc, List.cons_append, cstr_append_nul hw, cstr_append_nul hw]
  · rw [cstr_append_nul h, cstr_of_notMem h]

theorem length_cstr_le (mem : List Char) : (cstr mem).length ≤ mem.length :=
  (List.takeWhile_prefix _).length_le

/-- The string is shorter than the memory exactly if there is a NUL. -/
theorem length_cstr_lt_iff {mem : List Char} : (cstr mem).length < mem.length ↔ nul ∈ mem := by
  constructor
  · intro hlt
    by_contra hnul
    rw [cstr_of_notMem hnul] at hlt
    exact lt_irrefl _ hlt
  · intro hnul
    obtain ⟨w, rest, rfl, hw⟩ := List.eq_append_cons_of_mem hnul
    rw [cstr_append_nul hw]
    simp

theorem fillMem_eq_some {mem : List Char} {n : ℕ} :
    fillMem buf chunks text = some (mem, n) ↔
      chunks.length < buf.length ∧ (chunks.length + text.length : ℤ) ≤ INT_MAX ∧
      (cstr chunks).length + text.length < buf.length ∧ n = chunks.length + text.length ∧
      mem = cstr chunks ++ text ++ nul ::
        (chunks ++ nul :: buf.drop (chunks.length + 1)).drop
          ((cstr chunks).length + text.length + 1) := by
  unfold fillMem
  by_cases hroom : chunks.length < buf.length ∧ (chunks.length + text.length : ℤ) ≤ INT_MAX
  · have hlen : (chunks ++ nul :: buf.drop (chunks.length + 1)).length = buf.length := by
      simp
      omega
    rw [if_pos hroom]
    unfold strcat
    rw [cstr_chunks, hlen]
    by_cases hfits : (cstr chunks).length + text.length < buf.length
    · rw [if_pos hfits]
      simp [hroom, hfits, eq_comm, and_comm]
    · rw [if_neg hfits]
      simp [hfits]
  · rw [if_neg hroom]
    simp only [reduceCtorEq, false_iff]
    exact fun h => hroom ⟨h.1, h.2.1⟩

/-- More memory behind the buffer stays as it is. -/
theorem fillMem_append {mem mem₀ : List Char} {n n₀ : ℕ}
    (h : fillMem buf chunks text = some (mem, n))
    (h₀ : fillMem (buf ++ extra) chunks text = some (mem₀, n₀)) : mem₀ = mem ++ extra := by
  obtain ⟨hchunks, -, hfits, -, rfl⟩ := fillMem_eq_some.mp h
  obtain ⟨-, -, -, -, rfl⟩ := fillMem_eq_some.mp h₀
  have hdrop : (buf ++ extra).drop (chunks.length + 1) = buf.drop (chunks.length + 1) ++ extra :=
    List.drop_append_of_le_length (by omega)
  have hall : (chunks ++ nul :: (buf ++ extra).drop (chunks.length + 1)).drop
      ((cstr chunks).length + text.length + 1) =
      (chunks ++ nul :: buf.drop (chunks.length + 1)).drop ((cstr chunks).length + text.length + 1) ++
        extra := by
    rw [hdrop, ← List.cons_append, ← List.append_assoc]
    refine List.drop_append_of_le_length ?_
    simp
    omega
  rw [hall]
  simp

theorem length_fillMem {mem : List Char} {n : ℕ} (h : fillMem buf chunks text = some (mem, n)) :
    mem.length = buf.length := by
  obtain ⟨hchunks, -, hfits, -, rfl⟩ := fillMem_eq_some.mp h
  simp
  omega

/-! ## Windows -/

theorem lfsReadMem_eq_some {size offset n : ℕ} {mem : List Char} :
    lfsReadMem s path buf size offset stack = some (s', mem, n) ↔
      ∃ chunks text, readParts s path stack = some (s', chunks, text) ∧
        fillMem buf chunks text = some (mem, n) := by
  unfold lfsReadMem
  simp only [Option.bind_eq_bind, Option.bind_eq_some_iff, Option.some.injEq, Prod.mk.injEq]
  constructor
  · rintro ⟨⟨t, chunks, text⟩, hparts, ⟨mem', n'⟩, hfill, rfl, rfl, rfl⟩
    exact ⟨chunks, text, hparts, hfill⟩
  · rintro ⟨chunks, text, hparts, hfill⟩
    exact ⟨_, hparts, _, hfill, rfl, rfl, rfl⟩

/-- A window as long as the content is the content. -/
theorem length_window_eq_iff {content : List Char} {size offset : ℕ} :
    content.length = ((content.drop offset).take size).length ↔
      (offset = 0 ∨ content = []) ∧ content.length ≤ size := by
  rw [List.length_take, List.length_drop, ← List.length_eq_zero_iff]
  omega

/-- A call reads the window it is asked for exactly if the window begins at the start and the content
is shorter than the buffer. A content of the same length fits only if `strcat` starts at a NUL inside
the chunks. -/
theorem reads_window_iff {size₀ n₀ : ℕ} {mem₀ : List Char} (hparts : readParts s path stack =
    some (s', chunks, text)) (h₀ : lfsReadMem s path (buf ++ extra) size₀ 0 stack = some (s', mem₀, n₀))
    (hlong : n₀ ≤ mem₀.length) (offset : ℕ) :
    ReadsWindow s path buf buf.length offset stack (mem₀.take n₀) ↔
      (offset = 0 ∨ mem₀.take n₀ = []) ∧ ((mem₀.take n₀).length < buf.length ∨
        (mem₀.take n₀).length = buf.length ∧ nul ∈ chunks ∧ text ≠ []) := by
  obtain ⟨chunks', text', hparts', hfill₀⟩ := lfsReadMem_eq_some.mp h₀
  obtain ⟨rfl, rfl⟩ : chunks = chunks' ∧ text = text' := by
    simpa using hparts.symm.trans hparts'
  obtain ⟨-, hint, -, hn₀, -⟩ := fillMem_eq_some.mp hfill₀
  have hcontent : (mem₀.take n₀).length = n₀ := List.length_take_of_le hlong
  constructor
  · rintro ⟨t, mem, n, hop, hn, -⟩
    obtain ⟨chunks', text', hparts', hfill⟩ := lfsReadMem_eq_some.mp hop
    obtain ⟨-, rfl, rfl⟩ : s' = t ∧ chunks = chunks' ∧ text = text' := by
      simpa using hparts.symm.trans hparts'
    obtain ⟨hchunks, -, hfits, hn', -⟩ := fillMem_eq_some.mp hfill
    have hwindow : (mem₀.take n₀).length =
        (((mem₀.take n₀).drop offset).take buf.length).length := by
      rw [← hn, hcontent, hn₀, hn']
    obtain ⟨hoffset, hle⟩ := length_window_eq_iff.mp hwindow
    refine ⟨hoffset, hle.lt_or_eq.imp_right fun heq => ⟨heq, ?_, ?_⟩⟩
    · -- the NUL behind the content has no room unless the string in the chunks is shorter
      refine length_cstr_lt_iff.mp ?_
      omega
    · rintro rfl
      simp only [List.length_nil] at hn₀
      omega
  · rintro ⟨hoffset, hlen⟩
    have hle : (mem₀.take n₀).length ≤ buf.length := hlen.elim le_of_lt fun h => h.1.le
    have hstring := length_cstr_le chunks
    have hroom : chunks.length < buf.length ∧ (cstr chunks).length + text.length < buf.length := by
      rcases hlen with hlt | ⟨heq, hnul, htext⟩
      · omega
      · have := length_cstr_lt_iff.mpr hnul
        have := List.length_pos_iff.mpr htext
        omega
    obtain ⟨mem, hfill⟩ : ∃ mem, fillMem buf chunks text =
        some (mem, chunks.length + text.length) :=
      ⟨_, fillMem_eq_some.mpr ⟨hroom.1, hint, hroom.2, rfl, rfl⟩⟩
    have hmem := fillMem_append hfill hfill₀
    have hwhole : ((mem₀.take n₀).drop offset).take buf.length = mem₀.take n₀ := by
      rcases hoffset with rfl | hnil
      · rw [List.drop_zero, List.take_of_length_le hle]
      · rw [hnil]
        simp
    refine ⟨s', mem, _, lfsReadMem_eq_some.mpr ⟨chunks, text, hparts, hfill⟩, ?_, ?_⟩
    · rw [hwhole, hcontent, hn₀]
    · rw [hwhole, hmem, hn₀, List.take_append_of_le_length]
      rw [length_fillMem hfill, ← hn₀, ← hcontent]
      exact hle

/-- Two lines are flushed to a chunk file to make room for twenty more. -/
def flushedWrites : List Op :=
  [.mknod firstFile, writeLines firstFile 160 2, writeLines firstFile 160 20]

/-- What the file holds then: the chunk file with its separator, and the write buffer behind the second
line, which has stayed in it. -/
def flushedContent : List Char :=
  joinLines (List.replicate 2 (wideLine 160)) ++ '\n' ::
    (wideLine 160 ++ joinLines (List.replicate 20 (wideLine 160)))

theorem reads_window_iff_flushed : ∃ s, run step Fs.init flushedWrites = some s ∧
    ReadsWindow s firstFile.path (zeros 4500) (zeros 4500).length 0 [] flushedContent := by
  have hcall : ((run step Fs.init flushedWrites).bind fun s =>
      (lfsReadMem s firstFile.path (zeros 4500 ++ []) 4500 0 []).map fun r =>
        (r.2.1.take r.2.2 == flushedContent, r.2.1.length)) = some (true, 4500) := by decide +kernel
  obtain ⟨s, hrun, hcall⟩ := Option.bind_eq_some_iff.mp hcall
  obtain ⟨⟨s', mem, n⟩, hop, hfields⟩ := Option.map_eq_some_iff.mp hcall
  obtain ⟨hcontent, hlen⟩ : mem.take n = flushedContent ∧ mem.length = 4500 := by
    simpa using hfields
  obtain ⟨chunks, text, hparts, hfill⟩ := lfsReadMem_eq_some.mp hop
  have hlength : flushedContent.length = 4416 := by decide +kernel
  have hn : n ≤ mem.length := by
    have htake := congrArg List.length hcontent
    rw [List.length_take, hlength] at htake
    omega
  refine ⟨s, hrun, ?_⟩
  rw [← hcontent]
  refine (reads_window_iff hparts hop hn 0).mpr ⟨Or.inl rfl, Or.inl ?_⟩
  rw [hcontent, hlength, length_zeros]
  decide

/-- One line is written. -/
def oneWrite : List Op := [.mknod firstFile, .write firstFile oneLine {}]

/-- What the file holds then. -/
def oneLineText : List Char := "E|Sat Mar 17 20:33:43 EDT 2012|x\n".toList

/-- Reading on at the end of the content delivers all of it again. -/
theorem not_reads_window_end : ∃ s, run step Fs.init oneWrite = some s ∧
    ¬ ReadsWindow s firstFile.path (zeros 40) 40 33 [] oneLineText := by
  have hcall : ((run step Fs.init oneWrite).bind fun s =>
      (lfsReadMem s firstFile.path (zeros 40) 40 33 []).map fun r => r.2.2) = some 33 := by
    decide +kernel
  obtain ⟨s, hrun, hcall⟩ := Option.bind_eq_some_iff.mp hcall
  refine ⟨s, hrun, ?_⟩
  rintro ⟨s', mem, n, hop, hn, -⟩
  rw [hop] at hcall
  obtain rfl : n = 33 := by simpa using hcall
  revert hn
  decide

end QuorumLogFs.Log
