import QuorumLogFs.Log.Drops
import QuorumLogFs.Log.Owners
import QuorumLogFs.Log.Private

/-!
# The bytes that a write touches

Reference: `lfs_write` in `lfs_fuse.c`, `write_buffer_to_disk` in `Cache.c`.

The append and the flush test the fill of a block in two ways. `lfs_write` flushes when the string would
not fit, but not when only its NUL does not; and the flush, done with its lines, looks at the byte one
more line further on. `accesses` lists the indices of a block's buffer that a call reads or writes;
`StaysInside` is the condition under which they are all in the block.
-/

namespace QuorumLogFs.Log

open QuorumLogFs.Basis

/-! ## Accesses -/

/-- The bytes of the string at `i` and its NUL. -/
def stringAccesses (mem : List Char) (i : ℕ) : List ℕ :=
  List.range' i ((cstr (mem.drop i)).length + 1)

/-- The loop over the lines: the string at the offset, and the byte behind its first line. -/
def loopAccesses (junk : Junk) (buf : List Char) : ℕ → ℕ → List ℕ
  | 0, _ => []
  | fuel + 1, offset =>
    stringAccesses buf offset ++
      match (stringAt buf offset).bind readLine with
      | none => []
      | some line => (offset + line.length) ::
          if byteAt buf junk.behind (offset + line.length) ≠ '\n' then []
          else
            match scanTimestamp line with
            | [.str _] => loopAccesses junk buf fuel (offset + line.length + 1)
            | _ => []

/-- The first line and the loop. -/
def scanAccesses (junk : Junk) (buf : List Char) : List ℕ :=
  stringAccesses buf 0 ++
    match (stringAt buf 0).bind readLine with
    | none => []
    | some line => loopAccesses junk buf (buf.length + 1) (line.length + 1)

/-- `write_buffer_to_disk`: the lines, the writes to the chunk files, `memset`, the byte behind the last
line, and `strcpy` of that line. -/
def flushAccesses (junk : Junk) (cache_block_size : ℕ) (buf : List Char) : List ℕ :=
  let r := scanned junk buf
  scanAccesses junk buf ++ List.range r.1 ++ List.range cache_block_size ++ [r.1 + r.2.length] ++
    if byteAt (zeros cache_block_size) junk.behind (r.1 + r.2.length) ≠ '\n' then
      List.range (r.2.length + 1)
    else []

/-- `strcat(buf,text)` -/
def strcatAccesses (buf text : List Char) : List ℕ :=
  List.range ((cstr buf).length + text.length + 1)

/-- The flush of a full block and the append. -/
def fillAccesses (s : Fs) (j : ℕ) (text : List Char) (junk : Junk) : List ℕ :=
  (if s.bufferCache.cacheBlockSize < (s.bufferCache.cblocks j).offset + text.length then
    flushAccesses junk s.bufferCache.cacheBlockSize (s.bufferCache.cblocks j).buf
  else []) ++
    (makeRoom s j text junk).toList.flatMap fun t => strcatAccesses (t.bufferCache.cblocks j).buf text

/-- The indices of a write buffer's memory that a call reads or writes by a flush or an append. -/
def accesses (s : Fs) : Op → List ℕ
  | .write f buf junk =>
    (stringAt buf 0).toList.flatMap fun text =>
      (metaDataBlock { s with loadPath := s.loadPath ++ f.path } f.path junk.stack).toList.flatMap
        fun r =>
          ((evictedBlock r.1 f.path).toList.flatMap fun j =>
            flushAccesses junk.evict r.1.bufferCache.cacheBlockSize (r.1.bufferCache.cblocks j).buf) ++
          ((wbufDataBlock r.1 f.path (r.1.metaDataCache.cblocks r.2).mdata
            junk.evict).toList.flatMap fun w => fillAccesses w.1 w.2 text junk.full)
  | _ => []

/-- Behind the content of a block there is room for its last complete line once more. -/
def CBlock.LookUpInside (b : CBlock) : Prop :=
  b.offset + ((completeLines (cstr b.buf)).getLastD []).length < BLOCK_SIZE

instance : DecidablePred CBlock.LookUpInside := fun _ => inferInstanceAs (Decidable (_ < _))

/-- The data of a write do not end with the block, and a block that has to be flushed has room for its
last line once more. -/
def StaysInside (s : Fs) : Op → Prop
  | .write f buf junk =>
    ∀ text ∈ stringAt buf 0,
      ∀ r ∈ metaDataBlock { s with loadPath := s.loadPath ++ f.path } f.path junk.stack,
        (∀ j ∈ evictedBlock r.1 f.path, (r.1.bufferCache.cblocks j).LookUpInside) ∧
          ∀ j ∈ findMetaDataBlock r.1.records r.1.bufferCache f.path.tail,
            (r.1.bufferCache.cblocks j).offset + text.length ≠ BLOCK_SIZE ∧
              (BLOCK_SIZE < (r.1.bufferCache.cblocks j).offset + text.length →
                (r.1.bufferCache.cblocks j).LookUpInside)
  | _ => True

instance (s : Fs) : DecidablePred (StaysInside s)
  | .write _ _ _ => inferInstanceAs (Decidable (∀ _ ∈ _, ∀ _ ∈ _, _ ∧ _))
  | .mknod _ => isTrue trivial
  | .open _ => isTrue trivial
  | .getattr _ _ => isTrue trivial
  | .read _ _ _ => isTrue trivial

/-! ## Lines -/

/-- A line without its newline, with a timestamp. -/
structure IsLine (line : List Char) : Prop where
  newline : '\n' ∉ line
  noNul : nul ∉ line
  timestamped : Timestamped line

/-- Complete lines. -/
def joinLines (ls : List (List Char)) : List Char := ls.flatMap (· ++ ['\n'])

/-- A write passes a string of complete lines, each shorter than `MAX_LINE_SIZE` and together no longer
than the block less one line. -/
def PassesLines : Op → Prop
  | .write _ buf _ => ∃ ls, stringAt buf 0 = some (joinLines ls) ∧
      (∀ l ∈ ls, IsLine l ∧ l.length < MAX_LINE_SIZE) ∧
      (joinLines ls).length ≤ BLOCK_SIZE - MAX_LINE_SIZE
  | _ => True

/-- What a write buffer holds: complete lines, or the line that a flush has left. -/
inductive Buffered : List Char → Prop where
  | lines (ls : List (List Char)) (h : ∀ l ∈ ls, IsLine l) : Buffered (joinLines ls)
  | left (l : List Char) (h : IsLine l) (hlen : l.length < MAX_LINE_SIZE) : Buffered l

variable {junk : Junk} {buf text line l mem : List Char} {ls : List (List Char)} {offset fuel n : ℕ}
  {b b' : CBlock}

@[simp] theorem joinLines_nil : joinLines [] = [] := rfl

@[simp] theorem joinLines_cons (l : List Char) (ls : List (List Char)) :
    joinLines (l :: ls) = l ++ '\n' :: joinLines ls := by
  simp [joinLines]

theorem nul_notMem_joinLines (h : ∀ l ∈ ls, IsLine l) : nul ∉ joinLines ls := by
  intro hmem
  obtain ⟨l, hl, hc⟩ := List.mem_flatMap.mp hmem
  rcases List.mem_append.mp hc with hc | hc
  · exact (h l hl).noNul hc
  · exact absurd (List.mem_singleton.mp hc) (by decide)

theorem completeLines_joinLines (h : ∀ l ∈ ls, IsLine l) : completeLines (joinLines ls) = ls := by
  induction ls with
  | nil => exact completeLines_of_notMem List.not_mem_nil
  | cons l ls ih =>
    obtain ⟨hl, hls⟩ := List.forall_mem_cons.mp h
    rw [joinLines_cons, completeLines_line hl.newline, ih hls]

theorem IsLine.ne_nil (h : IsLine l) : l ≠ [] := fun he => not_timestamped_nil (he ▸ h.timestamped)

/-- Complete lines behind the line that a flush has left extend it. -/
theorem Buffered.append (ht : Buffered text) (h : ∀ l ∈ ls, IsLine l) :
    Buffered (text ++ joinLines ls) := by
  cases ht with
  | lines ls' h' =>
    rw [joinLines, joinLines, ← List.flatMap_append]
    exact .lines (ls' ++ ls) (List.forall_mem_append.mpr ⟨h', h⟩)
  | left l hl hlen =>
    cases ls with
    | nil =>
      rw [joinLines_nil, List.append_nil]
      exact .left text hl hlen
    | cons m ls =>
      obtain ⟨hm, hls⟩ := List.forall_mem_cons.mp h
      have hjoined : IsLine (text ++ m) :=
        ⟨by simp [hl.newline, hm.newline], by simp [hl.noNul, hm.noNul], hl.timestamped.append m⟩
      have heq : text ++ joinLines (m :: ls) = joinLines ((text ++ m) :: ls) := by simp
      rw [heq]
      exact .lines _ (List.forall_mem_cons.mpr ⟨hjoined, hls⟩)

/-! ## A flush of complete lines -/

theorem stringAccesses_lt {k : ℕ} (hbuf : buf.drop offset = text ++ nul :: mem) (hnul : nul ∉ text)
    (hk : offset + text.length < k) : ∀ i ∈ stringAccesses buf offset, i < k := by
  intro i hi
  rw [stringAccesses, hbuf, cstr_append_nul hnul] at hi
  have := List.mem_range'_1.mp hi
  omega

/-- The loop reads all the lines, no byte behind them but their NUL, and keeps the last one. -/
theorem loop_lines (junk : Junk) (line : List Char)
    (hbuf : buf.drop offset = joinLines ls ++ nul :: mem)
    (h : ∀ l ∈ ls, IsLine l) (hfuel : (joinLines ls).length < fuel) :
    scanLines junk buf fuel offset line = (offset + (joinLines ls).length, ls.getLastD line) ∧
      ∀ i ∈ loopAccesses junk buf fuel offset, i ≤ offset + (joinLines ls).length := by
  induction ls generalizing fuel offset line with
  | nil =>
    obtain ⟨fuel, rfl⟩ := Nat.exists_eq_succ_of_ne_zero (Nat.ne_zero_of_lt hfuel)
    have hs : stringAt buf offset = some [] := by
      rw [stringAt, hbuf, if_pos (by simp), joinLines_nil, cstr_append_nul List.not_mem_nil]
    rw [scanLines, loopAccesses, hs, Option.bind_some, readLine_nil]
    refine ⟨rfl, fun i hi => ?_⟩
    rw [List.append_nil] at hi
    exact Nat.le_of_lt_succ (stringAccesses_lt hbuf List.not_mem_nil (Nat.lt_succ_self _) i hi)
  | cons l ls ih =>
    obtain ⟨fuel, rfl⟩ := Nat.exists_eq_succ_of_ne_zero (Nat.ne_zero_of_lt hfuel)
    obtain ⟨hl, hls⟩ := List.forall_mem_cons.mp h
    obtain ⟨timestamp, htime⟩ := timestamped_iff.mp hl.timestamped
    have hnul := nul_notMem_joinLines h
    have hs : stringAt buf offset = some (joinLines (l :: ls)) := by
      rw [stringAt, hbuf, if_pos (by simp), cstr_append_nul hnul]
    have hread := stringAccesses_lt hbuf hnul (Nat.lt_succ_self _)
    rw [joinLines_cons] at hbuf hs hread hfuel ⊢
    have hbyte : byteAt buf junk.behind (offset + l.length) = '\n' := by
      rw [byteAt, ← List.getElem?_drop, hbuf]
      simp
    have hdrop : buf.drop (offset + l.length + 1) = joinLines ls ++ nul :: mem := by
      rw [Nat.add_assoc, ← List.drop_drop, hbuf]
      simp
    simp only [List.length_append, List.length_cons] at hfuel hread ⊢
    obtain ⟨hscan, haccess⟩ := ih l hdrop hls (by omega : (joinLines ls).length < fuel)
    rw [scanLines, loopAccesses, hs, Option.bind_some, readLine_line hl.ne_nil hl.newline]
    dsimp only
    rw [if_neg (by rw [hbyte]; decide), if_neg (by rw [hbyte]; decide), htime]
    dsimp only
    rw [hscan, List.getLastD_cons]
    refine ⟨by congr 1; omega, fun i hi => ?_⟩
    rcases List.mem_append.mp hi with hi | hi
    · exact Nat.le_of_lt_succ (hread i hi)
    · rcases List.mem_cons.mp hi with rfl | hi
      · omega
      · have := haccess i hi
        omega

/-- A first line and complete lines behind it. -/
theorem scanned_first {s : List Char} (junk : Junk) (hs : stringAt buf 0 = some s)
    (hread : readLine s = some l) (hbuf : buf.drop (l.length + 1) = joinLines ls ++ nul :: mem)
    (h : ∀ l ∈ ls, IsLine l) :
    scanned junk buf = (l.length + 1 + (joinLines ls).length, ls.getLastD l) ∧
      ∀ i ∈ scanAccesses junk buf,
        i ∈ stringAccesses buf 0 ∨ i ≤ l.length + 1 + (joinLines ls).length := by
  have hfuel : (joinLines ls).length < buf.length + 1 := by
    have := congrArg List.length hbuf
    simp only [List.length_drop, List.length_append, List.length_cons] at this
    omega
  obtain ⟨hscan, haccess⟩ := loop_lines junk l hbuf h hfuel
  rw [scanned, scanAccesses, hs, Option.bind_some, hread]
  refine ⟨hscan, fun i hi => ?_⟩
  exact (List.mem_append.mp hi).imp_right (haccess i)

theorem length_lt_joinLines (h : l ∈ ls) : l.length < (joinLines ls).length := by
  induction ls with
  | nil => cases h
  | cons m ls ih =>
    rw [joinLines_cons, List.length_append, List.length_cons]
    rcases List.mem_cons.mp h with rfl | h
    · omega
    · have := ih h
      omega

/-- A flush stops at this offset with this line. It reads its lines inside the block, and the byte that
it looks at last is where `LookUpInside` says. -/
structure ScansInside (junk : Junk) (b : CBlock) (offset : ℕ) (line : List Char) : Prop where
  scanned : scanned junk b.buf = (offset, line)
  isLine : line = [] ∨ IsLine line
  line_lt : line.length < BLOCK_SIZE
  offset_lt : offset < BLOCK_SIZE
  inside : ∀ i ∈ scanAccesses junk b.buf, i < BLOCK_SIZE
  lookUp : offset + line.length < BLOCK_SIZE ↔ b.LookUpInside

theorem Buffered.scansInside (ht : Buffered text) (h : b.Holds text) (junk : Junk) :
    ∃ offset line, ScansInside junk b offset line := by
  have hbuf : b.buf = text ++ nul :: zeros (BLOCK_SIZE - (text.length + 1)) := by
    rw [h.buf, append_nul_zeros text h.fits]
  have hfirst : ∀ i ∈ stringAccesses b.buf 0, i < BLOCK_SIZE :=
    stringAccesses_lt hbuf h.noNul (by rw [Nat.zero_add]; exact h.fits)
  have hlook : b.LookUpInside ↔
      text.length + ((completeLines text).getLastD []).length < BLOCK_SIZE := by
    rw [CBlock.LookUpInside, h.buf, cstr_padded h.noNul, h.offset]
  have hfits := h.fits
  have hs := h.stringAt
  cases ht with
  | lines ls hls =>
    rw [completeLines_joinLines hls] at hlook
    cases ls with
    | nil =>
      -- nothing is read but the NUL
      refine ⟨0, [], ?_, Or.inl rfl, BLOCK_SIZE_pos, BLOCK_SIZE_pos, fun i hi => ?_, hlook.symm⟩
      · rw [Log.scanned, hs]
        rfl
      · rw [scanAccesses, hs] at hi
        exact hfirst i (by simpa using hi)
    | cons l ls =>
      obtain ⟨hl, hls'⟩ := List.forall_mem_cons.mp hls
      have hlast : ls.getLastD l ∈ l :: ls := List.getLastD_mem_cons
      have hlt := length_lt_joinLines hlast
      have hdrop : b.buf.drop (l.length + 1) =
          joinLines ls ++ nul :: zeros (BLOCK_SIZE - ((joinLines (l :: ls)).length + 1)) := by
        rw [hbuf]
        simp
      rw [joinLines_cons] at hfits hlook hs hlt
      rw [List.getLastD_cons] at hlook
      simp only [List.length_append, List.length_cons] at hfits hlook hlt
      obtain ⟨hscanned, haccess⟩ :=
        scanned_first junk hs (readLine_line hl.ne_nil hl.newline _) hdrop hls'
      refine ⟨_, _, hscanned, Or.inr (hls _ hlast), hlt.trans hfits, by omega, fun i hi => ?_, ?_⟩
      · rcases haccess i hi with hi | hi
        · exact hfirst i hi
        · omega
      · rw [hlook]
        omega
  | left l hl hlen =>
    -- the line has no newline; the offset is behind its NUL
    have hshort : text.length < 200 := hlen
    have hblock : BLOCK_SIZE = 4096 := rfl
    have hread := readLine_partial hl.ne_nil hl.newline
    have hdrop : b.buf.drop (text.length + 1) =
        joinLines [] ++ nul :: zeros (BLOCK_SIZE - (text.length + 2)) := by
      have hroom : BLOCK_SIZE - (text.length + 1) = BLOCK_SIZE - (text.length + 2) + 1 := by omega
      rw [hbuf, hroom, zeros_succ]
      simp
    obtain ⟨hscanned, haccess⟩ := scanned_first junk hs hread hdrop (List.forall_mem_nil _)
    rw [joinLines_nil, List.length_nil, Nat.add_zero] at hscanned haccess
    refine ⟨_, _, hscanned, Or.inr hl, hfits, by omega, fun i hi => ?_, ?_⟩
    · rcases haccess i hi with hi | hi
      · exact hfirst i hi
      · omega
    · rw [hlook, completeLines_of_notMem hl.newline, List.getLastD_nil, List.getLastD_nil,
        List.length_nil]
      omega

/-- The bytes that a flush touches are in the block exactly if the last look-up is. -/
theorem ScansInside.flushAccesses_iff (h : ScansInside junk b offset line) :
    (∀ i ∈ flushAccesses junk BLOCK_SIZE b.buf, i < BLOCK_SIZE) ↔ b.LookUpInside := by
  rw [← h.lookUp]
  unfold flushAccesses
  rw [h.scanned]
  dsimp only
  constructor
  · intro hall
    exact hall _ (by simp)
  · intro hlook i hi
    have hoffset := h.offset_lt
    have hline := h.line_lt
    simp only [List.mem_append, List.mem_range, List.mem_singleton, or_assoc] at hi
    rcases hi with hi | hi | hi | hi | hi
    · exact h.inside i hi
    · omega
    · exact hi
    · omega
    · split at hi
      · have := List.mem_range.mp hi
        omega
      · cases hi

/-! ## What a flush leaves -/

/-- Nothing, or a line that fits the array of the flush. -/
structure IsLeft (rest : List Char) : Prop where
  isLine : rest = [] ∨ IsLine rest
  fits : rest.length < MAX_LINE_SIZE

theorem IsLeft.buffered (h : IsLeft text) : Buffered text := by
  rcases h.isLine with rfl | hline
  · exact .lines [] (List.forall_mem_nil _)
  · exact .left text hline h.fits

section

variable {δ : Type} {append : List Char → List Char → δ → Option δ} {chunk_path file_name : List Char}
  {v w : FlushVars δ} {d : δ}

theorem flushLoop_line_lt (hv : v.line.length < MAX_LINE_SIZE)
    (h : flushLoop append junk chunk_path file_name buf fuel v = some w) :
    w.line.length < MAX_LINE_SIZE := by
  refine flushLoop_induction (I := fun v => v.line.length < MAX_LINE_SIZE)
    (fun _ _ hfits _ => hfits) (fun v w _ _ hw hv => ?_) h hv
  rw [(nextLine_scanned hw).2]
  exact hv

/-- The line with which a flush stops fits the array. -/
theorem flushAppends_line_lt (h : flushAppends append junk chunk_path file_name buf d = some w) :
    w.line.length < MAX_LINE_SIZE := by
  unfold flushAppends at h
  simp only [Option.bind_eq_some_iff] at h
  obtain ⟨u, ⟨v, hv, hu⟩, hw⟩ := h
  rw [(writeChunk_scanned hw).2]
  refine flushLoop_line_lt ?_ hu
  obtain ⟨s, -, ⟨-, rfl⟩ | ⟨_, _, _, _, -, hfits, -, -, -, -, -, rfl⟩⟩ := flushFirst_eq_some hv
  · exact Nat.zero_lt_succ _
  · exact hfits

end

theorem ScansInside.flush {chunk_path : List Char} {d d' : Mdata × ChunkFiles}
    (h : ScansInside junk b offset line)
    (hflush : writeBufferToDisk junk chunk_path b BLOCK_SIZE d = some (b', d')) :
    ∃ rest, IsLeft rest ∧ b'.Holds rest := by
  have hline : line.length < MAX_LINE_SIZE := by
    unfold writeBufferToDisk at hflush
    rw [flushBuffer_eq] at hflush
    obtain ⟨w, hw, -⟩ := Option.bind_eq_some_iff.mp hflush
    have heq : w.line = line := by
      rw [show w.line = _ from congrArg Prod.snd (flushAppends_scanned hw), h.scanned]
    exact heq ▸ flushAppends_line_lt hw
  obtain ⟨hlen, rfl⟩ := flushBuffer_remaining BLOCK_SIZE_pos hflush
  refine ⟨remaining junk BLOCK_SIZE b.buf, ?_, nul_notMem_remaining _ _ _, hlen, rfl, rfl⟩
  unfold remaining
  rw [h.scanned]
  split
  · exact ⟨Or.inl rfl, Nat.zero_lt_succ _⟩
  · exact ⟨h.isLine, hline⟩

/-! ## The write buffers -/

/-- Every write buffer holds a text of this kind, and zeros behind it. -/
structure HoldsTexts (P : List Char → Prop) (s : Fs) : Prop where
  blockSize : s.bufferCache.cacheBlockSize = BLOCK_SIZE
  holds : ∀ j, ∃ text, P text ∧ (s.bufferCache.cblocks j).Holds text
  free : ∀ j, (s.bufferCache.cblocks j).freeFlag = true → (s.bufferCache.cblocks j).Holds []

/-- What the flush of such a text leaves. -/
structure FlushLeaves (P L : List Char → Prop) : Prop where
  nil : L []
  texts : ∀ text, L text → P text
  flush : ∀ (junk : Junk) (b b' : CBlock) (d d' : Mdata × ChunkFiles) (text : List Char), P text →
    b.Holds text → writeBufferToDisk junk CHUNK_PATH b BLOCK_SIZE d = some (b', d') →
      ∃ rest, L rest ∧ b'.Holds rest

variable {P L : List Char → Prop} {s s' t : Fs} {path : List Char} {j : ℕ}

/-- Of a text that is no more than a text, a text is left. -/
theorem flushLeaves_text : FlushLeaves (fun _ => True) fun _ => True where
  nil := trivial
  texts _ := id
  flush junk b b' d d' text _ _ hflush := by
    obtain ⟨hlen, rfl⟩ := flushBuffer_remaining BLOCK_SIZE_pos hflush
    exact ⟨_, trivial, nul_notMem_remaining _ _ _, hlen, rfl, rfl⟩

theorem flushLeaves_lines : FlushLeaves Buffered IsLeft where
  nil := ⟨Or.inl rfl, Nat.zero_lt_succ _⟩
  texts _ h := h.buffered
  flush junk b b' d d' text htext hholds hflush := by
    obtain ⟨offset, line, hscan⟩ := htext.scansInside hholds junk
    exact hscan.flush hflush

/-- Only the contents of the blocks count, and which of them are free. -/
theorem HoldsTexts.of_blocks (h : HoldsTexts P s)
    (hsize : s'.bufferCache.cacheBlockSize = s.bufferCache.cacheBlockSize)
    (hbuf : ∀ m, (s'.bufferCache.cblocks m).buf = (s.bufferCache.cblocks m).buf)
    (hoffset : ∀ m, (s'.bufferCache.cblocks m).offset = (s.bufferCache.cblocks m).offset)
    (hfree : ∀ m, (s'.bufferCache.cblocks m).freeFlag = true →
      (s.bufferCache.cblocks m).freeFlag = true) : HoldsTexts P s' := by
  have hsame : ∀ m text, (s.bufferCache.cblocks m).Holds text →
      (s'.bufferCache.cblocks m).Holds text := fun m text hm =>
    ⟨hm.noNul, hm.fits, (hbuf m).trans hm.buf, (hoffset m).trans hm.offset⟩
  refine ⟨hsize.trans h.blockSize, fun m => ?_, fun m hm => hsame m [] (h.free m (hfree m hm))⟩
  obtain ⟨text, htext, hm⟩ := h.holds m
  exact ⟨text, htext, hsame m text hm⟩

theorem HoldsTexts.congr (h : HoldsTexts P s) (hcache : s'.bufferCache = s.bufferCache) :
    HoldsTexts P s' :=
  h.of_blocks (by rw [hcache]) (fun _ => by rw [hcache]) (fun _ => by rw [hcache])
    (fun _ hm => by rwa [hcache] at hm)

/-- A block in use changes what it holds. -/
theorem HoldsTexts.replace (h : HoldsTexts P s) (hframe : s.Framed s')
    (hsize : s'.bufferCache.cacheBlockSize = s.bufferCache.cacheBlockSize)
    (hused : (s.bufferCache.cblocks j).freeFlag = false)
    (hself : ∃ text, P text ∧ (s'.bufferCache.cblocks j).Holds text)
    (hother : ∀ m, m ≠ j → ∀ text, (s.bufferCache.cblocks m).Holds text →
      (s'.bufferCache.cblocks m).Holds text) : HoldsTexts P s' := by
  refine ⟨hsize.trans h.blockSize, fun m => ?_, fun m hm => ?_⟩
  · by_cases hmj : m = j
    · exact hmj ▸ hself
    · obtain ⟨text, htext, hm⟩ := h.holds m
      exact ⟨text, htext, hother m hmj text hm⟩
  · rw [hframe.freeFlag] at hm
    have hmj : m ≠ j := by
      rintro rfl
      rw [hused] at hm
      cases hm
    exact hother m hmj [] (h.free m hm)

theorem HoldsTexts.flushBlock (h : HoldsTexts P s) (hleaves : FlushLeaves P L)
    (hused : (s.bufferCache.cblocks j).freeFlag = false) (hop : flushBlock s j junk = some s') :
    HoldsTexts P s' ∧ ∃ rest, L rest ∧ (s'.bufferCache.cblocks j).Holds rest := by
  have hframe := flushBlock_framed hop
  obtain ⟨text, htext, hholds⟩ := h.holds j
  obtain ⟨i, block, mdata, chunks, files, -, hflush, -, rfl⟩ := flushBlock_eq_some hop
  rw [h.blockSize] at hflush
  obtain ⟨rest, hrest, hblock⟩ := hleaves.flush _ _ _ _ _ _ htext hholds hflush
  have hself : ((s.bufferCache.set j block).cblocks j).Holds rest := by
    rwa [Cache.cblocks_set_self]
  refine ⟨h.replace hframe rfl hused ⟨rest, hleaves.texts rest hrest, hself⟩ fun m hm text' hm' => ?_,
    rest, hrest, hself⟩
  show ((s.bufferCache.set j block).cblocks m).Holds text'
  rwa [Cache.cblocks_set_of_ne _ hm]

theorem HoldsTexts.appendText (h : HoldsTexts P s)
    (hused : (s.bufferCache.cblocks j).freeFlag = false) (hnul : nul ∉ text)
    (htext : ∀ old, P old → P (old ++ text)) (hop : appendText s j text = some s') :
    HoldsTexts P s' := by
  obtain ⟨old, hold, hholds⟩ := h.holds j
  obtain ⟨-, hself, hother⟩ := appendText_holds hholds hnul hop
  have hframe := appendText_framed hop
  refine h.replace hframe ?_ hused ⟨_, htext old hold, hself⟩ hother
  obtain ⟨buf, -, rfl⟩ := Option.map_eq_some_iff.mp hop
  rfl

/-- The block that is found is in use; one that is taken over holds what a flush leaves. -/
theorem HoldsTexts.wbufDataBlock {mdata : Option ℕ} (h : HoldsTexts P s) (hleaves : FlushLeaves P L)
    (hop : wbufDataBlock s path mdata junk = some (t, j)) :
    HoldsTexts P t ∧ (t.bufferCache.cblocks j).freeFlag = false ∧
      (findMetaDataBlock s.records s.bufferCache path.tail = some j ∧ t = s ∨
        findMetaDataBlock s.records s.bufferCache path.tail = none ∧
          ∃ rest, L rest ∧ (t.bufferCache.cblocks j).Holds rest) := by
  cases hfind : findMetaDataBlock s.records s.bufferCache path.tail with
  | some k =>
    rw [wbufDataBlock_found hfind] at hop
    obtain ⟨rfl, rfl⟩ := Prod.mk.inj (Option.some.inj hop)
    have hused := (CBlock.isFor_iff.mp (findMetaDataBlock_some hfind).2).1
    exact ⟨h, hused, Or.inl ⟨rfl, rfl⟩⟩
  | none =>
    obtain ⟨-, u, hu, rfl⟩ := wbufDataBlock_eq_some hfind hop
    have htaken : HoldsTexts P { s with bufferCache := s.bufferCache.take j } := by
      refine h.of_blocks rfl (fun m => take_buf _ _ _) (fun m => take_offset _ _ _) fun m hm => ?_
      by_contra hne
      have := (take_freeFlag s.bufferCache j m).mpr (Or.inr (Bool.eq_false_of_not_eq_true hne))
      simp [this] at hm
    have hallocated : ((s.bufferCache.take j).cblocks j).freeFlag = false :=
      (take_freeFlag _ _ _).mpr (Or.inl rfl)
    obtain ⟨hu', rest, hrest, hholds⟩ : HoldsTexts P u ∧
        ∃ rest, L rest ∧ (u.bufferCache.cblocks j).Holds rest := by
      by_cases hfree : (s.bufferCache.cblocks j).freeFlag = false
      · rw [evictBlock, if_pos (if_pos hfree)] at hu
        exact htaken.flushBlock hleaves hallocated hu
      · rw [evictBlock, if_neg (by rw [if_neg hfree]; decide)] at hu
        obtain rfl := Option.some.inj hu
        have hempty := h.free j (Bool.eq_true_of_not_eq_false hfree)
        exact ⟨htaken, [], hleaves.nil, hempty.noNul, hempty.fits,
          (take_buf _ _ _).trans hempty.buf, (take_offset _ _ _).trans hempty.offset⟩
    have hassign : ∀ m, ((u.assign j mdata).bufferCache.cblocks m).buf =
          (u.bufferCache.cblocks m).buf ∧
        ((u.assign j mdata).bufferCache.cblocks m).offset = (u.bufferCache.cblocks m).offset ∧
        ((u.assign j mdata).bufferCache.cblocks m).freeFlag =
          (u.bufferCache.cblocks m).freeFlag := by
      intro m
      by_cases hm : m = j
      · rw [hm, Fs.assign, Cache.cblocks_set_self]
        exact ⟨rfl, rfl, rfl⟩
      · rw [Fs.assign, Cache.cblocks_set_of_ne _ hm]
        exact ⟨rfl, rfl, rfl⟩
    refine ⟨hu'.of_blocks rfl (fun m => (hassign m).1) (fun m => (hassign m).2.1)
      fun m hm => (hassign m).2.2 ▸ hm, ?_, Or.inr ⟨rfl, rest, hrest, ?_⟩⟩
    · rw [(hassign j).2.2, (evictBlock_framed hu).freeFlag]
      exact hallocated
    · exact ⟨hholds.noNul, hholds.fits, (hassign j).1.trans hholds.buf,
        (hassign j).2.1.trans hholds.offset⟩

/-- Filling a block touches its bytes alone exactly if the string does not end at the end of the block
and the look-up of a flush stays inside. -/
theorem HoldsTexts.fillAccesses_iff (h : HoldsTexts Buffered s)
    (hused : (s.bufferCache.cblocks j).freeFlag = false)
    (htext : text.length ≤ BLOCK_SIZE - MAX_LINE_SIZE) :
    (∀ i ∈ fillAccesses s j text junk, i < BLOCK_SIZE) ↔
      (s.bufferCache.cblocks j).offset + text.length ≠ BLOCK_SIZE ∧
      (BLOCK_SIZE < (s.bufferCache.cblocks j).offset + text.length →
        (s.bufferCache.cblocks j).LookUpInside) := by
  obtain ⟨old, hold, hholds⟩ := h.holds j
  obtain ⟨offset, line, hscan⟩ := hold.scansInside hholds junk
  unfold fillAccesses makeRoom
  rw [h.blockSize]
  by_cases hover : BLOCK_SIZE < (s.bufferCache.cblocks j).offset + text.length
  · -- the flush; what it leaves and the text have room
    rw [if_pos hover, if_pos hover, List.forall_mem_append, hscan.flushAccesses_iff]
    have happend : ∀ i ∈ (Log.flushBlock s j junk).toList.flatMap
        (fun t => strcatAccesses (t.bufferCache.cblocks j).buf text), i < BLOCK_SIZE := by
      intro i hi
      obtain ⟨t, ht, hi⟩ := List.mem_flatMap.mp hi
      obtain ⟨-, rest, hrest, hleft⟩ := h.flushBlock flushLeaves_lines hused
        (Option.mem_toList.mp ht)
      rw [strcatAccesses, hleft.buf, cstr_padded hleft.noNul] at hi
      have hi' := List.mem_range.mp hi
      have hfits : rest.length < 200 := hrest.fits
      have hblock : text.length ≤ 4096 - 200 := htext
      show i < 4096
      omega
    constructor
    · exact fun hall => ⟨hover.ne', fun _ => hall.1⟩
    · exact fun hcond => ⟨hcond.2 hover, happend⟩
  · rw [if_neg hover, if_neg hover, List.nil_append, Option.toList_some, List.flatMap_singleton,
      strcatAccesses, hholds.buf, cstr_padded hholds.noNul, ← hholds.offset]
    constructor
    · intro hall
      have := hall ((s.bufferCache.cblocks j).offset + text.length)
        (List.mem_range.mpr (Nat.lt_succ_self _))
      exact ⟨this.ne, fun hlt => absurd hlt hover⟩
    · intro hcond i hi
      have := List.mem_range.mp hi
      have := hcond.1
      omega

/-! ## The calls -/

theorem HoldsTexts.accesses_iff {op : Op} (h : HoldsTexts Buffered s) (hpass : PassesLines op) :
    (∀ i ∈ accesses s op, i < BLOCK_SIZE) ↔ StaysInside s op := by
  cases op with
  | mknod f => exact iff_of_true (List.forall_mem_nil _) trivial
  | «open» f => exact iff_of_true (List.forall_mem_nil _) trivial
  | getattr f stack => exact iff_of_true (List.forall_mem_nil _) trivial
  | read f buf stack => exact iff_of_true (List.forall_mem_nil _) trivial
  | write f buf junk =>
    obtain ⟨ls, hs, -, hshort⟩ := hpass
    simp only [accesses, StaysInside, hs, Option.toList_some, List.flatMap_singleton,
      Option.mem_some_iff, forall_eq']
    cases hmeta : metaDataBlock { s with loadPath := s.loadPath ++ f.path } f.path junk.stack with
    | none => simp
    | some r =>
      simp only [Option.toList_some, List.flatMap_singleton, Option.mem_some_iff, forall_eq',
        List.forall_mem_append]
      have h₁ : HoldsTexts Buffered r.1 :=
        h.congr (metaDataBlock_bufferCache (s := { s with loadPath := s.loadPath ++ f.path }) hmeta)
      refine and_congr ?_ ?_
      · simp only [List.forall_mem_flatMap, Option.mem_toList]
        refine forall_congr' fun j => forall_congr' fun _ => ?_
        obtain ⟨text, htext, hholds⟩ := h₁.holds j
        obtain ⟨offset, line, hscan⟩ := htext.scansInside hholds junk.evict
        rw [h₁.blockSize, hscan.flushAccesses_iff]
      · cases hfind : findMetaDataBlock r.1.records r.1.bufferCache f.path.tail with
        | some j =>
          have hused := (CBlock.isFor_iff.mp (findMetaDataBlock_some hfind).2).1
          simp only [wbufDataBlock_found hfind, Option.toList_some, List.flatMap_singleton,
            Option.mem_some_iff, forall_eq']
          exact h₁.fillAccesses_iff hused hshort
        | none =>
          -- what is left in the block and the text have room
          refine iff_of_true (fun i hi => ?_) (by simp)
          obtain ⟨w, hw, hi⟩ := List.mem_flatMap.mp hi
          obtain ⟨h₂, hused, hblock⟩ := h₁.wbufDataBlock flushLeaves_lines (Option.mem_toList.mp hw)
          rcases hblock with ⟨hj, -⟩ | ⟨-, rest, hrest, hholds⟩
          · rw [hfind] at hj
            cases hj
          · have hoffset := hholds.offset
            have hfits : rest.length < 200 := hrest.fits
            have hroom : (joinLines ls).length ≤ 4096 - 200 := hshort
            have hblock : BLOCK_SIZE = 4096 := rfl
            refine (h₂.fillAccesses_iff hused hshort).mpr ⟨by omega, fun hover => ?_⟩ i hi
            omega

theorem HoldsTexts.step {op : Op} (h : HoldsTexts P s) (hleaves : FlushLeaves P L)
    (hpass : ∀ f buf junk, op = .write f buf junk → ∀ text ∈ stringAt buf 0, ∀ old, P old →
      P (old ++ text)) (hop : step s op = some s') : HoldsTexts P s' := by
  cases op with
  | mknod f =>
    obtain ⟨⟨t, code⟩, ht, rfl⟩ := Option.map_eq_some_iff.mp hop
    obtain ⟨i, files, -, -, rfl⟩ := lfsMknod_eq_some ht
    exact h.congr rfl
  | «open» f =>
    obtain ⟨⟨t, code⟩, ht, rfl⟩ := Option.map_eq_some_iff.mp hop
    unfold lfsOpen at ht
    split at ht
    · obtain ⟨rfl, -⟩ := Prod.mk.inj (Option.some.inj ht)
      exact h.congr rfl
    · cases ht
  | getattr f stack =>
    obtain ⟨⟨t, attr⟩, ht, rfl⟩ := Option.map_eq_some_iff.mp hop
    rcases (lfsGetattr_eq_some ht).2 with rfl | ⟨-, s₁, i, h₁, hs'⟩
    · exact h
    · have h' := h.congr (metaDataBlock_bufferCache h₁)
      rcases hs' with rfl | ⟨j, rfl⟩
      · exact h'
      · exact h'.of_blocks rfl (fun _ => rfl) (fun _ => rfl) fun _ hm => hm
  | read f buf stack =>
    obtain ⟨⟨t, out⟩, ht, rfl⟩ := Option.map_eq_some_iff.mp hop
    obtain ⟨i, hi⟩ := lfsRead_metaDataBlock ht
    exact h.congr (metaDataBlock_bufferCache hi)
  | write f buf junk =>
    obtain ⟨⟨t, n⟩, ht, rfl⟩ := Option.map_eq_some_iff.mp hop
    obtain ⟨text, s₁, i, s₂, j, s₃, htext, h₁, h₂, h₃, h₄, -⟩ := lfsWrite_eq_some ht
    have hinv₁ : HoldsTexts P s₁ :=
      h.congr (metaDataBlock_bufferCache (s := { s with loadPath := s.loadPath ++ f.path }) h₁)
    obtain ⟨hinv₂, hused, -⟩ := hinv₁.wbufDataBlock hleaves h₂
    have hused₃ : (s₃.bufferCache.cblocks j).freeFlag = false :=
      ((makeRoom_framed h₃).freeFlag j).trans hused
    have hinv₃ : HoldsTexts P s₃ := by
      unfold makeRoom at h₃
      split at h₃
      · exact (hinv₂.flushBlock hleaves hused h₃).1
      · obtain rfl := Option.some.inj h₃
        exact hinv₂
    have hnul : nul ∉ text := by
      rw [stringAt_eq_some htext]
      exact nul_notMem_cstr _
    exact hinv₃.appendText hused₃ hnul (hpass f buf junk rfl text htext) h₄

/-- Complete lines come behind what a block holds. -/
theorem HoldsTexts.passLines {op : Op} (h : HoldsTexts Buffered s) (hpass : PassesLines op)
    (hop : Log.step s op = some s') : HoldsTexts Buffered s' := by
  refine h.step flushLeaves_lines ?_ hop
  rintro f buf junk rfl text htext old hold
  obtain ⟨ls, hs, hls, -⟩ := hpass
  obtain rfl := Option.some.inj (hs.symm.trans htext)
  exact hold.append fun l hl => (hls l hl).1

theorem holdsTexts_fresh (hnil : P [])
    (hfresh : s.bufferCache = createCache (4096 * 10) 4096 .WRITE_BUFFER) : HoldsTexts P s := by
  have hempty : ∀ j, (s.bufferCache.cblocks j).Holds [] := by
    intro j
    rw [hfresh]
    exact ⟨List.not_mem_nil, BLOCK_SIZE_pos, (padded_nil _).symm, rfl⟩
  exact ⟨by rw [hfresh]; rfl, fun j => ⟨[], hnil, hempty j⟩, fun j _ => hempty j⟩

/-- A run that starts with fresh write buffers, and whose writes pass complete lines, touches no byte
outside the blocks if and only if each call `StaysInside`. -/
theorem accesses_inside_iff {ops : List Op}
    (hfresh : s.bufferCache = createCache (4096 * 10) 4096 .WRITE_BUFFER)
    (hops : ∀ op ∈ ops, PassesLines op) :
    Each step (fun s op => ∀ i ∈ accesses s op, i < s.bufferCache.cacheBlockSize) s ops ↔
      Each step StaysInside s ops := by
  have hpass : Each step (fun _ op => PassesLines op) s ops := fun es' op hp _ _ =>
    hops op (hp.subset (List.mem_append_right es' (List.mem_singleton_self op)))
  refine each_congr (holdsTexts_fresh (.lines [] (List.forall_mem_nil _)) hfresh)
    (fun s op s' h hp hop => h.passLines hp hop) ?_ hpass
  intro s op h hp
  rw [h.blockSize]
  exact h.accesses_iff hp

/-- The level and the timestamp of a line. -/
def lineHead : List Char := "E|Sat Mar 17 20:33:43 EDT 2012|".toList

/-- A line with a text of `n` characters. -/
def wideLine (n : ℕ) : List Char := lineHead ++ List.replicate n 'x'

theorem isLine_wideLine (n : ℕ) : IsLine (wideLine n) := by
  refine ⟨?_, ?_, Timestamped.append (by decide) _⟩
  all_goals
    intro h
    rcases List.mem_append.mp h with h | h
    · revert h
      decide
    · exact absurd (List.eq_of_mem_replicate h) (by decide)

theorem length_wideLine (n : ℕ) : (wideLine n).length = 31 + n := by
  have hhead : lineHead.length = 31 := by decide
  rw [wideLine, List.length_append, hhead, List.length_replicate]

/-- A write of `k` lines with texts of `n` characters. -/
def writeLines (f : Name) (n k : ℕ) : Op :=
  .write f (joinLines (List.replicate k (wideLine n)) ++ [nul]) {}

theorem passesLines_writeLines (f : Name) {n k : ℕ} (hn : 31 + n < 200)
    (hk : k * (31 + n + 1) ≤ 4096 - 200) : PassesLines (writeLines f n k) := by
  have hline : ∀ l ∈ List.replicate k (wideLine n), IsLine l ∧ l.length < MAX_LINE_SIZE := by
    intro l hl
    rw [List.eq_of_mem_replicate hl]
    refine ⟨isLine_wideLine n, ?_⟩
    rw [length_wideLine]
    exact hn
  refine ⟨_, stringAt_append_nul (nul_notMem_joinLines fun l hl => (hline l hl).1) [], hline, ?_⟩
  rw [joinLines, List.flatMap_replicate, List.length_flatten, List.map_replicate,
    List.sum_replicate_nat, List.length_append, length_wideLine]
  exact hk

/-- The second write flushes the first. -/
theorem accesses_inside_iff_flush :
    Each step (fun s op => ∀ i ∈ accesses s op, i < s.bufferCache.cacheBlockSize) Fs.init
      [.mknod firstFile, writeLines firstFile 160 2, writeLines firstFile 160 20] := by
  refine (accesses_inside_iff rfl ?_).mpr (by decide +kernel)
  simp only [List.forall_mem_cons]
  exact ⟨trivial, passesLines_writeLines _ (by decide) (by decide),
    passesLines_writeLines _ (by decide) (by decide), List.forall_mem_nil _⟩

/-- Two writes of half a block each: the NUL of the second is behind the block. -/
theorem not_accesses_inside_exact_fit :
    (∀ op ∈ [.mknod firstFile, writeLines firstFile 96 16, writeLines firstFile 96 16],
      PassesLines op) ∧
    ¬ Each step (fun s op => ∀ i ∈ accesses s op, i < s.bufferCache.cacheBlockSize) Fs.init
      [.mknod firstFile, writeLines firstFile 96 16, writeLines firstFile 96 16] := by
  constructor
  · simp only [List.forall_mem_cons]
    exact ⟨trivial, passesLines_writeLines _ (by decide) (by decide),
      passesLines_writeLines _ (by decide) (by decide), List.forall_mem_nil _⟩
  · have hrun : ((run step Fs.init [.mknod firstFile, writeLines firstFile 96 16]).map fun s =>
        ((accesses s (writeLines firstFile 96 16)).contains 4096, s.bufferCache.cacheBlockSize)) =
        some (true, 4096) := by decide +kernel
    obtain ⟨s, hs, hat⟩ := Option.map_eq_some_iff.mp hrun
    obtain ⟨hmem, hsize⟩ := Prod.mk.inj hat
    intro hinside
    have hlt := hinside [.mknod firstFile, writeLines firstFile 96 16] _ (List.prefix_refl _) s hs
      4096 (List.contains_iff_mem.mp hmem)
    rw [hsize] at hlt
    exact absurd hlt (Nat.lt_irrefl _)

end QuorumLogFs.Log
