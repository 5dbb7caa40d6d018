import QuorumLogFs.Log.Line

/-!
# A flush of complete lines

`pieces` cuts a list of lines at every change of date; each piece goes to the chunk file of its first
line. `flushBuffer_lines` says that these are the appends of `write_buffer_to_disk` on a buffer of
complete lines and possibly the start of another one, with enough fuel for its loop and for any
content of uninitialised memory. `writeBufferToDisk_lines` says what follows for the record and the
chunk files when there is no such start; what stays in the buffer then depends on one byte, which
lies behind the block or in its zeroed part.
-/

namespace QuorumLogFs.Log

open QuorumLogFs.Basis

/-- What is appended where, of the lines behind `pending`, the bytes of the piece that `start`
opened. -/
def pieces (chunk_path file_name : List Char) :
    Stamp → List Char → List Line → List (List Char × List Char)
  | start, pending, [] => [(start.chunk chunk_path file_name, pending)]
  | start, pending, l :: ls =>
    if l.stamp.sameDate start then pieces chunk_path file_name start (pending ++ l.bytes) ls
    else (start.chunk chunk_path file_name, pending) :: pieces chunk_path file_name l.stamp l.bytes ls

/-- Appends made one after the other. -/
def appendAll {δ : Type} (append : List Char → List Char → δ → Option δ) :
    List (List Char × List Char) → δ → Option δ
  | [], d => some d
  | (name, bytes) :: writes, d => (append name bytes d).bind (appendAll append writes)

theorem appendAll_singleton {δ : Type} (append : List Char → List Char → δ → Option δ)
    (name bytes : List Char) (d : δ) : appendAll append [(name, bytes)] d = append name bytes d := by
  cases h : append name bytes d <;> simp [appendAll, h]

theorem appendAll_recordChunk (writes done : List (List Char × List Char)) :
    appendAll recordChunk writes done = some (done ++ writes) := by
  induction writes generalizing done with
  | nil => simp [appendAll]
  | cons w writes ih =>
    show appendAll recordChunk writes (done ++ [w]) = some (done ++ w :: writes)
    rw [ih, List.append_assoc, List.singleton_append]

/-- What each append preserves, all of them preserve. -/
theorem appendAll_keeps {δ : Type} {append : List Char → List Char → δ → Option δ} {P : δ → Prop}
    {writes : List (List Char × List Char)} {d d' : δ}
    (hP : ∀ w ∈ writes, ∀ d d', append w.1 w.2 d = some d' → P d → P d')
    (h : appendAll append writes d = some d') (hd : P d) : P d' := by
  induction writes generalizing d with
  | nil =>
    obtain rfl := Option.some.inj h
    exact hd
  | cons w writes ih =>
    obtain ⟨e, he, h⟩ := Option.bind_eq_some_iff.mp h
    obtain ⟨hw, hwrites⟩ := List.forall_mem_cons.mp hP
    exact ih hwrites h (hw d e he hd)

/-- The flush of the lines behind `pending`, the bytes of the piece that `start` opened. -/
def flushLines (chunk_path : List Char) :
    Stamp → List Char → List Line → Mdata × ChunkFiles → Option (Mdata × ChunkFiles)
  | start, pending, [], disk => appendChunk (start.chunk chunk_path disk.1.fileName) pending disk
  | start, pending, l :: ls, disk =>
    if l.stamp.sameDate start then flushLines chunk_path start (pending ++ l.bytes) ls disk
    else (appendChunk (start.chunk chunk_path disk.1.fileName) pending disk).bind
      (flushLines chunk_path l.stamp l.bytes ls)

/-- The last line of a buffer. -/
def lastLine (l : Line) (ls : List Line) : List Char := (ls.map Line.render).getLastD l.render

/-- The byte that is looked up after the flush lies behind the block and is a newline. -/
def Drained (junk : Junk) (n : ℕ) (l : Line) (ls : List Line) : Prop :=
  n ≤ (bytesOf (l :: ls)).length + (lastLine l ls).length ∧
    junk.behind ((bytesOf (l :: ls)).length + (lastLine l ls).length) = '\n'

instance (junk : Junk) (n : ℕ) (l : Line) (ls : List Line) : Decidable (Drained junk n l ls) :=
  inferInstanceAs (Decidable (_ ∧ _))

/-- The block after the flush of a buffer of complete lines. -/
def CBlock.flushed (b : CBlock) (junk : Junk) (n : ℕ) (l : Line) (ls : List Line) : CBlock :=
  if Drained junk n l ls then { b with buf := zeros n, offset := 0 }
  else { b with buf := padded n (lastLine l ls), offset := (lastLine l ls).length }

/-- What follows the complete lines of a buffer: the start of a line. -/
structure IsPartial (tail : List Char) : Prop where
  newline_notMem : '\n' ∉ tail
  fits : tail.length < MAX_LINE_SIZE

theorem isPartial_nil : IsPartial [] := ⟨List.not_mem_nil, by decide⟩

/-- What `line` holds when the loop stops: the start of a line, else the last line. -/
def lineLeft (tail line : List Char) : List Char := if cstr tail = [] then line else cstr tail

/-! ## One round of the loop -/

section Loop

variable {δ : Type} {append : List Char → List Char → δ → Option δ} {junk : Junk}
  {chunk_path file_name buf : List Char} {n : ℕ} {v : FlushVars δ}

/-- A line of the same date only moves the offset. -/
theorem nextLine_same {s start : Stamp} (hdate : v.lastSeenDate = start.render)
    (hsame : s.sameDate start = true) :
    v.nextLine append junk chunk_path file_name buf s.render =
      some { v with offset := v.offset + v.line.length + 1 } := by
  unfold FlushVars.nextLine
  simp only [hdate, isDatesEqual_render, hsame, Option.bind_eq_bind, Option.bind_some, if_true,
    Option.map_some]

/-- A line of another date closes the piece and opens the next one. -/
theorem nextLine_new {s start : Stamp} (hpath : (chunk_path ++ s.folder).length < MAX_PATH_NAME_SIZE)
    (hdate : v.lastSeenDate = start.render) (hnew : s.sameDate start = false) :
    v.nextLine append junk chunk_path file_name buf s.render =
      (v.writeChunk append chunk_path file_name buf).map fun w =>
        { w with
          startTime := s.time.chars, startOffset := w.offset, lastSeenDate := s.render,
          folderName := s.folder, offset := w.offset + w.line.length + 1 } := by
  unfold FlushVars.nextLine FlushVars.newDate
  rw [hdate, isDatesEqual_render, hnew]
  cases v.writeChunk append chunk_path file_name buf with
  | none => rfl
  | some w => simp [createDateFolder_render s _ hpath, scanStartTime_render, argStr,
      s.length_time_lt]

/-- Behind the complete lines the loop stops, in front of the start of a line too: the byte behind
that is not a newline. -/
theorem flushLoop_end {text tail : List Char} {fuel : ℕ} (htail : IsPartial tail)
    (hn : (text ++ tail).length < n) (hoff : v.offset = text.length) :
    flushLoop append junk chunk_path file_name (padded n (text ++ tail)) (fuel + 1) v =
      some { v with line := lineLeft tail v.line } := by
  have hs : stringAt (padded n (text ++ tail)) text.length = some (cstr tail) :=
    stringAt_padded_cstr hn
  by_cases hnone : cstr tail = []
  · rw [lineLeft, if_pos hnone]
    show _ = some v
    unfold flushLoop
    rw [hoff, hs, hnone]
    rfl
  · have hshort : cstr tail <+: tail := List.takeWhile_prefix _
    have hread : readLine (cstr tail) = some (cstr tail) :=
      readLine_partial hnone fun h => htail.newline_notMem (hshort.subset h)
    have hfits : (cstr tail).length < MAX_LINE_SIZE := hshort.length_le.trans_lt htail.fits
    have hnul : nul ≠ '\n' := by decide
    rw [lineLeft, if_neg hnone]
    unfold flushLoop
    simp only [hoff, hs, Option.bind_eq_bind, Option.bind_some, hread, hfits, if_true,
      byteAt_stringAt hs, hnul, ne_eq, not_false_eq_true]

/-- In front of a complete line the loop takes the line. -/
theorem flushLoop_line {text pre tail : List Char} {l : Line} {ls : List Line} {fuel : ℕ}
    (htext : text = pre ++ bytesOf (l :: ls)) (hn : (text ++ tail).length < n)
    (hoff : v.offset = pre.length) :
    flushLoop append junk chunk_path file_name (padded n (text ++ tail)) (fuel + 1) v =
      ({ v with line := l.render }.nextLine append junk chunk_path file_name
        (padded n (text ++ tail)) l.stamp.render).bind
        (flushLoop append junk chunk_path file_name (padded n (text ++ tail)) fuel) := by
  subst htext
  have hs := stringAt_padded_cstr (s := bytesOf (l :: ls) ++ tail) ((List.append_assoc _ _ _) ▸ hn)
  have hread : readLine (cstr (bytesOf (l :: ls) ++ tail)) = some l.render := by
    rw [cstr_append (nul_notMem_bytesOf (l :: ls))]
    simpa [Line.bytes] using readLine_bytes l (bytesOf ls ++ cstr tail)
  have hbyte : byteAt (padded n (pre ++ (bytesOf (l :: ls) ++ tail))) junk.behind
      (pre.length + l.render.length) = '\n' := by
    have := byteAt_padded (n := n) (pre ++ l.render) '\n' (bytesOf ls ++ tail) junk.behind
    simpa [Line.bytes] using this
  rw [List.append_assoc]
  conv_lhs => unfold flushLoop
  simp only [hoff, hs, Option.bind_eq_bind, Option.bind_some, hread, l.length_render_lt, if_true,
    hbyte, scanTimestamp_render, l.stamp_fits, ne_eq, not_true_eq_false, if_false]

/-! ## The whole loop -/

/-- The flush is at the end of `pending`, a piece that `start` opened behind `done`. -/
structure FlushVars.AtPiece (start : Stamp) (done pending : List Char) (v : FlushVars δ) : Prop where
  offset : v.offset = (done ++ pending).length
  startOffset : v.startOffset = done.length
  date : v.lastSeenDate = start.render
  time : v.startTime = start.time.chars
  folder : v.folderName = start.folder

/-- Closing a piece appends its bytes to the chunk file of its first line. -/
theorem FlushVars.AtPiece.writeChunk {start : Stamp} {text done pending rest : List Char}
    (htext : text = done ++ pending ++ rest) (h : v.AtPiece start done pending) :
    v.writeChunk append chunk_path file_name (padded n text) =
      (append (start.chunk chunk_path file_name) pending v.disk).map
        fun disk => { v with disk := disk } := by
  subst htext
  unfold FlushVars.writeChunk
  rw [h.offset, h.startOffset, h.time, h.folder, List.length_append, slice_padded]
  rfl

/-- The loop and the last chunk after it append the rest of the pieces. -/
theorem flushLoop_lines (append : List Char → List Char → δ → Option δ) (junk : Junk)
    (file_name : List Char) {text tail : List Char} (htail : IsPartial tail)
    (hn : (text ++ tail).length < n) {start : Stamp} {done pending : List Char} {ls : List Line}
    (hpath : ∀ l ∈ ls, (chunk_path ++ l.stamp.folder).length < MAX_PATH_NAME_SIZE)
    {fuel : ℕ} (htext : text = done ++ pending ++ bytesOf ls) (hv : v.AtPiece start done pending)
    (hfuel : ls.length < fuel) :
    ((flushLoop append junk chunk_path file_name (padded n (text ++ tail)) fuel v).bind fun w =>
        w.writeChunk append chunk_path file_name (padded n (text ++ tail))).map
          (fun w => (w.offset, w.line, w.disk)) =
      (appendAll append (pieces chunk_path file_name start pending ls) v.disk).map fun disk =>
        (text.length, lineLeft tail ((ls.map Line.render).getLastD v.line), disk) := by
  induction ls generalizing start done pending fuel v with
  | nil =>
    obtain ⟨fuel, rfl⟩ : ∃ k, fuel = k + 1 := ⟨fuel - 1, by simp at hfuel; omega⟩
    have hoff : v.offset = text.length := by rw [hv.offset, htext]; simp
    have hleft : { v with line := lineLeft tail v.line }.AtPiece start done pending :=
      ⟨hv.offset, hv.startOffset, hv.date, hv.time, hv.folder⟩
    have htext' : text ++ tail = done ++ pending ++ tail := by rw [htext]; simp
    rw [flushLoop_end htail hn hoff, Option.bind_some, hleft.writeChunk htext', pieces,
      appendAll_singleton, Option.map_map, ← hoff]
    rfl
  | cons l ls ih =>
    obtain ⟨fuel, rfl⟩ : ∃ k, fuel = k + 1 := ⟨fuel - 1, by simp at hfuel; omega⟩
    have hfuel' : ls.length < fuel := by simpa using hfuel
    have hpath' := fun k hk => hpath k (List.mem_cons_of_mem l hk)
    rw [flushLoop_line htext hn hv.offset, pieces, List.map_cons, List.getLastD_cons]
    -- the state in which the body is entered
    obtain ⟨w, hw, hline, hdisk, hpiece⟩ : ∃ w, { v with line := l.render } = w ∧
        w.line = l.render ∧ w.disk = v.disk ∧ w.AtPiece start done pending :=
      ⟨_, rfl, rfl, rfl, hv.offset, hv.startOffset, hv.date, hv.time, hv.folder⟩
    rw [hw, ← hline, ← hdisk]
    cases hsame : l.stamp.sameDate start with
    | true =>
      -- the line joins the piece
      rw [nextLine_same hpiece.date hsame, Option.bind_some, if_pos rfl]
      refine ih hpath' (by simp [htext])
        ⟨?_, hpiece.startOffset, hpiece.date, hpiece.time, hpiece.folder⟩ hfuel'
      simp only [hpiece.offset, hline, Line.bytes, List.length_append, List.length_singleton]
      omega
    | false =>
      -- the piece is written and the line opens the next one
      have htext' : text ++ tail = done ++ pending ++ (bytesOf (l :: ls) ++ tail) := by
        rw [htext, List.append_assoc _ _ tail]
      rw [nextLine_new (hpath l List.mem_cons_self) hpiece.date hsame, if_neg (by simp),
        hpiece.writeChunk htext', appendAll]
      cases append (start.chunk chunk_path file_name) pending w.disk with
      | none => rfl
      | some disk =>
        refine ih hpath' (by simp [htext]) ⟨?_, hpiece.offset, rfl, rfl, rfl⟩ hfuel'
        simp only [hpiece.offset, hline, Line.bytes, List.length_append, List.length_singleton]
        omega

/-! ## The flush -/

theorem length_le_bytesOf (ls : List Line) : ls.length ≤ (bytesOf ls).length := by
  induction ls with
  | nil => exact le_rfl
  | cons l ls ih =>
    simp only [bytesOf_cons, Line.bytes, List.length_append, List.length_cons, List.length_nil]
    omega

/-- The last line is one of the lines. -/
theorem lastLine_mem (l : Line) (ls : List Line) : ∃ k ∈ l :: ls, lastLine l ls = k.render := by
  induction ls generalizing l with
  | nil => exact ⟨l, List.mem_singleton_self l, rfl⟩
  | cons k ls ih =>
    obtain ⟨m, hm, heq⟩ := ih k
    refine ⟨m, List.mem_cons_of_mem l hm, ?_⟩
    rw [← heq, lastLine, lastLine, List.map_cons, List.getLastD_cons]

theorem length_lastLine_le (l : Line) (ls : List Line) :
    (lastLine l ls).length ≤ (bytesOf (l :: ls)).length := by
  obtain ⟨k, hk, heq⟩ := lastLine_mem l ls
  rw [heq, bytesOf, List.length_flatMap]
  calc k.render.length ≤ k.bytes.length := by simp [Line.bytes]
    _ ≤ _ := List.le_sum_of_mem (List.mem_map.mpr ⟨k, hk, rfl⟩)

/-- A line that is read first sets the variables. -/
theorem flushFirst_render {l : Line} {s : List Char}
    (hpath : (chunk_path ++ l.stamp.folder).length < MAX_PATH_NAME_SIZE)
    (hs : stringAt buf 0 = some s) (hread : readLine s = some l.render) (disk : δ) :
    flushFirst junk chunk_path buf disk =
      some ⟨l.render.length + 1, 0, l.render, l.stamp.render, l.stamp.time.chars, l.stamp.folder,
        disk⟩ := by
  have hstamp : argStr (scanTimestamp l.render) 0 junk.timestamp = l.stamp.render := by
    rw [scanTimestamp_render]
    rfl
  have htime : argStr (scanStartTime l.stamp.render) 0 junk.startTime = l.stamp.time.chars := by
    rw [scanStartTime_render]
    rfl
  unfold flushFirst
  simp only [hs, Option.bind_eq_bind, Option.bind_some, hread, hstamp, htime, l.length_render_lt,
    l.stamp_fits, l.stamp.length_time_lt, and_self, if_true, createDateFolder_render l.stamp _ hpath]

/-- The first line of the buffer opens the first piece. -/
theorem flushFirst_lines {l : Line} {ls : List Line} {tail : List Char}
    (hpath : (chunk_path ++ l.stamp.folder).length < MAX_PATH_NAME_SIZE)
    (hn : (bytesOf (l :: ls) ++ tail).length < n) (disk : δ) :
    flushFirst junk chunk_path (padded n (bytesOf (l :: ls) ++ tail)) disk =
      some ⟨l.render.length + 1, 0, l.render, l.stamp.render, l.stamp.time.chars, l.stamp.folder,
        disk⟩ := by
  have hs : stringAt (padded n (bytesOf (l :: ls) ++ tail)) 0 =
      some (cstr (bytesOf (l :: ls) ++ tail)) := by
    rw [← List.nil_append (bytesOf (l :: ls) ++ tail)]
    exact stringAt_padded_cstr hn
  have hread : readLine (cstr (bytesOf (l :: ls) ++ tail)) = some l.render := by
    rw [cstr_append (nul_notMem_bytesOf (l :: ls))]
    simpa [Line.bytes] using readLine_bytes l (bytesOf ls ++ cstr tail)
  exact flushFirst_render hpath hs hread disk

/-- The byte that is looked up is a newline exactly when it lies behind the block and is one. -/
theorem byteAt_zeros_eq_newline (junk : Junk) (n : ℕ) (l : Line) (ls : List Line) :
    byteAt (zeros n) junk.behind ((bytesOf (l :: ls)).length + (lastLine l ls).length) = '\n' ↔
      Drained junk n l ls := by
  rw [Drained]
  rcases Nat.lt_or_ge ((bytesOf (l :: ls)).length + (lastLine l ls).length) n with h | h
  · have hnul : nul ≠ '\n' := by decide
    simp only [byteAt_zeros h, hnul, false_iff, not_and]
    omega
  · rw [byteAt_zeros_behind h, and_iff_right h]

/-- What a flush leaves in the buffer, when `line` holds this and it stopped at `offset`. -/
def CBlock.left (b : CBlock) (junk : Junk) (n offset : ℕ) (line : List Char) : CBlock :=
  if byteAt (zeros n) junk.behind (offset + line.length) = '\n' then
    { b with buf := zeros n, offset := 0 }
  else { b with buf := padded n line, offset := line.length }

/-- A flush of complete lines and possibly the start of another one: its appends are the pieces,
whatever an append does. -/
theorem flushBuffer_lines (append : List Char → List Char → δ → Option δ) (junk : Junk)
    (file_name : List Char) {b : CBlock} {l : Line} {ls : List Line} {tail : List Char}
    (hpath : ∀ k ∈ l :: ls, (chunk_path ++ k.stamp.folder).length < MAX_PATH_NAME_SIZE)
    (htail : IsPartial tail) (hbuf : b.buf = padded n (bytesOf (l :: ls) ++ tail))
    (hn : (bytesOf (l :: ls) ++ tail).length < n) (d : δ) :
    flushBuffer append junk chunk_path file_name b n d =
      (appendAll append (pieces chunk_path file_name l.stamp l.bytes ls) d).map fun d =>
        (b.left junk n (bytesOf (l :: ls)).length (lineLeft tail (lastLine l ls)), d) := by
  have hfuel : ls.length < (padded n (bytesOf (l :: ls) ++ tail)).length + 1 := by
    have hlines := length_le_bytesOf (l :: ls)
    rw [List.length_append] at hn
    rw [length_padded (by rw [List.length_append]; omega)]
    simp only [List.length_cons] at hlines
    omega
  obtain ⟨v, hv, hdisk, hline, hpiece⟩ : ∃ v : FlushVars δ,
      flushFirst junk chunk_path (padded n (bytesOf (l :: ls) ++ tail)) d = some v ∧ v.disk = d ∧
        v.line = l.render ∧ v.AtPiece l.stamp [] l.bytes :=
    ⟨_, flushFirst_lines (hpath l List.mem_cons_self) hn d, rfl, rfl, by simp [Line.bytes], rfl, rfl,
      rfl, rfl⟩
  have htext : bytesOf (l :: ls) = [] ++ l.bytes ++ bytesOf ls := rfl
  have hloop := flushLoop_lines append junk file_name htail hn
    (fun k hk => hpath k (List.mem_cons_of_mem l hk)) htext hpiece hfuel
  have hleft : (lineLeft tail (lastLine l ls)).length < n := by
    have hshort : (cstr tail).length ≤ tail.length := (List.takeWhile_prefix _).length_le
    have hlast := length_lastLine_le l ls
    rw [List.length_append] at hn
    unfold lineLeft
    split <;> omega
  rw [hdisk, hline] at hloop
  unfold flushBuffer
  rw [hbuf, hv]
  simp only [Option.bind_eq_bind, Option.bind_some]
  rw [← Option.bind_assoc]
  cases hw : (flushLoop append junk chunk_path file_name (padded n (bytesOf (l :: ls) ++ tail))
      ((padded n (bytesOf (l :: ls) ++ tail)).length + 1) v).bind
        (FlushVars.writeChunk append chunk_path file_name
          (padded n (bytesOf (l :: ls) ++ tail))) with
  | none =>
    rw [hw] at hloop
    rw [Option.map_eq_none_iff.mp hloop.symm]
    rfl
  | some w =>
    rw [hw] at hloop
    obtain ⟨disk', hdisk', heq⟩ := Option.map_eq_some_iff.mp hloop.symm
    obtain ⟨hoff, hlast, hd⟩ : (bytesOf (l :: ls)).length = w.offset ∧
        lineLeft tail (lastLine l ls) = w.line ∧ disk' = w.disk := by
      obtain ⟨hoff, hrest⟩ := Prod.mk.inj heq
      exact ⟨hoff, Prod.mk.inj hrest⟩
    rw [hdisk', Option.bind_some, Option.map_some, ← hd, ← hoff, ← hlast, strcpy_zeros, if_pos hleft,
      CBlock.left]
    by_cases hbyte : byteAt (zeros n) junk.behind ((bytesOf (l :: ls)).length +
        (lineLeft tail (lastLine l ls)).length) = '\n'
    · rw [if_neg (not_not.mpr hbyte), if_pos hbyte]
    · rw [if_pos hbyte, if_neg hbyte]
      rfl

/-- The pieces of the lines, appended by the code. -/
theorem appendAll_pieces (start : Stamp) (pending : List Char) (ls : List Line)
    (d : Mdata × ChunkFiles) :
    appendAll appendChunk (pieces chunk_path d.1.fileName start pending ls) d =
      flushLines chunk_path start pending ls d := by
  induction ls generalizing start pending d with
  | nil =>
    rw [pieces, appendAll_singleton, flushLines]
  | cons l ls ih =>
    rw [pieces, flushLines]
    split
    · exact ih start _ d
    · rw [appendAll]
      cases hd : appendChunk (start.chunk chunk_path d.1.fileName) pending d with
      | none => rfl
      | some d' =>
        rw [Option.bind_some, Option.bind_some, ← appendChunk_fileName hd]
        exact ih l.stamp l.bytes d'

/-- A flush of complete lines. -/
theorem writeBufferToDisk_lines (junk : Junk) (hpath : chunk_path.length ≤ 150)
    {b : CBlock} {l : Line} {ls : List Line} (hbuf : b.buf = padded n (bytesOf (l :: ls)))
    (hn : (bytesOf (l :: ls)).length < n) (disk : Mdata × ChunkFiles) :
    writeBufferToDisk junk chunk_path b n disk =
      (flushLines chunk_path l.stamp l.bytes ls disk).map fun disk =>
        (b.flushed junk n l ls, disk) := by
  have hpaths : ∀ k ∈ l :: ls, (chunk_path ++ k.stamp.folder).length < MAX_PATH_NAME_SIZE :=
    fun k _ => k.stamp.folder_fits hpath
  have hflushed : b.left junk n (bytesOf (l :: ls)).length (lastLine l ls) = b.flushed junk n l ls := by
    unfold CBlock.left CBlock.flushed
    simp only [byteAt_zeros_eq_newline]
  rw [← List.append_nil (bytesOf (l :: ls))] at hbuf hn
  have hflush := flushBuffer_lines appendChunk junk disk.1.fileName hpaths isPartial_nil hbuf hn disk
  rw [appendAll_pieces] at hflush
  rw [writeBufferToDisk, hflush, ← hflushed]
  rfl

end Loop

end QuorumLogFs.Log
