import QuorumLogFs.Basis.Int32
import QuorumLogFs.Log.Cache

/-!
# Writing a buffer to disk

Reference: `write_buffer_to_disk`, `create_date_folder`, `is_dates_equal` in `Cache.c`.

A write buffer is a text of lines `level|timestamp|text`. The flush cuts it at every change of date
and appends each piece to the chunk file named after the date, the file and the time of the piece's
first line. Whatever is left in `line` at the end may stay in the buffer.

Local variables that the code reads before it sets them hold whatever the stack holds; so does the
memory behind the block. Both are arguments here (`Junk`). An operation that would leave an array
has no result. File calls succeed.
-/

namespace QuorumLogFs.Log

open QuorumLogFs.Basis

/-- The files under the chunk path, by name. -/
abbrev ChunkFiles := List Char → Option (List Char)

/-- Uninitialised locals of `create_date_folder`. -/
structure FolderLocals where
  month : List Char := []
  date : List Char := []
  time : List Char := []
  year : List Char := []

/-- Uninitialised locals of `is_dates_equal`, for one of its two timestamps. -/
structure DateLocals where
  month : List Char := []
  date : ℤ := 0
  year : ℤ := 0

/-- What a flush finds in memory that it has not written: its own locals, those of the functions it
calls (by the offset at which it calls them) and the bytes behind the block. -/
structure Junk where
  timestamp : List Char := []
  startTime : List Char := []
  folderName : List Char := []
  folder : ℕ → FolderLocals := fun _ => {}
  date1 : ℕ → DateLocals := fun _ => {}
  date2 : ℕ → DateLocals := fun _ => {}
  behind : ℕ → Char := fun _ => nul

/-! ## Reading a line -/

/-- `sscanf(buf,"%[^\n]\n",line)` when it succeeds. -/
def readLine (buf : List Char) : Option (List Char) :=
  match scan [.upto '\n' true, .white] buf with
  | [.str line] => some line
  | _ => none

/-- `sscanf(line,"%*[^|]|%[^|]|%*s",timestamp)` -/
def scanTimestamp (line : List Char) : List Arg :=
  scan [.upto '|' false, .lit '|', .upto '|' true, .lit '|', .str false] line

/-- `sscanf(timestamp,"%*[^ ] %*[^ ] %*[^ ] %[^ ] %*[^ ] %*s",startTime)` -/
def scanStartTime (timestamp : List Char) : List Arg :=
  scan [.upto ' ' false, .white, .upto ' ' false, .white, .upto ' ' false, .white, .upto ' ' true,
    .white, .upto ' ' false, .white, .str false] timestamp

/-- `create_date_folder`: the folder's name. -/
def createDateFolder (junk : FolderLocals) (time_stamp folder_path : List Char) :
    Option (List Char) :=
  let args := scan [.upto ' ' false, .white, .upto ' ' true, .white, .upto ' ' true, .white,
    .upto ' ' true, .white, .upto ' ' false, .white, .str true] time_stamp
  let month := argStr args 0 junk.month
  let date := argStr args 1 junk.date
  let time := argStr args 2 junk.time
  let year := argStr args 3 junk.year
  let tmp := month ++ '-' :: (date ++ '-' :: year)
  if month.length < 15 ∧ date.length < 3 ∧ time.length < 12 ∧ year.length < 5 ∧
      (folder_path ++ tmp).length < MAX_PATH_NAME_SIZE then some tmp
  else none

/-- `sscanf(timestamp,"%*[^ ] %[^ ] %d %*[^ ] %*[^ ] %d",month,&date,&year)` -/
def readDate (junk : DateLocals) (timestamp : List Char) : DateLocals :=
  let args := scan [.upto ' ' false, .white, .upto ' ' true, .white, .int, .white, .upto ' ' false,
    .white, .upto ' ' false, .white, .int] timestamp
  ⟨argStr args 0 junk.month, argInt args 1 junk.date, argInt args 2 junk.year⟩

/-- `is_dates_equal` -/
def isDatesEqual (junk1 junk2 : DateLocals) (timestamp1 timestamp2 : List Char) : Option Bool :=
  let d1 := readDate junk1 timestamp1
  let d2 := readDate junk2 timestamp2
  if d1.month.length < 20 ∧ d2.month.length < 20 then
    some (d1.month = d2.month ∧ d1.date = d2.date ∧ d1.year = d2.year)
  else none

/-! ## Chunk files -/

/-- `chunk_path folderName / file_name - startTime` -/
def chunkFileName (chunk_path folderName file_name startTime : List Char) : List Char :=
  chunk_path ++ (folderName ++ '/' :: (file_name ++ '-' :: startTime))

/-- Append bytes to a chunk file. A file that does not exist is created and its name goes to the
record's path list. -/
def appendChunk (name bytes : List Char) (d : Mdata × ChunkFiles) : Option (Mdata × ChunkFiles) :=
  if name.length < MAX_FILE_NAME_SIZE then
    match d.2 name with
    | none => (d.1.pushPath name).map fun m =>
        (m.grow bytes.length, Function.update d.2 name (some bytes))
    | some old => some (d.1.grow bytes.length, Function.update d.2 name (some (old ++ bytes)))
  else none

/-! ## The flush -/

/-- The variables of `write_buffer_to_disk`, with what its appends change. -/
structure FlushVars (δ : Type) where
  offset : ℕ
  startOffset : ℕ
  line : List Char
  lastSeenDate : List Char
  startTime : List Char
  folderName : List Char
  disk : δ

section

-- `append name bytes` stands for the `stat`, `open`, `write` and `close` of a chunk file
variable {δ : Type} (append : List Char → List Char → δ → Option δ) (junk : Junk)
  (chunk_path file_name buf : List Char)

/-- Write `buf[startOffset, offset)` to the chunk file of the current date and start time. -/
def FlushVars.writeChunk (v : FlushVars δ) : Option (FlushVars δ) :=
  (append (chunkFileName chunk_path v.folderName file_name v.startTime)
    ((buf.drop v.startOffset).take (v.offset - v.startOffset)) v.disk).map
      fun disk => { v with disk := disk }

/-- The first line sets the date and the start time. -/
def flushFirst (disk : δ) : Option (FlushVars δ) := do
  let s ← stringAt buf 0
  match readLine s with
  | none => some ⟨0, 0, [], [], junk.startTime, junk.folderName, disk⟩
  | some line =>
    let timestamp := argStr (scanTimestamp line) 0 junk.timestamp
    let startTime := argStr (scanStartTime timestamp) 0 junk.startTime
    if line.length < MAX_LINE_SIZE ∧ timestamp.length < 50 ∧ startTime.length < 50 then do
      let folderName ← createDateFolder (junk.folder 0) timestamp chunk_path
      some ⟨line.length + 1, 0, line, timestamp, startTime, folderName, disk⟩
    else none

/-- A new date closes the chunk; the next one starts at this line. -/
def FlushVars.newDate (timestamp : List Char) (v : FlushVars δ) : Option (FlushVars δ) := do
  let v ← v.writeChunk append chunk_path file_name buf
  let startTime := argStr (scanStartTime timestamp) 0 v.startTime
  let folderName ← createDateFolder (junk.folder v.offset) timestamp chunk_path
  if startTime.length < 50 then
    some { v with
      startTime := startTime, startOffset := v.offset, lastSeenDate := timestamp,
      folderName := folderName }
  else none

/-- The loop body for a complete line with a timestamp. -/
def FlushVars.nextLine (timestamp : List Char) (v : FlushVars δ) : Option (FlushVars δ) := do
  let same ← isDatesEqual (junk.date1 v.offset) (junk.date2 v.offset) timestamp v.lastSeenDate
  (if same then some v else v.newDate append junk chunk_path file_name buf timestamp).map fun v =>
    { v with offset := v.offset + v.line.length + 1 }

/-- The loop over the following lines. It stops where `sscanf` finds no line and leaves `line` as it
was, and at a line that is incomplete or has no timestamp. -/
def flushLoop : ℕ → FlushVars δ → Option (FlushVars δ)
  | 0, _ => none
  | fuel + 1, v => do
    let s ← stringAt buf v.offset
    match readLine s with
    | none => some v
    | some line =>
      if line.length < MAX_LINE_SIZE then
        let v := { v with line := line }
        if byteAt buf junk.behind (v.offset + line.length) ≠ '\n' then some v
        else
          match scanTimestamp line with
          | [.str timestamp] =>
            if timestamp.length < 50 then do
              let v ← v.nextLine append junk chunk_path file_name buf timestamp
              flushLoop fuel v
            else none
          | _ => some v
      else none

/-- `write_buffer_to_disk`, whatever an append does. After the last chunk the buffer is zeroed, and
only then the byte behind `line` is looked up. -/
def flushBuffer (wb_block : CBlock) (cache_block_size : ℕ) (disk : δ) : Option (CBlock × δ) := do
  let v ← flushFirst junk chunk_path wb_block.buf disk
  let v ← flushLoop append junk chunk_path file_name wb_block.buf (wb_block.buf.length + 1) v
  let v ← v.writeChunk append chunk_path file_name wb_block.buf
  let zeroed := zeros cache_block_size
  if byteAt zeroed junk.behind (v.offset + v.line.length) ≠ '\n' then do
    let remaining ← strcpy zeroed v.line
    some ({ wb_block with buf := remaining, offset := v.line.length }, v.disk)
  else some ({ wb_block with buf := zeroed, offset := 0 }, v.disk)

end

/-- `write_buffer_to_disk` -/
def writeBufferToDisk (junk : Junk) (chunk_path : List Char) (wb_block : CBlock)
    (cache_block_size : ℕ) (disk : Mdata × ChunkFiles) : Option (CBlock × Mdata × ChunkFiles) :=
  flushBuffer appendChunk junk chunk_path disk.1.fileName wb_block cache_block_size disk

/-- An append that only notes what is appended where. -/
def recordChunk (name bytes : List Char) (writes : List (List Char × List Char)) :
    Option (List (List Char × List Char)) :=
  some (writes ++ [(name, bytes)])

/-- The appends that a flush makes, in order. -/
def chunkWrites (junk : Junk) (chunk_path file_name : List Char) (wb_block : CBlock)
    (cache_block_size : ℕ) : Option (List (List Char × List Char)) :=
  (flushBuffer recordChunk junk chunk_path file_name wb_block cache_block_size []).map Prod.snd

/-! ## What a flush leaves alone -/

section Frame

variable {δ : Type} {append : List Char → List Char → δ → Option δ} {P : δ → Prop} {junk : Junk}
  {chunk_path file_name buf : List Char} {v w : FlushVars δ} {d : δ}

theorem FlushVars.writeChunk_keeps
    (hP : ∀ name bytes d d', bytes <:+: buf → append name bytes d = some d' → P d → P d')
    (h : v.writeChunk append chunk_path file_name buf = some w) (hv : P v.disk) : P w.disk := by
  obtain ⟨disk, hdisk, rfl⟩ := Option.map_eq_some_iff.mp h
  refine hP _ _ _ _ ?_ hdisk hv
  exact (List.take_prefix _ _).isInfix.trans (List.drop_suffix _ _).isInfix

/-- A line of the same date only moves the offset; a line of another date closes the piece and opens
the next one. -/
theorem FlushVars.nextLine_eq_some {timestamp : List Char}
    (h : v.nextLine append junk chunk_path file_name buf timestamp = some w) :
    ∃ same, isDatesEqual (junk.date1 v.offset) (junk.date2 v.offset) timestamp v.lastSeenDate =
        some same ∧
      (same = true ∧ w = { v with offset := v.offset + v.line.length + 1 } ∨
      same = false ∧ ∃ u folderName, v.writeChunk append chunk_path file_name buf = some u ∧
        createDateFolder (junk.folder u.offset) timestamp chunk_path = some folderName ∧
        (argStr (scanStartTime timestamp) 0 u.startTime).length < 50 ∧
        w = { u with
          offset := u.offset + u.line.length + 1, startOffset := u.offset,
          lastSeenDate := timestamp, startTime := argStr (scanStartTime timestamp) 0 u.startTime,
          folderName := folderName }) := by
  unfold FlushVars.nextLine FlushVars.newDate at h
  simp only [Option.bind_eq_bind, Option.bind_eq_some_iff, Option.map_eq_some_iff] at h
  obtain ⟨same, hsame, x, hx, rfl⟩ := h
  refine ⟨same, hsame, ?_⟩
  cases same with
  | true =>
    obtain rfl := Option.some.inj hx
    exact Or.inl ⟨rfl, rfl⟩
  | false =>
    simp only [Bool.false_eq_true, if_false, Option.bind_eq_some_iff] at hx
    obtain ⟨u, hu, folder, hfolder, hx⟩ := hx
    split at hx
    · rename_i hfits
      obtain rfl := Option.some.inj hx
      exact Or.inr ⟨rfl, u, folder, hu, hfolder, hfits, rfl⟩
    · cases hx

/-- The flush starts at the first line, or finds none. -/
theorem flushFirst_eq_some (h : flushFirst junk chunk_path buf d = some v) :
    ∃ s, stringAt buf 0 = some s ∧
      (readLine s = none ∧ v = ⟨0, 0, [], [], junk.startTime, junk.folderName, d⟩ ∨
      ∃ line timestamp startTime folderName, readLine s = some line ∧ line.length < MAX_LINE_SIZE ∧
        timestamp = argStr (scanTimestamp line) 0 junk.timestamp ∧ timestamp.length < 50 ∧
        startTime = argStr (scanStartTime timestamp) 0 junk.startTime ∧ startTime.length < 50 ∧
        createDateFolder (junk.folder 0) timestamp chunk_path = some folderName ∧
        v = ⟨line.length + 1, 0, line, timestamp, startTime, folderName, d⟩) := by
  unfold flushFirst at h
  simp only [Option.bind_eq_bind, Option.bind_eq_some_iff] at h
  obtain ⟨s, hs, h⟩ := h
  refine ⟨s, hs, ?_⟩
  split at h
  · rename_i hread
    exact Or.inl ⟨hread, (Option.some.inj h).symm⟩
  · rename_i line hread
    split at h
    · rename_i hfits
      obtain ⟨folder, hfolder, h⟩ := Option.bind_eq_some_iff.mp h
      exact Or.inr ⟨line, _, _, folder, hread, hfits.1, rfl, hfits.2.1, rfl, hfits.2.2, hfolder,
        (Option.some.inj h).symm⟩
    · cases h

/-- The line is the one at the offset, complete and with this timestamp. -/
structure FlushVars.AtLine (v : FlushVars δ) (junk : Junk) (buf timestamp : List Char) : Prop where
  read : (stringAt buf v.offset).bind readLine = some v.line
  complete : byteAt buf junk.behind (v.offset + v.line.length) = '\n'
  timestamped : scanTimestamp v.line = [.str timestamp]

/-- What reading a line and taking it preserve, the loop preserves. -/
theorem flushLoop_induction {I : FlushVars δ → Prop}
    (hline : ∀ v line, line.length < MAX_LINE_SIZE → I v → I { v with line := line })
    (hnext : ∀ v w timestamp, v.AtLine junk buf timestamp →
      v.nextLine append junk chunk_path file_name buf timestamp = some w → I v → I w)
    {fuel : ℕ} (h : flushLoop append junk chunk_path file_name buf fuel v = some w) (hv : I v) :
    I w := by
  induction fuel generalizing v with
  | zero => cases h
  | succ fuel ih =>
    unfold flushLoop at h
    simp only [Option.bind_eq_bind, Option.bind_eq_some_iff] at h
    obtain ⟨s, hs, h⟩ := h
    split at h
    · obtain rfl := Option.some.inj h
      exact hv
    · rename_i line hread
      split at h
      · rename_i hfits
        have hv' : I { v with line := line } := hline v line hfits hv
        split at h
        · obtain rfl := Option.some.inj h
          exact hv'
        · rename_i hbyte
          split at h
          · rename_i timestamp htime
            split at h
            · obtain ⟨u, hu, h⟩ := Option.bind_eq_some_iff.mp h
              have hat : FlushVars.AtLine { v with line := line } junk buf timestamp :=
                ⟨by rw [hs]; exact hread, not_not.mp hbyte, htime⟩
              exact ih h (hnext _ u _ hat hu hv')
            · cases h
          · obtain rfl := Option.some.inj h
            exact hv'
      · cases h

theorem FlushVars.nextLine_keeps
    (hP : ∀ name bytes d d', bytes <:+: buf → append name bytes d = some d' → P d → P d')
    {timestamp : List Char} (h : v.nextLine append junk chunk_path file_name buf timestamp = some w)
    (hv : P v.disk) : P w.disk := by
  obtain ⟨_, -, ⟨-, rfl⟩ | ⟨-, u, folder, hu, -, -, rfl⟩⟩ := FlushVars.nextLine_eq_some h
  · exact hv
  · have hkept : P u.disk := FlushVars.writeChunk_keeps hP hu hv
    exact hkept

theorem flushFirst_disk (h : flushFirst junk chunk_path buf d = some v) : v.disk = d := by
  obtain ⟨s, -, ⟨-, rfl⟩ | ⟨_, _, _, _, -, -, -, -, -, -, -, rfl⟩⟩ := flushFirst_eq_some h
  · rfl
  · rfl

theorem flushLoop_keeps
    (hP : ∀ name bytes d d', bytes <:+: buf → append name bytes d = some d' → P d → P d')
    {fuel : ℕ} (h : flushLoop append junk chunk_path file_name buf fuel v = some w)
    (hv : P v.disk) : P w.disk :=
  flushLoop_induction (I := fun v => P v.disk) (fun _ _ _ hv => hv)
    (fun _ _ _ _ hw => FlushVars.nextLine_keeps hP hw) h hv

theorem length_strcpy {mem s mem' : List Char} (h : strcpy mem s = some mem') :
    mem'.length = mem.length := by
  unfold strcpy at h
  split at h
  · obtain rfl := Option.some.inj h
    simp only [List.length_append, List.length_cons, List.length_drop]
    omega
  · cases h

/-- A flush changes of its block only the buffer and the offset, and of the disk only what it
appends, which are stretches of the buffer. -/
theorem flushBuffer_frame {b b' : CBlock} {n : ℕ} {d' : δ}
    (hP : ∀ name bytes d d', bytes <:+: b.buf → append name bytes d = some d' → P d → P d')
    (h : flushBuffer append junk chunk_path file_name b n d = some (b', d')) (hd : P d) :
    b'.mdata = b.mdata ∧ b'.freeFlag = b.freeFlag ∧ b'.lruCounter = b.lruCounter ∧
      b'.buf.length = n ∧ P d' := by
  unfold flushBuffer at h
  simp only [Option.bind_eq_bind, Option.bind_eq_some_iff] at h
  obtain ⟨u, hu, v, hv, w, hw, h⟩ := h
  have hkept : P w.disk :=
    FlushVars.writeChunk_keeps hP hw (flushLoop_keeps hP hv ((flushFirst_disk hu).symm ▸ hd))
  split at h
  · simp only [Option.bind_eq_some_iff] at h
    obtain ⟨mem, hmem, h⟩ := h
    obtain ⟨rfl, rfl⟩ := Prod.mk.inj (Option.some.inj h)
    exact ⟨rfl, rfl, rfl, (length_strcpy hmem).trans (length_zeros n), hkept⟩
  · obtain ⟨rfl, rfl⟩ := Prod.mk.inj (Option.some.inj h)
    exact ⟨rfl, rfl, rfl, length_zeros n, hkept⟩

theorem appendChunk_fileName {name bytes : List Char} {d d' : Mdata × ChunkFiles}
    (h : appendChunk name bytes d = some d') : d'.1.fileName = d.1.fileName := by
  unfold appendChunk at h
  split at h
  · split at h
    · obtain ⟨m, hm, rfl⟩ := Option.map_eq_some_iff.mp h
      exact (Mdata.pushPath_eq_some hm).2.1
    · obtain rfl := Option.some.inj h
      rfl
  · cases h

/-- A flush changes neither what the block points to nor the name in the record. -/
theorem writeBufferToDisk_frame {b b' : CBlock} {n : ℕ} {d d' : Mdata × ChunkFiles}
    (h : writeBufferToDisk junk chunk_path b n d = some (b', d')) :
    b'.mdata = b.mdata ∧ b'.freeFlag = b.freeFlag ∧ b'.lruCounter = b.lruCounter ∧
      b'.buf.length = n ∧ d'.1.fileName = d.1.fileName :=
  flushBuffer_frame (P := fun e => e.1.fileName = d.1.fileName)
    (fun _ _ _ _ _ happend hname => (appendChunk_fileName happend).trans hname) h rfl

/-- The last chunk is written under a name that holds the file's, so that has to fit. -/
theorem writeBufferToDisk_fileName_lt {b b' : CBlock} {n : ℕ} {d d' : Mdata × ChunkFiles}
    (h : writeBufferToDisk junk chunk_path b n d = some (b', d')) :
    d.1.fileName.length < MAX_FILE_NAME_SIZE := by
  unfold writeBufferToDisk flushBuffer FlushVars.writeChunk at h
  simp only [Option.bind_eq_bind, Option.bind_eq_some_iff, Option.map_eq_some_iff] at h
  obtain ⟨-, -, v, -, -, ⟨disk, happend, -⟩, -⟩ := h
  unfold appendChunk at happend
  split at happend
  · rename_i hlen
    simp only [chunkFileName, List.length_append, List.length_cons] at hlen
    omega
  · cases happend

end Frame

end QuorumLogFs.Log
