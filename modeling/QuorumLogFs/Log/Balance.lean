import QuorumLogFs.Log.Accounting
import QuorumLogFs.Log.RoundTrip

/-!
# Sizes and path lists

Reference: `write_buffer_to_disk` in `Cache.c`, `lfs_write` in `lfs_fuse.c`.

A flush asks the disk, not the record, whether a chunk file is new. This keeps the record right because
the name of a chunk file says whose it is, as long as no start time has a `-` or a `/` in it:
`NamedFor.unique`. A chunk file that exists is then on the path list of the record that is flushed. What
remains is that a record has to survive its metadata file, and that its size is an `int`.
-/

namespace QuorumLogFs.Log

open QuorumLogFs.Basis

/-- The record of a file: the one in the cache, or else what is read from its metadata file over whatever
the record and the stack held. -/
def RecordOf (s : Fs) (name : List Char) (m : Mdata) : Prop :=
  match findMetaDataBlock s.records s.metaDataCache name with
  | some i => (s.metaDataCache.cblocks i).mdata.map s.records = some m
  | none => ∃ bytes stack old buf, s.mdataFiles name = some bytes ∧
      stringAt (bytes.take MAX_MDATA_FILE_SIZE ++ stack) 0 = some buf ∧
        parseMdata old buf = some (some m)

/-- The paths of a record are distinct, its size is the length of its chunk files, and every chunk file is
in the record of exactly one file. -/
structure SizesRight (s : Fs) : Prop where
  distinct : ∀ name m, RecordOf s name m → m.paths.Nodup
  size : ∀ name m, RecordOf s name m → m.size = total s.chunkFiles m.paths
  listed : ∀ p, s.chunkFiles p ≠ none → ∃! name, ∃ m, RecordOf s name m ∧ p ∈ m.paths

/-- A start time that can be told from the name in front of it. -/
def PlainTime (time : List Char) : Prop := '-' ∉ time ∧ '/' ∉ time

/-- The start-time field of a line, or the time from before. -/
def startTimeOf (old line : List Char) : List Char :=
  argStr (scanStartTime (argStr (scanTimestamp line) 0 [])) 0 old

/-- The buffer starts with a complete timestamped line, and the start times of its lines are plain. -/
def StartsPlain (junk : Junk) (buf : List Char) : Prop :=
  match completeLines (cstr buf) with
  | [] => False
  | line :: lines => Timestamped line ∧ PlainTime (startTimeOf junk.startTime line) ∧
      ∀ l ∈ lines, PlainTime (startTimeOf [] l)

/-- What is in write buffer `j` can be flushed: it is plain, and the size of the file stays an `int`. -/
def CanFlush (s : Fs) (j : ℕ) (junk : Junk) : Prop :=
  StartsPlain junk (s.bufferCache.cblocks j).buf ∧
    ∀ i ∈ (s.bufferCache.cblocks j).mdata,
      (s.records i).size + (scanned junk (s.bufferCache.cblocks j).buf).1 ≤ INT_MAX

/-- The conditions on a call under which sizes and path lists stay right. -/
structure KeepsSizes (s : Fs) (op : Op) : Prop where
  fresh : FreshName s op
  clean : TakesClean s op
  flushes : EachFlush CanFlush s op

instance (time : List Char) : Decidable (PlainTime time) := inferInstanceAs (Decidable (_ ∧ _))

instance (junk : Junk) (buf : List Char) : Decidable (StartsPlain junk buf) := by
  unfold StartsPlain
  split <;> infer_instance

instance (s : Fs) (j : ℕ) (junk : Junk) : Decidable (CanFlush s j junk) :=
  inferInstanceAs (Decidable (_ ∧ ∀ i ∈ _, _ ≤ _))

instance (s : Fs) (op : Op) : Decidable (KeepsSizes s op) :=
  decidable_of_iff (FreshName s op ∧ TakesClean s op ∧ EachFlush CanFlush s op)
    ⟨fun h => ⟨h.1, h.2.1, h.2.2⟩, fun h => ⟨h.fresh, h.clean, h.flushes⟩⟩

variable {s s' : Fs} {R : Books} {name name' p buf line rest time : List Char} {m m' : Mdata}
  {junk : Junk} {d d' : Mdata × ChunkFiles} {writes : List (List Char × List Char)} {i j n offset : ℕ}

/-! ## Names -/

/-- A chunk file of this file. -/
def NamedFor (name p : List Char) : Prop :=
  ∃ folder time, p = chunkFileName CHUNK_PATH folder name time ∧ PlainTime time

/-- What stands behind the last of these characters. -/
theorem behind_last_inj {c : Char} {x x' z z' : List Char} (h : x ++ c :: z = x' ++ c :: z')
    (hz : c ∉ z) (hz' : c ∉ z') : x = x' ∧ z = z' := by
  have htake : ∀ x z : List Char, c ∉ z → ((x ++ c :: z).reverse.takeWhile (· ≠ c)).reverse = z := by
    intro x z hz
    have hfield : ∀ a ∈ z.reverse, decide (a ≠ c) = true := fun a ha =>
      decide_eq_true fun hac => hz (hac ▸ List.mem_reverse.mp ha)
    rw [List.reverse_append, List.reverse_cons, List.append_assoc,
      takeWhile_exact hfield (by simp), List.reverse_reverse]
  have hzz : z = z' := by rw [← htake x z hz, h, htake x' z' hz']
  subst hzz
  exact ⟨List.append_cancel_right h, rfl⟩

/-- The name of a chunk file says whose it is: the file's name stands between the last `/` and the last
`-`. -/
theorem NamedFor.unique (h : NamedFor name p) (h' : NamedFor name' p) (hname : '/' ∉ name)
    (hname' : '/' ∉ name') : name = name' := by
  obtain ⟨folder, time, rfl, hdash, hslash⟩ := h
  obtain ⟨folder', time', heq, hdash', hslash'⟩ := h'
  have heq := List.append_cancel_left heq
  have hfile : '/' ∉ name ++ '-' :: time := by simp [hname, hslash]
  have hfile' : '/' ∉ name' ++ '-' :: time' := by simp [hname', hslash']
  obtain ⟨-, heq⟩ := behind_last_inj heq hfile hfile'
  exact (behind_last_inj heq hdash hdash').1

/-- A chunk file's name is longer than the name of its file. -/
theorem NamedFor.length_lt {n : ℕ} (h : NamedFor name p) (hlen : p.length < n) : name.length < n := by
  obtain ⟨folder, time, rfl, -⟩ := h
  simp only [chunkFileName, List.length_append, List.length_cons] at hlen
  omega

/-! ## The start times of a flush -/

/-- Behind a complete line the rest of the string begins. -/
theorem cstr_drop_line (hs : stringAt buf offset = some (line ++ '\n' :: rest)) :
    cstr (buf.drop (offset + line.length + 1)) = rest := by
  obtain ⟨w, mem, hdrop, hw⟩ := List.eq_append_cons_of_mem (mem_of_stringAt hs)
  have hstring := stringAt_eq_some hs
  rw [hdrop, cstr_append_nul hw] at hstring
  subst hstring
  rw [Nat.add_assoc, ← List.drop_drop, hdrop, List.append_assoc, List.drop_append]
  simp only [Nat.add_sub_cancel_left, List.cons_append, List.drop_succ_cons, List.drop_zero,
    List.drop_eq_nil_of_le (Nat.le_succ line.length), List.nil_append]
  exact cstr_append_nul (fun h => hw (by simp [h])) mem

/-- The line that is taken is the first complete one, and the others are what comes behind it. -/
theorem FlushVars.AtLine.completeLines {δ : Type} {v : FlushVars δ} {timestamp : List Char}
    (h : v.AtLine junk buf timestamp) :
    completeLines (cstr (buf.drop v.offset)) =
      v.line :: Log.completeLines (cstr (buf.drop (v.offset + v.line.length + 1))) := by
  obtain ⟨s, hs, hread⟩ := Option.bind_eq_some_iff.mp h.read
  have hline := readLine_eq_some hread
  rcases exists_line s with hnone | ⟨line, rest, hnewline, rfl⟩
  · -- the string ends with the line
    have hall : s.takeWhile (· ≠ '\n') = s :=
      List.takeWhile_eq_self_iff.mpr fun c hc => decide_eq_true fun he => hnone (he ▸ hc)
    have hbyte := h.complete
    rw [hline, hall, byteAt_stringAt hs] at hbyte
    exact absurd hbyte (by decide)
  · have hfirst : (line ++ '\n' :: rest).takeWhile (· ≠ '\n') = line :=
      takeWhile_exact (fun c hc => decide_eq_true fun he => hnewline (he ▸ hc)) (by simp)
    rw [hfirst] at hline
    rw [hline, cstr_drop_line hs, ← stringAt_eq_some hs, completeLines_line hnewline]

theorem PlainTime.argStr {args : List Arg} (h : PlainTime (argStr args 0 [])) (hold : PlainTime time) :
    PlainTime (Basis.argStr args 0 time) := by
  unfold Basis.argStr at h ⊢
  split
  · rename_i heq
    rw [heq] at h
    exact h
  · exact hold

theorem startTimeOf_eq {timestamp : List Char} (h : scanTimestamp line = [.str timestamp])
    (old : List Char) : startTimeOf old line = argStr (scanStartTime timestamp) 0 old := by
  unfold startTimeOf
  rw [h]
  rfl

/-- So far all appends are to chunk files of this file, and the next ones will be. -/
structure FlushVars.Plain (name buf : List Char) (v : FlushVars (List (List Char × List Char))) :
    Prop where
  time : PlainTime v.startTime
  named : ∀ w ∈ v.disk, NamedFor name w.1
  lines : ∀ l ∈ completeLines (cstr (buf.drop v.offset)), PlainTime (startTimeOf [] l)

section Plain

variable {v w : FlushVars (List (List Char × List Char))}

theorem FlushVars.Plain.writeChunk (hv : v.Plain name buf)
    (h : v.writeChunk recordChunk CHUNK_PATH name buf = some w) :
    w.Plain name buf ∧ w.startTime = v.startTime ∧ w.offset = v.offset ∧ w.line = v.line := by
  obtain ⟨disk, hdisk, rfl⟩ := Option.map_eq_some_iff.mp h
  obtain rfl := Option.some.inj hdisk
  refine ⟨⟨hv.time, fun x hx => ?_, hv.lines⟩, rfl, rfl, rfl⟩
  rcases List.mem_append.mp hx with hx | hx
  · exact hv.named x hx
  · rw [List.mem_singleton.mp hx]
    exact ⟨v.folderName, v.startTime, rfl, hv.time⟩

theorem FlushVars.Plain.nextLine {timestamp : List Char} (hv : v.Plain name buf)
    (hat : v.AtLine junk buf timestamp)
    (h : v.nextLine recordChunk junk CHUNK_PATH name buf timestamp = some w) : w.Plain name buf := by
  have hlines := hv.lines
  rw [hat.completeLines] at hlines
  obtain ⟨hline, hrest⟩ := List.forall_mem_cons.mp hlines
  obtain ⟨_, -, ⟨-, rfl⟩ | ⟨-, u, folder, hu, -, -, rfl⟩⟩ := FlushVars.nextLine_eq_some h
  · exact ⟨hv.time, hv.named, hrest⟩
  · obtain ⟨hplain, htime, hoffset, hsame⟩ := hv.writeChunk hu
    refine ⟨?_, hplain.named, ?_⟩
    · show PlainTime (argStr (scanStartTime timestamp) 0 u.startTime)
      rw [htime]
      exact PlainTime.argStr (startTimeOf_eq hat.timestamped [] ▸ hline) hv.time
    · show ∀ l ∈ Log.completeLines (cstr (buf.drop (u.offset + u.line.length + 1))), _
      rw [hoffset, hsame]
      exact hrest

end Plain

theorem plain_flushFirst {v : FlushVars (List (List Char × List Char))} (h : StartsPlain junk buf)
    (hv : flushFirst junk CHUNK_PATH buf [] = some v) : v.Plain name buf := by
  obtain ⟨s, hs, hcases⟩ := flushFirst_eq_some hv
  have hbuf : cstr buf = s := by rw [stringAt_eq_some hs, List.drop_zero]
  unfold StartsPlain at h
  rw [hbuf] at h
  rcases exists_line s with hnone | ⟨line, rest, hnewline, rfl⟩
  · rw [completeLines_of_notMem hnone] at h
    exact h.elim
  · rw [completeLines_line hnewline] at h
    obtain ⟨htimestamped, htime, hlines⟩ := h
    have hne : line ≠ [] := fun he => not_timestamped_nil (he ▸ htimestamped)
    have hread := readLine_line hne hnewline rest
    obtain ⟨timestamp, hstamp⟩ := timestamped_iff.mp htimestamped
    rcases hcases with ⟨hnone, -⟩ | ⟨first, _, _, folder, hfirst, -, rfl, -, rfl, -, -, rfl⟩
    · rw [hread] at hnone
      cases hnone
    · obtain rfl := Option.some.inj (hread.symm.trans hfirst)
      refine ⟨?_, List.forall_mem_nil _, ?_⟩
      · show PlainTime (argStr (scanStartTime (argStr (scanTimestamp line) 0 junk.timestamp)) 0
          junk.startTime)
        rw [hstamp]
        exact startTimeOf_eq hstamp junk.startTime ▸ htime
      · have hrest := cstr_drop_line hs
        rw [Nat.zero_add] at hrest
        show ∀ l ∈ completeLines (cstr (buf.drop (line.length + 1))), _
        rwa [hrest]

/-- A flush appends to chunk files of its file. -/
theorem chunkWrites_named {b : CBlock} (h : StartsPlain junk b.buf)
    (hwrites : chunkWrites junk CHUNK_PATH name b n = some writes) :
    ∀ w ∈ writes, NamedFor name w.1 := by
  obtain ⟨w, hw, rfl⟩ := chunkWrites_eq_some hwrites
  unfold flushAppends at hw
  simp only [Option.bind_eq_some_iff] at hw
  obtain ⟨v, ⟨u, hu, hv⟩, hw⟩ := hw
  have hplain : v.Plain name b.buf :=
    flushLoop_induction (I := FlushVars.Plain name b.buf)
      (fun _ _ _ hv => ⟨hv.time, hv.named, hv.lines⟩) (fun _ _ _ hat hw hv => hv.nextLine hat hw) hv
      (plain_flushFirst h hu)
  exact (hplain.writeChunk hw).1.named

/-! ## Records -/

/-- A record within its arrays, all of whose paths are chunk files of its file. -/
structure Mdata.Regular (m : Mdata) : Prop where
  name : m.paths ≠ [] → m.fileName.length < MAX_FILE_NAME_SIZE
  noSlash : '/' ∉ m.fileName
  numPaths : m.numPaths ≤ MAX_PATHS
  paths : ∀ p ∈ m.paths, p.length < MAX_PATH_NAME_SIZE ∧ NamedFor m.fileName p

theorem lasting_regular : Lasting Mdata.Regular where
  fresh _ f := ⟨fun hne => absurd rfl hne, fun hmem => f.noSlash (mem_of_mem_recordName hmem),
    Int.natCast_nonneg _, List.forall_mem_nil _⟩
  same _ _ h hs :=
    ⟨fun hne => hs.fileName ▸ h.name (hs.paths ▸ hne), hs.fileName ▸ h.noSlash, hs.numPaths ▸ h.numPaths,
      hs.paths ▸ hs.fileName ▸ h.paths⟩

theorem Mdata.Regular.appendChunk {chunk bytes : List Char} (h : d.1.Regular)
    (hnamed : NamedFor d.1.fileName chunk) (hop : appendChunk chunk bytes d = some d') :
    d'.1.Regular := by
  have hname := appendChunk_fileName hop
  unfold Log.appendChunk at hop
  split at hop
  · rename_i hlen
    split at hop
    · obtain ⟨m, hm, rfl⟩ := Option.map_eq_some_iff.mp hop
      have hpaths := Mdata.paths_pushPath hm
      refine ⟨fun _ => hname ▸ hnamed.length_lt hlen, hname ▸ h.noSlash, (Mdata.numPaths_pushPath hm).2,
        fun p hp => ?_⟩
      change p ∈ m.paths at hp
      rw [hpaths, List.mem_append, List.mem_singleton] at hp
      rw [hname]
      rcases hp with hp | rfl
      · exact h.paths p hp
      · exact ⟨hlen.trans (by decide), hnamed⟩
    · obtain rfl := Option.some.inj hop
      exact ⟨h.name, h.noSlash, h.numPaths, h.paths⟩
  · cases hop

theorem Mdata.Regular.appendAll (h : d.1.Regular) (hnamed : ∀ w ∈ writes, NamedFor d.1.fileName w.1)
    (hop : Log.appendAll Log.appendChunk writes d = some d') : d'.1.Regular := by
  refine (appendAll_keeps (P := fun e => e.1.Regular ∧ e.1.fileName = d.1.fileName)
    (fun w hw e e' he hreg => ?_) hop ⟨h, rfl⟩).1
  obtain ⟨hreg, hname⟩ := hreg
  exact ⟨hreg.appendChunk (hname ▸ hnamed w hw) he, (appendChunk_fileName he).trans hname⟩

/-! ## A flush -/

/-- A chunk file that exists under a name for this file is on its list. -/
theorem Accounted.ownChunks {limit : ℕ} (h : Accounted limit s R)
    (hregular : ∀ name, ∀ m ∈ R name, m.Regular) (hi : s.Cached i)
    (hnamed : ∀ w ∈ writes, NamedFor (s.records i).fileName w.1) :
    OwnChunks (s.records i, s.chunkFiles) writes := by
  intro w hw
  refine or_iff_not_imp_left.mpr fun hstored => ?_
  obtain ⟨name, hp⟩ := h.balanced.ledger.owned w.1 hstored
  have hrecord := h.cached i hi
  cases hm : R name with
  | none =>
    rw [Books.keys, hm] at hp
    cases hp
  | some m =>
    rw [Books.keys_of_mem hm] at hp
    have hreg := hregular name m hm
    have hname : m.fileName = (s.records i).fileName :=
      (hreg.paths _ hp).2.unique (hnamed w hw) hreg.noSlash (hregular _ _ hrecord).noSlash
    rw [← h.named name m hm, hname, hrecord] at hm
    exact Option.some.inj hm ▸ hp

theorem Accounted.size_eq (h : Accounted (2 ^ 31) s R) (hm : R name = some m) :
    m.size = total s.chunkFiles m.paths := by
  have hsmall := h.balanced.small name m hm
  rw [h.balanced.size name m hm]
  exact wrap32_of_range (by omega) (by rw [INT_MAX]; omega)

/-- A plain flush keeps the books, and its record regular. -/
theorem CanFlush.keeps (h : CanFlush s j junk) (hall : AccountedWith Mdata.Regular (2 ^ 31) s) :
    KeepsBooks (2 ^ 31) s j junk ∧ FlushMakes Mdata.Regular s j junk := by
  obtain ⟨R, hbooks, hregular⟩ := hall
  obtain ⟨hplain, hsize⟩ := h
  have hrecord : ∀ i ∈ (s.bufferCache.cblocks j).mdata,
      R (s.records i).fileName = some (s.records i) :=
    fun i hi => hbooks.cached i (hbooks.buffers j i hi)
  refine ⟨fun i hi writes hwrites => ⟨?_, ?_⟩, fun i hi writes hwrites d hd => ?_⟩
  · exact hbooks.ownChunks hregular (hbooks.buffers j i hi) (chunkWrites_named hplain hwrites)
  · have hwritten : (writes.flatMap Prod.snd).length ≤
        (scanned junk (s.bufferCache.cblocks j).buf).1 := by
      rw [chunkWrites_bytes hwrites]
      exact List.length_take_le _ _
    have hfits := hsize i hi
    have hmod := hbooks.balanced.size_emod (by decide) (hrecord i hi)
    rw [hbooks.size_eq (hrecord i hi), INT_MAX] at hfits
    rw [hmod]
    omega
  · exact Mdata.Regular.appendAll (d := (s.records i, s.chunkFiles)) (hregular _ _ (hrecord i hi))
      (chunkWrites_named hplain hwrites) hd

/-! ## What is on disk -/

theorem recordOf_cached (hfind : findMetaDataBlock s.records s.metaDataCache name = some i) :
    RecordOf s name m ↔ (s.metaDataCache.cblocks i).mdata.map s.records = some m := by
  unfold RecordOf
  rw [hfind]

theorem recordOf_uncached (hfind : findMetaDataBlock s.records s.metaDataCache name = none) :
    RecordOf s name m ↔ ∃ bytes stack old buf, s.mdataFiles name = some bytes ∧
      stringAt (bytes.take MAX_MDATA_FILE_SIZE ++ stack) 0 = some buf ∧
        parseMdata old buf = some (some m) := by
  unfold RecordOf
  rw [hfind]

/-- Whichever record is found, it is the one in the books. -/
theorem Accounted.recordOf_same {limit : ℕ} (h : Accounted limit s R) (hm : RecordOf s name m) :
    ∃ m₀, R name = some m₀ ∧ m.Same m₀ := by
  cases hfind : findMetaDataBlock s.records s.metaDataCache name with
  | some i =>
    obtain ⟨hci, rfl⟩ := findMetaDataBlock_own h.owns hfind
    have hrecord := (recordOf_cached hfind).mp hm
    rw [h.owns i] at hrecord
    obtain rfl := Option.some.inj hrecord
    exact ⟨_, h.cached i hci, rfl, rfl, rfl, rfl⟩
  | none =>
    obtain ⟨bytes, stack, old, buf, hbytes, hbuf, hparse⟩ := (recordOf_uncached hfind).mp hm
    obtain ⟨m₀, hm₀⟩ : ∃ m₀, R name = some m₀ := by
      refine Option.ne_none_iff_exists'.mp fun hnone => ?_
      rw [h.known name hnone] at hbytes
      cases hbytes
    obtain ⟨bytes', hbytes', hdesc⟩ := h.onDisk name m₀ hm₀
    obtain rfl := Option.some.inj (hbytes.symm.trans hbytes')
    have hclean := h.carried name m₀ hm₀ (findMetaDataBlock_gone h.owns h.bound hfind)
    exact ⟨m₀, hm₀, hdesc.parse hclean hbuf hparse⟩

theorem Accounted.exists_recordOf (h : Accounted (2 ^ 31) s R) (hm : R name = some m)
    (hregular : m.Regular) (hp : p ∈ m.paths) : ∃ m', RecordOf s name m' ∧ m'.Same m := by
  cases hfind : findMetaDataBlock s.records s.metaDataCache name with
  | some i =>
    obtain ⟨hci, rfl⟩ := findMetaDataBlock_own h.owns hfind
    obtain rfl := Option.some.inj ((h.cached i hci).symm.trans hm)
    refine ⟨s.records i, (recordOf_cached hfind).mpr ?_, rfl, rfl, rfl, rfl⟩
    rw [h.owns i]
    rfl
  | none =>
    have hclean := h.carried name m hm (findMetaDataBlock_gone h.owns h.bound hfind)
    obtain ⟨bytes, hbytes, hdesc⟩ := h.onDisk name m hm
    have hfits : m.Fits :=
      ⟨hregular.name (List.ne_nil_of_mem hp), hregular.numPaths, fun q hq => (hregular.paths q hq).1⟩
    have hcount : 0 < m.numPaths := by
      have hlen := List.length_pos_of_mem hp
      rw [m.length_paths] at hlen
      omega
    obtain ⟨rest', hrest⟩ := hdesc.cstr_take hclean [nul]
    obtain ⟨m', hparse⟩ : ∃ m', parseMdata m (encodeMdata m ++ rest') = some (some m') :=
      (hfits.parse_iff hclean m).mpr (Or.inl hcount)
    rw [hrest] at hparse
    refine ⟨m', (recordOf_uncached hfind).mpr ⟨_, [nul], m, _, hbytes, if_pos ?_, hparse⟩, ?_⟩
    · simp
    · exact parseMdata_encode hclean (hrest ▸ hparse)

theorem AccountedWith.sizesRight (hall : AccountedWith Mdata.Regular (2 ^ 31) s) : SizesRight s := by
  obtain ⟨R, h, hregular⟩ := hall
  refine ⟨fun name m hm => ?_, fun name m hm => ?_, fun p hp => ?_⟩
  · obtain ⟨m₀, hm₀, hsame⟩ := h.recordOf_same hm
    rw [hsame.paths, ← Books.keys_of_mem hm₀]
    exact h.balanced.ledger.nodup name
  · obtain ⟨m₀, hm₀, hsame⟩ := h.recordOf_same hm
    rw [hsame.size, hsame.paths, h.size_eq hm₀]
  · have hlisted : ∀ name m, RecordOf s name m → p ∈ m.paths → p ∈ R.keys name := by
      intro name m hm hpm
      obtain ⟨m₀, hm₀, hsame⟩ := h.recordOf_same hm
      rwa [Books.keys_of_mem hm₀, ← hsame.paths]
    obtain ⟨name, hkeys⟩ := h.balanced.ledger.owned p hp
    cases hm : R name with
    | none =>
      rw [Books.keys, hm] at hkeys
      cases hkeys
    | some m =>
      have hpm : p ∈ m.paths := Books.keys_of_mem hm ▸ hkeys
      obtain ⟨m', hm', hsame⟩ := h.exists_recordOf hm (hregular name m hm) hpm
      refine ⟨name, ⟨m', hm', hsame.paths ▸ hpm⟩, fun name' hname' => ?_⟩
      obtain ⟨m'', hm'', hp''⟩ := hname'
      exact h.balanced.ledger.disjoint name' name p (hlisted name' m'' hm'' hp'') hkeys

/-! ## Runs -/

/-- In a run that creates files under new names and flushes plain buffers, the sizes and the path lists
are right as long as the records that leave the cache survive their metadata files and no file outgrows an
`int`; whatever the memory of the write buffers holds at first. -/
theorem sizes_right (fresh : ℕ → List Char) {ops : List Op}
    (hok : Each step KeepsSizes (Fs.init fresh) ops) : Always step SizesRight (Fs.init fresh) ops := by
  have hinit : AccountedWith Mdata.Regular (2 ^ 31) (Fs.init fresh) :=
    ⟨fun _ => none, accounted_init fresh, fun _ _ hm => by cases hm⟩
  have hbooks : Always step (AccountedWith Mdata.Regular (2 ^ 31)) (Fs.init fresh) ops :=
    always_of_each hinit (fun s op s' h hok hop => h.step lasting_regular (by decide) (by decide)
      hok.fresh hok.clean (hok.flushes.imp fun _ _ _ hflush => hflush.keeps) hop) hok
  exact hbooks.imp fun _ h => h.sizesRight

/-- The second write flushes the first. -/
theorem sizes_right_flush : Always step SizesRight Fs.init
    [.mknod firstFile, writeLines firstFile 160 2, writeLines firstFile 160 20] :=
  sizes_right _ (by decide +kernel)

/-- A file with a separator in its name. -/
def fileAB : Name := ⟨"a;b".toList, by decide, by decide, by decide⟩

/-- Its buffer is flushed, and a hundred new files take the metadata blocks. -/
def flushedAndGone : List Op :=
  .mknod fileAB :: writeLines fileAB 160 2 :: writeLines fileAB 160 20 ::
    (List.finRange 101).tail.map fun i => .mknod (fileNo i)

/-- The metadata file is read up to the separator: the record has the size, and no chunk file. -/
theorem not_sizes_right_separator : ¬ Always step SizesRight Fs.init flushedAndGone := by
  have hrun : ((run step Fs.init flushedAndGone).map fun s =>
      (findMetaDataBlock s.records s.metaDataCache fileAB.chars,
        (s.mdataFiles fileAB.chars).bind fun bytes =>
          (stringAt (bytes.take MAX_MDATA_FILE_SIZE ++ [nul]) 0).bind fun buf =>
            (parseMdata Mdata.empty buf).join.map fun m => (m.size, total s.chunkFiles m.paths))) =
      some (none, some (384, 0)) := by decide +kernel
  intro hright
  obtain ⟨s, hs, hat⟩ := Option.map_eq_some_iff.mp hrun
  obtain ⟨hfind, hfile⟩ := Prod.mk.inj hat
  simp only [Option.bind_eq_some_iff, Option.map_eq_some_iff] at hfile
  obtain ⟨bytes, hbytes, buf, hbuf, m, hparse, hm⟩ := hfile
  obtain ⟨hsize, htotal⟩ := Prod.mk.inj hm
  have hrecord : RecordOf s fileAB.chars m := (recordOf_uncached hfind).mpr
    ⟨bytes, [nul], Mdata.empty, buf, hbytes, hbuf, Option.join_eq_some_iff.mp hparse⟩
  have heq := (hright flushedAndGone (List.prefix_refl _) s hs).size _ _ hrecord
  rw [hsize, htotal] at heq
  exact absurd heq (by decide)

end QuorumLogFs.Log
