import QuorumLogFs.Log.Replay

/-!
# What a flush drops

Reference: `write_buffer_to_disk` in `Cache.c`.

The loop over the lines of a buffer stops at its end, at an incomplete last line, at an empty line and
at one without a timestamp. The code behind the loop keeps `line` and clears the rest, so the first two
lose nothing, and the other two lose what follows.
-/

namespace QuorumLogFs.Log

open QuorumLogFs.Basis

/-- `sscanf(line,"%*[^|]|%[^|]|%*s",timestamp) == 1` -/
def Timestamped (line : List Char) : Prop := (scanTimestamp line).length = 1

instance : DecidablePred Timestamped := fun _ => inferInstanceAs (Decidable (_ = _))

/-- The lines of a text that end with a newline. -/
def completeLines (text : List Char) : List (List Char) := (text.splitOn '\n').dropLast

/-- All of the text is in the appends that the flush made or in what the buffer holds then. -/
def DropsNothing (junk : Junk) (chunk_path : List Char) (b b' : CBlock) (n : ℕ) (text : List Char)
    (d d' : Mdata × ChunkFiles) : Prop :=
  ∃ writes kept, chunkWrites junk chunk_path d.1.fileName b n = some writes ∧
    appendAll appendChunk writes d = some d' ∧
    text = writes.flatMap Prod.snd ++ kept ∧ kept <:+: cstr b'.buf

variable {junk : Junk} {chunk_path file_name buf line rest text mem : List Char} {n offset : ℕ}

/-! ## Lines of a text -/

theorem completeLines_of_notMem (h : '\n' ∉ rest) : completeLines rest = [] := by
  rw [completeLines, List.splitOn_eq_singleton h]
  rfl

theorem completeLines_line (h : '\n' ∉ line) (rest : List Char) :
    completeLines (line ++ '\n' :: rest) = line :: completeLines rest := by
  rw [completeLines, List.splitOn_append_cons_self_of_not_mem h,
    List.dropLast_cons_of_ne_nil (List.splitOn_ne_nil _ _)]
  rfl

/-- A text has no newline, or it starts with a complete line. -/
theorem exists_line (text : List Char) : '\n' ∉ text ∨
    ∃ line rest, '\n' ∉ line ∧ text = line ++ '\n' :: rest := by
  by_cases h : '\n' ∈ text
  · obtain ⟨line, rest, rfl, hline⟩ := List.eq_append_cons_of_mem h
    exact Or.inr ⟨line, rest, hline, rfl⟩
  · exact Or.inl h

/-- Nothing is assigned behind the timestamp. -/
theorem scan_text (s : List Char) : scan [.lit '|', .str false] s = [] := by
  cases s with
  | nil => rfl
  | cons c s => simp [scan, emit]

theorem scanTimestamp_cases (line : List Char) :
    scanTimestamp line = [] ∨ ∃ timestamp, scanTimestamp line = [.str timestamp] := by
  have hstamp : ∀ s, scan [.upto '|' true, .lit '|', .str false] s = [] ∨
      ∃ timestamp, scan [.upto '|' true, .lit '|', .str false] s = [.str timestamp] := by
    intro s
    rw [scan]
    split
    · exact Or.inl rfl
    · exact Or.inr ⟨_, by rw [scan_text]; rfl⟩
  rw [scanTimestamp, scan]
  split
  · exact Or.inl rfl
  · rw [emit, if_neg (by decide)]
    generalize List.dropWhile (· ≠ '|') line = s
    cases s with
    | nil => exact Or.inl rfl
    | cons c s =>
      rw [scan]
      split
      · exact hstamp s
      · exact Or.inl rfl

theorem timestamped_iff : Timestamped line ↔ ∃ timestamp, scanTimestamp line = [.str timestamp] := by
  unfold Timestamped
  rcases scanTimestamp_cases line with h | ⟨timestamp, h⟩
  · simp [h]
  · simp [h]

/-- A line has a timestamp when something stands in front of its first bar and right behind it. -/
theorem timestamped_iff_bar : Timestamped line ↔
    ∃ level c rest, level ≠ [] ∧ '|' ∉ level ∧ c ≠ '|' ∧ line = level ++ '|' :: c :: rest := by
  constructor
  · intro h
    rcases Classical.em ('|' ∈ line) with hbar | hbar
    · obtain ⟨level, rest, rfl, hlevel⟩ := List.eq_append_cons_of_mem hbar
      have hne : level ≠ [] := by
        rintro rfl
        simp [Timestamped, scanTimestamp, scan] at h
      rw [Timestamped, scanTimestamp, scan_upto hne hlevel (by simp), emit, if_neg (by simp),
        scan_lit] at h
      cases rest with
      | nil => simp [scan] at h
      | cons c rest =>
        refine ⟨level, c, rest, hne, hlevel, ?_, rfl⟩
        rintro rfl
        simp [scan] at h
    · -- without a bar the format stops behind the level
      have hdrop : line.dropWhile (· ≠ '|') = [] := by
        simpa using fun c hc (he : c = '|') => hbar (he ▸ hc)
      rw [Timestamped, scanTimestamp, scan, hdrop] at h
      split at h
      · cases h
      · cases h
  · rintro ⟨level, c, rest, hne, hlevel, hc, rfl⟩
    rw [Timestamped, scanTimestamp, scan_upto hne hlevel (by simp), emit, if_neg (by simp),
      scan_lit, scan, if_neg (by simp [hc]), emit, if_pos rfl, scan_text]
    rfl

/-- Whether a line has a timestamp does not depend on how it ends. -/
theorem Timestamped.append (h : Timestamped line) (rest : List Char) :
    Timestamped (line ++ rest) := by
  obtain ⟨level, c, text, hne, hlevel, hc, rfl⟩ := timestamped_iff_bar.mp h
  exact timestamped_iff_bar.mpr ⟨level, c, text ++ rest, hne, hlevel, hc, by simp⟩

theorem not_timestamped_nil : ¬Timestamped [] := by decide

/-! ## Where the loop stops -/

/-- Where the loop stops in a text: behind `done`, with `kept` unread. A newline is left unread exactly
when some complete line has no timestamp; an unread piece without one is in `line`. -/
structure Stops (text done kept line : List Char) : Prop where
  split : text = done ++ kept
  complete : (∀ l ∈ completeLines text, Timestamped l) ↔ '\n' ∉ kept
  inLine : '\n' ∉ kept → kept ≠ [] → line = kept
  newline : '\n' ∉ line

theorem Stops.cons {done kept first : List Char} (hfirst : '\n' ∉ line) (htime : Timestamped line)
    (h : Stops rest done kept first) :
    Stops (line ++ '\n' :: rest) (line ++ '\n' :: done) kept first := by
  refine ⟨by rw [h.split]; simp, ?_, h.inLine, h.newline⟩
  rw [completeLines_line hfirst, List.forall_mem_cons, ← h.complete]
  exact and_iff_right htime

/-- Behind an offset into a buffer the loop sees the text up to the NUL. -/
theorem scanLines_stops (junk : Junk) (fuel : ℕ) (hbuf : buf.drop offset = text ++ nul :: mem)
    (hnul : nul ∉ text) (hfuel : text.length < fuel) (hline : '\n' ∉ line) :
    ∃ done kept, (scanLines junk buf fuel offset line).1 = offset + done.length ∧
      Stops text done kept (scanLines junk buf fuel offset line).2 := by
  induction fuel generalizing offset text line with
  | zero => exact absurd hfuel (Nat.not_lt_zero _)
  | succ fuel ih =>
    have hs : stringAt buf offset = some text := by
      rw [stringAt, hbuf, if_pos (by simp), cstr_append_nul hnul]
    unfold scanLines
    rw [hs, Option.bind_some]
    rcases exists_line text with htext | ⟨next, rest, hnext, rfl⟩
    · by_cases hnil : text = []
      · rw [hnil, readLine_nil]
        exact ⟨[], [], rfl, rfl, by simp [completeLines_of_notMem], by simp, hline⟩
      · -- an incomplete last line
        have hread := readLine_partial hnil htext
        rw [hread]
        have hbyte : byteAt buf junk.behind (offset + text.length) = nul := byteAt_stringAt hs _
        dsimp only
        rw [if_pos (by rw [hbyte]; decide)]
        refine ⟨[], text, rfl, rfl, ?_, fun _ _ => rfl, htext⟩
        simp [completeLines_of_notMem htext, htext]
    · by_cases hempty : next = []
      · rw [hempty, List.nil_append, readLine_newline]
        refine ⟨[], '\n' :: rest, rfl, rfl, ?_, by simp, hline⟩
        rw [show '\n' :: rest = [] ++ '\n' :: rest from rfl, completeLines_line List.not_mem_nil]
        simp [not_timestamped_nil]
      · rw [readLine_line hempty hnext]
        have hbyte : byteAt buf junk.behind (offset + next.length) = '\n' := by
          rw [byteAt, ← List.getElem?_drop, hbuf]
          simp
        dsimp only
        rw [if_neg (by rw [hbyte]; decide)]
        rcases scanTimestamp_cases next with htime | ⟨timestamp, htime⟩
        · rw [htime]
          refine ⟨[], next ++ '\n' :: rest, rfl, rfl, ?_, by simp, hnext⟩
          rw [completeLines_line hnext]
          simp [Timestamped, htime]
        · rw [htime]
          have hdrop : buf.drop (offset + next.length + 1) = rest ++ nul :: mem := by
            rw [Nat.add_assoc, ← List.drop_drop, hbuf]
            simp
          obtain ⟨done, kept, hoffset, hstops⟩ := ih hdrop
            (fun h => hnul (by simp [h])) (by simp at hfuel; omega) hnext
          refine ⟨next ++ '\n' :: done, kept, ?_, hstops.cons hnext (timestamped_iff.mpr ⟨_, htime⟩)⟩
          show (scanLines junk buf fuel (offset + next.length + 1) next).1 = _
          rw [hoffset]
          simp
          omega

/-! ## What is appended -/

/-- So far the buffer has been appended up to the start of the current piece. -/
structure FlushVars.Appended (buf : List Char) (v : FlushVars (List (List Char × List Char))) :
    Prop where
  upTo : v.disk.flatMap Prod.snd = buf.take v.startOffset
  le : v.startOffset ≤ v.offset

variable {v w : FlushVars (List (List Char × List Char))}

theorem FlushVars.Appended.writeChunk (hv : v.Appended buf)
    (h : v.writeChunk recordChunk chunk_path file_name buf = some w) :
    w.disk.flatMap Prod.snd = buf.take w.offset ∧ w.offset = v.offset := by
  obtain ⟨disk, hdisk, rfl⟩ := Option.map_eq_some_iff.mp h
  obtain rfl := Option.some.inj hdisk
  refine ⟨?_, rfl⟩
  show (v.disk ++ [_]).flatMap Prod.snd = buf.take v.offset
  rw [List.flatMap_append, hv.upTo, List.flatMap_singleton, ← List.take_add,
    Nat.add_sub_cancel' hv.le]

theorem FlushVars.Appended.nextLine {timestamp : List Char} (hv : v.Appended buf)
    (h : v.nextLine recordChunk junk chunk_path file_name buf timestamp = some w) :
    w.Appended buf := by
  obtain ⟨_, -, ⟨-, rfl⟩ | ⟨-, u, folder, hu, -, -, rfl⟩⟩ := FlushVars.nextLine_eq_some h
  · exact ⟨hv.upTo, by have := hv.le; dsimp only; omega⟩
  · obtain ⟨hdisk, hoffset⟩ := hv.writeChunk hu
    exact ⟨hdisk, by dsimp only; omega⟩

theorem FlushVars.Appended.flushLoop {fuel : ℕ} (hv : v.Appended buf)
    (h : flushLoop recordChunk junk chunk_path file_name buf fuel v = some w) :
    w.Appended buf :=
  flushLoop_induction (I := FlushVars.Appended buf) (fun _ _ _ hv => ⟨hv.upTo, hv.le⟩)
    (fun _ _ _ _ hw hv => hv.nextLine hw) h hv

theorem chunkWrites_eq_some {b : CBlock} {writes : List (List Char × List Char)}
    (h : chunkWrites junk chunk_path file_name b n = some writes) :
    ∃ w, flushAppends recordChunk junk chunk_path file_name b.buf [] = some w ∧
      writes = w.disk := by
  obtain ⟨⟨b', writes'⟩, hflush, rfl⟩ := Option.map_eq_some_iff.mp h
  rw [flushBuffer_eq] at hflush
  obtain ⟨w, hw, hrefill⟩ := Option.bind_eq_some_iff.mp hflush
  obtain ⟨c, -, heq⟩ := Option.map_eq_some_iff.mp hrefill
  obtain ⟨-, rfl⟩ := Prod.mk.inj heq
  exact ⟨w, hw, rfl⟩

/-- The appends of a flush add up to the buffer in front of where it stops. -/
theorem chunkWrites_bytes {b : CBlock} {writes : List (List Char × List Char)}
    (h : chunkWrites junk chunk_path file_name b n = some writes) :
    writes.flatMap Prod.snd = b.buf.take (scanned junk b.buf).1 := by
  obtain ⟨w, hw, rfl⟩ := chunkWrites_eq_some h
  rw [← congrArg Prod.fst (flushAppends_scanned hw)]
  unfold flushAppends at hw
  simp only [Option.bind_eq_some_iff] at hw
  obtain ⟨v, ⟨u, hu, hv⟩, hw⟩ := hw
  have hu' : u.Appended b.buf := by
    obtain ⟨s, -, ⟨-, rfl⟩ | ⟨_, _, _, _, -, -, -, -, -, -, -, rfl⟩⟩ := flushFirst_eq_some hu
    · exact ⟨rfl, le_refl 0⟩
    · exact ⟨rfl, Nat.zero_le _⟩
  exact ((hu'.flushLoop hv).writeChunk hw).1

/-! ## The flush -/

/-- A flush of a text that starts with a complete line with a timestamp drops nothing if and only if
every complete line behind it has one as well. -/
theorem drops_nothing_iff {b b' : CBlock} {d d' : Mdata × ChunkFiles}
    (hbuf : b.buf = line ++ '\n' :: rest ++ nul :: mem) (hnul : nul ∉ line ++ '\n' :: rest)
    (hfits : (line ++ '\n' :: rest).length < n) (hline : '\n' ∉ line) (htime : Timestamped line)
    (h : writeBufferToDisk junk chunk_path b n d = some (b', d')) :
    DropsNothing junk chunk_path b b' n (line ++ '\n' :: rest) d d' ↔
      ∀ l ∈ completeLines rest, Timestamped l := by
  have hempty : line ≠ [] := fun he => not_timestamped_nil (he ▸ htime)
  have hn : 0 < n := Nat.zero_lt_of_lt hfits
  -- what the flush appends, and what it leaves
  rw [writeBufferToDisk_eq junk chunk_path b hn d] at h
  obtain ⟨writes, hwrites, h⟩ := Option.bind_eq_some_iff.mp h
  obtain ⟨e, he, h⟩ := Option.map_eq_some_iff.mp h
  obtain ⟨rfl, rfl⟩ := Prod.mk.inj h
  have hleft : cstr (padded n (remaining junk n b.buf)) = remaining junk n b.buf :=
    cstr_padded (nul_notMem_remaining junk n b.buf) n
  have hbytes := chunkWrites_bytes hwrites
  have hscanned : scanned junk b.buf =
      scanLines junk b.buf (b.buf.length + 1) (line.length + 1) line := by
    have hs : stringAt b.buf 0 = some (line ++ '\n' :: rest) := by
      rw [hbuf]
      exact stringAt_append_nul hnul mem
    rw [scanned, hs, Option.bind_some, readLine_line hempty hline]
  have hdrop : b.buf.drop (line.length + 1) = rest ++ nul :: mem := by
    rw [hbuf]
    simp
  obtain ⟨done, kept, hoffset, hstops⟩ := scanLines_stops junk (b.buf.length + 1) hdrop
    (fun hc => hnul (by simp [hc])) (by rw [hbuf]; simp; omega) hline
  rw [← hscanned] at hoffset hstops
  have hsplit := hstops.split
  have hdone : writes.flatMap Prod.snd = line ++ '\n' :: done := by
    rw [hbytes, hoffset, hbuf, hsplit, show line ++ '\n' :: (done ++ kept) ++ nul :: mem =
      (line ++ '\n' :: done) ++ (kept ++ nul :: mem) by simp]
    exact List.take_left' (by simp only [List.length_append, List.length_cons]; omega)
  rw [hstops.complete]
  unfold DropsNothing
  rw [hleft]
  constructor
  · rintro ⟨writes', kept', hwrites', -, htext, hinfix⟩
    obtain rfl := Option.some.inj (hwrites.symm.trans hwrites')
    obtain rfl : kept = kept' := by
      rw [hdone, hsplit] at htext
      simpa using htext
    -- the code keeps one line, without its newline
    intro hkept
    have hmem := hinfix.subset hkept
    unfold remaining at hmem
    split at hmem
    · cases hmem
    · exact hstops.newline hmem
  · intro hkept
    refine ⟨writes, kept, hwrites, he, ?_, ?_⟩
    · rw [hdone, hsplit]
      simp
    · by_cases hnil : kept = []
      · rw [hnil]
        exact List.nil_infix
      · have hlast := hstops.inLine hkept hnil
        have hend : (scanned junk b.buf).1 + (scanned junk b.buf).2.length < n := by
          rw [hoffset, hlast]
          rw [hsplit] at hfits
          simp only [List.length_append, List.length_cons] at hfits
          omega
        rw [remaining, byteAt_zeros hend, if_neg (by decide), hlast]

/-- A write buffer with one complete line and a text behind it. -/
def lineAnd (rest : String) : CBlock :=
  let text := "E|Sat Mar 17 20:33:43 EDT 2012|x".toList ++ '\n' :: rest.toList
  ⟨some 0, false, padded 4096 text, text.length, 0⟩

/-- The record of a new file, and no chunk files. -/
def newFile : Mdata × ChunkFiles := (Mdata.empty.named "f".toList, fun _ => none)

/-- An incomplete last line stays in the buffer. -/
theorem drops_nothing_iff_incomplete : ∃ r,
    writeBufferToDisk {} [] (lineAnd "E|Sun Mar 18 20:33") 4096 newFile = some r ∧
    DropsNothing {} [] (lineAnd "E|Sun Mar 18 20:33") r.1 4096
      ("E|Sat Mar 17 20:33:43 EDT 2012|x".toList ++ '\n' :: "E|Sun Mar 18 20:33".toList)
      newFile r.2 := by
  have hrun : (writeBufferToDisk {} [] (lineAnd "E|Sun Mar 18 20:33") 4096 newFile).isSome := by
    decide +kernel
  obtain ⟨⟨b', d'⟩, h⟩ := Option.isSome_iff_exists.mp hrun
  have hbuf := append_nul_zeros (n := 4096)
    ("E|Sat Mar 17 20:33:43 EDT 2012|x".toList ++ '\n' :: "E|Sun Mar 18 20:33".toList) (by decide)
  refine ⟨(b', d'), h, (drops_nothing_iff hbuf.symm ?_ ?_ ?_ ?_ h).mpr ?_⟩
  all_goals decide

/-- The line behind an empty one is lost. -/
theorem not_drops_nothing_empty : ∃ r,
    writeBufferToDisk {} [] (lineAnd "\nE|Sun Mar 18 20:33:43 EDT 2012|y\n") 4096 newFile = some r ∧
    ¬ DropsNothing {} [] (lineAnd "\nE|Sun Mar 18 20:33:43 EDT 2012|y\n") r.1 4096
      ("E|Sat Mar 17 20:33:43 EDT 2012|x".toList ++
        '\n' :: "\nE|Sun Mar 18 20:33:43 EDT 2012|y\n".toList) newFile r.2 := by
  have hrun : ((writeBufferToDisk {} [] (lineAnd "\nE|Sun Mar 18 20:33:43 EDT 2012|y\n") 4096
      newFile).map fun r => cstr r.1.buf) = some "E|Sat Mar 17 20:33:43 EDT 2012|x".toList := by
    decide +kernel
  have hwrites : (chunkWrites {} [] newFile.1.fileName
      (lineAnd "\nE|Sun Mar 18 20:33:43 EDT 2012|y\n") 4096).map (fun w => w.flatMap Prod.snd) =
      some "E|Sat Mar 17 20:33:43 EDT 2012|x\n".toList := by decide +kernel
  obtain ⟨⟨b', d'⟩, h, hleft⟩ := Option.map_eq_some_iff.mp hrun
  refine ⟨(b', d'), h, ?_⟩
  rintro ⟨writes, kept, hw, -, htext, hinfix⟩
  rw [hw, Option.map_some, Option.some.injEq] at hwrites
  rw [hwrites] at htext
  obtain rfl : "\nE|Sun Mar 18 20:33:43 EDT 2012|y\n".toList = kept := by simpa using htext
  have hmem := hinfix.subset (show '\n' ∈ _ by decide)
  rw [hleft] at hmem
  revert hmem
  decide

end QuorumLogFs.Log
