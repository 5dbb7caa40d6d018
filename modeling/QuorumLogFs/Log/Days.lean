import Mathlib.Data.List.SplitBy
import QuorumLogFs.Log.FlushLines

/-!
# Chunks are days

What a flush appends are the maximal runs of consecutive lines with one month, day and year, each to
the chunk file of its first line. A `|` inside a timestamp ends it for `sscanf`, and then the flush
takes the missing fields from uninitialised memory.
-/

namespace QuorumLogFs.Log

open QuorumLogFs.Basis

/-- Month, day and year, as they are written. -/
def Stamp.date (s : Stamp) : Field × Field × Field := (s.month, s.day, s.year)

/-- Day and year are written without leading zeros. -/
structure Stamp.Canonical (s : Stamp) : Prop where
  day : s.day.chars = Nat.toDigits 10 s.dayNo
  year : s.year.chars = Nat.toDigits 10 s.yearNo

/-- The maximal runs of consecutive lines of one date. -/
def dayRuns (ls : List Line) : List (List Line) :=
  ls.splitBy fun l m => l.stamp.date = m.stamp.date

/-- Each run goes to the chunk file of its first line; no run is empty. -/
def dayWrites (chunk_path file_name : List Char) (ls : List Line) : List (List Char × List Char) :=
  (dayRuns ls).filterMap fun run =>
    run.head?.map fun first => (first.stamp.chunk chunk_path file_name, bytesOf run)

/-- The code compares day and year as numbers. -/
theorem sameDate_iff {s t : Stamp} (hs : s.Canonical) (ht : t.Canonical) :
    s.sameDate t = true ↔ s.date = t.date := by
  have hday : s.dayNo = t.dayNo ↔ s.day = t.day := by
    refine ⟨fun h => Field.ext ?_, fun h => by rw [Stamp.dayNo, Stamp.dayNo, h]⟩
    rw [hs.day, ht.day, h]
  have hyear : s.yearNo = t.yearNo ↔ s.year = t.year := by
    refine ⟨fun h => Field.ext ?_, fun h => by rw [Stamp.yearNo, Stamp.yearNo, h]⟩
    rw [hs.year, ht.year, h]
  simp only [Stamp.sameDate, Stamp.date, hday, hyear, decide_eq_true_eq, Prod.mk.injEq]

/-- Lines of one date are one run. -/
theorem dayRuns_of_date {first : Line} {run : List Line}
    (hrun : ∀ k ∈ first :: run, k.stamp.date = first.stamp.date) :
    dayRuns (first :: run) = [first :: run] := by
  refine List.splitBy_of_isChain (List.cons_ne_nil _ _) ?_
  refine (List.pairwise_of_forall_mem_list fun l hl m hm => ?_).isChain
  exact decide_eq_true ((hrun l hl).trans (hrun m hm).symm)

/-- A line of another date ends a run. -/
theorem dayRuns_append {first l : Line} {run : List Line} (ls : List Line)
    (hrun : ∀ k ∈ first :: run, k.stamp.date = first.stamp.date)
    (hl : l.stamp.date ≠ first.stamp.date) :
    dayRuns (first :: run ++ l :: ls) = (first :: run) :: dayRuns (l :: ls) := by
  have hsplit : dayRuns (first :: run ++ l :: ls) = dayRuns (first :: run) ++ dayRuns (l :: ls) := by
    refine List.splitBy_append_cons ls fun k hk => decide_eq_false fun heq => hl ?_
    rw [← heq]
    exact hrun k (List.mem_of_mem_getLast? hk)
  rw [hsplit, dayRuns_of_date hrun, List.singleton_append]

/-- The lines of one date that a piece has taken so far are the start of a run. -/
theorem pieces_eq_dayWrites (chunk_path file_name : List Char) {first : Line} {run ls : List Line}
    (hfirst : first.stamp.Canonical) (hls : ∀ k ∈ ls, k.stamp.Canonical)
    (hrun : ∀ k ∈ first :: run, k.stamp.date = first.stamp.date) :
    pieces chunk_path file_name first.stamp (bytesOf (first :: run)) ls =
      dayWrites chunk_path file_name (first :: run ++ ls) := by
  induction ls generalizing first run with
  | nil =>
    rw [pieces, dayWrites, List.append_nil, dayRuns_of_date hrun]
    rfl
  | cons l ls ih =>
    obtain ⟨hl, hls⟩ := List.forall_mem_cons.mp hls
    rw [pieces]
    by_cases hsame : l.stamp.date = first.stamp.date
    · -- the line joins the run
      have hrun' : ∀ k ∈ first :: (run ++ [l]), k.stamp.date = first.stamp.date := by
        simp only [List.mem_cons, List.mem_append, List.not_mem_nil, or_false] at hrun ⊢
        rintro k (rfl | hk | rfl)
        · rfl
        · exact hrun k (Or.inr hk)
        · exact hsame
      have hbytes : bytesOf (first :: run) ++ l.bytes = bytesOf (first :: (run ++ [l])) := by simp
      have hlines : first :: (run ++ [l]) ++ ls = first :: run ++ l :: ls := by simp
      rw [if_pos ((sameDate_iff hl hfirst).mpr hsame), hbytes, ih hfirst hls hrun', hlines]
    · -- the run ends and the line starts the next one
      have hnext := ih hl hls fun k hk => by rw [List.mem_singleton.mp hk]
      rw [if_neg (mt (sameDate_iff hl hfirst).mp hsame), dayWrites, dayRuns_append ls hrun hsame,
        List.filterMap_cons, show l.bytes = bytesOf [l] by simp, hnext]
      rfl

/-- A flush of complete lines, and possibly the start of another one, appends the runs of lines of
one day, in order, and nothing else. -/
theorem flush_writes_days (junk : Junk) {chunk_path : List Char} (file_name : List Char) {n : ℕ}
    {b : CBlock} {l : Line} {ls : List Line} {tail : List Char}
    (hcanonical : ∀ k ∈ l :: ls, k.stamp.Canonical)
    (hpath : ∀ k ∈ l :: ls, (chunk_path ++ k.stamp.folder).length < MAX_PATH_NAME_SIZE)
    (htail : IsPartial tail) (hbuf : b.buf = padded n (bytesOf (l :: ls) ++ tail))
    (hn : (bytesOf (l :: ls) ++ tail).length < n) :
    chunkWrites junk chunk_path file_name b n = some (dayWrites chunk_path file_name (l :: ls)) ∧
      ∀ d : Mdata × ChunkFiles, d.1.fileName = file_name →
        (writeBufferToDisk junk chunk_path b n d).map Prod.snd =
          appendAll appendChunk (dayWrites chunk_path file_name (l :: ls)) d := by
  have hpieces : pieces chunk_path file_name l.stamp l.bytes ls =
      dayWrites chunk_path file_name (l :: ls) := by
    obtain ⟨hl, hls⟩ := List.forall_mem_cons.mp hcanonical
    have hone : ∀ k ∈ [l], k.stamp.date = l.stamp.date := fun k hk => by
      rw [List.mem_singleton.mp hk]
    rw [show l.bytes = bytesOf [l] by simp, pieces_eq_dayWrites chunk_path file_name hl hls hone]
    rfl
  refine ⟨?_, fun d hd => ?_⟩
  · rw [chunkWrites, flushBuffer_lines recordChunk junk file_name hpath htail hbuf hn, hpieces,
      appendAll_recordChunk]
    rfl
  · subst hd
    rw [writeBufferToDisk, flushBuffer_lines appendChunk junk _ hpath htail hbuf hn, hpieces,
      Option.map_map]
    exact Option.map_id'

/-- Two days, and the start of a line. -/
theorem flush_writes_days_march :
    chunkWrites {} "/chunks/".toList "log".toList
      ⟨none, false, padded 4096 (bytesOf [march17, march17, march18] ++ "ERROR|Sat".toList), 0, 0⟩
      4096 =
        some [("/chunks/Mar-17-2012/log-23:33:43".toList, march17.bytes ++ march17.bytes),
          ("/chunks/Mar-18-2012/log-23:33:43".toList, march18.bytes)] := by
  have hcanonical : ∀ k ∈ [march17, march17, march18], k.stamp.Canonical := by
    simp only [List.forall_mem_cons]
    exact ⟨⟨by decide, by decide⟩, ⟨by decide, by decide⟩, ⟨by decide, by decide⟩, by simp⟩
  refine (flush_writes_days {} "log".toList hcanonical (by decide)
    ⟨by decide, by decide⟩ rfl (by decide +kernel)).1.trans ?_
  decide

/-- `I|Mon J|n 5 10:00 UTC 2014|x` with its newline: the month is `J|n`. -/
def barLine : List Char :=
  "I".toList ++ '|' :: ("Mon".toList ++ ' ' :: ("J|n".toList ++ ' ' :: ("5".toList ++ ' ' ::
    ("10:00".toList ++ ' ' :: ("UTC".toList ++ ' ' :: "2014".toList)))) ++ '|' :: "x".toList) ++
      ['\n']

/-- The timestamp ends at the `|` of its month, so day, year and time are whatever memory holds. -/
theorem not_flush_writes_days_bar :
    chunkWrites {} "/chunks/".toList "log".toList ⟨none, false, padded 4096 barLine, 0, 0⟩ 4096 =
        some [("/chunks/J--/log-".toList, barLine)] ∧
      chunkWrites {} "/chunks/".toList "log".toList ⟨none, false, padded 4096 barLine, 0, 0⟩ 4096 ≠
        some [("/chunks/J|n-5-2014/log-10:00".toList, barLine)] := by
  have hwrites : chunkWrites {} "/chunks/".toList "log".toList
      ⟨none, false, padded 4096 barLine, 0, 0⟩ 4096 =
        some [("/chunks/J--/log-".toList, barLine)] := by decide +kernel
  refine ⟨hwrites, ?_⟩
  rw [hwrites]
  decide

end QuorumLogFs.Log
