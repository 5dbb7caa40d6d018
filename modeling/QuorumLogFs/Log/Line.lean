import QuorumLogFs.Log.Flush

/-!
# Log lines

A line is `level|weekday month day time zone year|text`. `Stamp` and `Line` carry what the code
relies on: fields that `sscanf` takes apart again, and lengths that fit the arrays they are copied
to. The scanning functions find these fields again, whatever uninitialised memory holds.
-/

namespace QuorumLogFs.Log

open QuorumLogFs.Basis

/-- A field of a timestamp: a word without the character that ends the timestamp. -/
@[ext] structure Field where
  chars : List Char
  isWord : IsWord chars
  noBar : '|' ∉ chars
  noNul : nul ∉ chars

instance : DecidableEq Field := fun f g => decidable_of_iff (f.chars = g.chars) Field.ext_iff.symm

/-- A timestamp. Day and year are numbers. -/
structure Stamp where
  weekday : Field
  month : Field
  day : Field
  time : Field
  zone : Field
  year : Field
  day_digits : ∀ c ∈ day.chars, c.isDigit = true
  year_digits : ∀ c ∈ year.chars, c.isDigit = true
  month_fits : month.chars.length < 15
  day_fits : day.chars.length < 3
  time_fits : time.chars.length < 12
  year_fits : year.chars.length < 5
deriving DecidableEq

/-- `weekday month day time zone year` -/
def Stamp.render (s : Stamp) : List Char :=
  s.weekday.chars ++ ' ' :: (s.month.chars ++ ' ' :: (s.day.chars ++ ' ' :: (s.time.chars ++
    ' ' :: (s.zone.chars ++ ' ' :: s.year.chars))))

/-- `month-day-year` -/
def Stamp.folder (s : Stamp) : List Char :=
  s.month.chars ++ '-' :: (s.day.chars ++ '-' :: s.year.chars)

/-- The values of day and year. -/
def Stamp.dayNo (s : Stamp) : ℕ := Nat.ofDigitChars 10 s.day.chars 0
def Stamp.yearNo (s : Stamp) : ℕ := Nat.ofDigitChars 10 s.year.chars 0

/-- The same month, day and year. -/
def Stamp.sameDate (s t : Stamp) : Bool :=
  s.month = t.month ∧ s.dayNo = t.dayNo ∧ s.yearNo = t.yearNo

/-- The chunk file of a piece whose first line has this timestamp. -/
def Stamp.chunk (s : Stamp) (chunk_path file_name : List Char) : List Char :=
  chunkFileName chunk_path s.folder file_name s.time.chars

/-- A line without its newline. -/
@[ext] structure Line where
  level : List Char
  stamp : Stamp
  text : List Char
  level_ne : level ≠ []
  level_noBar : '|' ∉ level
  level_clean : '\n' ∉ level ∧ nul ∉ level
  text_clean : '\n' ∉ text ∧ nul ∉ text
  stamp_fits : stamp.render.length < 50
  fits : level.length + 1 + stamp.render.length + 1 + text.length < MAX_LINE_SIZE

instance : DecidableEq Line := fun l m =>
  decidable_of_iff (l.level = m.level ∧ l.stamp = m.stamp ∧ l.text = m.text) Line.ext_iff.symm

/-- `level|timestamp|text` -/
def Line.render (l : Line) : List Char := l.level ++ '|' :: (l.stamp.render ++ '|' :: l.text)

/-- The line with its newline. -/
def Line.bytes (l : Line) : List Char := l.render ++ ['\n']

/-- The bytes of a list of lines. -/
def bytesOf (ls : List Line) : List Char := ls.flatMap Line.bytes

@[simp] theorem bytesOf_nil : bytesOf [] = [] := rfl

@[simp] theorem bytesOf_cons (l : Line) (ls : List Line) :
    bytesOf (l :: ls) = l.bytes ++ bytesOf ls := rfl

@[simp] theorem bytesOf_append (ls ls' : List Line) :
    bytesOf (ls ++ ls') = bytesOf ls ++ bytesOf ls' := List.flatMap_append

/-! ## The characters of a line -/

theorem Stamp.notMem_render {c : Char} (s : Stamp) (hspace : c ≠ ' ')
    (hfield : ∀ f : Field, c ∉ f.chars) : c ∉ s.render := by
  simp [Stamp.render, hspace, hfield]

theorem Stamp.bar_notMem (s : Stamp) : '|' ∉ s.render :=
  s.notMem_render (by decide) Field.noBar

theorem Stamp.nul_notMem (s : Stamp) : nul ∉ s.render :=
  s.notMem_render (by decide) Field.noNul

theorem Stamp.newline_notMem (s : Stamp) : '\n' ∉ s.render := by
  refine s.notMem_render (by decide) fun f hmem => ?_
  have := f.isWord.2 _ hmem
  revert this
  decide

theorem Stamp.render_ne_nil (s : Stamp) : s.render ≠ [] := by
  simp [Stamp.render]

theorem Stamp.length_time_lt (s : Stamp) : s.time.chars.length < 50 := by
  have := s.time_fits
  omega

theorem Stamp.length_folder_le (s : Stamp) : s.folder.length ≤ 22 := by
  have := s.month_fits
  have := s.day_fits
  have := s.year_fits
  simp only [Stamp.folder, List.length_append, List.length_cons]
  omega

/-- The folder of a date fits its array. -/
theorem Stamp.folder_fits (s : Stamp) {chunk_path : List Char} (h : chunk_path.length ≤ 150) :
    (chunk_path ++ s.folder).length < MAX_PATH_NAME_SIZE := by
  have := s.length_folder_le
  rw [List.length_append, MAX_PATH_NAME_SIZE]
  omega

theorem Line.newline_notMem (l : Line) : '\n' ∉ l.render := by
  simp [Line.render, l.level_clean.1, l.text_clean.1, l.stamp.newline_notMem]

theorem Line.nul_notMem (l : Line) : nul ∉ l.render := by
  have hbar : nul ≠ '|' := by decide
  simp [Line.render, l.level_clean.2, l.text_clean.2, l.stamp.nul_notMem, hbar]

theorem Line.render_ne_nil (l : Line) : l.render ≠ [] := by
  simp [Line.render]

theorem Line.length_render_lt (l : Line) : l.render.length < MAX_LINE_SIZE := by
  have := l.fits
  simp only [Line.render, List.length_append, List.length_cons]
  omega

theorem nul_notMem_bytesOf (ls : List Line) : nul ∉ bytesOf ls := by
  have hnewline : nul ≠ '\n' := by decide
  simp [bytesOf, Line.bytes, Line.nul_notMem, hnewline]

/-! ## The scanning functions on lines and timestamps -/

@[simp] theorem readLine_nil : readLine [] = none := rfl

/-- An empty line is not read. -/
@[simp] theorem readLine_newline (rest : List Char) : readLine ('\n' :: rest) = none := rfl

/-- The next line of a text. -/
theorem readLine_line {line : List Char} (hne : line ≠ []) (hline : '\n' ∉ line)
    (rest : List Char) : readLine (line ++ '\n' :: rest) = some line := by
  rw [readLine, scan_upto hne hline (by simp)]
  rfl

theorem readLine_bytes (l : Line) (rest : List Char) :
    readLine (l.render ++ '\n' :: rest) = some l.render :=
  readLine_line l.render_ne_nil l.newline_notMem rest

/-- A text without a newline is read whole. -/
theorem readLine_partial {s : List Char} (hne : s ≠ []) (hs : '\n' ∉ s) : readLine s = some s := by
  have h : scan [.upto '\n' true, .white] (s ++ []) = _ :=
    scan_upto hne hs (by simp) true [.white]
  rw [List.append_nil] at h
  rw [readLine, h]
  rfl

theorem scanTimestamp_render (l : Line) : scanTimestamp l.render = [.str l.stamp.render] := by
  rw [scanTimestamp, Line.render, scan_upto l.level_ne l.level_noBar (by simp), emit,
    if_neg (by simp), scan_lit, scan_upto l.stamp.render_ne_nil l.stamp.bar_notMem (by simp), emit,
    if_pos rfl, scan_lit]
  -- whether `%*s` finds a word makes no difference
  simp [scan, emit]

section Scan

variable (s : Stamp) (ds : List Directive)

/-- The blank after a field is taken by the blank of the format. -/
private theorem scan_next_field (f : Field) (rest : List Char) (assign : Bool) :
    scan (.white :: .upto ' ' assign :: ds) (' ' :: (f.chars ++ ' ' :: rest)) =
      emit assign f.chars (scan ds (' ' :: rest)) := by
  rw [scan_white_space_word f.isWord, scan_upto_word f.isWord]

private theorem scan_last_field (f : Field) (assign : Bool) :
    scan [.white, .str assign] (' ' :: f.chars) = emit assign f.chars [] := by
  rw [scan_white_space_word_nil f.isWord, scan_str_word_nil f.isWord]
  rfl

/-- A number between blanks. -/
private theorem scan_next_number (f : Field) (hf : ∀ c ∈ f.chars, c.isDigit = true)
    (rest : List Char) :
    scan (.white :: .int :: ds) (' ' :: (f.chars ++ ' ' :: rest)) =
      .int (Nat.ofDigitChars 10 f.chars 0 : ℕ) :: scan ds (' ' :: rest) := by
  rw [scan_white_space_word f.isWord, scan_int_digits f.isWord.1 hf (by simp)]

private theorem scan_last_number (f : Field) (hf : ∀ c ∈ f.chars, c.isDigit = true) :
    scan [.white, .int] (' ' :: f.chars) = [.int (Nat.ofDigitChars 10 f.chars 0 : ℕ)] := by
  have h : scan [.int] (f.chars ++ []) = _ := scan_int_digits f.isWord.1 hf (by simp) []
  rw [List.append_nil] at h
  rw [scan_white_space_word_nil f.isWord, h]
  rfl

end Scan

theorem scanStartTime_render (s : Stamp) : scanStartTime s.render = [.str s.time.chars] := by
  rw [scanStartTime, Stamp.render, scan_upto_word s.weekday.isWord, scan_next_field,
    scan_next_field, scan_next_field, scan_next_field, scan_last_field]
  rfl

/-- The folder depends on nothing but the timestamp. -/
theorem createDateFolder_render (s : Stamp) (junk : FolderLocals) {chunk_path : List Char}
    (hpath : (chunk_path ++ s.folder).length < MAX_PATH_NAME_SIZE) :
    createDateFolder junk s.render chunk_path = some s.folder := by
  have hscan : scan [.upto ' ' false, .white, .upto ' ' true, .white, .upto ' ' true, .white,
      .upto ' ' true, .white, .upto ' ' false, .white, .str true] s.render =
      [.str s.month.chars, .str s.day.chars, .str s.time.chars, .str s.year.chars] := by
    rw [Stamp.render, scan_upto_word s.weekday.isWord, scan_next_field, scan_next_field,
      scan_next_field, scan_next_field, scan_last_field]
    rfl
  unfold createDateFolder
  rw [hscan]
  exact if_pos ⟨s.month_fits, s.day_fits, s.time_fits, s.year_fits, hpath⟩

theorem readDate_render (s : Stamp) (junk : DateLocals) :
    readDate junk s.render = ⟨s.month.chars, s.dayNo, s.yearNo⟩ := by
  have hscan : scan [.upto ' ' false, .white, .upto ' ' true, .white, .int, .white,
      .upto ' ' false, .white, .upto ' ' false, .white, .int] s.render =
      [.str s.month.chars, .int s.dayNo, .int s.yearNo] := by
    rw [Stamp.render, scan_upto_word s.weekday.isWord, scan_next_field,
      scan_next_number _ _ s.day_digits, scan_next_field, scan_next_field,
      scan_last_number _ s.year_digits]
    rfl
  have hday := s.day_fits
  have hyear := s.year_fits
  rw [readDate, hscan]
  simp only [DateLocals.mk.injEq]
  exact ⟨rfl, argInt_of_isInt rfl (isInt_ofDigitChars s.day_digits (by omega)) _,
    argInt_of_isInt rfl (isInt_ofDigitChars s.year_digits (by omega)) _⟩

/-- `is_dates_equal` compares month, day and year. -/
theorem isDatesEqual_render (s t : Stamp) (junk1 junk2 : DateLocals) :
    isDatesEqual junk1 junk2 s.render t.render = some (s.sameDate t) := by
  have hs := s.month_fits
  have ht := t.month_fits
  have hmonth : s.month.chars = t.month.chars ↔ s.month = t.month :=
    ⟨Field.ext, fun h => congrArg Field.chars h⟩
  unfold isDatesEqual
  rw [readDate_render, readDate_render]
  rw [if_pos ⟨show s.month.chars.length < 20 by omega, show t.month.chars.length < 20 by omega⟩]
  simp only [Stamp.sameDate, hmonth, Nat.cast_inj]

/-! ## The lines of `sample-log` -/

/-- `Sat Mar day time EDT 2012` -/
def marchStamp (day time : String)
    (hday : (IsWord day.toList ∧ '|' ∉ day.toList ∧ nul ∉ day.toList) ∧
      day.toList.all Char.isDigit = true ∧ day.toList.length < 3 := by decide)
    (htime : (IsWord time.toList ∧ '|' ∉ time.toList ∧ nul ∉ time.toList) ∧
      time.toList.length < 12 := by decide) : Stamp where
  weekday := ⟨"Sat".toList, by decide, by decide, by decide⟩
  month := ⟨"Mar".toList, by decide, by decide, by decide⟩
  day := ⟨day.toList, hday.1.1, hday.1.2.1, hday.1.2.2⟩
  time := ⟨time.toList, htime.1.1, htime.1.2.1, htime.1.2.2⟩
  zone := ⟨"EDT".toList, by decide, by decide, by decide⟩
  year := ⟨"2012".toList, by decide, by decide, by decide⟩
  day_digits := List.all_eq_true.mp hday.2.1
  year_digits := List.all_eq_true.mp (show "2012".toList.all Char.isDigit = true by decide)
  month_fits := by decide
  day_fits := hday.2.2
  time_fits := htime.2
  year_fits := by decide

/-- `ERROR|Sat Mar day time EDT 2012|text` -/
def marchLine (s : Stamp) (text : String)
    (h : ('\n' ∉ text.toList ∧ nul ∉ text.toList) ∧ s.render.length < 50 ∧
      "ERROR".toList.length + 1 + s.render.length + 1 + text.toList.length < MAX_LINE_SIZE :=
        by decide) : Line where
  level := "ERROR".toList
  stamp := s
  text := text.toList
  level_ne := by decide
  level_noBar := by decide
  level_clean := by decide
  text_clean := h.1
  stamp_fits := h.2.1
  fits := h.2.2

/-- `ERROR|Sat Mar 17 23:33:43 EDT 2012|File Not Found` -/
def march17 : Line := marchLine (marchStamp "17" "23:33:43") "File Not Found"

/-- `ERROR|Sat Mar 18 23:33:43 EDT 2012|File Not Found` -/
def march18 : Line := marchLine (marchStamp "18" "23:33:43") "File Not Found"

end QuorumLogFs.Log
