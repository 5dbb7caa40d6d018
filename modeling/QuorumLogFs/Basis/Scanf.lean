import Mathlib.Data.List.Basic
import Mathlib.Data.List.TakeWhile
import Mathlib.Tactic
import QuorumLogFs.Basis.Int32

/-!
# Formatted input and output of the C library

`scan` interprets a `scanf` format over a string, `decimal` is what `%d` prints. The round-trip
lemmas say when a printed field is read back: a word needs a white-space character or the end of
the input behind it, a number needs anything but a digit.

A string is its list of characters up to the terminating NUL. Only the conversions `%d`, `%s`,
`%[^c]` and their suppressed forms are covered. `scan` delivers the number that is written in the
input; `argInt` is what the conversion stores of it in an `int`.
-/

namespace QuorumLogFs.Basis

/-- The terminating character of a C string. -/
def nul : Char := '\x00'

/-- `isspace` in the C locale. -/
def isSpace (c : Char) : Bool :=
  c = ' ' || c = '\t' || c = '\n' || c = '\x0b' || c = '\x0c' || c = '\r'

/-- What `%d` prints. -/
def decimal : Int → List Char
  | .ofNat n => Nat.toDigits 10 n
  | .negSucc n => '-' :: Nat.toDigits 10 (n + 1)

/-- One item of a `scanf` format. -/
inductive Directive where
  /-- White space in the format: skips any white space of the input. -/
  | white
  /-- Any other character: must be matched exactly. -/
  | lit (c : Char)
  /-- `%d` -/
  | int
  /-- `%s`, or `%*s` when nothing is assigned. -/
  | str (assign : Bool)
  /-- `%[^c]`, or `%*[^c]` when nothing is assigned. -/
  | upto (stop : Char) (assign : Bool)
deriving DecidableEq, Repr

/-- What one conversion has found. -/
inductive Arg where
  | int (n : Int)
  | str (s : List Char)
deriving DecidableEq, Repr

/-- The digits of `%d` after the sign: at least one. -/
def scanNat (s : List Char) : Option (Nat × List Char) :=
  if s.takeWhile Char.isDigit = [] then none
  else some (Nat.ofDigitChars 10 (s.takeWhile Char.isDigit) 0, s.dropWhile Char.isDigit)

/-- `%d` on input whose white space has been skipped. -/
def scanInt : List Char → Option (Int × List Char)
  | [] => none
  | c :: s =>
    if c = '-' then (scanNat s).map fun p => (-(p.1 : Int), p.2)
    else if c = '+' then (scanNat s).map fun p => ((p.1 : Int), p.2)
    else (scanNat (c :: s)).map fun p => ((p.1 : Int), p.2)

/-- The value of a string conversion goes in front of the later ones unless it is suppressed. -/
def emit (assign : Bool) (w : List Char) (rest : List Arg) : List Arg :=
  if assign then .str w :: rest else rest

/-- The values assigned by `sscanf`, in order. Its result is their number, or `EOF` instead of `0`
when the input ends early; callers that only ask whether all conversions succeeded see no
difference. -/
def scan : List Directive → List Char → List Arg
  | [], _ => []
  | .white :: ds, s => scan ds (s.dropWhile isSpace)
  | .lit _ :: _, [] => []
  | .lit c :: ds, x :: s => if x = c then scan ds s else []
  | .int :: ds, s =>
    match scanInt (s.dropWhile isSpace) with
    | none => []
    | some (n, rest) => .int n :: scan ds rest
  | .str assign :: ds, s =>
    let t := s.dropWhile isSpace
    let w := t.takeWhile fun c => !isSpace c
    if w = [] then [] else emit assign w (scan ds (t.dropWhile fun c => !isSpace c))
  | .upto stop assign :: ds, s =>
    let w := s.takeWhile (· ≠ stop)
    if w = [] then [] else emit assign w (scan ds (s.dropWhile (· ≠ stop)))

/-- The `i`-th assigned integer; a conversion that failed leaves the old value. -/
def argInt (args : List Arg) (i : Nat) (old : Int) : Int :=
  match args[i]? with
  | some (.int n) => storedInt n
  | _ => old

/-- The `i`-th assigned string; a conversion that failed leaves the old value. -/
def argStr (args : List Arg) (i : Nat) (old : List Char) : List Char :=
  match args[i]? with
  | some (.str s) => s
  | _ => old

theorem argInt_of_isInt {args : List Arg} {i : Nat} {n : Int} (h : args[i]? = some (.int n))
    (hn : IsInt n) (old : Int) : argInt args i old = n := by
  rw [argInt, h]
  exact storedInt_of_isInt hn

/-! ## Maximal munch -/

/-- A field whose characters all satisfy `p` is taken whole when what follows does not. -/
theorem takeWhile_exact {α : Type*} {p : α → Bool} {field rest : List α}
    (hf : ∀ c ∈ field, p c = true) (hr : ∀ c ∈ rest.head?, p c = false) :
    (field ++ rest).takeWhile p = field := by
  rw [List.takeWhile_append_of_pos hf]
  cases rest with
  | nil => simp
  | cons c rest => simp [hr c (by simp)]

theorem dropWhile_exact {α : Type*} {p : α → Bool} {field rest : List α}
    (hf : ∀ c ∈ field, p c = true) (hr : ∀ c ∈ rest.head?, p c = false) :
    (field ++ rest).dropWhile p = rest := by
  rw [List.dropWhile_append_of_pos hf]
  cases rest with
  | nil => simp
  | cons c rest => simp [hr c (by simp)]

/-! ## Words -/

/-- A string that `%s` reads as one field. -/
def IsWord (w : List Char) : Prop := w ≠ [] ∧ ∀ c ∈ w, isSpace c = false

/-- What may follow a field so that `%s` stops there. -/
def EndsWord (rest : List Char) : Prop := ∀ c ∈ rest.head?, isSpace c = true

instance (w : List Char) : Decidable (IsWord w) :=
  decidable_of_iff (w ≠ [] ∧ w.all fun c => !isSpace c) (by simp [IsWord])

@[simp] theorem endsWord_nil : EndsWord [] := by simp [EndsWord]

@[simp] theorem endsWord_space (s : List Char) : EndsWord (' ' :: s) := by
  simp [EndsWord, isSpace]

@[simp] theorem endsWord_newline (s : List Char) : EndsWord ('\n' :: s) := by
  simp [EndsWord, isSpace]

/-- Skipping white space in front of a word does nothing. -/
theorem dropWhile_isSpace_word {w : List Char} (h : IsWord w) (rest : List Char) :
    (w ++ rest).dropWhile isSpace = w ++ rest := by
  obtain ⟨hne, hw⟩ := h
  cases w with
  | nil => exact absurd rfl hne
  | cons c w => simp [hw c (by simp)]

theorem takeWhile_word {w rest : List Char} (h : IsWord w) (hr : EndsWord rest) :
    (w ++ rest).takeWhile (fun c => !isSpace c) = w :=
  takeWhile_exact (fun c hc => by simp [h.2 c hc]) (fun c hc => by simp [hr c hc])

theorem dropWhile_word {w rest : List Char} (h : IsWord w) (hr : EndsWord rest) :
    (w ++ rest).dropWhile (fun c => !isSpace c) = rest :=
  dropWhile_exact (fun c hc => by simp [h.2 c hc]) (fun c hc => by simp [hr c hc])

/-- `%s` reads one word. -/
theorem scan_str_word {w rest : List Char} (h : IsWord w) (hr : EndsWord rest) (assign : Bool)
    (ds : List Directive) :
    scan (.str assign :: ds) (w ++ rest) = emit assign w (scan ds rest) := by
  rw [scan, dropWhile_isSpace_word h]
  simp only [takeWhile_word h hr, dropWhile_word h hr, if_neg h.1]

/-- `%s` at the end of the input. -/
theorem scan_str_word_nil {w : List Char} (h : IsWord w) (assign : Bool) (ds : List Directive) :
    scan (.str assign :: ds) w = emit assign w (scan ds []) := by
  simpa using scan_str_word h endsWord_nil assign ds

/-- What `%s` assigns is a word. -/
theorem isWord_of_scan {ds : List Directive} {s w : List Char} {args : List Arg}
    (h : scan (.str true :: ds) s = .str w :: args) : IsWord w := by
  rw [scan] at h
  split at h
  · cases h
  · rename_i hne
    obtain ⟨hw, -⟩ := List.cons.inj h
    obtain rfl := Arg.str.inj hw
    exact ⟨hne, fun c hc => by simpa using List.mem_takeWhile_imp hc⟩

/-- Behind `%s` the format goes on with some rest of the input. -/
theorem exists_scan_str {ds : List Directive} {s : List Char} {assign : Bool}
    (h : scan (.str assign :: ds) s ≠ []) :
    ∃ w rest, scan (.str assign :: ds) s = emit assign w (scan ds rest) := by
  rw [scan] at h ⊢
  split
  · rename_i hnone
    exact absurd (if_pos hnone) h
  · exact ⟨_, _, rfl⟩

/-- One blank in the format takes the one blank in front of a word. -/
theorem scan_white_space_word {w : List Char} (h : IsWord w) (rest : List Char)
    (ds : List Directive) : scan (.white :: ds) (' ' :: (w ++ rest)) = scan ds (w ++ rest) := by
  rw [scan, List.dropWhile_cons_of_pos (by decide), dropWhile_isSpace_word h]

/-- The same for the last word of the input. -/
theorem scan_white_space_word_nil {w : List Char} (h : IsWord w) (ds : List Directive) :
    scan (.white :: ds) (' ' :: w) = scan ds w := by
  simpa using scan_white_space_word h [] ds

/-! ## Fields up to a stop character -/

@[simp] theorem scan_lit (c : Char) (ds : List Directive) (s : List Char) :
    scan (.lit c :: ds) (c :: s) = scan ds s := by
  rw [scan, if_pos rfl]

/-- A literal of the format takes the same characters of the input. -/
theorem scan_lits (w rest : List Char) (ds : List Directive) :
    scan (w.map .lit ++ ds) (w ++ rest) = scan ds rest := by
  induction w with
  | nil => rfl
  | cons c w ih => rw [List.map_cons, List.cons_append, List.cons_append, scan_lit, ih]

/-- `%[^c]` takes everything in front of the stop character. -/
theorem scan_upto {w rest : List Char} {stop : Char} (hne : w ≠ []) (hw : stop ∉ w)
    (hr : ∀ c ∈ rest.head?, c = stop) (assign : Bool) (ds : List Directive) :
    scan (.upto stop assign :: ds) (w ++ rest) = emit assign w (scan ds rest) := by
  have hin : ∀ c ∈ w, decide (c ≠ stop) = true := fun c hc =>
    decide_eq_true fun he : c = stop => hw (he ▸ hc)
  have hout : ∀ c ∈ rest.head?, decide (c ≠ stop) = false := fun c hc =>
    decide_eq_false (not_not.mpr (hr c hc))
  rw [scan]
  simp only [takeWhile_exact hin hout, dropWhile_exact hin hout, if_neg hne]

/-- A word contains no blank. -/
theorem IsWord.space_notMem {w : List Char} (h : IsWord w) : ' ' ∉ w := by
  intro hmem
  have := h.2 _ hmem
  revert this
  decide

/-- A word in front of a blank is one field. -/
theorem scan_upto_word {w : List Char} (h : IsWord w) (rest : List Char) (assign : Bool)
    (ds : List Directive) :
    scan (.upto ' ' assign :: ds) (w ++ ' ' :: rest) = emit assign w (scan ds (' ' :: rest)) :=
  scan_upto h.1 h.space_notMem (by simp) assign ds

/-! ## Numbers -/

theorem isSpace_of_isDigit {c : Char} (h : c.isDigit = true) : isSpace c = false := by
  by_contra hs
  simp only [isSpace, Bool.not_eq_false, Bool.or_eq_true, decide_eq_true_eq] at hs
  rcases hs with ((((rfl | rfl) | rfl) | rfl) | rfl) | rfl <;> revert h <;> decide

theorem toDigits_ne_nil (n : Nat) : Nat.toDigits 10 n ≠ [] := by
  rw [Nat.toDigits_eq_if (by decide)]
  split <;> simp

theorem isDigit_of_mem_toDigits {n : Nat} {c : Char} (h : c ∈ Nat.toDigits 10 n) :
    c.isDigit = true :=
  Nat.isDigit_of_mem_toDigits (by decide) (by decide) h

theorem ofDigitChars_lt {d : List Char} (hd : ∀ c ∈ d, c.isDigit = true) (init : ℕ) :
    Nat.ofDigitChars 10 d init < (init + 1) * 10 ^ d.length := by
  induction d generalizing init with
  | nil => simp
  | cons c d ih =>
    have hc : c.toNat - '0'.toNat ≤ 9 := by
      have hdigit := hd c List.mem_cons_self
      simp only [Char.isDigit, Bool.and_eq_true, decide_eq_true_eq] at hdigit
      have hle : c.toNat ≤ 57 := UInt32.le_iff_toNat_le.mp hdigit.2
      have hzero : '0'.toNat = 48 := rfl
      omega
    rw [Nat.ofDigitChars_cons, List.length_cons, pow_succ]
    have hrest := ih (fun c' hc' => hd c' (List.mem_cons_of_mem c hc')) (10 * init + (c.toNat - '0'.toNat))
    calc _ < (10 * init + (c.toNat - '0'.toNat) + 1) * 10 ^ d.length := hrest
      _ ≤ (10 * (init + 1)) * 10 ^ d.length := Nat.mul_le_mul_right _ (by omega)
      _ = (init + 1) * (10 ^ d.length * 10) := by ring

/-- A number of less than ten digits is an `int`. -/
theorem isInt_ofDigitChars {d : List Char} (hd : ∀ c ∈ d, c.isDigit = true) (hlen : d.length < 10) :
    IsInt (Nat.ofDigitChars 10 d 0 : ℕ) := by
  have hlt := ofDigitChars_lt hd 0
  have hpow : 10 ^ d.length ≤ 10 ^ 9 := Nat.pow_le_pow_right (by decide) (by omega)
  rw [IsInt, INT_MAX]
  omega

/-- `%d` reads a field of digits. -/
theorem scan_int_digits {d rest : List Char} (hne : d ≠ []) (hd : ∀ c ∈ d, c.isDigit = true)
    (hr : ∀ c ∈ rest.head?, c.isDigit = false) (ds : List Directive) :
    scan (.int :: ds) (d ++ rest) = .int (Nat.ofDigitChars 10 d 0 : ℕ) :: scan ds rest := by
  have hword : IsWord d := ⟨hne, fun c hc => isSpace_of_isDigit (hd c hc)⟩
  have hnat : scanNat (d ++ rest) = some (Nat.ofDigitChars 10 d 0, rest) := by
    rw [scanNat, takeWhile_exact hd hr, dropWhile_exact hd hr, if_neg hne]
  rw [scan, dropWhile_isSpace_word hword]
  obtain ⟨c, s, rfl⟩ := List.exists_cons_of_ne_nil hne
  have hc : c.isDigit = true := hd c List.mem_cons_self
  have hminus : c ≠ '-' := by rintro rfl; revert hc; decide
  have hplus : c ≠ '+' := by rintro rfl; revert hc; decide
  rw [List.cons_append] at hnat ⊢
  simp [scanInt, hminus, hplus, hnat]

/-- A printed number is one word. -/
theorem isWord_decimal (n : Int) : IsWord (decimal n) := by
  cases n with
  | ofNat n =>
    exact ⟨toDigits_ne_nil n, fun c hc => isSpace_of_isDigit (isDigit_of_mem_toDigits hc)⟩
  | negSucc n =>
    refine ⟨by simp [decimal], fun c hc => ?_⟩
    rcases List.mem_cons.mp hc with rfl | hc
    · decide
    · exact isSpace_of_isDigit (isDigit_of_mem_toDigits hc)

theorem scanNat_toDigits (n : Nat) {rest : List Char}
    (hr : ∀ c ∈ rest.head?, c.isDigit = false) :
    scanNat (Nat.toDigits 10 n ++ rest) = some (n, rest) := by
  have hd : ∀ c ∈ Nat.toDigits 10 n, c.isDigit = true := fun c => isDigit_of_mem_toDigits
  rw [scanNat, takeWhile_exact hd hr, dropWhile_exact hd hr, if_neg (toDigits_ne_nil n),
    Nat.ofDigitChars_ten_toDigits]

/-- `%d` reads back what `%d` printed. -/
theorem scanInt_decimal (n : Int) {rest : List Char}
    (hr : ∀ c ∈ rest.head?, c.isDigit = false) :
    scanInt (decimal n ++ rest) = some (n, rest) := by
  cases n with
  | negSucc n => simp [decimal, scanInt, scanNat_toDigits (n + 1) hr, Int.negSucc_eq]
  | ofNat n =>
    have hscan := scanNat_toDigits n hr
    obtain ⟨c, s, hcs⟩ := List.exists_cons_of_ne_nil (toDigits_ne_nil n)
    have hc : c.isDigit = true := isDigit_of_mem_toDigits (n := n) (by simp [hcs])
    have hminus : c ≠ '-' := by rintro rfl; revert hc; decide
    have hplus : c ≠ '+' := by rintro rfl; revert hc; decide
    rw [hcs, List.cons_append] at hscan
    simp [decimal, hcs, scanInt, hminus, hplus, hscan]

theorem EndsWord.not_isDigit {rest : List Char} (h : EndsWord rest) :
    ∀ c ∈ rest.head?, c.isDigit = false := by
  intro c hc
  have hs := h c hc
  by_contra hd
  rw [isSpace_of_isDigit (by simpa using hd)] at hs
  exact Bool.noConfusion hs

/-- `%d` reads a printed number that ends where a word would. -/
theorem scan_int_decimal (n : Int) {rest : List Char} (hr : EndsWord rest)
    (ds : List Directive) :
    scan (.int :: ds) (decimal n ++ rest) = .int n :: scan ds rest := by
  rw [scan, dropWhile_isSpace_word (isWord_decimal n), scanInt_decimal n hr.not_isDigit]

/-- `%d` at the end of the input. -/
theorem scan_int_decimal_nil (n : Int) (ds : List Directive) :
    scan (.int :: ds) (decimal n) = .int n :: scan ds [] := by
  simpa using scan_int_decimal n endsWord_nil ds

end QuorumLogFs.Basis
