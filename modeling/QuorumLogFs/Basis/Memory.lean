import Mathlib.Data.List.TakeWhile
import QuorumLogFs.Basis.Scanf

/-!
# Strings in memory

A block of memory is the list of its bytes. A string in it ends at the first NUL; `strcpy` and
`strcat` write a string with its terminator and have no result when that does not fit the block.
The lemmas are about blocks that hold a string and zeros behind it, which is what a block zeroed by
`memset` keeps being.
-/

namespace QuorumLogFs.Basis

/-- The bytes in front of the first NUL. -/
def cstr (mem : List Char) : List Char := mem.takeWhile (· ≠ nul)

/-- The string at address `i`; `none` when it runs out of the block. -/
def stringAt (mem : List Char) (i : ℕ) : Option (List Char) :=
  if nul ∈ mem.drop i then some (cstr (mem.drop i)) else none

/-- The byte at address `i`, where `behind` is the memory that follows the block. -/
def byteAt (mem : List Char) (behind : ℕ → Char) (i : ℕ) : Char := mem[i]?.getD (behind i)

/-- `memset(mem,0,n)` on a block of `n` bytes. -/
def zeros (n : ℕ) : List Char := List.replicate n nul

/-- `strcpy(mem,s)` -/
def strcpy (mem s : List Char) : Option (List Char) :=
  if s.length < mem.length then some (s ++ nul :: mem.drop (s.length + 1)) else none

/-- `strcat(mem,s)` -/
def strcat (mem s : List Char) : Option (List Char) :=
  if (cstr mem).length + s.length < mem.length then
    some (cstr mem ++ s ++ nul :: mem.drop ((cstr mem).length + s.length + 1))
  else none

/-- `memcpy(mem+i,d,n)` for the `n` bytes `d` -/
def memcpy (mem : List Char) (i : ℕ) (d : List Char) : Option (List Char) :=
  if i + d.length ≤ mem.length then some (mem.take i ++ d ++ mem.drop (i + d.length)) else none

/-- A block of `n` bytes that holds the string `s` and zeros behind it. -/
def padded (n : ℕ) (s : List Char) : List Char := s ++ zeros (n - s.length)

/-! ## Strings -/

theorem nul_notMem_cstr (mem : List Char) : nul ∉ cstr mem := by
  intro h
  simpa using List.mem_takeWhile_imp h

theorem cstr_of_notMem {s : List Char} (h : nul ∉ s) : cstr s = s := by
  rw [cstr, List.takeWhile_eq_self_iff]
  intro c hc
  simpa using fun he : c = nul => h (he ▸ hc)

theorem cstr_append_nul {s : List Char} (h : nul ∉ s) (rest : List Char) :
    cstr (s ++ nul :: rest) = s :=
  takeWhile_exact (fun c hc => by simpa using fun he : c = nul => h (he ▸ hc)) (by simp)

theorem cstr_append {s : List Char} (h : nul ∉ s) (t : List Char) :
    cstr (s ++ t) = s ++ cstr t :=
  List.takeWhile_append_of_pos fun c hc => by simpa using fun he : c = nul => h (he ▸ hc)

theorem stringAt_eq_some {mem s : List Char} {i : ℕ} (h : stringAt mem i = some s) :
    s = cstr (mem.drop i) := by
  unfold stringAt at h
  split at h
  · exact (Option.some.inj h).symm
  · cases h

/-- A string that is found ends inside the block. -/
theorem mem_of_stringAt {mem s : List Char} {i : ℕ} (h : stringAt mem i = some s) :
    nul ∈ mem.drop i := by
  unfold stringAt at h
  split at h
  · assumption
  · cases h

theorem stringAt_append_nul {s : List Char} (h : nul ∉ s) (rest : List Char) :
    stringAt (s ++ nul :: rest) 0 = some s := by
  rw [stringAt, List.drop_zero, if_pos (by simp), cstr_append_nul h]

/-- The string in a block is as long as its first bytes exactly if they hold no NUL and one follows. -/
theorem length_cstr_eq_iff {d rest : List Char} (hnul : nul ∈ d ++ rest) :
    (cstr (d ++ rest)).length = d.length ↔ nul ∉ d ∧ rest.head? = some nul := by
  constructor
  · intro hlen
    have hd : nul ∉ d := by
      intro h
      obtain ⟨w, v, rfl, hw⟩ := List.eq_append_cons_of_mem h
      rw [List.append_assoc, List.cons_append, cstr_append_nul hw] at hlen
      simp at hlen
    refine ⟨hd, ?_⟩
    rw [cstr_append hd, List.length_append] at hlen
    cases rest with
    | nil => exact absurd (by simpa using hnul) hd
    | cons c rest =>
      by_contra hc
      have hne : c ≠ nul := fun h => hc (by rw [h]; rfl)
      rw [cstr, List.takeWhile_cons_of_pos (by simpa using hne)] at hlen
      simp at hlen
  · rintro ⟨hd, hhead⟩
    obtain ⟨v, rfl⟩ := List.head?_eq_some_iff.mp hhead
    rw [cstr_append_nul hd]

theorem stringAt_append_iff {d rest : List Char} :
    stringAt (d ++ rest) 0 = some d ↔ nul ∉ d ∧ rest.head? = some nul := by
  constructor
  · intro h
    have hnul := mem_of_stringAt h
    have hs := stringAt_eq_some h
    rw [List.drop_zero] at hnul hs
    exact (length_cstr_eq_iff hnul).mp (congrArg List.length hs.symm)
  · rintro ⟨hd, hhead⟩
    obtain ⟨v, rfl⟩ := List.head?_eq_some_iff.mp hhead
    exact stringAt_append_nul hd v

theorem zeros_succ (n : ℕ) : zeros (n + 1) = nul :: zeros n := List.replicate_succ

@[simp] theorem length_zeros (n : ℕ) : (zeros n).length = n := List.length_replicate

@[simp] theorem drop_zeros (k n : ℕ) : (zeros n).drop k = zeros (n - k) := List.drop_replicate

theorem cstr_zeros (n : ℕ) : cstr (zeros n) = [] := by
  cases n with
  | zero => rfl
  | succ n => rw [zeros_succ]; exact cstr_append_nul (s := []) List.not_mem_nil _

/-- Zeros behind it do not change a string. -/
theorem cstr_pad (s : List Char) (n : ℕ) : cstr (s ++ zeros n) = cstr s := by
  by_cases h : nul ∈ s
  · obtain ⟨w, rest, rfl, hw⟩ := List.eq_append_cons_of_mem h
    rw [List.append_assoc, List.cons_append, cstr_append_nul hw, cstr_append_nul hw]
  · rw [cstr_append h, cstr_zeros, cstr_of_notMem h, List.append_nil]

theorem cstr_append_zeros {s : List Char} (h : nul ∉ s) (n : ℕ) : cstr (s ++ zeros n) = s := by
  rw [cstr_pad, cstr_of_notMem h]

/-- The byte behind a string is its terminator. -/
theorem byteAt_stringAt {mem s : List Char} {i : ℕ} (h : stringAt mem i = some s)
    (behind : ℕ → Char) : byteAt mem behind (i + s.length) = nul := by
  have hs := stringAt_eq_some h
  obtain ⟨w, rest, hdrop, hw⟩ := List.eq_append_cons_of_mem (mem_of_stringAt h)
  rw [hdrop, cstr_append_nul hw] at hs
  rw [byteAt, ← List.getElem?_drop, hdrop, hs]
  simp

/-- Copying behind what has been copied to the start of a block. -/
theorem memcpy_append {mem d : List Char} {s : List Char} (hs : s.length ≤ mem.length) :
    memcpy (s ++ mem.drop s.length) s.length d =
      if (s ++ d).length ≤ mem.length then some (s ++ d ++ mem.drop (s ++ d).length) else none := by
  rw [memcpy, List.take_left, List.length_append, List.length_drop, Nat.add_sub_cancel' hs,
    List.length_append, List.drop_append, List.drop_eq_nil_of_le (Nat.le_add_right _ _),
    List.nil_append, Nat.add_sub_cancel_left, List.drop_drop]

/-! ## Padded blocks -/

theorem padded_nil (n : ℕ) : padded n [] = zeros n := by simp [padded]

theorem length_padded {n : ℕ} {s : List Char} (h : s.length ≤ n) : (padded n s).length = n := by
  simp [padded]
  omega

theorem cstr_padded {s : List Char} (h : nul ∉ s) (n : ℕ) : cstr (padded n s) = s :=
  cstr_append_zeros h _

/-- Writing a string and its terminator in front of zeros leaves zeros behind it. -/
theorem append_nul_zeros (s : List Char) {n : ℕ} (h : s.length < n) :
    s ++ nul :: zeros (n - (s.length + 1)) = padded n s := by
  obtain ⟨k, rfl⟩ : ∃ k, n = s.length + 1 + k := ⟨n - (s.length + 1), by omega⟩
  rw [padded, show s.length + 1 + k - s.length = k + 1 by omega, zeros_succ]
  simp

theorem drop_padded {n : ℕ} (pre s : List Char) :
    (padded n (pre ++ s)).drop pre.length = s ++ zeros (n - (pre.length + s.length)) := by
  simp [padded]

theorem strcpy_zeros (n : ℕ) (s : List Char) :
    strcpy (zeros n) s = if s.length < n then some (padded n s) else none := by
  rw [strcpy, length_zeros, drop_zeros]
  by_cases h : s.length < n
  · rw [if_pos h, if_pos h, append_nul_zeros s h]
  · rw [if_neg h, if_neg h]

/-- Appending the empty string changes nothing. -/
theorem strcat_nil {mem : List Char} (h : nul ∈ mem) : strcat mem [] = some mem := by
  obtain ⟨w, rest, rfl, hw⟩ := List.eq_append_cons_of_mem h
  unfold strcat
  rw [cstr_append_nul hw, if_pos (by simp)]
  simp

theorem strcat_padded {n : ℕ} {s : List Char} (hs : nul ∉ s) (hn : s.length ≤ n) (t : List Char) :
    strcat (padded n s) t =
      if s.length + t.length < n then some (padded n (s ++ t)) else none := by
  rw [strcat, cstr_padded hs, length_padded hn]
  by_cases h : s.length + t.length < n
  · have hdrop : (padded n s).drop (s.length + t.length + 1) =
        zeros (n - ((s ++ t).length + 1)) := by
      rw [padded, List.drop_append, List.drop_eq_nil_of_le (by omega), drop_zeros, List.nil_append,
        List.length_append]
      congr 1
      omega
    rw [if_pos h, if_pos h, hdrop, append_nul_zeros _ (by simpa using h)]
  · rw [if_neg h, if_neg h]

/-- What is read behind `pre` in a padded block ends at the first NUL. -/
theorem stringAt_padded_cstr {n : ℕ} {pre s : List Char} (hn : (pre ++ s).length < n) :
    stringAt (padded n (pre ++ s)) pre.length = some (cstr s) := by
  have hmem : nul ∈ s ++ zeros (n - (pre.length + s.length)) := by
    rw [List.length_append] at hn
    exact List.mem_append_right _ (List.mem_replicate.mpr ⟨by omega, rfl⟩)
  rw [stringAt, drop_padded, if_pos hmem, cstr_pad]

/-- The string that starts behind `pre` in a padded block. -/
theorem stringAt_padded {n : ℕ} {pre s : List Char} (hs : nul ∉ s)
    (hn : (pre ++ s).length < n) : stringAt (padded n (pre ++ s)) pre.length = some s := by
  rw [stringAt_padded_cstr hn, cstr_of_notMem hs]

/-- The string at the start of a padded block. -/
theorem stringAt_padded_zero {n : ℕ} {s : List Char} (hs : nul ∉ s) (hn : s.length < n) :
    stringAt (padded n s) 0 = some s := by
  have h : stringAt (padded n ([] ++ s)) ([] : List Char).length = some s :=
    stringAt_padded hs (by simpa using hn)
  exact h

theorem byteAt_padded {n : ℕ} (pre : List Char) (c : Char) (s : List Char) (behind : ℕ → Char) :
    byteAt (padded n (pre ++ c :: s)) behind pre.length = c := by
  simp [byteAt, padded]

theorem byteAt_zeros {n i : ℕ} (h : i < n) (behind : ℕ → Char) :
    byteAt (zeros n) behind i = nul := by
  simp [byteAt, zeros, h]

theorem byteAt_zeros_behind {n i : ℕ} (h : n ≤ i) (behind : ℕ → Char) :
    byteAt (zeros n) behind i = behind i := by
  simp [byteAt, zeros, h]

/-- The bytes between two addresses of a padded block. -/
theorem slice_padded {n : ℕ} (pre s post : List Char) :
    ((padded n (pre ++ s ++ post)).drop pre.length).take (pre.length + s.length - pre.length) =
      s := by
  rw [List.append_assoc, drop_padded]
  simp

end QuorumLogFs.Basis
