import Mathlib.Data.Fintype.Card
import QuorumLogFs.Basis.Runs

/-!
# Threads over a shared memory

Threads share a memory, and each of them is at some place of its code. A step of the program is an atomic
step of one thread, so the runs of `threadStep` are the interleavings: lists of the threads whose turn it
is. `AtMostOne` and `number` say how many threads are at places of some kind; a step changes this by the
thread that takes it.
-/

namespace QuorumLogFs.Basis

variable {ι σ τ : Type*}

/-- The shared memory, and where each thread is in its code. -/
structure Threads (ι σ τ : Type*) where
  shared : σ
  place : ι → τ

section Step

variable [DecidableEq ι] {code : ι → σ → τ → Option (σ × τ)} {s s' : Threads ι σ τ} {t : ι}

/-- One atomic step of one thread. A thread that has no step has finished. -/
def threadStep (code : ι → σ → τ → Option (σ × τ)) (s : Threads ι σ τ) (t : ι) :
    Option (Threads ι σ τ) :=
  (code t s.shared (s.place t)).map fun r => ⟨r.1, Function.update s.place t r.2⟩

theorem threadStep_eq_some :
    threadStep code s t = some s' ↔ ∃ m p, code t s.shared (s.place t) = some (m, p) ∧
      s' = ⟨m, Function.update s.place t p⟩ := by
  unfold threadStep
  rw [Option.map_eq_some_iff]
  constructor
  · rintro ⟨⟨m, p⟩, hr, rfl⟩
    exact ⟨m, p, hr, rfl⟩
  · rintro ⟨m, p, hr, rfl⟩
    exact ⟨(m, p), hr, rfl⟩

end Step

/-! ## Places -/

variable {P : τ → Prop} {place : ι → τ}

/-- At most one thread is at a place of this kind. -/
def AtMostOne (P : τ → Prop) (place : ι → τ) : Prop :=
  ∀ t u, P (place t) → P (place u) → t = u

/-- How many threads are at places of this kind. -/
def number [Fintype ι] (P : τ → Prop) [DecidablePred P] (place : ι → τ) : ℕ :=
  (Finset.univ.filter fun t => P (place t)).card

theorem number_eq_zero [Fintype ι] [DecidablePred P] : number P place = 0 ↔ ∀ t, ¬ P (place t) := by
  unfold number
  rw [Finset.card_eq_zero, Finset.filter_eq_empty_iff]
  simp

variable [DecidableEq ι]

/-- What holds of the new place and of the other threads holds of all. -/
theorem forall_update_place {Q : ι → τ → Prop} {t : ι} {p : τ} (hself : Q t p)
    (hother : ∀ u, u ≠ t → Q u (place u)) : ∀ u, Q u (Function.update place t p u) :=
  (Function.forall_update_iff place Q).mpr ⟨hself, hother⟩

theorem atMostOne_update {t : ι} {p : τ} (h : AtMostOne P place)
    (hp : P p → ∀ u, u ≠ t → ¬ P (place u)) : AtMostOne P (Function.update place t p) := by
  intro u v hu hv
  by_cases hut : u = t <;> by_cases hvt : v = t
  · rw [hut, hvt]
  · subst hut
    rw [Function.update_self] at hu
    rw [Function.update_of_ne hvt] at hv
    exact absurd hv (hp hu v hvt)
  · subst hvt
    rw [Function.update_self] at hv
    rw [Function.update_of_ne hut] at hu
    exact absurd hu (hp hv u hut)
  · rw [Function.update_of_ne hut] at hu
    rw [Function.update_of_ne hvt] at hv
    exact h u v hu hv

/-- A thread enters a place of this kind where nobody is. -/
theorem AtMostOne.enter {t : ι} {p : τ} (h : ∀ u, ¬ P (place u)) :
    AtMostOne P (Function.update place t p) :=
  atMostOne_update (fun u _ hu _ => absurd hu (h u)) fun _ u _ => h u

/-- A thread moves and is at a place of this kind only if it was before. -/
theorem AtMostOne.move {t : ι} {p : τ} (h : AtMostOne P place) (hp : P p → P (place t)) :
    AtMostOne P (Function.update place t p) :=
  atMostOne_update h fun hP _ hne hu => hne (h _ _ hu (hp hP))

variable [Fintype ι] [DecidablePred P]

/-- The thread that moves is counted where it comes from and where it goes. -/
theorem number_update (P : τ → Prop) [DecidablePred P] (place : ι → τ) (t : ι) (p : τ) :
    number P (Function.update place t p) + (if P (place t) then 1 else 0) =
      number P place + if P p then 1 else 0 := by
  have hsplit : ∀ q : ι → τ, number P q =
      (if P (q t) then 1 else 0) + ((Finset.univ.erase t).filter fun u => P (q u)).card := by
    intro q
    unfold number
    rw [← Finset.insert_erase (Finset.mem_univ t), Finset.filter_insert]
    have hnot : t ∉ (Finset.univ.erase t).filter fun u => P (q u) := by simp
    split
    · rw [Finset.erase_insert (Finset.notMem_erase t _), Finset.card_insert_of_notMem hnot]
      omega
    · rw [Finset.erase_insert (Finset.notMem_erase t _), Nat.zero_add]
  have hrest : ((Finset.univ.erase t).filter fun u => P (Function.update place t p u)) =
      (Finset.univ.erase t).filter fun u => P (place u) := by
    refine Finset.filter_congr fun u hu => ?_
    rw [Function.update_of_ne (Finset.ne_of_mem_erase hu)]
  rw [hsplit (Function.update place t p), hsplit place, hrest, Function.update_self]
  omega

/-- A thread that moves without leaving or entering. -/
theorem number_move {t : ι} {p : τ} (h : P p ↔ P (place t)) :
    number P (Function.update place t p) = number P place := by
  have hupdate := number_update P place t p
  simp only [h] at hupdate
  omega

theorem number_enter {t : ι} {p : τ} (hp : P p) (ht : ¬ P (place t)) :
    number P (Function.update place t p) = number P place + 1 := by
  have hupdate := number_update P place t p
  simpa only [if_pos hp, if_neg ht, Nat.add_zero] using hupdate

theorem number_leave {t : ι} {p : τ} (hp : ¬ P p) (ht : P (place t)) :
    number P (Function.update place t p) + 1 = number P place := by
  have hupdate := number_update P place t p
  simpa only [if_neg hp, if_pos ht, Nat.add_zero] using hupdate

end QuorumLogFs.Basis
