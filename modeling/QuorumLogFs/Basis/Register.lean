import Mathlib.Data.Finset.Card
import Mathlib.Tactic

/-!
# Replicated registers

Replicas hold versioned copies of one register. A write goes to a quorum of replicas under a version
above all it saw there; a read takes a copy of the highest version in another quorum. `Consistent` is
the invariant that makes such reads return the latest write; `Consistent.write` preserves it and
`Consistent.read` uses it. Nothing is said here about how the versions are found out.
-/

namespace QuorumLogFs.Basis

variable {α : Type*} {N : ℕ} {w : ℤ} {rep rep' : ℕ → Option (ℤ × α)} {latest : Option α}

/-- The version of a copy; a missing copy counts as version `0`. -/
def version (c : Option (ℤ × α)) : ℤ := (c.map Prod.fst).getD 0

@[simp] theorem version_none : version (none : Option (ℤ × α)) = 0 := rfl

@[simp] theorem version_some (m : ℤ) (x : α) : version (some (m, x)) = m := rfl

section

variable [DecidableEq α]

/-- The replicas below `N` that hold this copy. -/
def holders (N : ℕ) (rep : ℕ → Option (ℤ × α)) (n : ℤ) (x : α) : Finset ℕ :=
  (Finset.range N).filter fun i => rep i = some (n, x)

/-- Copies of one version agree, and after a write the highest version is held, with the value
written, by at least `w` replicas. -/
structure Consistent (N : ℕ) (w : ℤ) (rep : ℕ → Option (ℤ × α)) (latest : Option α) : Prop where
  pos : ∀ i < N, ∀ m x, rep i = some (m, x) → 1 ≤ m
  agree : ∀ i < N, ∀ j < N, ∀ m x y, rep i = some (m, x) → rep j = some (m, y) → x = y
  held : (latest = none ∧ ∀ i < N, rep i = none) ∨
    ∃ n x, w ≤ (holders N rep n x).card ∧ (∀ i < N, ∀ m y, rep i = some (m, y) → m ≤ n) ∧
      ∀ y, latest = some y → y = x

/-- A quorum that meets the holders contains one of them. -/
theorem exists_holder_mem {R : Finset ℕ} {n : ℤ} {x : α} (hR : R ⊆ Finset.range N)
    (hover : (N : ℤ) < R.card + w) (hw : w ≤ (holders N rep n x).card) :
    ∃ i ∈ R, rep i = some (n, x) := by
  have hcard : (Finset.range N).card < R.card + (holders N rep n x).card := by
    rw [Finset.card_range]
    omega
  obtain ⟨i, hi⟩ := Finset.inter_nonempty_of_card_lt_card_add_card hR
    (Finset.filter_subset _ _) hcard
  obtain ⟨hiR, hih⟩ := Finset.mem_inter.mp hi
  exact ⟨i, hiR, (Finset.mem_filter.mp hih).2⟩

/-- The highest version in a quorum is the highest version of all. -/
theorem Consistent.le_top (h : Consistent N w rep latest) {W : Finset ℕ}
    (hW : W ⊆ Finset.range N) (hover : (N : ℤ) < W.card + w) {top : ℤ}
    (hmax : ∀ i ∈ W, version (rep i) ≤ top) :
    ∀ i < N, ∀ m x, rep i = some (m, x) → m ≤ top := by
  intro i hi m x hix
  rcases h.held with ⟨-, hnone⟩ | ⟨n, y, hw, hle, -⟩
  · rw [hnone i hi] at hix
    exact absurd hix (by simp)
  · obtain ⟨j, hj, hjn⟩ := exists_holder_mem hW hover hw
    have hn := hmax j hj
    rw [hjn, version_some] at hn
    exact (hle i hi m x hix).trans hn

/-- Versions in a quorum are not negative. -/
theorem Consistent.version_nonneg (h : Consistent N w rep latest) {i : ℕ} (hi : i < N) :
    0 ≤ version (rep i) := by
  cases hrep : rep i with
  | none => simp
  | some c =>
    have := h.pos i hi c.1 c.2 hrep
    change 0 ≤ c.1
    omega

/-- Writing the next version to a quorum. -/
theorem Consistent.write (h : Consistent N w rep latest) {W : Finset ℕ} {top : ℤ} {x : α}
    (hW : W ⊆ Finset.range N) (hover : (N : ℤ) < W.card + w) (hw : w ≤ W.card)
    (htop : ∃ i ∈ W, version (rep i) = top) (hmax : ∀ i ∈ W, version (rep i) ≤ top)
    (hin : ∀ i ∈ W, rep' i = some (top + 1, x)) (hout : ∀ i < N, i ∉ W → rep' i = rep i) :
    Consistent N w rep' (some x) := by
  have hle := h.le_top hW hover hmax
  have htop0 : 0 ≤ top := by
    obtain ⟨i, hi, rfl⟩ := htop
    exact h.version_nonneg (Finset.mem_range.mp (hW hi))
  have hcopy : ∀ i < N, ∀ m y, rep' i = some (m, y) →
      (m = top + 1 ∧ y = x) ∨ (m ≤ top ∧ rep i = some (m, y)) := by
    intro i hi m y hiy
    by_cases hiW : i ∈ W
    · rw [hin i hiW] at hiy
      obtain ⟨rfl, rfl⟩ := Prod.mk.inj (Option.some.inj hiy)
      exact Or.inl ⟨rfl, rfl⟩
    · rw [hout i hi hiW] at hiy
      exact Or.inr ⟨hle i hi m y hiy, hiy⟩
  refine ⟨?_, ?_, Or.inr ⟨top + 1, x, ?_, ?_, ?_⟩⟩
  · intro i hi m y hiy
    rcases hcopy i hi m y hiy with ⟨rfl, -⟩ | ⟨-, hiy⟩
    · omega
    · exact h.pos i hi m y hiy
  · intro i hi j hj m y z hiy hjz
    rcases hcopy i hi m y hiy with ⟨rfl, rfl⟩ | ⟨hm, hiy⟩ <;>
      rcases hcopy j hj _ z hjz with ⟨hm', rfl⟩ | ⟨hm', hjz⟩
    · rfl
    · omega
    · omega
    · exact h.agree i hi j hj m y z hiy hjz
  · have hsub : W ⊆ holders N rep' (top + 1) x := fun i hi =>
      Finset.mem_filter.mpr ⟨hW hi, hin i hi⟩
    have := Finset.card_le_card hsub
    omega
  · intro i hi m y hiy
    rcases hcopy i hi m y hiy with ⟨rfl, -⟩ | ⟨hm, -⟩ <;> omega
  · rintro y hy
    exact (Option.some.inj hy).symm

/-- A quorum holds a copy of the latest write, and no copy of a higher version or of the same version
with another value exists. -/
theorem Consistent.read {x : α} (h : Consistent N w rep (some x)) {R : Finset ℕ}
    (hR : R ⊆ Finset.range N) (hover : (N : ℤ) < R.card + w) :
    ∃ n, (∃ i ∈ R, rep i = some (n, x)) ∧
      ∀ i < N, ∀ m y, rep i = some (m, y) → m ≤ n ∧ (m = n → y = x) := by
  rcases h.held with ⟨hnone, -⟩ | ⟨n, y, hw, hle, hlatest⟩
  · exact absurd hnone (by simp)
  · obtain rfl := hlatest x rfl
    obtain ⟨i, hi, hix⟩ := exists_holder_mem hR hover hw
    refine ⟨n, ⟨i, hi, hix⟩, fun j hj m y hjy => ⟨hle j hj m y hjy, ?_⟩⟩
    rintro rfl
    exact h.agree j hj i (Finset.mem_range.mp (hR hi)) m y x hjy hix

/-- Much of a set of replicas shares one version. -/
theorem Consistent.exists_common_version (h : Consistent N w rep latest) (hwN : w ≤ N)
    {W : Finset ℕ} (hW : W ⊆ Finset.range N) :
    ∃ n, (W.card : ℤ) + w ≤ N + (W.filter fun i => version (rep i) = n).card := by
  rcases h.held with ⟨-, hnone⟩ | ⟨n, x, hw, -, -⟩
  · have hall : (W.filter fun i => version (rep i) = 0) = W :=
      Finset.filter_true_of_mem fun i hi => by rw [hnone i (Finset.mem_range.mp (hW hi))]; rfl
    exact ⟨0, by rw [hall]; omega⟩
  · have hunion : (W ∪ holders N rep n x).card ≤ N := by
      have hsub : W ∪ holders N rep n x ⊆ Finset.range N :=
        Finset.union_subset hW (Finset.filter_subset _ _)
      simpa using Finset.card_le_card hsub
    have hinter : W ∩ holders N rep n x ⊆ W.filter fun i => version (rep i) = n := by
      intro i hi
      obtain ⟨hiW, hih⟩ := Finset.mem_inter.mp hi
      refine Finset.mem_filter.mpr ⟨hiW, ?_⟩
      rw [(Finset.mem_filter.mp hih).2, version_some]
    have hcard := Finset.card_le_card hinter
    have hsum := Finset.card_union_add_card_inter W (holders N rep n x)
    exact ⟨n, by omega⟩

/-- Consistency is about the replicas below `N` only. -/
theorem Consistent.congr (h : Consistent N w rep latest) (heq : ∀ i < N, rep' i = rep i) :
    Consistent N w rep' latest := by
  have hholders : ∀ n x, holders N rep' n x = holders N rep n x := fun n x =>
    Finset.filter_congr fun i hi => by rw [heq i (Finset.mem_range.mp hi)]
  refine ⟨fun i hi m x => ?_, fun i hi j hj m x y => ?_, ?_⟩
  · rw [heq i hi]
    exact h.pos i hi m x
  · rw [heq i hi, heq j hj]
    exact h.agree i hi j hj m x y
  · rcases h.held with ⟨hlatest, hnone⟩ | ⟨n, x, hw, hle, hlatest⟩
    · exact Or.inl ⟨hlatest, fun i hi => (heq i hi).trans (hnone i hi)⟩
    · refine Or.inr ⟨n, x, by rwa [hholders], fun i hi m y hiy => ?_, hlatest⟩
      rw [heq i hi] at hiy
      exact hle i hi m y hiy

/-- All replicas start with the same copy, or with none. -/
theorem Consistent.init {c : Option (ℤ × α)} (hw : w ≤ N) (hc : ∀ m x, c = some (m, x) → 1 ≤ m) :
    Consistent N w (fun _ => c) none := by
  refine ⟨fun _ _ => hc, fun i _ j _ m x y hx hy => ?_, ?_⟩
  · rw [hx] at hy
    exact (Prod.mk.inj (Option.some.inj hy)).2
  · cases c with
    | none => exact Or.inl ⟨rfl, fun _ _ => rfl⟩
    | some c =>
      refine Or.inr ⟨c.1, c.2, ?_, fun i _ m y hy => ?_, by simp⟩
      · simpa [holders] using hw
      · rw [Option.some.inj hy]

end

end QuorumLogFs.Basis
