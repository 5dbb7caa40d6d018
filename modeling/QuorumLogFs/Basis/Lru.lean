import Mathlib.Tactic

/-!
# Least-recently-used counters

Every block has a counter. `touch` marks a block as just used: it gets counter `0` and every block
that was not older moves up by one. `victim` is the first block with the largest counter. While `k`
blocks are in use, `Ranked` says that their counters are the ranks `0 .. k-1` and that the others,
which come last, all have counter `k`; so the victim is the first unused block as long as there is
one. `Recent` adds the order of the ranks: a lower counter means a later use, so a victim among used
blocks is the one whose last use is the oldest.
-/

namespace QuorumLogFs.Basis

/-- The scan for the first largest counter among the blocks below `n`. -/
def victim (lru : ℕ → ℕ) : ℕ → Option ℕ
  | 0 => none
  | n + 1 =>
    match victim lru n with
    | none => some n
    | some i => if lru i < lru n then some n else some i

/-- Mark block `b` of `n` as just used. -/
def touch (n : ℕ) (lru : ℕ → ℕ) (b i : ℕ) : ℕ :=
  if i = b then 0 else if i < n ∧ lru i ≤ lru b then (lru i + 1) % n else lru i

/-- With the first `k` of `n` blocks in use, their counters are the ranks below `k`. -/
structure Ranked (n k : ℕ) (lru : ℕ → ℕ) : Prop where
  le : k ≤ n
  unused : ∀ i, k ≤ i → i < n → lru i = k
  used : ∀ i, i < k → lru i < k
  inj : ∀ i, i < k → ∀ j, j < k → lru i = lru j → i = j

variable {n k : ℕ} {lru : ℕ → ℕ}

/-- The victim is a block, no counter is above its own, and those in front of it are below. -/
theorem victim_spec (hn : 0 < n) : ∃ v, victim lru n = some v ∧ v < n ∧
    (∀ i, i < n → lru i ≤ lru v) ∧ ∀ i, i < v → lru i < lru v := by
  induction n with
  | zero => omega
  | succ n ih =>
    rcases Nat.eq_zero_or_pos n with rfl | hpos
    · exact ⟨0, rfl, by omega, fun i hi => by rw [Nat.lt_one_iff.mp hi], by omega⟩
    · obtain ⟨v, hv, hvn, hmax, hfirst⟩ := ih hpos
      by_cases h : lru v < lru n
      · refine ⟨n, by simp [victim, hv, h], by omega, fun i hi => ?_, fun i hi => ?_⟩
        · rcases Nat.lt_succ_iff_lt_or_eq.mp hi with hi | rfl
          · exact (hmax i hi).trans h.le
          · exact le_rfl
        · exact (hmax i hi).trans_lt h
      · refine ⟨v, by simp [victim, hv, h], by omega, fun i hi => ?_, hfirst⟩
        rcases Nat.lt_succ_iff_lt_or_eq.mp hi with hi | rfl
        · exact hmax i hi
        · exact not_lt.mp h

theorem victim_lt {v : ℕ} (h : victim lru n = some v) : v < n := by
  rcases Nat.eq_zero_or_pos n with rfl | hn
  · cases h
  · obtain ⟨w, hw, hwn, -⟩ : ∃ w, victim lru n = some w ∧ w < n ∧ _ := victim_spec hn
    obtain rfl : w = v := by simpa [hw] using h
    exact hwn

theorem ranked_zero (n : ℕ) : Ranked n 0 fun _ => 0 :=
  ⟨Nat.zero_le n, fun _ _ _ => rfl, fun _ h => absurd h (Nat.not_lt_zero _),
    fun _ h => absurd h (Nat.not_lt_zero _)⟩

/-- As long as a block is unused, the victim is the first unused one. -/
theorem Ranked.victim_unused (h : Ranked n k lru) (hk : k < n) : victim lru n = some k := by
  obtain ⟨v, hv, hvn, hmax, hfirst⟩ : ∃ v, victim lru n = some v ∧ v < n ∧ _ :=
    victim_spec (by omega)
  have hvk : ¬ v < k := fun hlt => by
    have := hmax k hk
    have := h.used v hlt
    rw [h.unused k le_rfl hk] at *
    omega
  have hkv : ¬ k < v := fun hlt => by
    have := hfirst k hlt
    rw [h.unused k le_rfl hk, h.unused v (by omega) hvn] at this
    omega
  rw [hv, show v = k by omega]

/-- Using a block again keeps the ranks. -/
theorem Ranked.touch_used (h : Ranked n k lru) {b : ℕ} (hb : b < k) :
    Ranked n k (touch n lru b) := by
  have hbk := h.used b hb
  have hle := h.le
  -- a counter that moves up was below the counter of `b`
  have hup : ∀ i, i < k → i ≠ b → lru i ≤ lru b → (lru i + 1) % n = lru i + 1 := by
    intro i hi hib hle'
    have := h.inj i hi b hb
    exact Nat.mod_eq_of_lt (by omega)
  have hval : ∀ i, i < k → touch n lru b i =
      if i = b then 0 else if lru i ≤ lru b then lru i + 1 else lru i := by
    intro i hi
    unfold touch
    by_cases hib : i = b
    · rw [if_pos hib, if_pos hib]
    · by_cases hle' : lru i ≤ lru b
      · rw [if_neg hib, if_neg hib, if_pos ⟨by omega, hle'⟩, if_pos hle', hup i hi hib hle']
      · rw [if_neg hib, if_neg hib, if_neg (fun hc => hle' hc.2), if_neg hle']
  refine ⟨hle, fun i hki hin => ?_, fun i hi => ?_, fun i hi j hj hij => ?_⟩
  · have := h.unused i hki hin
    rw [touch, if_neg (by omega), if_neg (by omega), this]
  · have := h.used i hi
    have := h.inj i hi b hb
    rw [hval i hi]
    split_ifs <;> omega
  · have := h.inj i hi j hj
    have := h.inj i hi b hb
    have := h.inj j hj b hb
    rw [hval i hi, hval j hj] at hij
    split_ifs at hij <;> omega

/-- Taking the first unused block puts one more block in use. -/
theorem Ranked.touch_unused (h : Ranked n k lru) (hk : k < n) :
    Ranked n (k + 1) (touch n lru k) := by
  have hlk := h.unused k le_rfl hk
  have hval : ∀ i, i < k → touch n lru k i = lru i + 1 := by
    intro i hi
    have := h.used i hi
    rw [touch, if_neg (by omega), if_pos (by omega), Nat.mod_eq_of_lt (by omega)]
  refine ⟨hk, fun i hki hin => ?_, fun i hi => ?_, fun i hi j hj hij => ?_⟩
  · have := h.unused i (by omega) hin
    rw [touch, if_neg (by omega), if_pos (by omega), this, Nat.mod_eq_of_lt (by omega)]
  · rcases Nat.lt_succ_iff_lt_or_eq.mp hi with hi | rfl
    · have := h.used i hi
      rw [hval i hi]
      omega
    · rw [touch, if_pos rfl]
      omega
  · have hself : touch n lru k k = 0 := if_pos rfl
    rcases Nat.lt_succ_iff_lt_or_eq.mp hi with hi | rfl <;>
      rcases Nat.lt_succ_iff_lt_or_eq.mp hj with hj | rfl
    · rw [hval i hi, hval j hj] at hij
      exact h.inj i hi j hj (by omega)
    · rw [hval i hi, hself] at hij
      omega
    · rw [hval j hj, hself] at hij
      omega
    · rfl

/-! ## Recency -/

/-- `log` lists the blocks as they were used, the latest first: the blocks in it are the first `k`,
and their counters are ordered by their latest use. -/
structure Recent (n k : ℕ) (log : List ℕ) (lru : ℕ → ℕ) : Prop extends Ranked n k lru where
  mem : ∀ b, b ∈ log ↔ b < k
  order : ∀ b ∈ log, ∀ c ∈ log, lru b < lru c ↔ log.idxOf b < log.idxOf c

theorem recent_nil (n : ℕ) : Recent n 0 [] fun _ => 0 :=
  { ranked_zero n with
    mem := fun b => by simp
    order := fun b hb => absurd hb List.not_mem_nil }

/-- No counter wraps when block `b`, used before or next in line, is used. -/
theorem Ranked.no_wrap (h : Ranked n k lru) {b : ℕ} (hb : b < k ∨ b = k ∧ k < n) {i : ℕ} (hi : i < n)
    (hib : i ≠ b) (hle : lru i ≤ lru b) : (lru i + 1) % n = lru i + 1 := by
  have hkn := h.le
  refine Nat.mod_eq_of_lt ?_
  rcases lt_or_ge i k with hik | hik
  · have hik' := h.used i hik
    rcases hb with hb | ⟨rfl, hb⟩
    · have := h.used b hb
      have := h.inj i hik b hb
      omega
    · omega
  · have hik' := h.unused i hik hi
    rcases hb with hb | ⟨rfl, hb⟩
    · have := h.used b hb
      omega
    · omega

/-- Using a block keeps the order among the others and puts it in front. -/
theorem touch_lt_touch {log : List ℕ} {b : ℕ}
    (hwrap : ∀ i ∈ log, i ≠ b → lru i ≤ lru b → (lru i + 1) % n = lru i + 1)
    (hlt : ∀ i ∈ log, i < n) (hne : ∀ i ∈ log, i ≠ b → lru i ≠ lru b)
    (horder : ∀ i ∈ log, ∀ j ∈ log, lru i < lru j ↔ log.idxOf i < log.idxOf j) :
    ∀ i ∈ b :: log, ∀ j ∈ b :: log,
      touch n lru b i < touch n lru b j ↔ (b :: log).idxOf i < (b :: log).idxOf j := by
  have hself : touch n lru b b = 0 := if_pos rfl
  have hval : ∀ i ∈ log, i ≠ b →
      touch n lru b i = if lru i ≤ lru b then lru i + 1 else lru i := by
    intro i hi hib
    have := hlt i hi
    unfold touch
    by_cases hle : lru i ≤ lru b
    · rw [if_neg hib, if_pos ⟨this, hle⟩, if_pos hle, hwrap i hi hib hle]
    · rw [if_neg hib, if_neg fun h => hle h.2, if_neg hle]
  have hpos : ∀ i ∈ log, i ≠ b → 0 < touch n lru b i := by
    intro i hi hib
    rw [hval i hi hib]
    split_ifs <;> omega
  have hidx : ∀ i, i ≠ b → (b :: log).idxOf i = log.idxOf i + 1 := fun i hib =>
    List.idxOf_cons_ne _ hib.symm
  intro i hi j hj
  by_cases hib : i = b
  · subst hib
    rw [hself, List.idxOf_cons_self]
    by_cases hji : j = i
    · rw [hji, hself, List.idxOf_cons_self]
    · have := hpos j ((List.mem_cons.mp hj).resolve_left hji) hji
      rw [hidx j hji]
      omega
  · have hi := (List.mem_cons.mp hi).resolve_left hib
    by_cases hjb : j = b
    · rw [hjb, hself, List.idxOf_cons_self]
      omega
    · have hj := (List.mem_cons.mp hj).resolve_left hjb
      have hij := horder i hi j hj
      have := hne i hi hib
      have := hne j hj hjb
      rw [hidx i hib, hidx j hjb, hval i hi hib, hval j hj hjb, Nat.add_lt_add_iff_right, ← hij]
      split_ifs <;> omega

theorem Recent.lt {log : List ℕ} (h : Recent n k log lru) {b : ℕ} (hb : b ∈ log) : b < n :=
  ((h.mem b).mp hb).trans_le h.le

/-- Using a block again. -/
theorem Recent.touch_used {log : List ℕ} (h : Recent n k log lru) {b : ℕ} (hb : b ∈ log) :
    Recent n k (b :: log) (touch n lru b) where
  toRanked := h.toRanked.touch_used ((h.mem b).mp hb)
  mem c := by
    rw [List.mem_cons, h.mem]
    have := (h.mem b).mp hb
    omega
  order := touch_lt_touch
    (fun _ hi => h.toRanked.no_wrap (Or.inl ((h.mem b).mp hb)) (h.lt hi)) (fun _ => h.lt)
    (fun i hi hib heq => hib (h.inj i ((h.mem i).mp hi) b ((h.mem b).mp hb) heq)) h.order

/-- Using the next block for the first time. -/
theorem Recent.touch_unused {log : List ℕ} (h : Recent n k log lru) (hk : k < n) :
    Recent n (k + 1) (k :: log) (touch n lru k) where
  toRanked := h.toRanked.touch_unused hk
  mem c := by
    rw [List.mem_cons, h.mem]
    omega
  order := touch_lt_touch
    (fun _ hi => h.toRanked.no_wrap (Or.inr ⟨rfl, hk⟩) (h.lt hi)) (fun _ => h.lt)
    (fun i hi _ heq => by
      have := h.used i ((h.mem i).mp hi)
      have := h.unused k le_rfl hk
      omega) h.order

theorem Recent.card {log : List ℕ} (h : Recent n k log lru) : log.toFinset = Finset.range k := by
  ext b
  rw [List.mem_toFinset, Finset.mem_range, h.mem]

/-- The counters of the used blocks are `0 .. k-1`. -/
theorem Ranked.image_lru (h : Ranked n k lru) : (Finset.range k).image lru = Finset.range k := by
  refine Finset.eq_of_subset_of_card_le ?_ ?_
  · intro c hc
    obtain ⟨i, hi, rfl⟩ := Finset.mem_image.mp hc
    exact Finset.mem_range.mpr (h.used i (Finset.mem_range.mp hi))
  · rw [Finset.card_image_of_injOn]
    intro i hi j hj hij
    exact h.inj i (Finset.mem_range.mp hi) j (Finset.mem_range.mp hj) hij

/-- When all blocks are used, the victim is the one whose latest use is the oldest. -/
theorem Recent.victim_oldest {log : List ℕ} (h : Recent n n log lru) (hn : 0 < n) :
    ∃ v ∈ log, victim lru n = some v ∧ ∀ c ∈ log, c ≠ v → log.idxOf c < log.idxOf v := by
  obtain ⟨v, hv, hvn, hmax, -⟩ : ∃ v, victim lru n = some v ∧ v < n ∧ _ := victim_spec hn
  have hmem : v ∈ log := (h.mem v).mpr hvn
  refine ⟨v, hmem, hv, fun c hc hcv => ?_⟩
  have hcn := h.lt hc
  have hle := hmax c hcn
  have hne : lru c ≠ lru v := fun heq => hcv (h.inj c hcn v hvn heq)
  rw [← h.order c hc v hmem]
  omega

end QuorumLogFs.Basis
