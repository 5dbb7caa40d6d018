import Mathlib.Data.List.Induction
import Mathlib.Data.List.Nodup
import Mathlib.Tactic

/-!
# Tallies

`group` collects keyed items into buckets in the order the keys are first seen. `firstMax` is the
usual scan for the first largest count. Together they pick the plurality key of a list of votes;
`mem_group_iff` and `plurality_group` say what they compute without reference to the scan.
-/

namespace QuorumLogFs.Basis

variable {κ ι : Type*} [DecidableEq κ]

/-! ## Buckets -/

/-- Buckets in the order their keys were first seen, each with its members in order. -/
abbrev Buckets (κ ι : Type*) := List (κ × List ι)

/-- File one item: at the end of its bucket, or in a new bucket at the end. -/
def Buckets.add (bs : Buckets κ ι) (k : κ) (i : ι) : Buckets κ ι :=
  if k ∈ bs.map Prod.fst then bs.map fun b => if b.1 = k then (b.1, b.2 ++ [i]) else b
  else bs ++ [(k, [i])]

/-- File all items in order. -/
def group (xs : List (κ × ι)) : Buckets κ ι :=
  xs.foldl (fun bs x => bs.add x.1 x.2) []

/-- The items with key `k`, in order. -/
def members (xs : List (κ × ι)) (k : κ) : List ι :=
  (xs.filter fun x => x.1 = k).map Prod.snd

@[simp] theorem group_nil : group ([] : List (κ × ι)) = [] := rfl

theorem group_snoc (xs : List (κ × ι)) (x : κ × ι) :
    group (xs ++ [x]) = (group xs).add x.1 x.2 := by
  simp [group]

@[simp] theorem members_nil (k : κ) : members ([] : List (κ × ι)) k = [] := rfl

theorem members_snoc (xs : List (κ × ι)) (x : κ × ι) (k : κ) :
    members (xs ++ [x]) k = if x.1 = k then members xs k ++ [x.2] else members xs k := by
  by_cases h : x.1 = k <;> simp [members, h]

theorem mem_members {xs : List (κ × ι)} {k : κ} {i : ι} : i ∈ members xs k ↔ (k, i) ∈ xs := by
  simp [members]

theorem length_members_le (xs : List (κ × ι)) (k : κ) : (members xs k).length ≤ xs.length := by
  rw [members, List.length_map]
  exact List.length_filter_le _ _

/-- A key that no item carries has no members. -/
theorem members_eq_nil_of_notMem {xs : List (κ × ι)} {k : κ} (h : k ∉ xs.map Prod.fst) :
    members xs k = [] := by
  rw [List.eq_nil_iff_forall_not_mem]
  intro i hi
  exact h (List.mem_map.mpr ⟨_, mem_members.mp hi, rfl⟩)

theorem members_ne_nil_of_mem {xs : List (κ × ι)} {k : κ} (h : k ∈ xs.map Prod.fst) :
    members xs k ≠ [] := by
  obtain ⟨x, hx, rfl⟩ := List.mem_map.mp h
  exact List.ne_nil_of_mem (mem_members.mpr (show (x.1, x.2) ∈ xs from hx))

theorem Buckets.map_fst_add (bs : Buckets κ ι) (k : κ) (i : ι) :
    (bs.add k i).map Prod.fst =
      if k ∈ bs.map Prod.fst then bs.map Prod.fst else bs.map Prod.fst ++ [k] := by
  by_cases h : k ∈ bs.map Prod.fst
  · rw [Buckets.add, if_pos h, if_pos h, List.map_map]
    refine List.map_congr_left fun b _ => ?_
    by_cases hb : b.1 = k <;> simp [hb]
  · rw [Buckets.add, if_neg h, if_neg h]
    simp

/-- The bucket keys are the item keys. -/
theorem mem_map_fst_group {xs : List (κ × ι)} {k : κ} :
    k ∈ (group xs).map Prod.fst ↔ k ∈ xs.map Prod.fst := by
  induction xs using List.reverseRecOn with
  | nil => simp
  | append_singleton xs x ih =>
    rw [group_snoc, Buckets.map_fst_add]
    by_cases hx : x.1 ∈ (group xs).map Prod.fst
    · rw [if_pos hx, ih, List.map_append, List.mem_append]
      constructor
      · exact Or.inl
      · rintro (h | h)
        · exact h
        · obtain rfl : k = x.1 := by simpa using h
          exact ih.mp hx
    · rw [if_neg hx, List.mem_append, ih, List.map_append, List.mem_append]
      simp

theorem nodup_map_fst_group (xs : List (κ × ι)) : ((group xs).map Prod.fst).Nodup := by
  induction xs using List.reverseRecOn with
  | nil => simp
  | append_singleton xs x ih =>
    rw [group_snoc, Buckets.map_fst_add]
    split
    · exact ih
    · rename_i hx
      exact List.Nodup.append ih (by simp) (by simpa using hx)

/-- Every bucket holds all items of its key. -/
theorem snd_of_mem_group {xs : List (κ × ι)} {b : κ × List ι} (h : b ∈ group xs) :
    b.2 = members xs b.1 := by
  induction xs using List.reverseRecOn generalizing b with
  | nil => simp at h
  | append_singleton xs x ih =>
    rw [group_snoc, Buckets.add] at h
    rw [members_snoc]
    split at h
    · obtain ⟨b', hb', rfl⟩ := List.mem_map.mp h
      by_cases hk : b'.1 = x.1
      · simp [hk, ih hb']
      · simp [hk, Ne.symm hk, ih hb']
    · rename_i hx
      rcases List.mem_append.mp h with h | h
      · have hne : x.1 ≠ b.1 := by
          rintro heq
          exact hx (List.mem_map.mpr ⟨b, h, heq.symm⟩)
        rw [if_neg hne]
        exact ih h
      · obtain rfl : b = (x.1, [x.2]) := by simpa using h
        rw [mem_map_fst_group] at hx
        simp [members_eq_nil_of_notMem hx]

theorem mem_group_iff {xs : List (κ × ι)} {b : κ × List ι} :
    b ∈ group xs ↔ b.1 ∈ xs.map Prod.fst ∧ b.2 = members xs b.1 := by
  constructor
  · intro h
    exact ⟨mem_map_fst_group.mp (List.mem_map.mpr ⟨b, h, rfl⟩), snd_of_mem_group h⟩
  · rintro ⟨hk, hm⟩
    obtain ⟨b', hb', hkey⟩ := List.mem_map.mp (mem_map_fst_group.mpr hk)
    have hsnd := snd_of_mem_group hb'
    rw [hkey, ← hm] at hsnd
    rwa [← Prod.ext hkey hsnd]

/-- An item stands in the bucket of its key and in no other. -/
theorem exists_bucket {xs : List (κ × ι)} {k : κ} {i : ι} (h : (k, i) ∈ xs) :
    ∃ b : ℕ, (group xs)[b]? = some (k, members xs k) ∧
      ∀ (b' : ℕ) k' is, (group xs)[b']? = some (k', is) → b' ≠ b → k' ≠ k := by
  have hk : k ∈ xs.map Prod.fst := List.mem_map.mpr ⟨_, h, rfl⟩
  obtain ⟨b, hb⟩ := List.mem_iff_getElem?.mp (mem_group_iff (b := (k, members xs k)).mpr ⟨hk, rfl⟩)
  refine ⟨b, hb, ?_⟩
  rintro b' k' is hb' hne rfl
  have hkey : ∀ {j : ℕ} {x : κ × List ι}, (group xs)[j]? = some x →
      ((group xs).map Prod.fst)[j]? = some x.1 := by
    intro j x hj
    rw [List.getElem?_map, hj, Option.map_some]
  obtain ⟨hlt, hget⟩ := List.getElem?_eq_some_iff.mp (hkey hb)
  obtain ⟨hlt', hget'⟩ := List.getElem?_eq_some_iff.mp (hkey hb')
  exact hne ((nodup_map_fst_group xs).getElem_inj_iff.mp (hget'.trans hget.symm))

theorem length_group_le (xs : List (κ × ι)) : (group xs).length ≤ xs.length := by
  induction xs using List.reverseRecOn with
  | nil => simp
  | append_singleton xs x ih =>
    rw [group_snoc, Buckets.add]
    split <;> simp <;> omega

/-- Buckets stand in the order in which their keys were first seen. -/
theorem pairwise_idxOf_group (xs : List (κ × ι)) :
    ((group xs).map Prod.fst).Pairwise fun k k' =>
      (xs.map Prod.fst).idxOf k < (xs.map Prod.fst).idxOf k' := by
  induction xs using List.reverseRecOn with
  | nil => simp
  | append_singleton xs x ih =>
    -- the keys seen so far keep their first positions
    have hsame : ∀ k ∈ (group xs).map Prod.fst,
        ((xs ++ [x]).map Prod.fst).idxOf k = (xs.map Prod.fst).idxOf k := by
      intro k hk
      rw [List.map_append, List.idxOf_append_of_mem (mem_map_fst_group.mp hk)]
    have hold : ((group xs).map Prod.fst).Pairwise fun k k' =>
        ((xs ++ [x]).map Prod.fst).idxOf k < ((xs ++ [x]).map Prod.fst).idxOf k' :=
      ih.imp_of_mem fun hk hk' h => by rwa [hsame _ hk, hsame _ hk']
    rw [group_snoc, Buckets.map_fst_add]
    split
    · exact hold
    · rename_i hx
      refine List.pairwise_append.mpr ⟨hold, by simp, fun k hk k' hk' => ?_⟩
      obtain rfl : k' = x.1 := by simpa using hk'
      have hxs : x.1 ∉ xs.map Prod.fst := fun h => hx (mem_map_fst_group.mpr h)
      rw [hsame k hk, List.map_append, List.idxOf_append_of_notMem hxs]
      have := List.idxOf_lt_length_iff.mpr (mem_map_fst_group.mp hk)
      omega

/-! ## The first largest count -/

/-- Scan for the first largest positive count: the count and where it stands. -/
def firstMax (counts : List ℕ) : ℕ × Option ℕ :=
  counts.zipIdx.foldl (fun best c => if best.1 < c.1 then (c.1, some c.2) else best) (0, none)

@[simp] theorem firstMax_nil : firstMax [] = (0, none) := rfl

theorem firstMax_snoc (counts : List ℕ) (c : ℕ) :
    firstMax (counts ++ [c]) =
      if (firstMax counts).1 < c then (c, some counts.length) else firstMax counts := by
  rw [firstMax, List.zipIdx_append, List.foldl_append]
  simp only [firstMax, Nat.zero_add, List.zipIdx_singleton, List.foldl_cons, List.foldl_nil]
  rfl

/-- A trailing zero count is never chosen. -/
@[simp] theorem firstMax_snoc_zero (counts : List ℕ) :
    firstMax (counts ++ [0]) = firstMax counts := by
  simp [firstMax_snoc]

theorem le_firstMax {counts : List ℕ} {c : ℕ} (h : c ∈ counts) : c ≤ (firstMax counts).1 := by
  induction counts using List.reverseRecOn with
  | nil => simp at h
  | append_singleton counts d ih =>
    rw [firstMax_snoc]
    rcases List.mem_append.mp h with h | h
    · split
      · exact (ih h).trans (by omega)
      · exact ih h
    · obtain rfl : c = d := by simpa using h
      split
      · exact le_rfl
      · omega

/-- What the scan returns when it returns a position. -/
theorem firstMax_some {counts : List ℕ} {r : ℕ} (h : (firstMax counts).2 = some r) :
    counts[r]? = some (firstMax counts).1 ∧
      ∀ j < r, ∀ c, counts[j]? = some c → c < (firstMax counts).1 := by
  induction counts using List.reverseRecOn with
  | nil => simp at h
  | append_singleton counts d ih =>
    rw [firstMax_snoc] at h ⊢
    split at h
    · rename_i hlt
      obtain rfl : counts.length = r := by simpa using h
      simp only [if_pos hlt]
      refine ⟨by simp, fun j hj c hc => ?_⟩
      rw [List.getElem?_append_left hj] at hc
      exact (le_firstMax (List.mem_of_getElem? hc)).trans_lt hlt
    · rename_i hlt
      simp only [if_neg hlt]
      obtain ⟨hr, hbefore⟩ := ih h
      have hrlen : r < counts.length := by
        obtain ⟨hlen, -⟩ := List.getElem?_eq_some_iff.mp hr
        exact hlen
      refine ⟨by rw [List.getElem?_append_left hrlen]; exact hr, fun j hj c hc => ?_⟩
      rw [List.getElem?_append_left (hj.trans hrlen)] at hc
      exact hbefore j hj c hc

/-- The scan finds a position as soon as one count is positive. -/
theorem firstMax_isSome {counts : List ℕ} {c : ℕ} (h : c ∈ counts) (hc : 0 < c) :
    ∃ r, (firstMax counts).2 = some r := by
  induction counts using List.reverseRecOn with
  | nil => simp at h
  | append_singleton counts d ih =>
    rw [firstMax_snoc]
    split
    · exact ⟨_, rfl⟩
    · rename_i hlt
      rcases List.mem_append.mp h with h | h
      · exact ih h
      · obtain rfl : c = d := by simpa using h
        have hpos : 0 < (firstMax counts).1 := by omega
        -- a positive best count was read somewhere
        have hread : ∀ cs : List ℕ, 0 < (firstMax cs).1 → ∃ r, (firstMax cs).2 = some r := by
          intro cs
          induction cs using List.reverseRecOn with
          | nil => simp
          | append_singleton cs e ihcs =>
            rw [firstMax_snoc]
            split
            · exact fun _ => ⟨_, rfl⟩
            · exact ihcs
        exact hread counts hpos

/-- The first position of the largest count, characterised without the scan. -/
theorem firstMax_eq {counts : List ℕ} {m r : ℕ} (hm : 0 < m) (hr : counts[r]? = some m)
    (hmax : ∀ c ∈ counts, c ≤ m) (hfirst : ∀ j < r, ∀ c, counts[j]? = some c → c < m) :
    firstMax counts = (m, some r) := by
  have hmem : m ∈ counts := List.mem_of_getElem? hr
  obtain ⟨r', hr'⟩ := firstMax_isSome hmem hm
  obtain ⟨hval, hbefore⟩ := firstMax_some hr'
  have hval' : (firstMax counts).1 = m :=
    le_antisymm (hmax _ (List.mem_of_getElem? hval)) (le_firstMax hmem)
  rw [hval'] at hval hbefore
  have hrr : r' = r := by
    rcases lt_trichotomy r' r with hlt | heq | hgt
    · exact absurd (hfirst r' hlt m hval) (lt_irrefl _)
    · exact heq
    · exact absurd (hbefore r hgt m hr) (lt_irrefl _)
  rw [← hval', ← hrr, ← hr']

/-! ## Plurality -/

/-- The bucket with most members, the first such bucket on a tie. -/
def plurality (bs : Buckets κ ι) : Option (κ × List ι) :=
  (firstMax (bs.map fun b => b.2.length)).2.bind fun r => bs[r]?

/-- How often a key occurs. -/
def tally (ks : List κ) (k : κ) : ℕ := ks.countP fun k' => k' = k

theorem tally_pos_iff {ks : List κ} {k : κ} : 0 < tally ks k ↔ k ∈ ks := by
  simp [tally, List.countP_pos_iff]

theorem length_members (xs : List (κ × ι)) (k : κ) :
    (members xs k).length = tally (xs.map Prod.fst) k := by
  rw [members, List.length_map, tally, List.countP_map, List.countP_eq_length_filter]
  rfl

/-- Items that share a key leave fewer buckets. -/
theorem length_group_add_tally_le (xs : List (κ × ι)) (k : κ) :
    (group xs).length + tally (xs.map Prod.fst) k ≤ xs.length + 1 := by
  induction xs using List.reverseRecOn with
  | nil => simp [tally]
  | append_singleton xs x ih =>
    have htally : tally ((xs ++ [x]).map Prod.fst) k =
        tally (xs.map Prod.fst) k + if x.1 = k then 1 else 0 := by
      simp [tally, List.countP_cons]
    rw [group_snoc, Buckets.add, htally, List.length_append, List.length_singleton]
    split
    · rw [List.length_map]
      split <;> omega
    · rename_i hx
      rw [List.length_append, List.length_singleton]
      split
      · rename_i hk
        have hzero : tally (xs.map Prod.fst) k = 0 := by
          rw [← Nat.le_zero, ← not_lt, tally_pos_iff, ← hk]
          exact fun h => hx (mem_map_fst_group.mpr h)
        have := length_group_le xs
        omega
      · omega

/-- `k` is a key with most items, and the first such key. -/
def IsPlurality (ks : List κ) (k : κ) : Prop :=
  k ∈ ks ∧ ∀ k' ∈ ks, k' ≠ k →
    tally ks k' < tally ks k ∨ (tally ks k' = tally ks k ∧ ks.idxOf k < ks.idxOf k')

instance (ks : List κ) (k : κ) : Decidable (IsPlurality ks k) :=
  inferInstanceAs (Decidable (_ ∧ _))

/-- The only key there is. -/
theorem isPlurality_of_forall_eq {ks : List κ} {k : κ} (hk : k ∈ ks) (h : ∀ k' ∈ ks, k' = k) :
    IsPlurality ks k :=
  ⟨hk, fun k' hk' hne => absurd (h k' hk') hne⟩

/-- The scan of the bucket sizes stops at the bucket of the plurality key. -/
theorem firstMax_group {xs : List (κ × ι)} {k : κ} (h : IsPlurality (xs.map Prod.fst) k) :
    ∃ r, (group xs)[r]? = some (k, members xs k) ∧
      firstMax ((group xs).map fun b => b.2.length) = (tally (xs.map Prod.fst) k, some r) := by
  obtain ⟨hk, h⟩ := h
  obtain ⟨r, hr⟩ := List.mem_iff_getElem?.mp (mem_group_iff (b := (k, members xs k)).mpr ⟨hk, rfl⟩)
  have hcount : ∀ {j : ℕ} {c : ℕ}, ((group xs).map fun b => b.2.length)[j]? = some c →
      ∃ k', ((group xs).map Prod.fst)[j]? = some k' ∧ k' ∈ xs.map Prod.fst ∧
        c = tally (xs.map Prod.fst) k' := by
    intro j c hj
    rw [List.getElem?_map, Option.map_eq_some_iff] at hj
    obtain ⟨b, hb, rfl⟩ := hj
    obtain ⟨hb1, hb2⟩ := mem_group_iff.mp (List.mem_of_getElem? hb)
    exact ⟨b.1, by simp [hb], hb1, by rw [hb2, length_members]⟩
  refine ⟨r, hr, firstMax_eq (tally_pos_iff.mpr hk) ?_ ?_ ?_⟩
  · rw [List.getElem?_map, hr, Option.map_some, length_members]
  · intro c hc
    obtain ⟨j, hj⟩ := List.mem_iff_getElem?.mp hc
    obtain ⟨k', -, hk', rfl⟩ := hcount hj
    by_cases heq : k' = k
    · rw [heq]
    · rcases h k' hk' heq with hlt | ⟨heq', -⟩ <;> omega
  · intro j hj c hc
    obtain ⟨k', hk'j, hk', rfl⟩ := hcount hc
    -- an earlier bucket has a key that was first seen earlier
    have hkr : ((group xs).map Prod.fst)[r]? = some k := by simp [hr]
    have hlt : (xs.map Prod.fst).idxOf k' < (xs.map Prod.fst).idxOf k := by
      obtain ⟨hjl, rfl⟩ := List.getElem?_eq_some_iff.mp hk'j
      obtain ⟨hrl, rfl⟩ := List.getElem?_eq_some_iff.mp hkr
      exact List.pairwise_iff_getElem.mp (pairwise_idxOf_group xs) j r hjl hrl hj
    have heq : k' ≠ k := by
      rintro rfl
      omega
    rcases h k' hk' heq with hcnt | ⟨-, hidx⟩ <;> omega

theorem plurality_group {xs : List (κ × ι)} {k : κ} (h : IsPlurality (xs.map Prod.fst) k) :
    plurality (group xs) = some (k, members xs k) := by
  obtain ⟨r, hr, hmax⟩ := firstMax_group h
  rw [plurality, hmax]
  exact hr

/-- The members of all buckets smaller than the largest one. -/
def minority (bs : Buckets κ ι) : List ι :=
  (bs.filter fun b => b.2.length < (firstMax (bs.map fun b => b.2.length)).1).flatMap Prod.snd

theorem mem_minority_group {xs : List (κ × ι)} {k : κ} (h : IsPlurality (xs.map Prod.fst) k)
    {i : ι} : i ∈ minority (group xs) ↔
      ∃ k', (k', i) ∈ xs ∧ tally (xs.map Prod.fst) k' < tally (xs.map Prod.fst) k := by
  obtain ⟨r, -, hmax⟩ := firstMax_group h
  simp only [minority, hmax, List.mem_flatMap, List.mem_filter, decide_eq_true_eq]
  constructor
  · rintro ⟨b, ⟨hb, hlt⟩, hi⟩
    rw [snd_of_mem_group hb] at hi hlt
    rw [length_members] at hlt
    exact ⟨b.1, mem_members.mp hi, hlt⟩
  · rintro ⟨k', hi, hlt⟩
    refine ⟨(k', members xs k'), ⟨mem_group_iff.mpr ⟨List.mem_map.mpr ⟨_, hi, rfl⟩, rfl⟩, ?_⟩,
      mem_members.mpr hi⟩
    rwa [length_members]

/-! ## Elections among positions -/

/-- How many of the positions in `S` carry the label `x`. -/
def votes (S : Finset ℕ) (label : ℕ → κ) (x : κ) : ℕ := (S.filter fun j => label j = x).card

/-- `i` is the first position of the label that most positions in `S` carry, and on a tie of the
label that is carried first. -/
structure Elected (S : Finset ℕ) (label : ℕ → κ) (i : ℕ) : Prop where
  mem : i ∈ S
  first : ∀ j ∈ S, label j = label i → i ≤ j
  most : ∀ j ∈ S, label j ≠ label i → votes S label (label j) < votes S label (label i) ∨
    (votes S label (label j) = votes S label (label i) ∧ i < j)

/-- Every nonempty list has a plurality key. -/
theorem exists_isPlurality {ks : List κ} (hne : ks ≠ []) : ∃ k, IsPlurality ks k := by
  obtain ⟨k₀, hk₀⟩ := List.exists_mem_of_ne_nil ks hne
  obtain ⟨k, hk, hmin⟩ := Finset.exists_min_image ks.toFinset
    (fun k => toLex (ks.length - tally ks k, ks.idxOf k)) ⟨k₀, List.mem_toFinset.mpr hk₀⟩
  have hk : k ∈ ks := List.mem_toFinset.mp hk
  refine ⟨k, hk, fun k' hk' hne' => ?_⟩
  have hle : tally ks k' ≤ ks.length := List.countP_le_length
  have hidx : ks.idxOf k ≠ ks.idxOf k' := fun h => hne' ((List.idxOf_inj hk).mp h).symm
  rcases Prod.Lex.le_iff.mp (hmin k' (List.mem_toFinset.mpr hk')) with h | ⟨h, hle'⟩
  · have h : ks.length - tally ks k < ks.length - tally ks k' := h
    omega
  · have h : ks.length - tally ks k = ks.length - tally ks k' := h
    have hle' : ks.idxOf k ≤ ks.idxOf k' := hle'
    have : tally ks k ≤ ks.length := List.countP_le_length
    omega

/-- Counting the positions of a list that carry a label. -/
theorem tally_map_label {is : List ℕ} (hnodup : is.Nodup) (label : ℕ → κ) (x : κ) :
    tally (is.map label) x = votes is.toFinset label x := by
  have hset : is.toFinset.filter (fun j => label j = x) =
      (is.filter fun j => label j = x).toFinset := by
    rw [List.toFinset_filter]
    simp
  rw [tally, List.countP_map, votes, hset, List.countP_eq_length_filter,
    List.toFinset_card_of_nodup (hnodup.filter _)]
  rfl

theorem members_map_label (is : List ℕ) (label : ℕ → κ) (k : κ) :
    members (is.map fun i => (label i, i)) k = is.filter fun i => label i = k := by
  rw [members, List.filter_map, List.map_map]
  exact List.map_id _

/-- The first position of a label in an ascending list is at most every other one. -/
theorem getElem_idxOf_le {is : List ℕ} (hsorted : is.Pairwise (· < ·)) (label : ℕ → κ) {j : ℕ}
    (hj : j ∈ is) : ∃ i, is[(is.map label).idxOf (label j)]? = some i ∧ label i = label j ∧ i ≤ j := by
  obtain ⟨n, hn, rfl⟩ := List.getElem_of_mem hj
  have hmem : label is[n] ∈ is.map label := List.mem_map.mpr ⟨_, hj, rfl⟩
  have hle : (is.map label).idxOf (label is[n]) ≤ n := by
    have htake : label is[n] ∈ (is.map label).take (n + 1) :=
      List.mem_take_iff_getElem.mpr ⟨n, by simp; omega, by simp⟩
    have := (List.mem_take_iff_idxOf_lt hmem).mp htake
    omega
  have hlt : (is.map label).idxOf (label is[n]) < is.length := by omega
  refine ⟨is[(is.map label).idxOf (label is[n])], List.getElem?_eq_getElem hlt, ?_, ?_⟩
  · have hget := List.getElem?_idxOf hmem
    rw [List.getElem?_map, List.getElem?_eq_getElem hlt] at hget
    exact Option.some.inj hget
  · rcases Nat.lt_or_eq_of_le hle with hlt' | heq
    · exact (List.pairwise_iff_getElem.mp hsorted _ _ hlt hn hlt').le
    · exact le_of_eq (by congr 1)

/-- The head of the plurality bucket of an ascending list of positions is elected. -/
theorem elected_of_isPlurality {is : List ℕ} (hsorted : is.Pairwise (· < ·)) {label : ℕ → κ} {k : κ}
    (h : IsPlurality (is.map label) k) :
    ∃ i rest, members (is.map fun i => (label i, i)) k = i :: rest ∧ label i = k ∧
      Elected is.toFinset label i := by
  have hnodup : is.Nodup := hsorted.imp fun h => h.ne
  have hk : k ∈ (is.map fun i => (label i, i)).map Prod.fst := by
    rw [List.map_map]
    exact h.1
  obtain ⟨i, rest, hcons⟩ := List.exists_cons_of_ne_nil (members_ne_nil_of_mem hk)
  rw [members_map_label] at hcons
  have hmem : ∀ j, j ∈ i :: rest ↔ j ∈ is ∧ label j = k := by
    intro j
    rw [← hcons, List.mem_filter, decide_eq_true_iff]
  obtain ⟨hi, hik⟩ := (hmem i).mp List.mem_cons_self
  -- the bucket is ascending, so its head is its least member
  have hasc : (i :: rest).Pairwise (· < ·) := hcons ▸ hsorted.filter _
  have hfirst : ∀ j ∈ is, label j = k → i ≤ j := by
    intro j hj hjk
    rcases List.mem_cons.mp ((hmem j).mpr ⟨hj, hjk⟩) with rfl | hrest
    · exact le_rfl
    · exact (List.rel_of_pairwise_cons hasc hrest).le
  refine ⟨i, rest, by rw [members_map_label, hcons], hik, List.mem_toFinset.mpr hi, ?_, ?_⟩
  · intro j hj hji
    exact hfirst j (List.mem_toFinset.mp hj) (hji.trans hik)
  · intro j hj hji
    have hj := List.mem_toFinset.mp hj
    rw [hik] at hji
    rw [hik, ← tally_map_label hnodup, ← tally_map_label hnodup]
    rcases h.2 (label j) (List.mem_map.mpr ⟨j, hj, rfl⟩) hji with hlt | ⟨heq, hidx⟩
    · exact Or.inl hlt
    · refine Or.inr ⟨heq, ?_⟩
      -- the label of `i` is seen before the label of `j`
      obtain ⟨i', hi', hlabel, -⟩ := getElem_idxOf_le hsorted label hi
      obtain ⟨j', hj', -, hle⟩ := getElem_idxOf_le hsorted label hj
      obtain ⟨hilt, rfl⟩ := List.getElem?_eq_some_iff.mp hi'
      obtain ⟨hjlt, rfl⟩ := List.getElem?_eq_some_iff.mp hj'
      have hii := hfirst _ (List.getElem_mem hilt) (hlabel.trans hik)
      have hlt := List.pairwise_iff_getElem.mp hsorted _ _ hilt hjlt (by rwa [hik])
      omega

/-! ## Counting positions -/

/-- Counting the positions below `N` that satisfy a predicate. -/
theorem countP_range (N : ℕ) (p : ℕ → Prop) [DecidablePred p] :
    (List.range N).countP (fun i => p i) = ((Finset.range N).filter p).card := by
  rw [List.countP_eq_length_filter,
    ← List.toFinset_card_of_nodup ((List.nodup_range).filter _)]
  congr 1
  ext i
  simp

end QuorumLogFs.Basis
