import Mathlib.Data.List.Nodup
import Mathlib.Logic.Function.Basic

/-!
# Stores and the lists that account for them

A store maps keys to sequences, and owners keep lists of the keys that are theirs. `Ledger` says that the
lists account for the store: every entry is on one list, and there once. Appending to an entry, which
creates it when it does not exist, keeps the ledger as long as the entry is new or the owner's, and the
owner's `total` grows by what is appended while the others stay as they are.
-/

namespace QuorumLogFs.Basis

variable {ι κ α : Type*}

/-- A new entry goes to the end of the list. -/
def listKey (store : κ → Option (List α)) (keys : List κ) (k : κ) : List κ :=
  if store k = none then keys ++ [k] else keys

/-- The length of the entries on a list. -/
def total (store : κ → Option (List α)) : List κ → ℕ
  | [] => 0
  | k :: keys => ((store k).getD []).length + total store keys

/-- Every entry of the store is on exactly one of the lists, and there once. -/
structure Ledger (keys : ι → List κ) (store : κ → Option (List α)) : Prop where
  nodup : ∀ i, (keys i).Nodup
  stored : ∀ i, ∀ k ∈ keys i, store k ≠ none
  disjoint : ∀ i j, ∀ k ∈ keys i, k ∈ keys j → i = j
  owned : ∀ k, store k ≠ none → ∃ i, k ∈ keys i

variable {keys : ι → List κ} {store : κ → Option (List α)} {ks : List κ} {k k' : κ} {bytes : List α}
  {i j : ι}

/-- A list on which the entry is, if it exists, has it afterwards. -/
theorem mem_listKey (hown : store k = none ∨ k ∈ ks) :
    k' ∈ listKey store ks k ↔ k' = k ∨ k' ∈ ks := by
  unfold listKey
  split
  · rw [List.mem_append, List.mem_singleton, or_comm]
  · rename_i h
    exact (or_iff_right_of_imp fun he => he ▸ hown.resolve_left h).symm

theorem total_nil : total store [] = 0 := rfl

theorem total_cons (k : κ) (ks : List κ) :
    total store (k :: ks) = ((store k).getD []).length + total store ks := rfl

theorem total_append (ks ks' : List κ) : total store (ks ++ ks') = total store ks + total store ks' := by
  induction ks with
  | nil => rw [List.nil_append, total_nil, Nat.zero_add]
  | cons k ks ih => rw [List.cons_append, total_cons, total_cons, ih, Nat.add_assoc]

/-- An entry on the list is no longer than all of them. -/
theorem length_le_total (h : k ∈ ks) : ((store k).getD []).length ≤ total store ks := by
  obtain ⟨before, after, rfl⟩ := List.append_of_mem h
  rw [total_append, total_cons]
  omega

theorem Ledger.notMem (h : Ledger keys store) (hown : store k = none ∨ k ∈ keys i) (hj : j ≠ i) :
    k ∉ keys j := by
  intro hk
  rcases hown with hnone | hmem
  · exact h.stored j k hk hnone
  · exact hj (h.disjoint j i k hk hmem)

/-! ## Appending to one entry -/

variable [DecidableEq κ]

/-- Append to an entry; one that does not exist is created. -/
def appendAt (store : κ → Option (List α)) (k : κ) (bytes : List α) : κ → Option (List α) :=
  Function.update store k (some ((store k).getD [] ++ bytes))

theorem appendAt_self : appendAt store k bytes k = some ((store k).getD [] ++ bytes) :=
  Function.update_self ..

theorem appendAt_of_ne (h : k' ≠ k) : appendAt store k bytes k' = store k' :=
  Function.update_of_ne h ..

theorem appendAt_ne_none : appendAt store k bytes k' ≠ none ↔ k' = k ∨ store k' ≠ none := by
  by_cases h : k' = k
  · simp [h, appendAt_self]
  · simp [h, appendAt_of_ne h]

theorem total_appendAt_of_notMem (h : k ∉ ks) : total (appendAt store k bytes) ks = total store ks := by
  induction ks with
  | nil => rfl
  | cons a ks ih =>
    obtain ⟨hne, hnot⟩ := not_or.mp (mt List.mem_cons.mpr h)
    rw [total_cons, total_cons, appendAt_of_ne (Ne.symm hne), ih hnot]

/-- An entry that is on the list once makes it longer by what is appended. -/
theorem total_appendAt_of_mem (hnodup : ks.Nodup) (h : k ∈ ks) :
    total (appendAt store k bytes) ks = total store ks + bytes.length := by
  induction ks with
  | nil => cases h
  | cons a ks ih =>
    obtain ⟨hnot, hnodup⟩ := List.nodup_cons.mp hnodup
    rw [total_cons, total_cons]
    by_cases ha : k = a
    · subst ha
      rw [appendAt_self, total_appendAt_of_notMem hnot, Option.getD_some, List.length_append]
      omega
    · rw [appendAt_of_ne (Ne.symm ha), ih hnodup ((List.mem_cons.mp h).resolve_left ha)]
      omega

theorem total_listKey (hnodup : ks.Nodup) (hstored : ∀ k ∈ ks, store k ≠ none)
    (hown : store k = none ∨ k ∈ ks) :
    total (appendAt store k bytes) (listKey store ks k) = total store ks + bytes.length := by
  unfold listKey
  split
  · rename_i hnone
    have hnot : k ∉ ks := fun h => hstored k h hnone
    rw [total_append, total_appendAt_of_notMem hnot, total_cons, total_nil, appendAt_self, hnone]
    rfl
  · rename_i hsome
    exact total_appendAt_of_mem hnodup (hown.resolve_left hsome)

/-! ## The ledger -/

/-- The other owners see nothing of an append. -/
theorem Ledger.total_other (h : Ledger keys store) (hown : store k = none ∨ k ∈ keys i)
    (hj : j ≠ i) : total (appendAt store k bytes) (keys j) = total store (keys j) :=
  total_appendAt_of_notMem (h.notMem hown hj)

theorem Ledger.append [DecidableEq ι] (h : Ledger keys store)
    (hown : store k = none ∨ k ∈ keys i) :
    Ledger (Function.update keys i (listKey store (keys i) k)) (appendAt store k bytes) := by
  have hself : Function.update keys i (listKey store (keys i) k) i = listKey store (keys i) k :=
    Function.update_self ..
  have hold : ∀ j, j ≠ i → Function.update keys i (listKey store (keys i) k) j = keys j :=
    fun j hj => Function.update_of_ne hj ..
  have hmem : ∀ k', k' ∈ listKey store (keys i) k ↔ k' = k ∨ k' ∈ keys i := fun _ => mem_listKey hown
  refine ⟨fun j => ?_, fun j k' hk' => ?_, fun j j' k' hk hk' => ?_, fun k' hk' => ?_⟩
  · by_cases hj : j = i
    · rw [hj, hself, listKey]
      split
      · rename_i hnone
        simpa using (h.nodup i).concat fun hk => h.stored i k hk hnone
      · exact h.nodup i
    · rw [hold j hj]
      exact h.nodup j
  · refine appendAt_ne_none.mpr ?_
    by_cases hj : j = i
    · rw [hj, hself, hmem] at hk'
      exact hk'.imp_right (h.stored i k')
    · rw [hold j hj] at hk'
      exact Or.inr (h.stored j k' hk')
  · by_cases hj : j = i <;> by_cases hj' : j' = i
    · rw [hj, hj']
    · rw [hj, hself, hmem] at hk
      rw [hold j' hj'] at hk'
      rcases hk with rfl | hk
      · exact absurd hk' (h.notMem hown hj')
      · exact absurd (h.disjoint j' i k' hk' hk) hj'
    · rw [hj', hself, hmem] at hk'
      rw [hold j hj] at hk
      rcases hk' with rfl | hk'
      · exact absurd hk (h.notMem hown hj)
      · exact absurd (h.disjoint j i k' hk hk') hj
    · rw [hold j hj] at hk
      rw [hold j' hj'] at hk'
      exact h.disjoint j j' k' hk hk'
  · rcases appendAt_ne_none.mp hk' with rfl | hk'
    · exact ⟨i, by rw [hself]; exact (hmem k').mpr (Or.inl rfl)⟩
    · obtain ⟨j, hj⟩ := h.owned k' hk'
      by_cases hji : j = i
      · exact ⟨i, by rw [hself]; exact (hmem k').mpr (Or.inr (hji ▸ hj))⟩
      · exact ⟨j, by rwa [hold j hji]⟩

end QuorumLogFs.Basis
