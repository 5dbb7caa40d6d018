import Mathlib.Data.Finset.Basic
import Mathlib.Data.List.Sort
import Mathlib.Data.Set.Finite.Basic
import Mathlib.Tactic

/-!
# Linearizable registers

Clients write and read one register, and their operations may overlap. The history is linearizable when
the operations can be put in one order in which a register without concurrency would have answered the
same, and in which no operation stands behind one that it preceded. Timestamps give such an order: a write
has a timestamp of its own, a read has that of the write whose value it returns, and an operation that
precedes another has no larger one. `Stamped` collects what is needed of them.
-/

namespace QuorumLogFs.Basis

variable {ι α : Type*}

/-- An operation, with the value it has written or returned. -/
inductive RegOp (α : Type*) where
  | write (x : α)
  | read (x : α)
deriving DecidableEq

/-- A register that holds `cur` can answer these operations, one after the other. -/
def Legal : Option α → List (RegOp α) → Prop
  | _, [] => True
  | _, .write x :: ops => Legal (some x) ops
  | cur, .read x :: ops => cur = some x ∧ Legal cur ops

/-- One order of all operations explains what they returned, and never contradicts `precedes`. -/
def Linearizable (init : Option α) (op : ι → Option (RegOp α)) (precedes : ι → ι → Prop) : Prop :=
  ∃ l : List ι, l.Nodup ∧ (∀ c, c ∈ l ↔ (op c).isSome) ∧ Legal init (l.filterMap op) ∧
    l.Pairwise fun c d => ¬ precedes d c

/-- Timestamps of the operations on a register that starts with `init` under the timestamp `base`. `rank`
orders the reads of one timestamp. -/
structure Stamped (init : Option α) (base : ℤ) (op : ι → Option (RegOp α)) (precedes : ι → ι → Prop)
    (stamp : ι → ℤ) (rank : ι → ℕ) : Prop where
  finite : {c | (op c).isSome}.Finite
  above : ∀ {c x}, op c = some (.write x) → base < stamp c
  unique : ∀ {c d x y}, op c = some (.write x) → op d = some (.write y) → stamp c = stamp d → c = d
  source : ∀ {c x}, op c = some (.read x) → (stamp c = base ∧ init = some x) ∨
    ∃ d, op d = some (.write x) ∧ stamp d = stamp c
  order : ∀ {c d}, precedes c d → (op c).isSome → (op d).isSome → stamp c ≤ stamp d ∧ rank c < rank d
  order_write : ∀ {c d x}, precedes c d → (op c).isSome → op d = some (.write x) → stamp c < stamp d

/-- Reads stand behind the writes of their timestamp. -/
def RegOp.side : Option (RegOp α) → ℕ
  | some (.write _) => 0
  | _ => 1

@[simp] theorem RegOp.side_write (x : α) : RegOp.side (some (.write x)) = 0 := rfl

@[simp] theorem RegOp.side_read (x : α) : RegOp.side (some (.read x)) = 1 := rfl

theorem RegOp.side_le_one (o : Option (RegOp α)) : RegOp.side o ≤ 1 := by
  unfold RegOp.side
  split <;> omega

/-- By timestamp, the write first, then the reads by rank. -/
def StampOrder (op : ι → Option (RegOp α)) (stamp : ι → ℤ) (rank : ι → ℕ) (c d : ι) : Prop :=
  stamp c < stamp d ∨ stamp c = stamp d ∧
    (RegOp.side (op c) < RegOp.side (op d) ∨
      RegOp.side (op c) = RegOp.side (op d) ∧ rank c ≤ rank d)

variable {init cur : Option α} {base t : ℤ} {op : ι → Option (RegOp α)} {precedes : ι → ι → Prop}
  {stamp : ι → ℤ} {rank : ι → ℕ} {c d : ι} {l : List ι}

theorem StampOrder.le (h : StampOrder op stamp rank c d) : stamp c ≤ stamp d := by
  rcases h with h | ⟨h, -⟩ <;> omega

/-- A list in this order is legal: what a read returns has been written under its timestamp, and nothing
with a larger timestamp stands before it. -/
theorem legal_of_pairwise (hnodup : l.Nodup) (hsorted : l.Pairwise (StampOrder op stamp rank))
    (hsome : ∀ c ∈ l, (op c).isSome) (hle : ∀ c ∈ l, t ≤ stamp c)
    (hlt : ∀ c ∈ l, ∀ x, op c = some (.write x) → t < stamp c)
    (hunique : ∀ c ∈ l, ∀ d ∈ l, ∀ x y, op c = some (.write x) → op d = some (.write y) →
      stamp c = stamp d → c = d)
    (hsource : ∀ c ∈ l, ∀ x, op c = some (.read x) → (stamp c = t ∧ cur = some x) ∨
      ∃ d ∈ l, op d = some (.write x) ∧ stamp d = stamp c) :
    Legal cur (l.filterMap op) := by
  induction l generalizing cur t with
  | nil => trivial
  | cons c l ih =>
    obtain ⟨hnot, hnodup⟩ := List.nodup_cons.mp hnodup
    obtain ⟨hfirst, hsorted⟩ := List.pairwise_cons.mp hsorted
    have hunique' : ∀ d ∈ l, ∀ e ∈ l, ∀ x y, op d = some (.write x) → op e = some (.write y) →
        stamp d = stamp e → d = e := fun d hd e he =>
      hunique d (List.mem_cons_of_mem c hd) e (List.mem_cons_of_mem c he)
    have hsome' : ∀ d ∈ l, (op d).isSome := fun d hd => hsome d (List.mem_cons_of_mem c hd)
    obtain ⟨o, ho⟩ := Option.isSome_iff_exists.mp (hsome c List.mem_cons_self)
    rw [List.filterMap_cons, ho]
    cases o with
    | write x =>
      -- the register holds `x` from here on
      have hct := hlt c List.mem_cons_self x ho
      refine ih (t := stamp c) hnodup hsorted hsome' (fun d hd => (hfirst d hd).le) ?_ hunique' ?_
      · intro d hd y hdy
        refine lt_of_le_of_ne (hfirst d hd).le fun heq => hnot ?_
        rwa [hunique c List.mem_cons_self d (List.mem_cons_of_mem c hd) x y ho hdy heq]
      · intro d hd y hdy
        have hcd := (hfirst d hd).le
        rcases hsource d (List.mem_cons_of_mem c hd) y hdy with ⟨hdt, -⟩ | ⟨e, he, hey, hstamp⟩
        · omega
        · rcases List.mem_cons.mp he with rfl | he
          · rw [ho] at hey
            cases hey
            exact Or.inl ⟨hstamp.symm, rfl⟩
          · exact Or.inr ⟨e, he, hey, hstamp⟩
    | read x =>
      have hrest : ∀ d ∈ l, ∀ y, op d = some (.read y) → (stamp d = t ∧ cur = some y) ∨
          ∃ e ∈ l, op e = some (.write y) ∧ stamp e = stamp d := by
        intro d hd y hdy
        rcases hsource d (List.mem_cons_of_mem c hd) y hdy with h | ⟨e, he, hey, hstamp⟩
        · exact Or.inl h
        · rcases List.mem_cons.mp he with rfl | he
          · rw [ho] at hey
            cases hey
          · exact Or.inr ⟨e, he, hey, hstamp⟩
      refine ⟨?_, ih hnodup hsorted hsome' (fun d hd => hle d (List.mem_cons_of_mem c hd))
        (fun d hd => hlt d (List.mem_cons_of_mem c hd)) hunique' hrest⟩
      rcases hsource c List.mem_cons_self x ho with ⟨-, h⟩ | ⟨d, hd, hdx, hstamp⟩
      · exact h
      · -- the write of this timestamp stands before the read
        exfalso
        rcases List.mem_cons.mp hd with rfl | hd
        · rw [ho] at hdx
          cases hdx
        · have horder := hfirst d hd
          rw [StampOrder, ho, hdx, RegOp.side_read, RegOp.side_write] at horder
          omega

/-- A register whose operations have such timestamps is linearizable. -/
theorem Stamped.linearizable (h : Stamped init base op precedes stamp rank) :
    Linearizable init op precedes := by
  classical
  have htotal : Std.Total (StampOrder op stamp rank) := ⟨fun c d => by
    unfold StampOrder
    omega⟩
  have htrans : IsTrans ι (StampOrder op stamp rank) := ⟨fun c d e hcd hde => by
    unfold StampOrder at *
    omega⟩
  set l := h.finite.toFinset.toList.insertionSort (StampOrder op stamp rank) with hl
  have hmem : ∀ c, c ∈ l ↔ (op c).isSome := by
    intro c
    rw [hl, List.mem_insertionSort, Finset.mem_toList, Set.Finite.mem_toFinset]
    rfl
  have hnodup : l.Nodup := (List.perm_insertionSort _ _).nodup_iff.mpr (Finset.nodup_toList _)
  have hsorted : l.Pairwise (StampOrder op stamp rank) := List.pairwise_insertionSort _ _
  refine ⟨l, hnodup, hmem, ?_, ?_⟩
  · refine legal_of_pairwise (t := base) hnodup hsorted (fun c hc => (hmem c).mp hc) ?_
      (fun c _ x hc => h.above hc) (fun c _ d _ x y hc hd hcd => h.unique hc hd hcd) ?_
    · intro c hc
      obtain ⟨o, ho⟩ := Option.isSome_iff_exists.mp ((hmem c).mp hc)
      cases o with
      | write x => exact (h.above ho).le
      | read x =>
        rcases h.source ho with ⟨heq, -⟩ | ⟨d, hd, heq⟩
        · exact heq.ge
        · exact heq ▸ (h.above hd).le
    · intro c _ x hc
      rcases h.source hc with hinit | ⟨d, hd, heq⟩
      · exact Or.inl hinit
      · exact Or.inr ⟨d, (hmem d).mpr (by rw [hd]; rfl), hd, heq⟩
  · refine hsorted.imp_of_mem fun {c d} hc hd horder hprecedes => ?_
    obtain ⟨hle, hrank⟩ := h.order hprecedes ((hmem d).mp hd) ((hmem c).mp hc)
    obtain ⟨o, ho⟩ := Option.isSome_iff_exists.mp ((hmem c).mp hc)
    cases o with
    | write x =>
      have hlt := h.order_write hprecedes ((hmem d).mp hd) ho
      have hge := horder.le
      omega
    | read x =>
      -- `c` and `d` have one timestamp, and a read does not stand before its write
      rcases horder with hlt | ⟨heq, hside | ⟨-, hrank'⟩⟩
      · omega
      · have hread : RegOp.side (op c) = 1 := by rw [ho, RegOp.side_read]
        have := RegOp.side_le_one (op d)
        omega
      · omega

end QuorumLogFs.Basis
