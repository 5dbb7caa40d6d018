import QuorumLogFs.Basis.Int32
import QuorumLogFs.Vote.SpinLock

/-!
# The counter of the getters

Reference: `getResponse` in `Server.c`, `atomicDecr` in `Util.c`.

`getResponse` raises `numGetters` by `++`, which is a load and a store, and lowers it by `atomicDecr`, a
loop around `compare_and_swap`. The swap succeeds only on the value that the thread has loaded, so it
lowers the counter by one whatever the other threads do. The store has no such guard: it is exact if and
only if it finds the value that was loaded.
-/

namespace QuorumLogFs.Vote

open QuorumLogFs.Basis

/-- The places in `getResponse` where it is about the counter. -/
inductive GetterPc where
  /-- In front of the load and of the store of `keyval->numGetters++`. -/
  | loadGetters
  | storeGetters (tmp : ℤ)
  /-- In front of `send`. -/
  | sendReply
  /-- `atomicDecr`, in front of `tmp= *var` and of `compare_and_swap(var,tmp-1,tmp)`. -/
  | loadDecr (raised : Bool)
  | swapDecr (raised : Bool) (tmp : ℤ)
  | returned (raised : Bool)
deriving DecidableEq

/-- One step of a `GET`. It has raised the counter if it has found the entry unlocked. -/
def getterStep (numGetters : ℤ) : GetterPc → Option (ℤ × GetterPc)
  | .loadGetters => some (numGetters, .storeGetters numGetters)
  | .storeGetters tmp => some (wrap32 (tmp + 1), .sendReply)
  | .sendReply => some (numGetters, .loadDecr true)
  | .loadDecr raised => some (numGetters, .swapDecr raised numGetters)
  | .swapDecr raised tmp =>
    let r := compareAndSwap numGetters (wrap32 (tmp - 1)) tmp
    some (r.2, if r.1 ≠ tmp then .loadDecr raised else .returned raised)
  | .returned _ => none

variable {ι : Type*}

/-- Each `GET` has tested the lock. -/
def gettersStart (unlocked : ι → Bool) (numGetters : ℤ) : Threads ι ℤ GetterPc where
  shared := wrap32 numGetters
  place t := if unlocked t then .loadGetters else .loadDecr false

/-- The `GET` has raised the counter and not lowered it yet. -/
def GetterPc.Registered : GetterPc → Prop
  | .sendReply => True
  | .loadDecr raised => raised = true
  | .swapDecr raised _ => raised = true
  | _ => False

instance : DecidablePred GetterPc.Registered
  | .loadGetters => isFalse id
  | .storeGetters _ => isFalse id
  | .sendReply => isTrue trivial
  | .loadDecr _ => inferInstanceAs (Decidable (_ = _))
  | .swapDecr _ _ => inferInstanceAs (Decidable (_ = _))
  | .returned _ => isFalse id

/-- The `GET` has lowered the counter without having raised it. -/
def GetterPc.Unregistered (p : GetterPc) : Prop := p = .returned false

instance : DecidablePred GetterPc.Unregistered := fun _ => inferInstanceAs (Decidable (_ = _))

/-- The counter is the number of registered `GET`s, less one for each that was refused. -/
def CountsGetters [Fintype ι] (numGetters : ℤ) (s : Threads ι ℤ GetterPc) : Prop :=
  s.shared = wrap32 (numGetters + number GetterPc.Registered s.place -
    number GetterPc.Unregistered s.place)

/-- A store finds the value that its thread has loaded. -/
def GetterPc.FindsLoaded (numGetters : ℤ) : GetterPc → Prop
  | .storeGetters tmp => numGetters = tmp
  | _ => True

def FindsLoaded (s : Threads ι ℤ GetterPc) (t : ι) : Prop := (s.place t).FindsLoaded s.shared

instance (numGetters : ℤ) : DecidablePred (GetterPc.FindsLoaded numGetters)
  | .loadGetters => isTrue trivial
  | .storeGetters _ => inferInstanceAs (Decidable (_ = _))
  | .sendReply => isTrue trivial
  | .loadDecr _ => isTrue trivial
  | .swapDecr _ _ => isTrue trivial
  | .returned _ => isTrue trivial

instance (s : Threads ι ℤ GetterPc) : DecidablePred (FindsLoaded s) :=
  fun t => inferInstanceAs (Decidable ((s.place t).FindsLoaded s.shared))

/-! ## One step -/

section Steps

variable {n : ℤ} {s s' : Threads ι ℤ GetterPc} {t : ι} {p : GetterPc}

/-- What a thread has loaded is an `int`. -/
def LoadsInts (s : Threads ι ℤ GetterPc) : Prop :=
  ∀ t tmp, s.place t = .storeGetters tmp → wrap32 tmp = tmp

theorem wrap32_idem (z : ℤ) : wrap32 (wrap32 z) = wrap32 z := by
  simpa using wrap32_wrap32_add z 0

/-- Adding one to different `int`s gives different ones. -/
theorem wrap32_add_one_inj {a b : ℤ} (ha : wrap32 a = a) (hb : wrap32 b = b)
    (h : wrap32 (a + 1) = wrap32 (b + 1)) : a = b := by
  have hback : ∀ z, wrap32 (wrap32 (z + 1) + -1) = wrap32 z := by
    intro z
    rw [wrap32_wrap32_add]
    congr 1
    omega
  rw [← ha, ← hb, ← hback a, ← hback b, h]

theorem LoadsInts.step [DecidableEq ι] (hint : wrap32 s.shared = s.shared) (hints : LoadsInts s)
    (hstep : threadStep (fun _ => getterStep) s t = some s') : LoadsInts s' := by
  obtain ⟨m, p, hcode, rfl⟩ := threadStep_eq_some.mp hstep
  refine forall_update_place (Q := fun _ q => ∀ tmp, q = GetterPc.storeGetters tmp → wrap32 tmp = tmp)
    (fun tmp hp => ?_) fun u _ => hints u
  subst hp
  cases ht : s.place t with
  | loadGetters =>
    rw [ht] at hcode
    simp only [getterStep, Option.some.injEq, Prod.mk.injEq, GetterPc.storeGetters.injEq] at hcode
    rw [← hcode.2, hint]
  | swapDecr raised tmp' =>
    rw [ht] at hcode
    simp only [getterStep, Option.some.injEq, Prod.mk.injEq] at hcode
    obtain ⟨-, hp⟩ := hcode
    split at hp <;> cases hp
  | _ =>
    rw [ht] at hcode
    simp [getterStep] at hcode

variable [Fintype ι]

theorem countsGetters_start (unlocked : ι → Bool) (n : ℤ) :
    CountsGetters n (gettersStart unlocked n) := by
  have hplace : ∀ t, ¬ ((gettersStart unlocked n).place t).Registered ∧
      ¬ ((gettersStart unlocked n).place t).Unregistered := by
    intro t
    simp only [gettersStart]
    split
    · exact ⟨id, by simp [GetterPc.Unregistered]⟩
    · exact ⟨by simp [GetterPc.Registered], by simp [GetterPc.Unregistered]⟩
  rw [CountsGetters, number_eq_zero.mpr fun t => (hplace t).1, number_eq_zero.mpr fun t => (hplace t).2]
  simp [gettersStart]

variable [DecidableEq ι]

/-- A step that neither registers a `GET` nor ends one, and leaves the counter. -/
theorem CountsGetters.move (h : CountsGetters n s) (hreg : p.Registered ↔ (s.place t).Registered)
    (hun : p.Unregistered ↔ (s.place t).Unregistered) :
    CountsGetters n ⟨s.shared, Function.update s.place t p⟩ := by
  rw [CountsGetters, number_move hreg, number_move hun]
  exact h

/-- A store registers its `GET`. The counter says so if the store has found what was loaded. -/
theorem countsGetters_store {tmp : ℤ} (h : CountsGetters n s) (ht : s.place t = .storeGetters tmp)
    (htmp : wrap32 tmp = tmp) :
    CountsGetters n ⟨wrap32 (tmp + 1), Function.update s.place t .sendReply⟩ ↔ s.shared = tmp := by
  have hreg : number GetterPc.Registered (Function.update s.place t .sendReply) =
      number GetterPc.Registered s.place + 1 := number_enter trivial (by rw [ht]; exact id)
  have hun : number GetterPc.Unregistered (Function.update s.place t .sendReply) =
      number GetterPc.Unregistered s.place := by
    refine number_move (iff_of_false ?_ ?_)
    · simp [GetterPc.Unregistered]
    · simp [ht, GetterPc.Unregistered]
  have hnext : wrap32 (n + (number GetterPc.Registered (Function.update s.place t .sendReply) : ℕ) -
      number GetterPc.Unregistered (Function.update s.place t .sendReply)) = wrap32 (s.shared + 1) := by
    rw [hreg, hun, h, wrap32_wrap32_add]
    push_cast
    congr 1
    omega
  have hint : wrap32 s.shared = s.shared := by rw [h, wrap32_idem]
  rw [CountsGetters, hnext]
  constructor
  · exact fun heq => wrap32_add_one_inj hint htmp heq.symm
  · rintro rfl
    rfl

/-- A swap that succeeds ends its `GET` and lowers the counter. -/
theorem CountsGetters.swap {raised : Bool} (h : CountsGetters n s)
    (ht : s.place t = .swapDecr raised s.shared) :
    CountsGetters n ⟨wrap32 (s.shared - 1), Function.update s.place t (.returned raised)⟩ := by
  have hshared : wrap32 (s.shared - 1) = wrap32 (n + number GetterPc.Registered s.place -
      number GetterPc.Unregistered s.place - 1) := by
    rw [sub_eq_add_neg, h, wrap32_wrap32_add]
    rfl
  show wrap32 (s.shared - 1) = wrap32 (n +
    number GetterPc.Registered (Function.update s.place t (.returned raised)) -
    number GetterPc.Unregistered (Function.update s.place t (.returned raised)))
  rw [hshared]
  congr 1
  cases raised with
  | true =>
    have hreg := number_leave (P := GetterPc.Registered) (p := .returned true) (t := t) id
      (show (s.place t).Registered by rw [ht]; rfl)
    have hun : number GetterPc.Unregistered (Function.update s.place t (.returned true)) = _ :=
      number_move (iff_of_false (by simp [GetterPc.Unregistered]) (by simp [ht, GetterPc.Unregistered]))
    rw [hun]
    omega
  | false =>
    have hreg : number GetterPc.Registered (Function.update s.place t (.returned false)) = _ :=
      number_move (iff_of_false id (by simp [ht, GetterPc.Registered]))
    have hun := number_enter (P := GetterPc.Unregistered) (p := .returned false) rfl
      (show ¬ (s.place t).Unregistered by simp [ht, GetterPc.Unregistered])
    rw [hreg, hun]
    push_cast
    omega

/-- Every step but a store keeps the count, and a store does exactly if it finds what was loaded. -/
theorem countsGetters_step (h : CountsGetters n s) (hints : LoadsInts s)
    (hstep : threadStep (fun _ => getterStep) s t = some s') :
    CountsGetters n s' ↔ FindsLoaded s t := by
  obtain ⟨m, p, hcode, rfl⟩ := threadStep_eq_some.mp hstep
  rw [FindsLoaded]
  cases ht : s.place t with
  | loadGetters =>
    rw [ht] at hcode
    obtain ⟨rfl, rfl⟩ := Prod.mk.inj (Option.some.inj hcode)
    refine iff_of_true (h.move (by rw [ht]; exact Iff.rfl) ?_) trivial
    simp [ht, GetterPc.Unregistered]
  | storeGetters tmp =>
    rw [ht] at hcode
    obtain ⟨rfl, rfl⟩ := Prod.mk.inj (Option.some.inj hcode)
    exact countsGetters_store h ht (hints t tmp ht)
  | sendReply =>
    rw [ht] at hcode
    obtain ⟨rfl, rfl⟩ := Prod.mk.inj (Option.some.inj hcode)
    refine iff_of_true (h.move ?_ ?_) trivial
    · simp [ht, GetterPc.Registered]
    · simp [ht, GetterPc.Unregistered]
  | loadDecr raised =>
    rw [ht] at hcode
    obtain ⟨rfl, rfl⟩ := Prod.mk.inj (Option.some.inj hcode)
    refine iff_of_true (h.move (by rw [ht]; exact Iff.rfl) ?_) trivial
    simp [ht, GetterPc.Unregistered]
  | swapDecr raised tmp =>
    rw [ht] at hcode
    obtain ⟨rfl, rfl⟩ := Prod.mk.inj (Option.some.inj hcode)
    refine iff_of_true ?_ trivial
    by_cases hsame : s.shared = tmp
    · subst hsame
      simp only [compareAndSwap, if_true, ne_eq, not_true_eq_false, if_false]
      exact h.swap ht
    · simp only [compareAndSwap, ne_eq, hsame, not_false_eq_true, if_true]
      refine h.move (by rw [ht]; exact Iff.rfl) ?_
      simp [ht, GetterPc.Unregistered]
  | returned raised =>
    rw [ht] at hcode
    cases hcode

end Steps

/-- In every interleaving of any number of `GET`s on one entry, whatever their tests of the lock have
found: `numGetters` counts them in every state if and only if every store of `numGetters++` finds the
value that its thread has loaded. -/
theorem getters_counted_iff [Fintype ι] [DecidableEq ι] (unlocked : ι → Bool) (numGetters : ℤ)
    {schedule : List ι} {s : Threads ι ℤ GetterPc}
    (hrun : run (threadStep fun _ => getterStep) (gettersStart unlocked numGetters) schedule = some s) :
    Always (threadStep fun _ => getterStep) (CountsGetters numGetters)
        (gettersStart unlocked numGetters) schedule ↔
      Each (threadStep fun _ => getterStep) FindsLoaded (gettersStart unlocked numGetters)
        schedule := by
  have hstart : LoadsInts (gettersStart unlocked numGetters) := by
    intro t tmp ht
    simp only [gettersStart] at ht
    split at ht <;> cases ht
  refine always_iff_each (I := fun s => CountsGetters numGetters s ∧ LoadsInts s)
    ⟨countsGetters_start unlocked numGetters, hstart⟩ (fun _ h => h.1)
    (fun s t s' h _ hok hstep => ⟨(countsGetters_step h.1 h.2 hstep).mpr hok, ?_⟩)
    (fun s t s' h _ hno hstep hcounts => hno ((countsGetters_step h.1 h.2 hstep).mp hcounts))
    hrun (each_true _ _)
  refine h.2.step ?_ hstep
  rw [h.1, wrap32_idem]

/-- Two `GET`s find the entry unlocked and a third finds it locked. The loads of the first two do not
overlap, and a swap is tried twice. -/
theorem getters_counted_iff_threeGets :
    Always (threadStep fun _ => getterStep) (CountsGetters 0)
      (gettersStart (fun t : Fin 3 => decide (t ≠ 2)) 0)
      [0, 0, 2, 1, 1, 2, 2, 2, 0, 0, 0, 1, 1, 1] := by
  have hrun : (run (threadStep fun _ => getterStep)
      (gettersStart (fun t : Fin 3 => decide (t ≠ 2)) 0)
      [0, 0, 2, 1, 1, 2, 2, 2, 0, 0, 0, 1, 1, 1]).isSome = true := by
    decide
  obtain ⟨s, hs⟩ := Option.isSome_iff_exists.mp hrun
  exact (getters_counted_iff _ 0 hs).mpr (by decide)

end QuorumLogFs.Vote
