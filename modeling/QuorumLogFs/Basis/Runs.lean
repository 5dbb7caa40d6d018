import Mathlib.Data.List.Induction
import Mathlib.Tactic

/-!
# Runs of a state machine

A machine is a partial step function; a run is a list of events. `Always P` says that `P` holds in
every state a run goes through, `Steps Q` that `Q` holds of every step it takes, `Each ok` that every
event of the run is taken in a state where `ok` allows it. `always_of_each` is the invariant rule,
`always_iff_each` its converse for conditions that are exact: a step they forbid breaks `P` at once.
`run_length_le` bounds a run by a variant, `run_count` counts the events of a kind by a quantity that only
they raise, and `of_runChecked` is for runs that are evaluated.
-/

namespace QuorumLogFs.Basis

variable {σ ε : Type*} (step : σ → ε → Option σ)

/-- Take the events in order; `none` when one of them cannot be taken. -/
def run (s : σ) (es : List ε) : Option σ := es.foldlM step s

@[simp] theorem run_nil (s : σ) : run step s [] = some s := rfl

theorem run_cons (s : σ) (e : ε) (es : List ε) :
    run step s (e :: es) = (step s e).bind fun s' => run step s' es := rfl

theorem run_append (s : σ) (es es' : List ε) :
    run step s (es ++ es') = (run step s es).bind fun s' => run step s' es' := by
  simp [run, List.foldlM_append]

theorem run_snoc (s : σ) (es : List ε) (e : ε) :
    run step s (es ++ [e]) = (run step s es).bind fun s' => step s' e := by
  rw [run_append]
  congr 1
  funext s'
  simp [run]

/-- `P` holds in every state the run goes through, the first and the last included. -/
def Always (P : σ → Prop) (s : σ) (es : List ε) : Prop :=
  ∀ es', es' <+: es → ∀ s', run step s es' = some s' → P s'

/-- Every event of the run is taken in a state that allows it. -/
def Each (ok : σ → ε → Prop) (s : σ) (es : List ε) : Prop :=
  ∀ es' e, es' ++ [e] <+: es → ∀ s', run step s es' = some s' → ok s' e

/-- `Q` holds of every step the run takes. -/
def Steps (Q : σ → ε → σ → Prop) (s : σ) (es : List ε) : Prop :=
  ∀ es' e, es' ++ [e] <+: es → ∀ s' s'', run step s es' = some s' → step s' e = some s'' → Q s' e s''

variable {step} {P I : σ → Prop} {ok : σ → ε → Prop} {s : σ}

theorem Always.initial {es es' : List ε} (h : Always step P s es) (hp : es' <+: es) :
    Always step P s es' :=
  fun _ h' => h _ (h'.trans hp)

theorem Each.initial {es es' : List ε} (h : Each step ok s es) (hp : es' <+: es) :
    Each step ok s es' :=
  fun _ _ h' => h _ _ (h'.trans hp)

/-- The rest of a run, from the state that its first part has reached. -/
theorem Each.rest {es es' : List ε} {t : σ} (h : Each step ok s (es ++ es'))
    (hrun : run step s es = some t) : Each step ok t es' := by
  intro es₁ e hp t' ht'
  refine h (es ++ es₁) e ?_ t' ?_
  · rw [List.append_assoc]
    exact (List.prefix_append_right_inj es).mpr hp
  · rw [run_append, hrun]
    exact ht'

theorem Each.last {es : List ε} {e : ε} {s' : σ} (h : Each step ok s (es ++ [e]))
    (hrun : run step s es = some s') : ok s' e :=
  h es e (List.prefix_refl _) s' hrun

/-- One more event, allowed in the state that the run has reached. -/
theorem Each.snoc {es : List ε} {e : ε} (h : Each step ok s es)
    (hlast : ∀ s', run step s es = some s' → ok s' e) : Each step ok s (es ++ [e]) := by
  intro es' e' hp s' hrun
  rcases List.prefix_concat_iff.mp hp with heq | hp'
  · obtain ⟨rfl, rfl⟩ : es' = es ∧ e' = e := by simpa using List.append_inj' heq rfl
    exact hlast s' hrun
  · exact h es' e' hp' s' hrun

/-- A run without a condition on its events. -/
theorem each_true (s : σ) (es : List ε) : Each step (fun _ _ => True) s es := fun _ _ _ _ _ => trivial

@[simp] theorem each_nil : Each step ok s [] := by
  intro es' e hp
  simp at hp

theorem each_cons {e : ε} {es : List ε} :
    Each step ok s (e :: es) ↔ ok s e ∧ ∀ s', step s e = some s' → Each step ok s' es := by
  constructor
  · intro h
    refine ⟨h [] e ⟨es, rfl⟩ s rfl, fun s' hs' es' e' hp t ht => ?_⟩
    refine h (e :: es') e' (by simpa using hp) t ?_
    rw [run_cons, hs']
    exact ht
  · rintro ⟨hok, hrest⟩ es' e' hp t ht
    cases es' with
    | nil =>
      obtain rfl : e' = e := by simpa using hp
      obtain rfl : s = t := by simpa using ht
      exact hok
    | cons e₀ es' =>
      obtain ⟨rfl, hp'⟩ : e₀ = e ∧ es' ++ [e'] <+: es := by simpa using hp
      rw [run_cons] at ht
      obtain ⟨s', hs', ht'⟩ := Option.bind_eq_some_iff.mp ht
      exact hrest s' hs' es' e' hp' t ht'

/-- `each_cons` for a step whose outcome is known. -/
theorem Each.cons {e : ε} {es : List ε} {t : σ} (hok : ok s e) (hstep : step s e = some t)
    (h : Each step ok t es) : Each step ok s (e :: es) := by
  refine each_cons.mpr ⟨hok, fun t' ht' => ?_⟩
  obtain rfl : t = t' := by simpa [hstep] using ht'
  exact h

instance decidableEach [∀ s e, Decidable (ok s e)] :
    ∀ (es : List ε) (s : σ), Decidable (Each step ok s es)
  | [], _ => isTrue each_nil
  | e :: es, s =>
    match h : step s e with
    | none => decidable_of_iff (ok s e) (by simp [each_cons, h])
    | some s' =>
      have := decidableEach es s'
      decidable_of_iff (ok s e ∧ Each step ok s' es) (by simp [each_cons, h])

theorem always_cons {e : ε} {es : List ε} :
    Always step P s (e :: es) ↔ P s ∧ ∀ s', step s e = some s' → Always step P s' es := by
  constructor
  · intro h
    refine ⟨h [] List.nil_prefix s rfl, fun s' hs' es' hp t ht => ?_⟩
    refine h (e :: es') (by simpa using hp) t ?_
    rw [run_cons, hs']
    exact ht
  · rintro ⟨hP, hrest⟩ es' hp t ht
    cases es' with
    | nil =>
      obtain rfl : s = t := by simpa using ht
      exact hP
    | cons e₀ es' =>
      obtain ⟨rfl, hp'⟩ : e₀ = e ∧ es' <+: es := by simpa using hp
      rw [run_cons] at ht
      obtain ⟨s', hs', ht'⟩ := Option.bind_eq_some_iff.mp ht
      exact hrest s' hs' es' hp' t ht'

theorem always_nil : Always step P s [] ↔ P s := by
  constructor
  · exact fun h => h [] List.nil_prefix s rfl
  · intro hP es' hp t ht
    rw [List.prefix_nil.mp hp, run_nil, Option.some.injEq] at ht
    exact ht ▸ hP

instance decidableAlways [∀ s, Decidable (P s)] :
    ∀ (es : List ε) (s : σ), Decidable (Always step P s es)
  | [], s => decidable_of_iff (P s) always_nil.symm
  | e :: es, s =>
    match h : step s e with
    | none => decidable_of_iff (P s) (by simp [always_cons, h])
    | some s' =>
      have := decidableAlways es s'
      decidable_of_iff (P s ∧ Always step P s' es) (by simp [always_cons, h])

/-- What the steps of a run preserve holds at its end. -/
theorem run_invariant (hI : I s)
    (hstep : ∀ s e s', I s → ok s e → step s e = some s' → I s')
    {es : List ε} (hok : Each step ok s es) {s' : σ} (hrun : run step s es = some s') : I s' := by
  induction es using List.reverseRecOn generalizing s' with
  | nil =>
    rw [run_nil, Option.some.injEq] at hrun
    exact hrun ▸ hI
  | append_singleton es e ih =>
    rw [run_snoc] at hrun
    obtain ⟨t, ht, hte⟩ := Option.bind_eq_some_iff.mp hrun
    exact hstep t e s' (ih (hok.initial (List.prefix_append _ _)) ht) (hok.last ht) hte

/-- The invariant rule: it holds at the start and allowed steps preserve it, so it holds in every
state the run goes through. -/
theorem always_of_each (hI : I s)
    (hstep : ∀ s e s', I s → ok s e → step s e = some s' → I s')
    {es : List ε} (hok : Each step ok s es) : Always step I s es :=
  fun _ hp _ hrun => run_invariant hI hstep (hok.initial hp) hrun

/-- A property of steps that the invariant gives holds of all steps the run takes. -/
theorem steps_of_each {Q : σ → ε → σ → Prop} (hI : I s)
    (hstep : ∀ s e s', I s → ok s e → step s e = some s' → I s')
    (hQ : ∀ s e s', I s → ok s e → step s e = some s' → Q s e s')
    {es : List ε} (hok : Each step ok s es) : Steps step Q s es := by
  intro es' e hp s' s'' hrun hs''
  have hI' := always_of_each hI hstep hok es' ((List.prefix_append es' [e]).trans hp) s' hrun
  exact hQ s' e s'' hI' (hok es' e hp s' hrun) hs''

theorem Always.imp {Q : σ → Prop} {es : List ε} (h : Always step P s es) (hPQ : ∀ s, P s → Q s) :
    Always step Q s es :=
  fun es' hp s' hrun => hPQ s' (h es' hp s' hrun)

theorem Each.imp {ok' : σ → ε → Prop} {es : List ε} (h : Each step ok s es)
    (himp : ∀ s e, ok s e → ok' s e) : Each step ok' s es :=
  fun es' e hp s' hrun => himp s' e (h es' e hp s' hrun)

/-- What always holds holds after every event of the run. -/
theorem Always.next {es : List ε} (h : Always step P s es) :
    Each step (fun s e => ∀ s', step s e = some s' → P s') s es := by
  intro es' e hp s' hrun s'' hs''
  refine h (es' ++ [e]) hp s'' ?_
  rw [run_snoc, hrun]
  exact hs''

theorem Each.and {ok' : σ → ε → Prop} {es : List ε} (h : Each step ok s es)
    (h' : Each step ok' s es) : Each step (fun s e => ok s e ∧ ok' s e) s es :=
  fun es' e hp s' hrun => ⟨h es' e hp s' hrun, h' es' e hp s' hrun⟩

/-- Two conditions that agree on a step wherever the invariant holds agree on a run. `E` is what the
events are known to satisfy anyway. -/
theorem each_congr {E ok' : σ → ε → Prop} (hI : I s)
    (hstep : ∀ s e s', I s → E s e → step s e = some s' → I s')
    (hiff : ∀ s e, I s → E s e → (ok s e ↔ ok' s e)) {es : List ε} (henv : Each step E s es) :
    Each step ok s es ↔ Each step ok' s es := by
  have hat : ∀ es' e, es' ++ [e] <+: es → ∀ s', run step s es' = some s' → (ok s' e ↔ ok' s' e) := by
    intro es' e hp s' hrun
    have hbefore := henv.initial ((List.prefix_append es' [e]).trans hp)
    exact hiff s' e (run_invariant hI hstep hbefore hrun) (henv es' e hp s' hrun)
  constructor
  · exact fun h es' e hp s' hrun => (hat es' e hp s' hrun).mp (h es' e hp s' hrun)
  · exact fun h es' e hp s' hrun => (hat es' e hp s' hrun).mpr (h es' e hp s' hrun)

/-- When every forbidden step leads from the invariant to a violation of `P`, a run keeps `P`
exactly if all its steps are allowed. `E` is what the events are known to satisfy anyway. -/
theorem always_iff_each {E : σ → ε → Prop} (hI : I s) (hIP : ∀ s, I s → P s)
    (hstep : ∀ s e s', I s → E s e → ok s e → step s e = some s' → I s')
    (hviol : ∀ s e s', I s → E s e → ¬ ok s e → step s e = some s' → ¬ P s')
    {es : List ε} {s' : σ} (hrun : run step s es = some s') (henv : Each step E s es) :
    Always step P s es ↔ Each step ok s es := by
  have hinv : ∀ s e s', I s → E s e ∧ ok s e → step s e = some s' → I s' :=
    fun s e s' hI h => hstep s e s' hI h.1 h.2
  constructor
  · intro hP
    induction es using List.reverseRecOn generalizing s' with
    | nil => exact each_nil
    | append_singleton es e ih =>
      rw [run_snoc] at hrun
      obtain ⟨t, ht, hte⟩ := Option.bind_eq_some_iff.mp hrun
      have henv' := henv.initial (List.prefix_append es [e])
      have hok := ih ht henv' (hP.initial (List.prefix_append es [e]))
      refine hok.snoc fun u hu => ?_
      obtain rfl : t = u := by simpa [ht] using hu
      -- were the last event forbidden, its successor would violate `P`
      by_contra hnot
      have hIt : I t := run_invariant hI hinv (henv'.and hok) ht
      refine hviol t e s' hIt (henv.last ht) hnot hte (hP _ (List.prefix_refl _) s' ?_)
      rw [run_snoc, ht]
      exact hte
  · exact fun hok => (always_of_each hI hinv (henv.and hok)).imp hIP

/-- The variant rule: no run is longer than a quantity that every step lowers. -/
theorem run_length_le {f : σ → ℕ} (hstep : ∀ s e s', step s e = some s' → f s' < f s) {es : List ε}
    {s' : σ} (hrun : run step s es = some s') : es.length + f s' ≤ f s := by
  induction es generalizing s with
  | nil =>
    obtain rfl := Option.some.inj hrun
    simp
  | cons e es ih =>
    obtain ⟨t, ht, hrun⟩ := Option.bind_eq_some_iff.mp hrun
    have hlt := hstep s e t ht
    have hrest := ih hrun
    rw [List.length_cons]
    omega

/-! ## Checked runs -/

/-- Take the events in order, as long as `ok` allows them. One evaluation shows that there is such a run
and that it meets the condition. -/
def runChecked (step : σ → ε → Option σ) (ok : σ → ε → Prop) [∀ s e, Decidable (ok s e)] (s : σ)
    (es : List ε) : Option σ :=
  run (fun s e => if ok s e then step s e else none) s es

theorem runChecked_eq_some [∀ s e, Decidable (ok s e)] {es : List ε} {s' : σ}
    (h : runChecked step ok s es = some s') : run step s es = some s' ∧ Each step ok s es := by
  induction es generalizing s with
  | nil => exact ⟨h, each_nil⟩
  | cons e es ih =>
    obtain ⟨t, ht, hrest⟩ := Option.bind_eq_some_iff.mp h
    dsimp only at ht
    split at ht
    · rename_i hok
      obtain ⟨hrun, heach⟩ := ih hrest
      refine ⟨?_, .cons hok ht heach⟩
      rw [run_cons, ht]
      exact hrun
    · cases ht

theorem of_runChecked [∀ s e, Decidable (ok s e)] {es : List ε}
    (h : (runChecked step ok s es).isSome) : (run step s es).isSome ∧ Each step ok s es := by
  obtain ⟨s', hs'⟩ := Option.isSome_iff_exists.mp h
  obtain ⟨hrun, heach⟩ := runChecked_eq_some hs'
  exact ⟨Option.isSome_iff_exists.mpr ⟨s', hrun⟩, heach⟩

/-! ## Counting -/

/-- How many events of the run are taken in states where `P` holds of them. -/
def occurrences (step : σ → ε → Option σ) (P : σ → ε → Prop) [∀ s e, Decidable (P s e)] :
    σ → List ε → ℕ
  | _, [] => 0
  | s, e :: es => (if P s e then 1 else 0) + ((step s e).map fun s' => occurrences step P s' es).getD 0

section Counting

variable {Q : σ → ε → Prop} [∀ s e, Decidable (Q s e)]

theorem occurrences_snoc {es : List ε} {e : ε} {s' : σ} (hrun : run step s es = some s') :
    occurrences step Q s (es ++ [e]) = occurrences step Q s es + if Q s' e then 1 else 0 := by
  induction es generalizing s with
  | nil =>
    obtain rfl := Option.some.inj hrun
    rw [List.nil_append, occurrences, occurrences, Nat.zero_add]
    cases step s e with
    | none => rfl
    | some t => rfl
  | cons e₀ es ih =>
    obtain ⟨t, ht, hrun⟩ := Option.bind_eq_some_iff.mp hrun
    rw [List.cons_append, occurrences, occurrences, ht, Option.map_some, Option.map_some,
      Option.getD_some, Option.getD_some, ih hrun, Nat.add_assoc]

/-- The counting rule: a quantity that every step raises by one or leaves, according to `Q`, has been
raised as often as `Q` has occurred. -/
theorem run_count {f : σ → ℤ} (hI : I s)
    (hstep : ∀ s e s', I s → ok s e → step s e = some s' →
      I s' ∧ f s' = f s + if Q s e then 1 else 0)
    {es : List ε} (hok : Each step ok s es) {s' : σ} (hrun : run step s es = some s') :
    f s' = f s + occurrences step Q s es := by
  induction es using List.reverseRecOn generalizing s' with
  | nil =>
    obtain rfl := Option.some.inj hrun
    simp [occurrences]
  | append_singleton es e ih =>
    have hbefore := hok.initial (List.prefix_append es [e])
    rw [run_snoc] at hrun
    obtain ⟨t, ht, hte⟩ := Option.bind_eq_some_iff.mp hrun
    have hIt : I t := run_invariant hI (fun s e s' h h' h'' => (hstep s e s' h h' h'').1) hbefore ht
    rw [(hstep t e s' hIt (hok.last ht) hte).2, ih hbefore ht, occurrences_snoc ht]
    split <;> simp [add_assoc]

end Counting

end QuorumLogFs.Basis
