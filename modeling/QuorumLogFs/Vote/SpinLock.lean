import QuorumLogFs.Basis.Threads

/-!
# The spin lock and the slots it hands out

Reference: `lll_lock` and `lll_unlock` in `Util.c`, `compare_and_swap` in `myatomic.h`, `putResponse` in
`Server.c`.

`lll_lock` reads the word until it is `1` and then swaps it for `0`; the old value tells whether that
was in time. `lockedStep` is a thread that runs some code between `lll_lock` and `lll_unlock`, one atomic
step at a time: `Excludes` is the invariant, for any such code. The code of `putResponse` takes a slot
behind `numKeys` and counts it.
-/

namespace QuorumLogFs.Vote

open QuorumLogFs.Basis

/-- `compare_and_swap(mem,newval,oldval)`: the old value, and the value in memory afterwards. -/
def compareAndSwap (mem newval oldval : ℤ) : ℤ × ℤ :=
  (mem, if mem = oldval then newval else mem)

/-- The places in `lll_lock`: in front of the test of the word, and of the swap. -/
inductive LockPc where
  | test
  | swap
deriving DecidableEq

/-- One step of `lll_lock(lll_val)`: the word, and the next place or `none` when it returns. -/
def lllLock (lll_val : ℤ) : LockPc → ℤ × Option LockPc
  | .test => (lll_val, some (if lll_val ≠ 1 then .test else .swap))
  | .swap =>
    let r := compareAndSwap lll_val 0 1
    (r.2, if r.1 ≠ 0 then none else some .test)

/-- `lll_unlock(lll_val)` -/
def lllUnlock (_lll_val : ℤ) : ℤ := 1

/-- A lock word and the memory it protects. -/
structure Locked (σ : Type*) where
  word : ℤ
  mem : σ

/-- The places of a thread that runs some code under the lock, and ends with a result. -/
inductive LockedPc (τ ρ : Type*) where
  | lock (pc : LockPc)
  | code (pc : τ)
  | unlock (result : ρ)
  | done (result : ρ)

variable {ι σ τ ρ : Type*}

/-- One step of a thread that runs `code` under the lock, from `start` until it has a result. -/
def lockedStep (start : τ) (code : σ → τ → σ × (τ ⊕ ρ)) (m : Locked σ) :
    LockedPc τ ρ → Option (Locked σ × LockedPc τ ρ)
  | .lock pc =>
    let r := lllLock m.word pc
    some ({ m with word := r.1 }, r.2.elim (.code start) .lock)
  | .code pc =>
    let r := code m.mem pc
    some ({ m with mem := r.1 }, r.2.elim .code .unlock)
  | .unlock result => some ({ m with word := lllUnlock m.word }, .done result)
  | .done _ => none

/-- Between the return of `lll_lock` and the end of `lll_unlock`. -/
def LockedPc.Inside : LockedPc τ ρ → Prop
  | .code _ => True
  | .unlock _ => True
  | _ => False

/-- The word is `1` or `0`, and `0` while a thread is inside; there is at most one. -/
structure Excludes (s : Threads ι (Locked σ) (LockedPc τ ρ)) : Prop where
  word : s.shared.word = 0 ∨ s.shared.word = 1
  held : ∀ t, (s.place t).Inside → s.shared.word = 0
  one : AtMostOne LockedPc.Inside s.place

/-! ## Mutual exclusion -/

section Exclusion

variable [DecidableEq ι] {start : τ} {code : σ → τ → σ × (τ ⊕ ρ)}
  {s s' : Threads ι (Locked σ) (LockedPc τ ρ)} {m : Locked σ} {p : LockedPc τ ρ} {t : ι}

/-- A step of `lll_lock` leaves the word, or takes it and returns. -/
theorem lllLock_cases {v : ℤ} (hv : v = 0 ∨ v = 1) (pc : LockPc) :
    (∃ pc', lllLock v pc = (v, some pc')) ∨ v = 1 ∧ lllLock v pc = (0, none) := by
  cases pc with
  | test => exact Or.inl ⟨_, rfl⟩
  | swap =>
    rcases hv with rfl | rfl
    · exact Or.inl ⟨.test, rfl⟩
    · exact Or.inr ⟨rfl, rfl⟩

/-- What a step of a thread does: it spins, enters, runs the code or leaves. -/
theorem lockedStep_cases (hv : m.word = 0 ∨ m.word = 1) {m' : Locked σ} {p' : LockedPc τ ρ}
    (h : lockedStep start code m p = some (m', p')) :
    (∃ pc pc', p = .lock pc ∧ p' = .lock pc' ∧ m' = m) ∨
    (∃ pc, p = .lock pc ∧ m.word = 1 ∧ p' = .code start ∧ m' = { m with word := 0 }) ∨
    (∃ pc, p = .code pc ∧ p' = (code m.mem pc).2.elim .code .unlock ∧
      m' = { m with mem := (code m.mem pc).1 }) ∨
    (∃ result, p = .unlock result ∧ p' = .done result ∧ m' = { m with word := 1 }) := by
  cases p with
  | lock pc =>
    obtain ⟨rfl, rfl⟩ := Prod.mk.inj (Option.some.inj h)
    rcases lllLock_cases hv pc with ⟨pc', hpc⟩ | ⟨hfree, hpc⟩
    · exact Or.inl ⟨pc, pc', rfl, by rw [hpc]; rfl, by rw [hpc]⟩
    · exact Or.inr (Or.inl ⟨pc, rfl, hfree, by rw [hpc]; rfl, by rw [hpc]⟩)
  | code pc =>
    obtain ⟨rfl, rfl⟩ := Prod.mk.inj (Option.some.inj h)
    exact Or.inr (Or.inr (Or.inl ⟨pc, rfl, rfl, rfl⟩))
  | unlock result =>
    obtain ⟨rfl, rfl⟩ := Prod.mk.inj (Option.some.inj h)
    exact Or.inr (Or.inr (Or.inr ⟨result, rfl, rfl, rfl⟩))
  | done result => cases h

/-- After a step of the code the thread is still inside. -/
theorem inside_elim (r : τ ⊕ ρ) : (r.elim LockedPc.code LockedPc.unlock).Inside := by
  cases r <;> exact trivial

theorem Excludes.step (h : Excludes s)
    (hstep : threadStep (fun _ => lockedStep start code) s t = some s') : Excludes s' := by
  obtain ⟨m', p', hcode, rfl⟩ := threadStep_eq_some.mp hstep
  have hout : ∀ pc, s.place t = .lock pc → ¬ (s.place t).Inside := fun pc hp => by
    rw [hp]
    exact id
  rcases lockedStep_cases h.word hcode with ⟨pc, pc', hp, rfl, rfl⟩ | ⟨pc, hp, hfree, rfl, rfl⟩ |
    ⟨pc, hp, rfl, rfl⟩ | ⟨result, hp, rfl, rfl⟩
  · -- the thread spins
    refine ⟨h.word, forall_update_place (Q := fun _ q => LockedPc.Inside q → s.shared.word = 0)
      (fun hin => absurd hin id) fun u _ => h.held u, ?_⟩
    exact h.one.move fun hin => absurd hin id
  · -- the word was `1`, so nobody is inside
    have hnobody : ∀ u, ¬ (s.place u).Inside := fun u hu => by
      have := h.held u hu
      omega
    exact ⟨Or.inl rfl, fun _ _ => rfl, AtMostOne.enter hnobody⟩
  · -- the thread stays inside
    have hin : (s.place t).Inside := by
      rw [hp]
      exact trivial
    exact ⟨h.word, fun _ _ => h.held t hin, h.one.move fun _ => hin⟩
  · -- the only thread inside leaves
    have hin : (s.place t).Inside := by
      rw [hp]
      exact trivial
    refine ⟨Or.inr rfl, forall_update_place (Q := fun _ q => LockedPc.Inside q → (1 : ℤ) = 0)
      (fun hin' => absurd hin' id) fun u hu hin' => ?_, ?_⟩
    · exact absurd (h.one u t hin' hin) hu
    · exact h.one.move fun hin' => absurd hin' id

end Exclusion

/-! ## Reserving a slot -/

/-- `numKeys` and its lock, as `main` leaves them. -/
abbrev KeyCounter := Locked ℤ

/-- The places in `keyval = &keyVals[numKeys]; numKeys++`: `numKeys` is read for the slot, read again,
and written. -/
inductive SlotPc where
  | readSlot
  | readNumKeys (slot : ℤ)
  | writeNumKeys (slot numKeysRead : ℤ)
deriving DecidableEq

/-- One step of the reservation. The result is the index of the slot. -/
def takeSlot (numKeys : ℤ) : SlotPc → ℤ × (SlotPc ⊕ ℤ)
  | .readSlot => (numKeys, .inl (.readNumKeys numKeys))
  | .readNumKeys slot => (numKeys, .inl (.writeNumKeys slot numKeys))
  | .writeNumKeys slot numKeysRead => (numKeysRead + 1, .inr slot)

/-- One step of a thread that reserves a slot. -/
def reserveStep : KeyCounter → LockedPc SlotPc ℤ → Option (KeyCounter × LockedPc SlotPc ℤ) :=
  lockedStep .readSlot takeSlot

/-- All threads are in front of `lll_lock(&numKeysLock)`. -/
def beforeReserving (ι : Type*) (numKeys : ℤ) : Threads ι KeyCounter (LockedPc SlotPc ℤ) :=
  ⟨⟨1, numKeys⟩, fun _ => .lock .test⟩

/-- The slot that a thread has obtained. -/
def LockedPc.slot : LockedPc SlotPc ℤ → Option ℤ
  | .lock _ => none
  | .code .readSlot => none
  | .code (.readNumKeys slot) => some slot
  | .code (.writeNumKeys slot _) => some slot
  | .unlock slot => some slot
  | .done slot => some slot

/-- The thread has counted its slot. -/
def LockedPc.Counted : LockedPc SlotPc ℤ → Prop
  | .unlock _ => True
  | .done _ => True
  | _ => False

instance : DecidablePred LockedPc.Counted
  | .lock _ => isFalse id
  | .code _ => isFalse id
  | .unlock _ => isTrue trivial
  | .done _ => isTrue trivial

/-- The thread has reserved a slot and left. -/
def LockedPc.Reserved : LockedPc SlotPc ℤ → Prop
  | .done _ => True
  | _ => False

instance : DecidablePred LockedPc.Reserved
  | .lock _ => isFalse id
  | .code _ => isFalse id
  | .unlock _ => isFalse id
  | .done _ => isTrue trivial

/-- At most one thread is inside, no two reservations have the same slot, and when nobody is inside the
counter has grown by the number of reservations. -/
structure HandsOutSlots [Fintype ι] (numKeys : ℤ) (s : Threads ι KeyCounter (LockedPc SlotPc ℤ)) :
    Prop where
  one : AtMostOne LockedPc.Inside s.place
  distinct : ∀ t u, ∀ slot ∈ (s.place t).slot, slot ∈ (s.place u).slot → t = u
  counted : (∀ t, ¬ (s.place t).Inside) →
    s.shared.mem = numKeys + number LockedPc.Reserved s.place

/-- What the values that a thread has read and obtained say about the counter. -/
def LockedPc.Agrees (numKeys : ℤ) : LockedPc SlotPc ℤ → Prop
  | .lock _ => True
  | .code .readSlot => True
  | .code (.readNumKeys slot) => slot = numKeys
  | .code (.writeNumKeys slot numKeysRead) => slot = numKeys ∧ numKeysRead = numKeys
  | .unlock slot => slot < numKeys
  | .done slot => slot < numKeys

/-- The invariant: the lock excludes, what the threads know agrees with the counter, and the counter has
grown by the number of slots that are counted. -/
structure Reserving [Fintype ι] (numKeys : ℤ) (s : Threads ι KeyCounter (LockedPc SlotPc ℤ)) :
    Prop where
  excludes : Excludes s
  agrees : ∀ t, (s.place t).Agrees s.shared.mem
  distinct : ∀ t u, ∀ slot ∈ (s.place t).slot, slot ∈ (s.place u).slot → t = u
  count : s.shared.mem = numKeys + number LockedPc.Counted s.place

section Reserve

variable {numKeys : ℤ} {s s' : Threads ι KeyCounter (LockedPc SlotPc ℤ)} {t : ι}

theorem reserving_before [Fintype ι] (numKeys : ℤ) : Reserving numKeys (beforeReserving ι numKeys) where
  excludes := ⟨Or.inr rfl, fun _ h => h.elim, fun _ _ h => h.elim⟩
  agrees _ := trivial
  distinct _ _ _ h := by cases h
  count := by
    have hnone : number LockedPc.Counted (beforeReserving ι numKeys).place = 0 :=
      number_eq_zero.mpr fun _ h => h
    rw [hnone]
    simp [beforeReserving]

/-- A thread that is not inside knows only slots below the counter. -/
theorem LockedPc.Agrees.mono {p : LockedPc SlotPc ℤ} {n n' : ℤ} (h : p.Agrees n)
    (hout : ¬ p.Inside) (hn : n ≤ n') : p.Agrees n' := by
  cases p with
  | lock pc => exact trivial
  | code pc => exact absurd trivial hout
  | unlock slot => exact absurd trivial hout
  | done slot => exact lt_of_lt_of_le h hn

theorem LockedPc.Agrees.slot_lt {p : LockedPc SlotPc ℤ} {n slot : ℤ} (h : p.Agrees n)
    (hout : ¬ p.Inside) (hslot : slot ∈ p.slot) : slot < n := by
  cases p with
  | lock pc => cases hslot
  | code pc => exact absurd trivial hout
  | unlock slot => exact absurd trivial hout
  | done slot' =>
    obtain rfl := Option.mem_some_iff.mp hslot
    exact h

/-- When nobody is inside, the counted slots are those of the threads that have left. -/
theorem Reserving.handsOut [Fintype ι] (h : Reserving numKeys s) : HandsOutSlots numKeys s where
  one := h.excludes.one
  distinct := h.distinct
  counted hnobody := by
    have hsame : number LockedPc.Reserved s.place = number LockedPc.Counted s.place := by
      unfold number
      congr 1
      refine Finset.filter_congr fun t _ => ?_
      have hout := hnobody t
      cases hp : s.place t with
      | lock pc => exact Iff.rfl
      | code pc => exact absurd (hp ▸ trivial) hout
      | unlock slot => exact absurd (hp ▸ trivial) hout
      | done slot => exact Iff.rfl
    rw [hsame]
    exact h.count

/-- A new slot that no other thread has. -/
theorem distinct_update [DecidableEq ι] {p : LockedPc SlotPc ℤ}
    (h : ∀ t u, ∀ slot ∈ (s.place t).slot, slot ∈ (s.place u).slot → t = u)
    (hp : ∀ slot ∈ p.slot, ∀ u, u ≠ t → slot ∉ (s.place u).slot) :
    ∀ u v, ∀ slot ∈ (Function.update s.place t p u).slot,
      slot ∈ (Function.update s.place t p v).slot → u = v := by
  intro u v slot hu hv
  by_cases hut : u = t <;> by_cases hvt : v = t
  · rw [hut, hvt]
  · rw [hut, Function.update_self] at hu
    rw [Function.update_of_ne hvt] at hv
    exact absurd hv (hp slot hu v hvt)
  · rw [hvt, Function.update_self] at hv
    rw [Function.update_of_ne hut] at hu
    exact absurd hu (hp slot hv u hut)
  · rw [Function.update_of_ne hut] at hu
    rw [Function.update_of_ne hvt] at hv
    exact h u v slot hu hv

variable [Fintype ι] [DecidableEq ι]

/-- The slots stay what they were when the thread that moves keeps its own. -/
theorem Reserving.distinct_same {p : LockedPc SlotPc ℤ} (h : Reserving numKeys s)
    (hp : p.slot = (s.place t).slot) :
    ∀ u v, ∀ slot ∈ (Function.update s.place t p u).slot,
      slot ∈ (Function.update s.place t p v).slot → u = v :=
  distinct_update h.distinct fun slot hslot u hu hmem =>
    hu (h.distinct u t slot hmem (hp ▸ hslot))

/-- A step of the code inside. -/
theorem Reserving.inside {pc : SlotPc} (h : Reserving numKeys s) (hp : s.place t = .code pc)
    (hstep : Excludes ⟨{ s.shared with mem := (takeSlot s.shared.mem pc).1 },
      Function.update s.place t ((takeSlot s.shared.mem pc).2.elim .code .unlock)⟩) :
    Reserving numKeys ⟨{ s.shared with mem := (takeSlot s.shared.mem pc).1 },
      Function.update s.place t ((takeSlot s.shared.mem pc).2.elim .code .unlock)⟩ := by
  have hin : (s.place t).Inside := by
    rw [hp]
    exact trivial
  have hout : ∀ u, u ≠ t → ¬ (s.place u).Inside := fun u hu hin' =>
    hu (h.excludes.one u t hin' hin)
  have hagrees := h.agrees t
  have hnot : ¬ (s.place t).Counted := by
    rw [hp]
    exact id
  rw [hp] at hagrees
  cases pc with
  | readSlot =>
    refine ⟨hstep, forall_update_place rfl fun u _ => h.agrees u, ?_, ?_⟩
    · refine distinct_update h.distinct fun slot hslot u hu hmem => ?_
      obtain rfl := Option.mem_some_iff.mp hslot
      exact absurd ((h.agrees u).slot_lt (hout u hu) hmem) (lt_irrefl _)
    · show s.shared.mem = numKeys + (number LockedPc.Counted
        (Function.update s.place t (LockedPc.code (.readNumKeys s.shared.mem))) : ℤ)
      rw [number_move ⟨False.elim, hnot⟩]
      exact h.count
  | readNumKeys slot =>
    refine ⟨hstep, forall_update_place ⟨hagrees, rfl⟩ fun u _ => h.agrees u, ?_, ?_⟩
    · exact h.distinct_same (hp ▸ rfl)
    · show s.shared.mem = numKeys + (number LockedPc.Counted
        (Function.update s.place t (LockedPc.code (.writeNumKeys slot s.shared.mem))) : ℤ)
      rw [number_move ⟨False.elim, hnot⟩]
      exact h.count
  | writeNumKeys slot numKeysRead =>
    obtain ⟨hslot, hread⟩ : slot = s.shared.mem ∧ numKeysRead = s.shared.mem := hagrees
    refine ⟨hstep, forall_update_place ?_ fun u hu => ?_, ?_, ?_⟩
    · show slot < numKeysRead + 1
      omega
    · exact (h.agrees u).mono (hout u hu) (by show s.shared.mem ≤ numKeysRead + 1; omega)
    · exact h.distinct_same (hp ▸ rfl)
    · have hcount := h.count
      have hnumber : number LockedPc.Counted (Function.update s.place t (.unlock slot)) =
          number LockedPc.Counted s.place + 1 := number_enter trivial hnot
      show numKeysRead + 1 = numKeys + (number LockedPc.Counted
        (Function.update s.place t (.unlock slot)) : ℤ)
      rw [hnumber]
      push_cast
      omega

theorem Reserving.step (h : Reserving numKeys s)
    (hstep : threadStep (fun _ => reserveStep) s t = some s') : Reserving numKeys s' := by
  have hexcludes := h.excludes.step hstep
  obtain ⟨m', p', hcode, rfl⟩ := threadStep_eq_some.mp hstep
  rcases lockedStep_cases h.excludes.word hcode with ⟨pc, pc', hp, rfl, rfl⟩ |
    ⟨pc, hp, hfree, rfl, rfl⟩ | ⟨pc, hp, rfl, rfl⟩ | ⟨result, hp, rfl, rfl⟩
  · -- the thread spins
    refine ⟨hexcludes, forall_update_place trivial fun u _ => h.agrees u,
      h.distinct_same (hp ▸ rfl), ?_⟩
    rw [number_move (by rw [hp]; exact Iff.rfl)]
    exact h.count
  · -- the thread enters
    refine ⟨hexcludes, forall_update_place trivial fun u _ => h.agrees u,
      h.distinct_same (hp ▸ rfl), ?_⟩
    rw [number_move (by rw [hp]; exact Iff.rfl)]
    exact h.count
  · exact h.inside hp hexcludes
  · -- the thread leaves with its slot
    have hagrees := h.agrees t
    rw [hp] at hagrees
    refine ⟨hexcludes, forall_update_place hagrees fun u _ => h.agrees u,
      h.distinct_same (hp ▸ rfl), ?_⟩
    rw [number_move (by rw [hp]; exact Iff.rfl)]
    exact h.count

end Reserve

/-- In every interleaving of any number of threads that reserve a slot, at most one is between `lll_lock`
and `lll_unlock`, no two get the same slot, and the counter counts them. -/
theorem spinLock_handsOutSlots [Fintype ι] [DecidableEq ι] (numKeys : ℤ) (schedule : List ι) :
    Always (threadStep fun _ => reserveStep) (HandsOutSlots numKeys) (beforeReserving ι numKeys)
      schedule := by
  have hok : Each (threadStep fun _ => reserveStep) (fun _ _ => True) (beforeReserving ι numKeys)
      schedule := fun _ _ _ _ _ => trivial
  exact (always_of_each (reserving_before numKeys) (fun _ _ _ h _ => h.step) hok).imp
    fun _ h => h.handsOut

/-- Two threads for a table of one key. The second one finds the word taken until the first one has
left. -/
example :
    (run (threadStep fun _ => reserveStep) (beforeReserving (Fin 2) 1)
        [0, 1, 0, 1, 0, 1, 0, 0, 0, 1, 1, 1, 1, 1, 1]).map
      (fun s => (s.shared.word, s.shared.mem, (s.place 0).slot, (s.place 1).slot)) =
    some (1, 3, some 1, some 2) := by
  decide

end QuorumLogFs.Vote
