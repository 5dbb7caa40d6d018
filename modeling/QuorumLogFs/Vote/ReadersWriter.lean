import QuorumLogFs.Vote.Server
import QuorumLogFs.Basis.Threads

/-!
# Readers and the writer of an entry

Reference: `getResponse`, `putResponse`, `updateKey` and `releaselockResponse` in `Server.c`.

Any number of handlers work on one entry of the table. The tests of `lock` and `numGetters` and the
changes that follow them are steps of their own, since the calls of `lll_lock` around them are commented
out; so are the copies of the version and of the value. A `PUT` is told what to write by an `update` for
the same key; whatever it receives then, or does not receive, it releases the lock. The copy of a value
that does not fit runs over `lock` behind it, and has no result.
-/

namespace QuorumLogFs.Vote

open QuorumLogFs.Basis

/-! ## The handlers -/

/-- The value and the version of an `update` message. -/
structure Update where
  value : List Char
  vno : ℤ
deriving DecidableEq

/-- What a connection asks for. A `PUT` may be sent an update after its vote. -/
inductive Handler where
  | get
  | put (update : Option Update)
deriving DecidableEq

def Handler.update : Handler → Option Update
  | .get => none
  | .put update => update

/-- The entry, and the messages sent by `getResponse` and by `putResponse`. -/
structure EntryMem where
  keyval : KeyVal
  replies : List (List Char)
  votes : List (List Char)

/-- The places in the handlers. -/
inductive HandlerPc where
  /-- `getResponse`, in front of `if( keyval->lock == 0 )`. -/
  | testLock
  /-- In front of `keyval->numGetters++`. -/
  | incrGetters
  /-- In front of the copies into `resMsg`, and of `send`. -/
  | copyVno
  | copyValue (vno : ℤ)
  | sendReply (vno : ℤ) (value : List Char)
  /-- In front of `atomicDecr(&(keyval->numGetters))`, after the reply and after the test has failed. -/
  | decrGetters
  | decrRefused
  | answered
  | refused
  /-- `putResponse`, in front of the copies into `resMsg`. -/
  | voteVno
  | voteValue (vno : ℤ)
  /-- In front of the two tests of `if( keyval->lock == 0 && keyval->numGetters ==0 )`. -/
  | testFree (resMsg : List Char)
  | testGetters (resMsg : List Char)
  /-- In front of `keyval->lock=1`. -/
  | setLock (resMsg : List Char)
  | sendVote (resMsg : List Char)
  /-- In front of `recvTimeout`. -/
  | recvUpdate
  /-- `updateKey`: in front of `keyToUpdate->lock ==  0`, of `strcpy`, and of the version. -/
  | testLocked (update : Update)
  | writeValue (update : Update)
  | writeVno (update : Update)
  /-- In front of `kv->lock = 0` in `releaselockResponse`. -/
  | release
  | denied
  | finished
deriving DecidableEq

def Handler.start : Handler → HandlerPc
  | .get => .testLock
  | .put _ => .voteVno

/-- The reply of `getResponse` for the copies it has made. -/
def getResMsg (lier : ℤ) (key : List Char) (u : Update) : List Char :=
  voteMsg u.vno key (if lier = 0 then u.value else u.value ++ "lie".toList)

/-- The vote of `putResponse` for the copies it has made. -/
def putResMsg (lier : ℤ) (key : List Char) (u : Update) : List Char :=
  if lier = 0 then voteMsg u.vno key u.value else voteMsg (u.vno + LIER_VNO_INCR) key u.value

/-- One step of a handler. -/
def handlerStep (lier : ℤ) (h : Handler) (m : EntryMem) : HandlerPc → Option (EntryMem × HandlerPc)
  | .testLock => some (m, if m.keyval.lock = 0 then .incrGetters else .decrRefused)
  | .incrGetters =>
    some ({ m with keyval.numGetters := m.keyval.numGetters + 1 }, .copyVno)
  | .copyVno => some (m, .copyValue m.keyval.vno)
  | .copyValue vno => some (m, .sendReply vno m.keyval.value)
  | .sendReply vno value =>
    some ({ m with replies := m.replies ++ [getResMsg lier m.keyval.key ⟨value, vno⟩] }, .decrGetters)
  | .decrGetters =>
    some ({ m with keyval.numGetters := m.keyval.numGetters - 1 }, .answered)
  | .decrRefused =>
    some ({ m with keyval.numGetters := m.keyval.numGetters - 1 }, .refused)
  | .answered => none
  | .refused => none
  | .voteVno => some (m, .voteValue m.keyval.vno)
  | .voteValue vno => some (m, .testFree (putResMsg lier m.keyval.key ⟨m.keyval.value, vno⟩))
  | .testFree resMsg => some (m, if m.keyval.lock = 0 then .testGetters resMsg else .denied)
  | .testGetters resMsg => some (m, if m.keyval.numGetters = 0 then .setLock resMsg else .denied)
  | .setLock resMsg => some ({ m with keyval.lock := 1 }, .sendVote resMsg)
  | .sendVote resMsg => some ({ m with votes := m.votes ++ [resMsg] }, .recvUpdate)
  | .recvUpdate => some (m, h.update.elim .release .testLocked)
  | .testLocked update => some (m, if m.keyval.lock = 0 then .release else .writeValue update)
  | .writeValue update =>
    if update.value.length < VALSIZE then
      some ({ m with keyval.value := update.value }, .writeVno update)
    else none
  | .writeVno update => some ({ m with keyval.vno := update.vno }, .release)
  | .release => some ({ m with keyval.lock := 0 }, .finished)
  | .denied => none
  | .finished => none

/-- What a handler has to do with the entry at a place. -/
inductive Role where
  | outside
  | reading
  | holding
  /-- The lock is held and the value is newer than the version. -/
  | writing
  /-- The counter has been lowered without having been raised. -/
  | refused
deriving DecidableEq

def HandlerPc.role : HandlerPc → Role
  | .copyVno => .reading
  | .copyValue _ => .reading
  | .sendReply _ _ => .reading
  | .decrGetters => .reading
  | .refused => .refused
  | .sendVote _ => .holding
  | .recvUpdate => .holding
  | .testLocked _ => .holding
  | .writeValue _ => .holding
  | .writeVno _ => .writing
  | .release => .holding
  | _ => .outside

/-- Between raising `numGetters` and lowering it. -/
def HandlerPc.Reading (p : HandlerPc) : Prop := p.role = .reading

/-- Between setting the lock and releasing it. -/
def HandlerPc.Holding (p : HandlerPc) : Prop := p.role = .holding ∨ p.role = .writing

def HandlerPc.Refused (p : HandlerPc) : Prop := p.role = .refused

instance : DecidablePred HandlerPc.Reading := fun _ => inferInstanceAs (Decidable (_ = _))

instance : DecidablePred HandlerPc.Holding := fun _ => inferInstanceAs (Decidable (_ ∨ _))

instance : DecidablePred HandlerPc.Refused := fun _ => inferInstanceAs (Decidable (_ = _))

/-! ## The property and its condition -/

variable {ι : Type*}

/-- All handlers are at their beginning, and nobody has touched the entry. -/
def handlersStart (handlers : ι → Handler) (kv : KeyVal) : Threads ι EntryMem HandlerPc where
  shared := ⟨{ kv with lock := 0, numGetters := 0 }, [], []⟩
  place t := (handlers t).start

/-- The value and the version that the entry has at the beginning, or that some `PUT` is told. -/
def Vintage (handlers : ι → Handler) (kv : KeyVal) (u : Update) : Prop :=
  u = ⟨kv.value, kv.vno⟩ ∨ ∃ t, (handlers t).update = some u

/-- No `GET` reads the entry while a `PUT` holds its lock, and no reply combines the version of one
update with the value of another. -/
structure ReadersExcludeWriter (lier : ℤ) (handlers : ι → Handler) (kv : KeyVal)
    (s : Threads ι EntryMem HandlerPc) : Prop where
  excluded : ∀ t u, (s.place t).Reading → ¬ (s.place u).Holding
  replies : ∀ msg ∈ s.shared.replies, ∃ u, Vintage handlers kv u ∧ msg = getResMsg lier kv.key u

/-- What a handler has found by its tests still holds when it acts upon it, and `numGetters` has not been
lowered by a `GET` that found the entry locked. -/
def HandlerPc.StillFree (s : Threads ι EntryMem HandlerPc) : HandlerPc → Prop
  | .incrGetters => s.shared.keyval.lock = 0
  | .setLock _ => s.shared.keyval.lock = 0 ∧ s.shared.keyval.numGetters = 0 ∧
      ∀ u, ¬ (s.place u).Refused
  | _ => True

/-- The handler whose turn it is acts upon what it has tested only while that still holds. -/
def StillFree (s : Threads ι EntryMem HandlerPc) (t : ι) : Prop := (s.place t).StillFree s

instance [Fintype ι] (s : Threads ι EntryMem HandlerPc) : DecidablePred (HandlerPc.StillFree s) := by
  intro p
  cases p with
  | incrGetters => exact inferInstanceAs (Decidable (_ = _))
  | setLock resMsg => exact inferInstanceAs (Decidable (_ ∧ _ ∧ ∀ u, ¬ (s.place u).Refused))
  | _ => exact isTrue trivial

instance [Fintype ι] (s : Threads ι EntryMem HandlerPc) : DecidablePred (StillFree s) :=
  fun t => inferInstanceAs (Decidable ((s.place t).StillFree s))

/-! ## The invariant -/

/-- What a handler knows of the entry at a place. -/
def HandlerPc.Knows (handlers : ι → Handler) (kv : KeyVal) (cur : KeyVal) (t : ι) : HandlerPc → Prop
  | .copyValue vno => vno = cur.vno
  | .sendReply vno value => Vintage handlers kv ⟨value, vno⟩
  | .testLocked update => (handlers t).update = some update
  | .writeValue update => (handlers t).update = some update
  | .writeVno update => (handlers t).update = some update ∧ cur.value = update.value
  | _ => True

/-- The lock is set while it is held, the counter counts the readers, readers and the one holder exclude
each other, and the entry is that of one update unless a holder is just writing. -/
structure Apart [Fintype ι] (lier : ℤ) (handlers : ι → Handler) (kv : KeyVal)
    (s : Threads ι EntryMem HandlerPc) : Prop extends ReadersExcludeWriter lier handlers kv s where
  locked : ∀ t, (s.place t).Holding → s.shared.keyval.lock ≠ 0
  one : AtMostOne HandlerPc.Holding s.place
  counted : s.shared.keyval.numGetters =
    number HandlerPc.Reading s.place - number HandlerPc.Refused s.place
  key : s.shared.keyval.key = kv.key
  whole : (∀ t, (s.place t).role ≠ .writing) →
    Vintage handlers kv ⟨s.shared.keyval.value, s.shared.keyval.vno⟩
  knows : ∀ t, (s.place t).Knows handlers kv s.shared.keyval t

/-! ## What a step does to the roles -/

section Roles

variable {handlers : ι → Handler} {kv : KeyVal} {place : ι → HandlerPc} {p : HandlerPc} {t : ι}

theorem HandlerPc.not_reading {r : Role} (h : p.role = r) (hr : r ≠ .reading := by decide) :
    ¬ p.Reading :=
  fun h' => hr (h.symm.trans h')

theorem HandlerPc.not_holding {r : Role} (h : p.role = r)
    (hr : r ≠ .holding ∧ r ≠ .writing := by decide) : ¬ p.Holding := by
  rintro (h' | h')
  · exact hr.1 (h.symm.trans h')
  · exact hr.2 (h.symm.trans h')

theorem HandlerPc.not_refused {r : Role} (h : p.role = r) (hr : r ≠ .refused := by decide) :
    ¬ p.Refused :=
  fun h' => hr (h.symm.trans h')

/-- Of a handler that neither reads nor holds, nothing is known of the value and the version. -/
theorem HandlerPc.Knows.of_outside {cur cur' : KeyVal} (h : p.Knows handlers kv cur t)
    (hread : ¬ p.Reading) (hhold : ¬ p.Holding) : p.Knows handlers kv cur' t := by
  cases p with
  | copyValue vno => exact absurd rfl hread
  | writeVno update => exact absurd (Or.inr rfl) hhold
  | _ => exact h

/-- Readers and holders still exclude each other when one handler has moved. -/
theorem excluded_update [DecidableEq ι]
    (h : ∀ u v, (place u).Reading → ¬ (place v).Holding)
    (hread : p.Reading → ∀ u, u ≠ t → ¬ (place u).Holding)
    (hhold : p.Holding → ∀ u, u ≠ t → ¬ (place u).Reading) :
    ∀ u v, (Function.update place t p u).Reading → ¬ (Function.update place t p v).Holding := by
  refine (Function.forall_update_iff place fun _ q => ∀ v, q.Reading →
    ¬ (Function.update place t p v).Holding).mpr ⟨?_, fun u hu => ?_⟩
  · exact (Function.forall_update_iff place fun _ q => p.Reading → ¬ q.Holding).mpr
      ⟨fun hr => HandlerPc.not_holding hr, fun v hv hr => hread hr v hv⟩
  · exact (Function.forall_update_iff place fun _ q => (place u).Reading → ¬ q.Holding).mpr
      ⟨fun hr hh => hhold hh u hu hr, fun v _ => h u v⟩

end Roles

/-! ## The steps -/

section Steps

variable [Fintype ι] {lier : ℤ} {handlers : ι → Handler} {kv : KeyVal}
  {s s' : Threads ι EntryMem HandlerPc} {t : ι} {p : HandlerPc} {m : EntryMem}

/-- While a handler holds the lock, the others neither hold it nor read. -/
theorem Apart.alone (h : Apart lier handlers kv s) (ht : (s.place t).Holding) (u : ι) (hu : u ≠ t) :
    ¬ (s.place u).Reading ∧ ¬ (s.place u).Holding :=
  ⟨fun hr => h.excluded u t hr ht, fun hh => hu (h.one u t hh ht)⟩

/-- When nobody holds the lock, nobody is just writing. -/
theorem Apart.vintage (h : Apart lier handlers kv s) (hnone : ∀ u, ¬ (s.place u).Holding) :
    Vintage handlers kv ⟨s.shared.keyval.value, s.shared.keyval.vno⟩ :=
  h.whole fun u hu => hnone u (Or.inr hu)

variable [DecidableEq ι]

/-- What is to be shown when handler `t` goes to `p` and leaves the memory `m`. -/
theorem Apart.update (h : Apart lier handlers kv s)
    (hread : p.Reading → ∀ u, u ≠ t → ¬ (s.place u).Holding)
    (hhold : p.Holding → ∀ u, u ≠ t → ¬ (s.place u).Reading ∧ ¬ (s.place u).Holding)
    (hlocked : p.Holding → m.keyval.lock ≠ 0)
    (hlocks : ∀ u, u ≠ t → (s.place u).Holding → m.keyval.lock ≠ 0)
    (hcounted : m.keyval.numGetters = number HandlerPc.Reading (Function.update s.place t p) -
      number HandlerPc.Refused (Function.update s.place t p))
    (hkey : m.keyval.key = s.shared.keyval.key)
    (hwhole : p.role ≠ .writing → (∀ u, u ≠ t → (s.place u).role ≠ .writing) →
      Vintage handlers kv ⟨m.keyval.value, m.keyval.vno⟩)
    (hknows : p.Knows handlers kv m.keyval t)
    (hothers : ∀ u, u ≠ t → (s.place u).Knows handlers kv m.keyval u)
    (hreplies : ∀ msg ∈ m.replies, ∃ u, Vintage handlers kv u ∧ msg = getResMsg lier kv.key u) :
    Apart lier handlers kv ⟨m, Function.update s.place t p⟩ where
  excluded := excluded_update h.excluded hread fun hh u hu => (hhold hh u hu).1
  replies := hreplies
  locked := (Function.forall_update_iff s.place fun _ q => q.Holding → m.keyval.lock ≠ 0).mpr
    ⟨hlocked, hlocks⟩
  one := atMostOne_update h.one fun hh u hu => (hhold hh u hu).2
  counted := hcounted
  key := hkey.trans h.key
  whole hnone := by
    obtain ⟨hp, hothers⟩ := (Function.forall_update_iff s.place fun _ q => q.role ≠ .writing).mp hnone
    exact hwhole hp hothers
  knows := (Function.forall_update_iff s.place fun u q => q.Knows handlers kv m.keyval u).mpr
    ⟨hknows, hothers⟩

/-- A handler moves in its role, and the entry is the same. -/
theorem Apart.move (h : Apart lier handlers kv s) (hrole : p.role = (s.place t).role)
    (hkeyval : m.keyval = s.shared.keyval) (hknows : p.Knows handlers kv s.shared.keyval t)
    (hreplies : ∀ msg ∈ m.replies, ∃ u, Vintage handlers kv u ∧ msg = getResMsg lier kv.key u) :
    Apart lier handlers kv ⟨m, Function.update s.place t p⟩ := by
  have hread : p.Reading ↔ (s.place t).Reading := by
    unfold HandlerPc.Reading
    rw [hrole]
  have hhold : p.Holding ↔ (s.place t).Holding := by
    unfold HandlerPc.Holding
    rw [hrole]
  have hrefused : p.Refused ↔ (s.place t).Refused := by
    unfold HandlerPc.Refused
    rw [hrole]
  rw [← hkeyval] at hknows
  refine h.update (fun hr u _ => h.excluded t u (hread.mp hr)) (fun hh => h.alone (hhold.mp hh))
    (fun hh => ?_) (fun u _ hh => ?_) ?_ (by rw [hkeyval]) (fun hp hnone => ?_) hknows
    (fun u _ => ?_) hreplies
  · rw [hkeyval]
    exact h.locked t (hhold.mp hh)
  · rw [hkeyval]
    exact h.locked u hh
  · rw [number_move hread, number_move hrefused, hkeyval]
    exact h.counted
  · rw [hkeyval]
    refine h.whole fun u => ?_
    by_cases hu : u = t
    · rwa [hu, ← hrole]
    · exact hnone u hu
  · rw [hkeyval]
    exact h.knows u

/-- A `GET` raises the counter of an entry that is not locked. -/
theorem Apart.incrGetters (h : Apart lier handlers kv s) (ht : s.place t = .incrGetters)
    (hfree : s.shared.keyval.lock = 0) :
    Apart lier handlers kv
      ⟨{ s.shared with keyval.numGetters := s.shared.keyval.numGetters + 1 },
        Function.update s.place t .copyVno⟩ := by
  have hnobody : ∀ u, ¬ (s.place u).Holding := fun u hu => h.locked u hu hfree
  have hrole : (s.place t).role = .outside := by rw [ht]; rfl
  have hnot : ¬ HandlerPc.copyVno.Holding := HandlerPc.not_holding (r := .reading) rfl
  refine h.update (fun _ u _ => hnobody u) (fun hh => absurd hh hnot) (fun hh => absurd hh hnot)
    (fun u _ hh => absurd hh (hnobody u)) ?_ rfl (fun _ _ => h.vintage hnobody) trivial
    (fun u _ => h.knows u) h.replies
  have hrefused : HandlerPc.copyVno.Refused ↔ (s.place t).Refused :=
    iff_of_false (HandlerPc.not_refused (r := .reading) rfl) (HandlerPc.not_refused hrole)
  have hread : HandlerPc.copyVno.Reading := rfl
  rw [number_enter hread (HandlerPc.not_reading hrole), number_move hrefused]
  have hcounted := h.counted
  show s.shared.keyval.numGetters + 1 = _
  push_cast
  omega

/-- A `GET` that has replied lowers the counter that it has raised. -/
theorem Apart.decrGetters (h : Apart lier handlers kv s) (ht : s.place t = .decrGetters) :
    Apart lier handlers kv
      ⟨{ s.shared with keyval.numGetters := s.shared.keyval.numGetters - 1 },
        Function.update s.place t .answered⟩ := by
  have hrole : (s.place t).role = .reading := by rw [ht]; rfl
  have hnot : ¬ HandlerPc.answered.Holding := HandlerPc.not_holding (r := .outside) rfl
  have hnotR : ¬ HandlerPc.answered.Reading := HandlerPc.not_reading (r := .outside) rfl
  refine h.update (fun hr => absurd hr hnotR) (fun hh => absurd hh hnot) (fun hh => absurd hh hnot)
    (fun u _ hh => h.locked u hh) ?_ rfl (fun _ _ => h.vintage fun u => h.excluded t u hrole) trivial
    (fun u _ => h.knows u) h.replies
  have hrefused : HandlerPc.answered.Refused ↔ (s.place t).Refused :=
    iff_of_false (HandlerPc.not_refused (r := .outside) rfl) (HandlerPc.not_refused hrole)
  rw [number_move hrefused]
  have hread : (s.place t).Reading := hrole
  have hleave := number_leave hnotR hread
  have hcounted := h.counted
  show s.shared.keyval.numGetters - 1 = _
  omega

/-- A `GET` that has found the entry locked lowers a counter that it has not raised. -/
theorem Apart.decrRefused (h : Apart lier handlers kv s) (ht : s.place t = .decrRefused) :
    Apart lier handlers kv
      ⟨{ s.shared with keyval.numGetters := s.shared.keyval.numGetters - 1 },
        Function.update s.place t .refused⟩ := by
  have hrole : (s.place t).role = .outside := by rw [ht]; rfl
  have hnot : ¬ HandlerPc.refused.Holding := HandlerPc.not_holding (r := .refused) rfl
  have hnotR : ¬ HandlerPc.refused.Reading := HandlerPc.not_reading (r := .refused) rfl
  refine h.update (fun hr => absurd hr hnotR) (fun hh => absurd hh hnot) (fun hh => absurd hh hnot)
    (fun u _ hh => h.locked u hh) ?_ rfl (fun _ hnone => h.whole fun u => ?_) trivial
    (fun u _ => h.knows u) h.replies
  · have hrefused : HandlerPc.refused.Refused := rfl
    rw [number_enter hrefused (HandlerPc.not_refused hrole),
      number_move (iff_of_false hnotR (HandlerPc.not_reading hrole))]
    have hcounted := h.counted
    show s.shared.keyval.numGetters - 1 = _
    push_cast
    omega
  · by_cases hu : u = t
    · rw [hu, hrole]
      decide
    · exact hnone u hu

/-- A `PUT` sets the lock of an entry that nobody reads or holds. -/
theorem Apart.setLock (h : Apart lier handlers kv s) (resMsg : List Char) (hfree : s.shared.keyval.lock = 0)
    (hget : s.shared.keyval.numGetters = 0) (hrefused : ∀ u, ¬ (s.place u).Refused) :
    Apart lier handlers kv ⟨{ s.shared with keyval.lock := 1 },
      Function.update s.place t (.sendVote resMsg)⟩ := by
  have hnobody : ∀ u, ¬ (s.place u).Holding := fun u hu => h.locked u hu hfree
  have hnoReader : ∀ u, ¬ (s.place u).Reading := by
    refine number_eq_zero.mp ?_
    have hcounted := h.counted
    rw [hget, number_eq_zero.mpr hrefused] at hcounted
    omega
  have hnotR : ¬ (HandlerPc.sendVote resMsg).Reading := HandlerPc.not_reading (r := .holding) rfl
  have hnotF : ¬ (HandlerPc.sendVote resMsg).Refused := HandlerPc.not_refused (r := .holding) rfl
  refine h.update (fun hr => absurd hr hnotR) (fun _ u _ => ⟨hnoReader u, hnobody u⟩)
    (fun _ => one_ne_zero) (fun _ _ _ => one_ne_zero) ?_ rfl (fun _ _ => h.vintage hnobody) trivial
    (fun u _ => h.knows u) h.replies
  rw [number_move (iff_of_false hnotR (hnoReader t)), number_move (iff_of_false hnotF (hrefused t))]
  exact h.counted

/-- A step of the holder that leaves `lock` and `numGetters` alone. -/
theorem Apart.write (h : Apart lier handlers kv s) (ht : (s.place t).Holding) (hp : p.Holding)
    (hlock : m.keyval.lock = s.shared.keyval.lock)
    (hget : m.keyval.numGetters = s.shared.keyval.numGetters)
    (hkey : m.keyval.key = s.shared.keyval.key) (hrep : m.replies = s.shared.replies)
    (hwhole : p.role ≠ .writing → Vintage handlers kv ⟨m.keyval.value, m.keyval.vno⟩)
    (hknows : p.Knows handlers kv m.keyval t) :
    Apart lier handlers kv ⟨m, Function.update s.place t p⟩ := by
  have hnotR : ∀ {q : HandlerPc}, q.Holding → ¬ q.Reading :=
    fun hh hr => absurd hh (HandlerPc.not_holding hr)
  have hnotF : ∀ {q : HandlerPc}, q.Holding → ¬ q.Refused :=
    fun hh hr => absurd hh (HandlerPc.not_holding hr)
  refine h.update (fun hr => absurd hr (hnotR hp)) (fun _ => h.alone ht) (fun _ => ?_)
    (fun u _ hh => ?_) ?_ hkey (fun hw _ => hwhole hw) hknows
    (fun u hu => (h.knows u).of_outside (h.alone ht u hu).1 (h.alone ht u hu).2) ?_
  · rw [hlock]
    exact h.locked t ht
  · rw [hlock]
    exact h.locked u hh
  · rw [number_move (iff_of_false (hnotR hp) (hnotR ht)),
      number_move (iff_of_false (hnotF hp) (hnotF ht)), hget]
    exact h.counted
  · rw [hrep]
    exact h.replies

/-- A `PUT` releases the lock. -/
theorem Apart.release (h : Apart lier handlers kv s) (ht : s.place t = .release) :
    Apart lier handlers kv ⟨{ s.shared with keyval.lock := 0 },
      Function.update s.place t .finished⟩ := by
  have hrole : (s.place t).role = .holding := by rw [ht]; rfl
  have hhold : (s.place t).Holding := Or.inl hrole
  have hnot : ¬ HandlerPc.finished.Holding := HandlerPc.not_holding (r := .outside) rfl
  have hnotR : ¬ HandlerPc.finished.Reading := HandlerPc.not_reading (r := .outside) rfl
  have hnotF : ¬ HandlerPc.finished.Refused := HandlerPc.not_refused (r := .outside) rfl
  refine h.update (fun hr => absurd hr hnotR) (fun hh => absurd hh hnot) (fun hh => absurd hh hnot)
    (fun u hu hh => absurd hh (h.alone hhold u hu).2) ?_ rfl (fun _ hnone => h.whole fun u => ?_) trivial
    (fun u _ => h.knows u) h.replies
  · rw [number_move (iff_of_false hnotR (HandlerPc.not_reading hrole)),
      number_move (iff_of_false hnotF (HandlerPc.not_refused hrole))]
    exact h.counted
  · by_cases hu : u = t
    · rw [hu, hrole]
      decide
    · exact hnone u hu

theorem Apart.step (h : Apart lier handlers kv s) (hok : StillFree s t)
    (hstep : threadStep (fun t => handlerStep lier (handlers t)) s t = some s') :
    Apart lier handlers kv s' := by
  obtain ⟨m, p, hcode, rfl⟩ := threadStep_eq_some.mp hstep
  have hknows := h.knows t
  have hok : (s.place t).StillFree s := hok
  cases ht : s.place t with
  | testLock =>
    rw [ht] at hcode
    obtain ⟨rfl, rfl⟩ := Prod.mk.inj (Option.some.inj hcode)
    by_cases hfree : s.shared.keyval.lock = 0
    · rw [if_pos hfree]
      exact h.move (by rw [ht]; rfl) rfl trivial h.replies
    · rw [if_neg hfree]
      exact h.move (by rw [ht]; rfl) rfl trivial h.replies
  | incrGetters =>
    rw [ht] at hcode hok
    obtain ⟨rfl, rfl⟩ := Prod.mk.inj (Option.some.inj hcode)
    exact h.incrGetters ht hok
  | copyVno =>
    rw [ht] at hcode
    obtain ⟨rfl, rfl⟩ := Prod.mk.inj (Option.some.inj hcode)
    exact h.move (by rw [ht]; rfl) rfl rfl h.replies
  | copyValue vno =>
    rw [ht] at hcode hknows
    obtain ⟨rfl, rfl⟩ := Prod.mk.inj (Option.some.inj hcode)
    -- nobody has written since the version was copied
    have hrole : (s.place t).Reading := by rw [ht]; rfl
    have hvno : vno = s.shared.keyval.vno := hknows
    have hvintage := h.vintage fun u => h.excluded t u hrole
    rw [← hvno] at hvintage
    exact h.move (by rw [ht]; rfl) rfl hvintage h.replies
  | sendReply vno value =>
    rw [ht] at hcode hknows
    obtain ⟨rfl, rfl⟩ := Prod.mk.inj (Option.some.inj hcode)
    refine h.move (by rw [ht]; rfl) rfl trivial fun msg hmsg => ?_
    rcases List.mem_append.mp hmsg with hold | hnew
    · exact h.replies msg hold
    · refine ⟨⟨value, vno⟩, hknows, ?_⟩
      rw [List.mem_singleton.mp hnew, h.key]
  | decrGetters =>
    rw [ht] at hcode
    obtain ⟨rfl, rfl⟩ := Prod.mk.inj (Option.some.inj hcode)
    exact h.decrGetters ht
  | decrRefused =>
    rw [ht] at hcode
    obtain ⟨rfl, rfl⟩ := Prod.mk.inj (Option.some.inj hcode)
    exact h.decrRefused ht
  | voteVno =>
    rw [ht] at hcode
    obtain ⟨rfl, rfl⟩ := Prod.mk.inj (Option.some.inj hcode)
    exact h.move (by rw [ht]; rfl) rfl trivial h.replies
  | voteValue vno =>
    rw [ht] at hcode
    obtain ⟨rfl, rfl⟩ := Prod.mk.inj (Option.some.inj hcode)
    exact h.move (by rw [ht]; rfl) rfl trivial h.replies
  | testFree resMsg =>
    rw [ht] at hcode
    obtain ⟨rfl, rfl⟩ := Prod.mk.inj (Option.some.inj hcode)
    by_cases hfree : s.shared.keyval.lock = 0
    · rw [if_pos hfree]
      exact h.move (by rw [ht]; rfl) rfl trivial h.replies
    · rw [if_neg hfree]
      exact h.move (by rw [ht]; rfl) rfl trivial h.replies
  | testGetters resMsg =>
    rw [ht] at hcode
    obtain ⟨rfl, rfl⟩ := Prod.mk.inj (Option.some.inj hcode)
    by_cases hfree : s.shared.keyval.numGetters = 0
    · rw [if_pos hfree]
      exact h.move (by rw [ht]; rfl) rfl trivial h.replies
    · rw [if_neg hfree]
      exact h.move (by rw [ht]; rfl) rfl trivial h.replies
  | setLock resMsg =>
    rw [ht] at hcode hok
    obtain ⟨rfl, rfl⟩ := Prod.mk.inj (Option.some.inj hcode)
    exact h.setLock resMsg hok.1 hok.2.1 hok.2.2
  | sendVote resMsg =>
    rw [ht] at hcode
    obtain ⟨rfl, rfl⟩ := Prod.mk.inj (Option.some.inj hcode)
    exact h.move (by rw [ht]; rfl) rfl trivial h.replies
  | recvUpdate =>
    rw [ht] at hcode
    obtain ⟨rfl, rfl⟩ := Prod.mk.inj (Option.some.inj hcode)
    cases hupdate : (handlers t).update with
    | none => exact h.move (by rw [ht]; rfl) rfl trivial h.replies
    | some update => exact h.move (by rw [ht]; rfl) rfl hupdate h.replies
  | testLocked update =>
    rw [ht] at hcode hknows
    obtain ⟨rfl, rfl⟩ := Prod.mk.inj (Option.some.inj hcode)
    by_cases hfree : s.shared.keyval.lock = 0
    · rw [if_pos hfree]
      exact h.move (by rw [ht]; rfl) rfl trivial h.replies
    · rw [if_neg hfree]
      exact h.move (by rw [ht]; rfl) rfl hknows h.replies
  | writeValue update =>
    rw [ht] at hcode hknows
    simp only [handlerStep] at hcode
    split at hcode
    · obtain ⟨rfl, rfl⟩ := Prod.mk.inj (Option.some.inj hcode)
      have hhold : (s.place t).Holding := by rw [ht]; exact Or.inl rfl
      exact h.write hhold (Or.inr rfl) rfl rfl rfl rfl (fun hw => absurd rfl hw) ⟨hknows, rfl⟩
    · cases hcode
  | writeVno update =>
    rw [ht] at hcode hknows
    obtain ⟨rfl, rfl⟩ := Prod.mk.inj (Option.some.inj hcode)
    have hhold : (s.place t).Holding := by rw [ht]; exact Or.inr rfl
    refine h.write hhold (Or.inl rfl) rfl rfl rfl rfl (fun _ => Or.inr ⟨t, ?_⟩) trivial
    show (handlers t).update = some ⟨s.shared.keyval.value, update.vno⟩
    rw [hknows.1, hknows.2]
  | release =>
    rw [ht] at hcode
    obtain ⟨rfl, rfl⟩ := Prod.mk.inj (Option.some.inj hcode)
    exact h.release ht
  | answered =>
    rw [ht] at hcode
    cases hcode
  | refused =>
    rw [ht] at hcode
    cases hcode
  | denied =>
    rw [ht] at hcode
    cases hcode
  | finished =>
    rw [ht] at hcode
    cases hcode

end Steps

/-! ## Runs -/

theorem apart_start [Fintype ι] (lier : ℤ) (handlers : ι → Handler) (kv : KeyVal) :
    Apart lier handlers kv (handlersStart handlers kv) := by
  have hrole : ∀ t, ((handlersStart handlers kv).place t).role = .outside := by
    intro t
    show (handlers t).start.role = .outside
    cases handlers t <;> rfl
  exact
    { excluded := fun t _ hr => absurd hr (HandlerPc.not_reading (hrole t))
      replies := fun msg hmsg => absurd hmsg (List.not_mem_nil)
      locked := fun t hh => absurd hh (HandlerPc.not_holding (hrole t))
      one := fun t _ hh => absurd hh (HandlerPc.not_holding (hrole t))
      counted := by
        rw [number_eq_zero.mpr fun t => HandlerPc.not_reading (hrole t),
          number_eq_zero.mpr fun t => HandlerPc.not_refused (hrole t)]
        rfl
      key := rfl
      whole := fun _ => Or.inl rfl
      knows := fun t => by
        show (handlers t).start.Knows handlers kv _ t
        cases handlers t <;> exact trivial }

/-- In every interleaving of any number of handlers on one entry, readers and the writer exclude each
other, as long as what a handler has tested still holds when it acts, and no refused `GET` has lowered
the counter of the readers. -/
theorem readers_exclude_writer [Fintype ι] [DecidableEq ι] (lier : ℤ) (handlers : ι → Handler)
    (kv : KeyVal) (schedule : List ι)
    (hok : Each (threadStep fun t => handlerStep lier (handlers t)) StillFree
      (handlersStart handlers kv) schedule) :
    Always (threadStep fun t => handlerStep lier (handlers t))
      (ReadersExcludeWriter lier handlers kv) (handlersStart handlers kv) schedule :=
  (always_of_each (apart_start lier handlers kv) (fun _ _ _ h hok => h.step hok) hok).imp
    fun _ h => h.toReadersExcludeWriter

/-- A `GET` and a `PUT` of the value `w` with version 2. -/
def getAndPut : Bool → Handler
  | false => .get
  | true => .put (some ⟨"w".toList, 2⟩)

/-- The entry that `main` puts into the table. -/
def key1 : KeyVal := entry initTable 0

theorem readers_exclude_writer_getFirst :
    Always (threadStep fun t => handlerStep 0 (getAndPut t)) (ReadersExcludeWriter 0 getAndPut key1)
      (handlersStart getAndPut key1) (List.replicate 6 false ++ List.replicate 11 true) :=
  readers_exclude_writer 0 getAndPut key1 _ (by decide)

/-- The `GET` tests the entry before the `PUT` locks it, and reads it between the two writes. -/
def lockedBetween : List Bool :=
  [true, true, false, true, true, true, false, false, true, true, true, true, false, false]

/-- The `GET` finds the entry unlocked, the `PUT` locks it, and the `GET` reads it while it is written:
the reply has the old version and the new value. -/
theorem not_readers_exclude_writer_lockedBetween :
    (run (threadStep fun t => handlerStep 0 (getAndPut t)) (handlersStart getAndPut key1) lockedBetween).map
        (fun s => s.shared.replies) = some [getResMsg 0 key1.key ⟨"w".toList, 1⟩] ∧
      ¬ Vintage getAndPut key1 ⟨"w".toList, 1⟩ ∧
      ¬ Always (threadStep fun t => handlerStep 0 (getAndPut t))
        (ReadersExcludeWriter 0 getAndPut key1) (handlersStart getAndPut key1) lockedBetween := by
  refine ⟨by decide, ?_, fun h => ?_⟩
  · rintro (heq | ⟨t, ht⟩)
    · exact absurd heq (by decide)
    · cases t <;> exact absurd ht (by decide)
  · have hapart : Always (threadStep fun t => handlerStep 0 (getAndPut t))
        (fun s => ¬ ((s.place false).Reading ∧ (s.place true).Holding))
        (handlersStart getAndPut key1) lockedBetween :=
      h.imp fun s hs hboth => hs.excluded false true hboth.1 hboth.2
    exact absurd hapart (by decide)

end QuorumLogFs.Vote
