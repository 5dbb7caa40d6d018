import QuorumLogFs.Vote.Versions
import QuorumLogFs.Vote.ReaderCount

/-!
# Keys that are refused

Reference: `Server.c`, `getResponse` and `putResponse`.

A `GET` that finds its entry locked lowers `numGetters` without having raised it, and nothing ever makes up
for that. `putResponse` locks an entry only while the counter is zero, so from then on it refuses every
`PUT` of the key, except in moments when as many `GET`s are being answered as have met the lock. When
this has happened at more servers than a write quorum can do without, the key cannot be written any more.
-/

namespace QuorumLogFs.Vote

open QuorumLogFs.Basis

/-- A `GET` that finds slot `i` locked. -/
def GetFindsLocked (i : ℕ) (s : ServerState) : Event → Prop
  | .accept msg loc => readMsgType msg loc.msgType = "GET".toList ∧
      searchKey (readKey msg loc.key) s.table = some i ∧ (entry s.table i).lock ≠ 0
  | _ => False

instance (i : ℕ) (s : ServerState) : (e : Event) → Decidable (GetFindsLocked i s e)
  | .accept _ _ => inferInstanceAs (Decidable (_ ∧ _))
  | .sent _ => isFalse id
  | .recv _ _ _ => isFalse id

/-- By how much the counter of slot `i` is too low. -/
def missingReaders (s : ServerState) (i : ℕ) : ℤ := readers s i - (entry s.table i).numGetters

/-- Readers are registered on slots of the table. -/
def ReadersInTable (s : ServerState) : Prop := ∀ i, Session.reading i ∈ s.sessions → i < s.table.length

variable {lier : ℤ} {y y' : ServerState} {ev : Event} {t : Table} {i j sess : ℕ} {x z : Session}
  {key msg : List Char} {loc : Locals}

/-! ## One event -/

theorem missingReaders_init (i : ℕ) : missingReaders .init i = 0 := by
  rcases i with _ | i <;> rfl

theorem readersInTable_init : ReadersInTable .init := by
  intro i h
  cases h

theorem missingReaders_of_same (hget : (entry y'.table i).numGetters = (entry y.table i).numGetters)
    (hread : readers y' i = readers y i) : missingReaders y' i = missingReaders y i := by
  rw [missingReaders, missingReaders, hget, hread]

/-- A session that is not a reader comes or goes, and the counters stay. -/
theorem ReadersInTable.of_same (h : ReadersInTable y) (hread : ∀ i, readers y' i = readers y i)
    (hlen : y.table.length ≤ y'.table.length) : ReadersInTable y' := by
  intro i hi
  have hpos : 0 < readers y i := by
    rw [← hread]
    exact List.count_pos_iff.mpr hi
  exact (h i (List.count_pos_iff.mp hpos)).trans_le hlen

/-- An accepted connection: a `GET` that finds its entry locked makes the counter one too low. -/
theorem missingReaders_accept (h : ReadersInTable y)
    (hstep : serverStep lier y (.accept msg loc) = some y') :
    ReadersInTable y' ∧ ∀ i, missingReaders y' i =
      missingReaders y i + if GetFindsLocked i y (.accept msg loc) then 1 else 0 := by
  obtain ⟨⟨t, resp, z⟩, hresp, rfl⟩ := Option.map_eq_some_iff.mp hstep
  rcases responseServer_getters hresp with ⟨hget, k, hk, hcase⟩ | ⟨hnot, hz, hlen, hgetters⟩
  · have hlt := searchKey_lt hk
    rcases hcase with ⟨hlock, rfl, rfl⟩ | ⟨hlock, hz, rfl⟩
    · -- the thread registers
      refine ⟨fun j hj => ?_, fun j => ?_⟩
      · rw [List.length_modify]
        rcases List.mem_append.mp hj with hj | hj
        · exact h j hj
        · obtain rfl : j = k := by simpa using hj
          exact hlt
      · have hno : ¬ GetFindsLocked j y (.accept msg loc) := by
          rintro ⟨-, hj, hlockj⟩
          obtain rfl := Option.some.inj (hk.symm.trans hj)
          exact hlockj hlock
        rw [if_neg hno, add_zero, missingReaders, missingReaders]
        by_cases hjk : k = j
        · subst hjk
          simp only [entry_modify_self hlt, readers, List.count_append, List.count_singleton_self]
          push_cast
          omega
        · have hne : Session.reading k ≠ .reading j := by simpa using hjk
          simp [entry_modify_ne hjk, readers, hne]
    · refine ⟨h.of_same (readers_append_ne hz) (by rw [length_getResponseDecr]), fun j => ?_⟩
      rw [missingReaders, missingReaders, readers_append_ne hz]
      by_cases hjk : k = j
      · subst hjk
        rw [if_pos (show GetFindsLocked k y (.accept msg loc) from ⟨hget, hk, hlock⟩)]
        dsimp only
        rw [getResponseDecr, entry_modify_self hlt]
        dsimp only
        omega
      · have hno : ¬ GetFindsLocked j y (.accept msg loc) := by
          rintro ⟨-, hj, -⟩
          exact hjk (Option.some.inj (hk.symm.trans hj))
        rw [if_neg hno, add_zero]
        dsimp only
        rw [getResponseDecr, entry_modify_ne hjk]
  · refine ⟨h.of_same (readers_append_ne hz) hlen, fun j => ?_⟩
    have hno : ¬ GetFindsLocked j y (.accept msg loc) := by
      rintro ⟨hget, hj, -⟩
      exact hnot ⟨hget, by simp [hj]⟩
    rw [if_neg hno, add_zero]
    exact missingReaders_of_same (hgetters j) (readers_append_ne hz j)

/-- The `send` of a `GET` returns: its thread leaves the counter and the sessions together. -/
theorem missingReaders_sent {c : ℕ} (h : ReadersInTable y)
    (hstep : serverStep lier y (.sent c) = some y') :
    ReadersInTable y' ∧ ∀ i, missingReaders y' i = missingReaders y i := by
  simp only [serverStep] at hstep
  split at hstep
  · rename_i k hc
    obtain rfl := Option.some.inj hstep
    obtain ⟨hlt, hck⟩ := List.getElem?_eq_some_iff.mp hc
    have hmem : Session.reading k ∈ y.sessions := List.mem_of_getElem? hc
    have hpos : 0 < readers y k := List.count_pos_iff.mpr hmem
    refine ⟨fun j hj => ?_, fun j => ?_⟩
    · rw [length_getResponseDecr]
      rcases List.mem_or_eq_of_mem_set hj with hj | hj
      · exact h j hj
      · cases hj
    · rw [missingReaders, missingReaders]
      by_cases hkj : k = j
      · subst hkj
        have hcount : readers ⟨getResponseDecr k y.table, y.sessions.set c .closed⟩ k =
            readers y k - 1 := by
          simp [readers, List.count_set, hlt, hck]
        rw [hcount, getResponseDecr, entry_modify_self (h k hmem)]
        dsimp only
        omega
      · have hne : Session.reading k ≠ .reading j := by simpa using hkj
        have hcount : readers ⟨getResponseDecr k y.table, y.sessions.set c .closed⟩ j =
            readers y j := by
          simp [readers, List.count_set, hlt, hck, hne]
        rw [hcount, getResponseDecr, entry_modify_ne hkj]
  · cases hstep

/-- A `recvTimeout` of a `PUT` returns: readers and counters stay. -/
theorem missingReaders_recv {c : ℕ} {msg : Option (List Char)} (h : ReadersInTable y)
    (hstep : serverStep lier y (.recv c msg loc) = some y') :
    ReadersInTable y' ∧ ∀ i, missingReaders y' i = missingReaders y i := by
  rcases serverStep_recv_cases hstep with ⟨k, slot, t, sent, keyNew, hc, hr, rfl⟩ |
    ⟨k, keyNew, slot, t, hc, hr, rfl⟩
  · obtain ⟨hgetters, hlen⟩ := putResponseUpdate_getters hr
    have hread := fun x hx => readers_set_ne (t := t) (y := x) hc (by simp) hx
    cases keyNew with
    | none =>
      exact ⟨h.of_same (hread _ (by simp)) hlen.ge, fun j =>
        missingReaders_of_same (hgetters j) (hread _ (by simp) j)⟩
    | some keyNew =>
      exact ⟨h.of_same (hread _ (by simp)) hlen.ge, fun j =>
        missingReaders_of_same (hgetters j) (hread _ (by simp) j)⟩
  · obtain ⟨hgetters, hlen⟩ := putResponseRelease_getters hr
    have hread := readers_set_ne (t := t) (y := .closed) hc (by simp) (by simp)
    exact ⟨h.of_same hread hlen.ge, fun j => missingReaders_of_same (hgetters j) (hread j)⟩

theorem missingReaders_step (h : ReadersInTable y) (hstep : serverStep lier y ev = some y') :
    ReadersInTable y' ∧ ∀ i, missingReaders y' i =
      missingReaders y i + if GetFindsLocked i y ev then 1 else 0 := by
  have hkept : (∀ i, ¬ GetFindsLocked i y ev) →
      ReadersInTable y' ∧ (∀ i, missingReaders y' i = missingReaders y i) →
        ReadersInTable y' ∧ ∀ i, missingReaders y' i =
          missingReaders y i + if GetFindsLocked i y ev then 1 else 0 := by
    rintro hno ⟨hreaders, hsame⟩
    exact ⟨hreaders, fun i => by rw [hsame i, if_neg (hno i), add_zero]⟩
  cases ev with
  | accept msg loc => exact missingReaders_accept h hstep
  | sent c => exact hkept (fun _ => id) (missingReaders_sent h hstep)
  | recv c msg loc => exact hkept (fun _ => id) (missingReaders_recv h hstep)

/-! ## Runs of a server -/

/-- The counter lacks one reader for every `GET` that has found the entry locked. -/
theorem missingReaders_run {es : List Event} {s : ServerState}
    (hrun : run (serverStep lier) .init es = some s) (i : ℕ) :
    missingReaders s i = occurrences (serverStep lier) (GetFindsLocked i) .init es := by
  have hcount := run_count (f := fun s => missingReaders s i) readersInTable_init
    (fun _ _ _ h _ hstep => ⟨(missingReaders_step h hstep).1, (missingReaders_step h hstep).2 i⟩)
    (each_true _ _) hrun
  rw [hcount, missingReaders_init, zero_add]

/-- Server `i` has lowered the counter of the key more often than it has raised it. -/
def Refuses (s : Network) (key : Word) (i : ℕ) : Prop :=
  ∃ slot ∈ searchKey key.chars (s.servers i).table, 0 < missingReaders (s.servers i) slot

/-- Client `c` does not reach one of these servers while a `GET` is being answered from the entry of the
key there. -/
def ComesAlone (B : Finset ℕ) (key : Word) (c : ℕ) (s : Network) : NetEvent → Prop
  | .contact d i _ => d = c → i ∈ B →
      ∀ slot ∈ searchKey key.chars (s.servers i).table, readers (s.servers i) slot = 0
  | _ => True

instance (s : Network) (key : Word) (i : ℕ) : Decidable (Refuses s key i) :=
  inferInstanceAs (Decidable (∃ slot ∈ searchKey key.chars (s.servers i).table, _))

instance (B : Finset ℕ) (key : Word) (c : ℕ) (s : Network) :
    (e : NetEvent) → Decidable (ComesAlone B key c s e)
  | .contact d i _ => inferInstanceAs (Decidable (d = c → i ∈ B →
      ∀ slot ∈ searchKey key.chars (s.servers i).table, _))
  | .hear _ _ => isTrue trivial
  | .decide _ => isTrue trivial
  | .deliver _ _ _ => isTrue trivial
  | .drop _ _ _ => isTrue trivial
  | .sent _ _ => isTrue trivial

/-- What the steps keep of the counters and of the replies that clients count. -/
structure Watched (q : Quorums) (callers : ℕ → Caller) (s : Network) : Prop where
  linked : Linked callers s
  slots : ∀ i, ReadersInTable (s.servers i)
  new : ∀ {c i}, (s.clients c).conn i = none →
    (s.clients c).inbox i = none ∧ (s.clients c).replies i = none
  quorum : ∀ {c vno}, (s.clients c).phase = .updating vno →
    q.Nw ≤ responsesG q.N (s.clients c).replies

/-- The servers of `B` refuse the key, and client `c` has heard nothing from them. -/
structure ShutOut (B : Finset ℕ) (key : Word) (c : ℕ) (s : Network) : Prop where
  refuses : ∀ i ∈ B, Refuses s key i
  inbox : ∀ i ∈ B, (s.clients c).inbox i = none
  replies : ∀ i ∈ B, (s.clients c).replies i = none
  closed : ∀ i ∈ B, ∀ x ∈ sessionAt s c i, x = .closed

section Network

variable {q : Quorums} {liers : ℕ → ℤ} {callers : ℕ → Caller} {s s' : Network} {e : NetEvent}
  {c d slot : ℕ} {k val : Word} {B : Finset ℕ}

/-- A key stays in its slot. -/
theorem searchKey_step (h : LockInv y) (hfrom : FromClient y ev)
    (hslot : searchKey k.chars y.table = some slot) (hstep : serverStep lier y ev = some y') :
    searchKey k.chars y'.table = some slot := by
  cases ev with
  | accept msg loc =>
    obtain ⟨⟨t, resp, z⟩, hresp, rfl⟩ := Option.map_eq_some_iff.mp hstep
    obtain ⟨key, val, rfl | rfl⟩ := hfrom
    · have hsearch := searchKey_getResponseSend lier k.chars (readKey (getMsg key.chars) loc.key) y.table
      obtain ⟨i, resMsg, hget, -⟩ | ⟨hget, -⟩ := responseServer_get hresp (readMsgType_getMsg _ _)
      · rwa [hget, hslot] at hsearch
      · rwa [hget, hslot] at hsearch
    · obtain ⟨i, resMsg, hvote, -⟩ | ⟨hvote, -⟩ := responseServer_put hresp (readMsgType_putMsg _ _ _)
      · exact ((putResponseVote_spec hvote).1.search _ k.isWord).trans hslot
      · exact ((putResponseVote_spec hvote).1.search _ k.isWord).trans hslot
  | sent c =>
    simp only [serverStep] at hstep
    split at hstep
    · obtain rfl := Option.some.inj hstep
      rw [← hslot, searchKey_getResponseDecr]
    · cases hstep
  | recv c msg loc =>
    rcases serverStep_recv_cases hstep with ⟨key, j, t, sent, keyNew, hc, hr, rfl⟩ |
      ⟨key, keyNew, j, t, hc, hr, rfl⟩
    · have hholds : Holds y c key j := ⟨_, hc, rfl⟩
      obtain ⟨val, vno, -, hu, -⟩ | ⟨-, rfl, -, -⟩ :=
        putResponseUpdate_fromClient hfrom hc (h.word hholds) hr
      · refine (searchKey_updateResponse hu k.chars).trans ?_
        -- the slot gets the name of the session's key, which it has unless no slot does
        rcases h.named hholds with hnamed | ⟨hnone, hnil⟩
        · rw [searchKey_rename_same (key_entry_of_searchKey hnamed), hslot]
        · rw [searchKey_rename_ne, hslot]
          · rintro rfl
            rw [hslot] at hnone
            cases hnone
          · rw [hnil]
            exact k.isWord.1
      · exact (searchKey_releaselockResponse k.chars key y.table).trans hslot
    · obtain ⟨-, rfl⟩ | ⟨-, rfl⟩ := putResponseRelease_cases hr
      · exact (searchKey_releaselockResponse k.chars keyNew y.table).trans hslot
      · exact (searchKey_releaselockResponse k.chars key y.table).trans hslot

/-- A counter that is too low stays so. -/
theorem refuses_step (h : LockInv y) (hreaders : ReadersInTable y) (hfrom : FromClient y ev)
    (hstep : serverStep lier y ev = some y')
    (hrefuses : ∃ slot ∈ searchKey k.chars y.table, 0 < missingReaders y slot) :
    ∃ slot ∈ searchKey k.chars y'.table, 0 < missingReaders y' slot := by
  obtain ⟨slot, hslot, hpos⟩ := hrefuses
  refine ⟨slot, searchKey_step h hfrom hslot hstep, ?_⟩
  rw [(missingReaders_step hreaders hstep).2 slot]
  split <;> omega

/-- A `PUT` that finds the counter below zero gets no answer, and its session ends. -/
theorem accept_refused (hslot : searchKey k.chars y.table = some slot)
    (hcount : (entry y.table slot).numGetters ≠ 0)
    (hstep : serverStep lier y (.accept (putMsg k.chars val.chars) loc) = some y') :
    serverSends lier y (.accept (putMsg k.chars val.chars) loc) = none ∧
      y'.sessions = y.sessions ++ [.closed] := by
  have hresponse : responseServer lier loc (putMsg k.chars val.chars) y.table =
      some (y.table, none, .closed) := by
    rw [responseServer_putMsg lier loc k.isWord val.isWord k.fits_key val.fits_val]
    simp only [putResponseVote, hslot, grantVote, if_neg fun h : _ ∧ _ => hcount h.2]
  simp only [serverStep, hresponse, Option.map_some, Option.some.injEq] at hstep
  rw [serverSends, hresponse, ← hstep]
  exact ⟨rfl, rfl⟩

/-- A `PUT` goes on to its second round with its quorum only. -/
theorem quorum_of_decide {r : Caller} {replies : ℕ → Option (List Char)} {vno : ℤ}
    (h : r.decide q replies = some (.updating vno)) : q.Nw ≤ responsesG q.N replies := by
  unfold Caller.decide at h
  split at h
  · split at h
    · cases h
    · cases h
  · by_contra hlt
    rw [connectThreadPut, if_pos (not_le.mp hlt)] at h
    cases h

theorem watched_init : Watched q callers .init where
  linked := linked_init
  slots _ := readersInTable_init
  new _ := ⟨rfl, rfl⟩
  quorum h := by cases h

theorem Watched.serve (h : Watched q callers s)
    (hm : Meets q callers s c i e sess ev) (hfree : AbsentKeyIsFree (s.servers i) ev)
    (hs : Served liers s s' c i sess ev) : Watched q callers s' := by
  refine ⟨h.linked.serve hm hfree hs, fun j => ?_, fun {d j} hconn => ?_, fun {d vno} hphase => ?_⟩
  · by_cases hj : j = i
    · rw [hj]
      exact (missingReaders_step (h.slots i) hs.step).1
    · rw [hs.server j hj]
      exact h.slots j
  · rw [hs.conn] at hconn
    split at hconn
    · cases hconn
    · rename_i hne
      rw [hs.inbox, if_neg hne, hs.replies]
      exact h.new hconn
  · rw [hs.phase] at hphase
    rw [hs.replies]
    exact h.quorum hphase

/-- Each step keeps what is watched. -/
theorem Watched.step (h : Watched q callers s) (hfree : AbsentKeysFree callers s e)
    (hstep : netStep q liers callers s e = some s') : Watched q callers s' := by
  have hlinked := h.linked.step s e s' hfree hstep
  rcases netStep_cases hstep with ⟨c, i, sess, ev, hm, hserve⟩ | ⟨c, i, m, -, hphase, hm, rfl⟩ |
    ⟨c, p, -, hphase, hp, rfl⟩
  · exact h.serve hm (hm.absentKeyIsFree hfree) (served_of_serve hserve)
  · refine ⟨hlinked, h.slots, fun {d j} hconn => ?_, fun {d vno} hd => ?_⟩
    · by_cases hdc : d = c
      · subst hdc
        rw [clients_setClient_self] at hconn ⊢
        have hji : j ≠ i := by
          rintro rfl
          rw [(h.new hconn).1] at hm
          cases hm
        simp only [Function.update_of_ne hji]
        exact h.new hconn
      · rw [clients_setClient_of_ne _ _ hdc] at hconn ⊢
        exact h.new hconn
    · by_cases hdc : d = c
      · subst hdc
        rw [clients_setClient_self] at hd
        cases hphase.symm.trans hd
      · rw [clients_setClient_of_ne _ _ hdc] at hd ⊢
        exact h.quorum hd
  · refine ⟨hlinked, h.slots, fun {d j} hconn => ?_, fun {d vno} hd => ?_⟩
    · by_cases hdc : d = c
      · subst hdc
        rw [clients_setClient_self] at hconn ⊢
        exact h.new hconn
      · rw [clients_setClient_of_ne _ _ hdc] at hconn ⊢
        exact h.new hconn
    · by_cases hdc : d = c
      · subst hdc
        rw [clients_setClient_self] at hd ⊢
        obtain rfl : p = .updating vno := hd
        exact quorum_of_decide hp
      · rw [clients_setClient_of_ne _ _ hdc] at hd ⊢
        exact h.quorum hd

/-- What happens on the connection of a client that is shut out: the server refuses its `PUT`, and after
that nothing more. -/
theorem ShutOut.own (h : ShutOut B k c s) (hr : (callers c).request = .put k val)
    (halone : ComesAlone B k c s e) (hi : i ∈ B)
    (hm : Meets q callers s c i e sess ev) (hs : Served liers s s' c i sess ev) :
    serverSends (liers i) (s.servers i) ev = none ∧ ∀ x ∈ sessionAt s' c i, x = .closed := by
  have hstep := hs.step
  have hconn : (s'.clients c).conn i = some sess := by
    rw [hs.conn, if_pos ⟨rfl, rfl⟩]
  -- a session that has ended takes no more events
  have hended : ∀ {sess : ℕ}, (s.clients c).conn i = some sess →
      ∀ x, (s.servers i).sessions[sess]? = some x → x = .closed := by
    intro sess hc x hx
    refine h.closed i hi x ?_
    rw [sessionAt, hc, Option.bind_some, hx, Option.mem_some_iff]
  cases hm with
  | contact loc hiN hnew =>
    obtain ⟨slot, hslot, hpos⟩ := h.refuses i hi
    have hreaders := halone rfl hi slot hslot
    have hcount : (entry (s.servers i).table slot).numGetters ≠ 0 := by
      rw [missingReaders, hreaders] at hpos
      omega
    rw [hr] at hstep ⊢
    obtain ⟨hsends, hsessions⟩ := accept_refused hslot hcount hstep
    refine ⟨hsends, fun x hx => ?_⟩
    rw [sessionAt, hconn, Option.bind_some, hsessions, List.getElem?_append_right le_rfl,
      Nat.sub_self] at hx
    exact (Option.some.inj hx).symm
  | deliver loc hc hy hmsg =>
    rw [hended hc _ hy] at hmsg
    cases hmsg
  | drop loc hc =>
    simp only [serverStep] at hstep
    split at hstep
    · rename_i hx
      cases hended hc _ hx
    · rename_i hx
      cases hended hc _ hx
    · cases hstep
  | sent hc =>
    simp only [serverStep] at hstep
    split at hstep
    · rename_i hx
      cases hended hc _ hx
    · cases hstep

/-- A client that is shut out stays so. -/
theorem ShutOut.step (h : ShutOut B k c s) (hwatched : Watched q callers s)
    (hr : (callers c).request = .put k val) (halone : ComesAlone B k c s e)
    (hstep : netStep q liers callers s e = some s') : ShutOut B k c s' := by
  rcases netStep_cases hstep with ⟨d, i, sess, ev, hm, hserve⟩ | ⟨d, i, m, -, -, hinbox, rfl⟩ |
    ⟨d, p, -, -, -, rfl⟩
  · have hs := served_of_serve hserve
    have hown : d = c → i ∈ B → serverSends (liers i) (s.servers i) ev = none ∧
        ∀ x ∈ sessionAt s' c i, x = .closed := by
      rintro rfl hi
      exact h.own hr halone hi hm hs
    refine ⟨fun j hj => ?_, fun j hj => ?_, fun j hj => ?_, fun j hj => ?_⟩
    · by_cases hji : j = i
      · subst hji
        exact refuses_step (hwatched.linked.lock j) (hwatched.slots j) (hwatched.linked.fromClient hm)
          hs.step (h.refuses j hj)
      · unfold Refuses
        rw [hs.server j hji]
        exact h.refuses j hj
    · rw [hs.inbox]
      split
      · rename_i hcj
        obtain ⟨rfl, rfl⟩ := hcj
        rw [(hown rfl hj).1, h.inbox j hj]
        rfl
      · exact h.inbox j hj
    · rw [hs.replies]
      exact h.replies j hj
    · by_cases hcj : c = d ∧ j = i
      · obtain ⟨rfl, rfl⟩ := hcj
        exact (hown rfl hj).2
      · rw [hs.sessionAt_of_ne hwatched.linked hm hcj]
        exact h.closed j hj
  · by_cases hdc : c = d
    · subst hdc
      have hiB : ∀ j ∈ B, j ≠ i := by
        rintro j hj rfl
        rw [h.inbox j hj] at hinbox
        cases hinbox
      refine ⟨h.refuses, fun j hj => ?_, fun j hj => ?_, fun j hj => ?_⟩
      · rw [clients_setClient_self]
        exact (Function.update_of_ne (hiB j hj) ..).trans (h.inbox j hj)
      · rw [clients_setClient_self]
        exact (Function.update_of_ne (hiB j hj) ..).trans (h.replies j hj)
      · rw [sessionAt, clients_setClient_self]
        exact h.closed j hj
    · refine ⟨h.refuses, fun j hj => ?_, fun j hj => ?_, fun j hj => ?_⟩
      · rw [clients_setClient_of_ne _ _ hdc]
        exact h.inbox j hj
      · rw [clients_setClient_of_ne _ _ hdc]
        exact h.replies j hj
      · rw [sessionAt, clients_setClient_of_ne _ _ hdc]
        exact h.closed j hj
  · have hsame : ∀ j, ((s.setClient d { s.clients d with phase := p }).clients c).inbox j =
        (s.clients c).inbox j ∧
        ((s.setClient d { s.clients d with phase := p }).clients c).replies j =
          (s.clients c).replies j ∧
        sessionAt (s.setClient d { s.clients d with phase := p }) c j = sessionAt s c j := by
      intro j
      by_cases hdc : c = d
      · subst hdc
        rw [sessionAt, clients_setClient_self]
        exact ⟨rfl, rfl, rfl⟩
      · rw [sessionAt, clients_setClient_of_ne _ _ hdc]
        exact ⟨rfl, rfl, rfl⟩
    refine ⟨h.refuses, fun j hj => ?_, fun j hj => ?_, fun j hj => ?_⟩
    · exact (hsame j).1.trans (h.inbox j hj)
    · exact (hsame j).2.1.trans (h.replies j hj)
    · rw [(hsame j).2.2]
      exact h.closed j hj

/-- Servers that have not answered are missing from the responses. -/
theorem responsesG_add_card_le {N : ℕ} {replies : ℕ → Option (List Char)} (hB : B ⊆ Finset.range N)
    (hnone : ∀ i ∈ B, replies i = none) : responsesG N replies + B.card ≤ N := by
  have hcount : responsesG N replies =
      ((Finset.range N).filter fun i => (replies i).isSome = true).card := by
    simpa [responsesG] using countP_range N fun i => (replies i).isSome = true
  rw [hcount]
  have hdisjoint : Disjoint ((Finset.range N).filter fun i => (replies i).isSome) B := by
    refine Finset.disjoint_left.mpr fun i hi hiB => ?_
    have hsome := (Finset.mem_filter.mp hi).2
    rw [hnone i hiB] at hsome
    cases hsome
  have hcard := Finset.card_le_card (Finset.union_subset
    (Finset.filter_subset (fun i => (replies i).isSome = true) (Finset.range N)) hB)
  rwa [Finset.card_union_of_disjoint hdisjoint, Finset.card_range] at hcard

end Network

/-- A `PUT`, a `GET` of the same key, and another `PUT` later. -/
def putGetPutAgain : ℕ → Caller
  | 1 => ⟨.get presentKey, {}⟩
  | _ => ⟨.put presentKey firstValue, {}⟩

/-- The `GET` finds the key locked at two servers, and the `PUT` that holds the locks is lost. -/
def getDuringLostPut : List NetEvent :=
  [.contact 0 0 {}, .contact 0 1 {}, .contact 1 0 {}, .contact 1 1 {}, .drop 0 0 {}, .drop 0 1 {}]

/-- No key is locked any more, and the other `PUT` reaches all three servers. -/
def putAgain : List NetEvent :=
  [.contact 2 0 {}, .contact 2 1 {}, .contact 2 2 {}, .hear 2 2, .decide 2]

end QuorumLogFs.Vote
