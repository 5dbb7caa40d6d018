import QuorumLogFs.Vote.QuorumRead
import QuorumLogFs.Vote.LockHolder

/-!
# Clients side by side

Reference: `Client.c`, `connectThread` and `connectTo`; `Server.c`, `serverThread`.

Any number of clients run against the same servers at the same time. A client opens a connection to each
server; the servers accept them in any order, refuse some, and their threads run as in `Sessions`, from one
blocking call to the next without interruption. So the tests of `lock` and `numGetters` and the changes that
follow them are one step here; `ReadersWriter` and `Getters` take them apart. The first round of a client is
over when its threads are joined, each with the reply of its server or without one; what it does next
depends on the replies it has by then. A `PUT` that has its quorum sends the update on every connection that
brought a vote, and the release after `updatedone`.
-/

namespace QuorumLogFs.Vote

open QuorumLogFs.Basis

/-- What a client is called with, and the memory it finds. -/
structure Caller where
  request : Request
  env : Env := {}

/-- How far a client is. -/
inductive Phase where
  /-- In the first round. -/
  | collecting
  /-- A `GET` has ended with this. -/
  | read (out : GetOutcome)
  /-- In the second round of a `PUT` or behind it; the update carries this version. -/
  | updating (new_vno : ℤ)
  /-- A `PUT` has missed its quorum. -/
  | exited
deriving DecidableEq, Repr

/-- A client and its connections. -/
structure ClientState where
  phase : Phase := .collecting
  /-- The session at a server that has accepted the connection. -/
  conn : ℕ → Option ℕ := fun _ => none
  /-- What a server has sent and the client has not read. -/
  inbox : ℕ → Option (List Char) := fun _ => none
  /-- What was received in the first round. -/
  replies : ℕ → Option (List Char) := fun _ => none

structure Network where
  servers : ℕ → ServerState
  clients : ℕ → ClientState

/-- All servers have just started, and no client has reached one. -/
def Network.init : Network := ⟨fun _ => .init, fun _ => {}⟩

inductive NetEvent where
  /-- Server `i` accepts the connection of client `c` and handles its first message. -/
  | contact (c i : ℕ) (loc : Locals)
  /-- The thread of client `c` for server `i` receives the reply. -/
  | hear (c i : ℕ)
  /-- The threads of client `c` are joined. -/
  | decide (c : ℕ)
  /-- A `recvTimeout` of server `i` returns with the next message of client `c`. -/
  | deliver (c i : ℕ) (loc : Locals)
  /-- A `recvTimeout` of server `i` returns without one: client `c` is late, or gone. -/
  | drop (c i : ℕ) (loc : Locals)
  /-- A `send` of server `i` to client `c` returns. -/
  | sent (c i : ℕ)

def Network.setClient (s : Network) (c : ℕ) (x : ClientState) : Network :=
  { s with clients := Function.update s.clients c x }

def Network.setServer (s : Network) (i : ℕ) (t : ServerState) : Network :=
  { s with servers := Function.update s.servers i t }

/-- What a server sends in this event, on the connection that it is about. -/
def serverSends (lier : ℤ) (s : ServerState) : Event → Option (List Char)
  | .accept msg loc => (responseServer lier loc msg s.table).bind fun r => r.2.1
  | .sent _ => none
  | .recv c msg loc =>
    match s.sessions[c]? with
    | some (.voted key i) => (putResponseUpdate key i loc msg s.table).bind fun r => r.2.1
    | _ => none

/-- `connectThread` after the first round. -/
def Caller.decide (q : Quorums) (r : Caller) (replies : ℕ → Option (List Char)) : Option Phase :=
  match r.request with
  | .get _ =>
    match connectThreadGet q.N q.Nr q.Nw r.env replies with
    | .outOfTable => none
    | out => some (.read out)
  | .put _ _ =>
    match connectThreadPut q.N q.Nr q.Nw r.env replies with
    | .outOfTable => none
    | .noQuorum => some .exited
    | .update new_vno => some (.updating new_vno)

/-- The message of the second round. -/
def Request.updateMsg : Request → Phase → Option (List Char)
  | .put key val, .updating new_vno => some (Vote.updateMsg key.chars val.chars new_vno)
  | _, _ => none

/-- What a waiting session receives next from client `x`: the update, on a connection that brought a
vote, then the release, once the client has read `updatedone`. -/
def nextMsg (r : Request) (x : ClientState) (i : ℕ) : Session → Option (List Char)
  | .voted _ _ => if (x.replies i).isSome then r.updateMsg x.phase else none
  | .updated _ _ _ => (x.inbox i).bind (connectToRelease r.keyG)
  | _ => none

/-- An event at server `i`, in session `sess` of client `c`. -/
def Network.serve (lier : ℕ → ℤ) (s : Network) (c i sess : ℕ) (e : Event) : Option Network :=
  (serverStep (lier i) (s.servers i) e).map fun t =>
    (s.setServer i t).setClient c
      { s.clients c with
        conn := Function.update (s.clients c).conn i (some sess)
        inbox := Function.update (s.clients c).inbox i
          (serverSends (lier i) (s.servers i) e <|> (s.clients c).inbox i) }

/-- One step of a server or a client. -/
def netStep (q : Quorums) (lier : ℕ → ℤ) (callers : ℕ → Caller) (s : Network) :
    NetEvent → Option Network
  | .contact c i loc =>
    if i < q.N ∧ (s.clients c).conn i = none then
      s.serve lier c i (s.servers i).sessions.length (.accept (callers c).request.msg loc)
    else none
  | .hear c i =>
    if (s.clients c).phase = .collecting then
      ((s.clients c).inbox i).map fun m =>
        s.setClient c
          { s.clients c with
            inbox := Function.update (s.clients c).inbox i none
            replies := Function.update (s.clients c).replies i (some m) }
    else none
  | .decide c =>
    if (s.clients c).phase = .collecting then
      ((callers c).decide q (s.clients c).replies).map fun p =>
        s.setClient c { s.clients c with phase := p }
    else none
  | .deliver c i loc => do
    let sess ← (s.clients c).conn i
    let x ← (s.servers i).sessions[sess]?
    let msg ← nextMsg (callers c).request (s.clients c) i x
    s.serve lier c i sess (.recv sess (some msg) loc)
  | .drop c i loc => do
    let sess ← (s.clients c).conn i
    s.serve lier c i sess (.recv sess none loc)
  | .sent c i => do
    let sess ← (s.clients c).conn i
    s.serve lier c i sess (.sent sess)

/-- Client `c` holds the lock of `key` at server `i`. -/
def HoldsAt (s : Network) (c i : ℕ) (key : List Char) : Prop :=
  ∃ sess ∈ (s.clients c).conn i, ∃ slot, Holds (s.servers i) sess key slot

/-- No two clients hold the lock of one key at a write quorum each. -/
def OneWriter (q : Quorums) (s : Network) : Prop :=
  ∀ key c d (A B : Finset ℕ), A ⊆ Finset.range q.N → B ⊆ Finset.range q.N →
    q.Nw ≤ A.card → q.Nw ≤ B.card → (∀ i ∈ A, HoldsAt s c i key) → (∀ i ∈ B, HoldsAt s d i key) → c = d

/-- A `PUT` for a key that the server does not have comes while no other session for it is under way
there. -/
def AbsentKeysFree (callers : ℕ → Caller) (s : Network) : NetEvent → Prop
  | .contact c i loc => AbsentKeyIsFree (s.servers i) (.accept (callers c).request.msg loc)
  | _ => True

theorem forall_not_holds_iff {y : ServerState} {key : List Char} :
    (∀ sess slot, ¬ Holds y sess key slot) ↔ ∀ x ∈ y.sessions, x.holder.map Prod.fst ≠ some key := by
  constructor
  · intro h x hx hkey
    obtain ⟨sess, hsess⟩ := List.mem_iff_getElem?.mp hx
    obtain ⟨⟨k, slot⟩, hholder, rfl⟩ := Option.map_eq_some_iff.mp hkey
    exact h sess slot ⟨x, hsess, hholder⟩
  · rintro h sess slot ⟨x, hx, hholder⟩
    exact h x (List.mem_of_getElem? hx) (by rw [hholder]; rfl)

instance (s : ServerState) : (e : Event) → Decidable (AbsentKeyIsFree s e)
  | .accept msg loc =>
    have : Decidable (∀ sess slot, ¬ Holds s sess (readKey msg loc.key) slot) :=
      decidable_of_iff _ forall_not_holds_iff.symm
    inferInstanceAs (Decidable (_ → _ → _))
  | .sent _ => isTrue trivial
  | .recv _ _ _ => isTrue trivial

instance (callers : ℕ → Caller) (s : Network) : (e : NetEvent) → Decidable (AbsentKeysFree callers s e)
  | .contact c i loc =>
    inferInstanceAs (Decidable (AbsentKeyIsFree (s.servers i) (.accept (callers c).request.msg loc)))
  | .hear _ _ => isTrue trivial
  | .decide _ => isTrue trivial
  | .deliver _ _ _ => isTrue trivial
  | .drop _ _ _ => isTrue trivial
  | .sent _ _ => isTrue trivial

variable {q : Quorums} {lier : ℕ → ℤ} {callers : ℕ → Caller} {s s' : Network} {e : NetEvent}
  {ev : Event} {c d i sess slot : ℕ} {key msg : List Char} {r : Request} {x : ClientState}

section Updates

variable (s : Network) (c i : ℕ) (x : ClientState) (t : ServerState)

@[simp] theorem servers_setClient : (s.setClient c x).servers = s.servers := rfl

@[simp] theorem clients_setServer : (s.setServer i t).clients = s.clients := rfl

@[simp] theorem clients_setClient_self : (s.setClient c x).clients c = x := Function.update_self ..

@[simp] theorem servers_setServer_self : (s.setServer i t).servers i = t := Function.update_self ..

theorem clients_setClient_of_ne {c d : ℕ} (h : d ≠ c) :
    (s.setClient c x).clients d = s.clients d := Function.update_of_ne h ..

theorem servers_setServer_of_ne {i j : ℕ} (h : j ≠ i) :
    (s.setServer i t).servers j = s.servers j := Function.update_of_ne h ..

end Updates

/-! ## What a step does -/

/-- The step `e` is the event `ev` in session `sess` of client `c` at server `i`. -/
inductive Meets (q : Quorums) (callers : ℕ → Caller) (s : Network) (c i : ℕ) :
    NetEvent → ℕ → Event → Prop where
  | contact (loc : Locals) (hi : i < q.N) (hconn : (s.clients c).conn i = none) :
      Meets q callers s c i (.contact c i loc) (s.servers i).sessions.length
        (.accept (callers c).request.msg loc)
  | deliver {sess : ℕ} {y : Session} {msg : List Char} (loc : Locals)
      (hconn : (s.clients c).conn i = some sess) (hy : (s.servers i).sessions[sess]? = some y)
      (hmsg : nextMsg (callers c).request (s.clients c) i y = some msg) :
      Meets q callers s c i (.deliver c i loc) sess (.recv sess (some msg) loc)
  | drop {sess : ℕ} (loc : Locals) (hconn : (s.clients c).conn i = some sess) :
      Meets q callers s c i (.drop c i loc) sess (.recv sess none loc)
  | sent {sess : ℕ} (hconn : (s.clients c).conn i = some sess) :
      Meets q callers s c i (.sent c i) sess (.sent sess)

/-- A step is an event at a server, or a client receives a reply, or it decides. -/
theorem netStep_cases (h : netStep q lier callers s e = some s') :
    (∃ c i sess ev, Meets q callers s c i e sess ev ∧ s.serve lier c i sess ev = some s') ∨
    (∃ c i m, e = .hear c i ∧ (s.clients c).phase = .collecting ∧ (s.clients c).inbox i = some m ∧
      s' = s.setClient c
        { s.clients c with
          inbox := Function.update (s.clients c).inbox i none
          replies := Function.update (s.clients c).replies i (some m) }) ∨
    ∃ c p, e = .decide c ∧ (s.clients c).phase = .collecting ∧
      (callers c).decide q (s.clients c).replies = some p ∧
      s' = s.setClient c { s.clients c with phase := p } := by
  cases e with
  | contact c i loc =>
    simp only [netStep] at h
    split at h
    · rename_i hc
      exact Or.inl ⟨c, i, _, _, .contact loc hc.1 hc.2, h⟩
    · cases h
  | hear c i =>
    simp only [netStep] at h
    split at h
    · rename_i hphase
      obtain ⟨m, hm, rfl⟩ := Option.map_eq_some_iff.mp h
      exact Or.inr (Or.inl ⟨c, i, m, rfl, hphase, hm, rfl⟩)
    · cases h
  | decide c =>
    simp only [netStep] at h
    split at h
    · rename_i hphase
      obtain ⟨p, hp, rfl⟩ := Option.map_eq_some_iff.mp h
      exact Or.inr (Or.inr ⟨c, p, rfl, hphase, hp, rfl⟩)
    · cases h
  | deliver c i loc =>
    obtain ⟨sess, hconn, h⟩ := Option.bind_eq_some_iff.mp h
    obtain ⟨y, hy, h⟩ := Option.bind_eq_some_iff.mp h
    obtain ⟨msg, hmsg, h⟩ := Option.bind_eq_some_iff.mp h
    exact Or.inl ⟨c, i, sess, _, .deliver loc hconn hy hmsg, h⟩
  | drop c i loc =>
    obtain ⟨sess, hconn, h⟩ := Option.bind_eq_some_iff.mp h
    exact Or.inl ⟨c, i, sess, _, .drop loc hconn, h⟩
  | sent c i =>
    obtain ⟨sess, hconn, h⟩ := Option.bind_eq_some_iff.mp h
    exact Or.inl ⟨c, i, sess, _, .sent hconn, h⟩

/-- What an event at a server changes: the server, and the client's connection to it. -/
structure Served (lier : ℕ → ℤ) (s s' : Network) (c i sess : ℕ) (ev : Event) : Prop where
  step : serverStep (lier i) (s.servers i) ev = some (s'.servers i)
  server : ∀ j, j ≠ i → s'.servers j = s.servers j
  phase : ∀ d, (s'.clients d).phase = (s.clients d).phase
  replies : ∀ d, (s'.clients d).replies = (s.clients d).replies
  conn : ∀ d j, (s'.clients d).conn j = if d = c ∧ j = i then some sess else (s.clients d).conn j
  inbox : ∀ d j, (s'.clients d).inbox j =
    if d = c ∧ j = i then (serverSends (lier i) (s.servers i) ev <|> (s.clients c).inbox i)
    else (s.clients d).inbox j

theorem served_of_serve (h : s.serve lier c i sess ev = some s') : Served lier s s' c i sess ev := by
  obtain ⟨t, ht, rfl⟩ := Option.map_eq_some_iff.mp h
  refine ⟨by simpa using ht, fun j hj => ?_, fun d => ?_, fun d => ?_, fun d j => ?_, fun d j => ?_⟩
  · rw [servers_setClient, servers_setServer_of_ne _ _ hj]
  · by_cases hd : d = c
    · rw [hd, clients_setClient_self]
    · rw [clients_setClient_of_ne _ _ hd, clients_setServer]
  · by_cases hd : d = c
    · rw [hd, clients_setClient_self]
    · rw [clients_setClient_of_ne _ _ hd, clients_setServer]
  · by_cases hd : d = c
    · rw [hd, clients_setClient_self]
      simp [Function.update_apply]
    · rw [clients_setClient_of_ne _ _ hd, clients_setServer, if_neg fun h => hd h.1]
  · by_cases hd : d = c
    · rw [hd, clients_setClient_self]
      simp [Function.update_apply]
    · rw [clients_setClient_of_ne _ _ hd, clients_setServer, if_neg fun h => hd h.1]

/-- A client that has decided keeps to it. -/
theorem phase_of_netStep (h : netStep q lier callers s e = some s')
    (hne : (s.clients c).phase ≠ .collecting) :
    (s'.clients c).phase = (s.clients c).phase ∧ (s'.clients c).replies = (s.clients c).replies := by
  rcases netStep_cases h with ⟨d, i, sess, ev, -, hserve⟩ | ⟨d, i, m, -, hphase, -, rfl⟩ |
    ⟨d, p, -, hphase, -, rfl⟩
  · have hs := served_of_serve hserve
    exact ⟨hs.phase c, hs.replies c⟩
  · have hcd : c ≠ d := by
      rintro rfl
      exact hne hphase
    rw [clients_setClient_of_ne _ _ hcd]
    exact ⟨rfl, rfl⟩
  · have hcd : c ≠ d := by
      rintro rfl
      exact hne hphase
    rw [clients_setClient_of_ne _ _ hcd]
    exact ⟨rfl, rfl⟩

/-- Only a `PUT` in its second round sends an update, on a connection that brought a vote. -/
theorem nextMsg_voted (h : nextMsg r x i (.voted key slot) = some msg) :
    ∃ k val new_vno, r = .put k val ∧ x.phase = .updating new_vno ∧ (x.replies i).isSome ∧
      msg = updateMsg k.chars val.chars new_vno := by
  rw [nextMsg] at h
  split at h
  · rename_i hreply
    unfold Request.updateMsg at h
    split at h
    · rename_i k val new_vno hphase
      exact ⟨k, val, new_vno, rfl, hphase, hreply, (Option.some.inj h).symm⟩
    · cases h
  · cases h

theorem nextMsg_updated {keyNew : List Char} (h : nextMsg r x i (.updated key keyNew slot) = some msg) :
    msg = releaselockMsg r.keyG := by
  obtain ⟨m, -, hm⟩ := Option.bind_eq_some_iff.mp h
  unfold connectToRelease at hm
  split at hm
  · exact (Option.some.inj hm).symm
  · cases hm

/-- An update is sent with the version that `selectServer` gave. -/
theorem Caller.decide_updating {r : Caller} {f : ℕ → Option (List Char)} {v : ℤ}
    (hdecide : r.decide q f = some (.updating v)) :
    connectThreadPut q.N q.Nr q.Nw r.env f = .update v := by
  unfold Caller.decide at hdecide
  split at hdecide
  · split at hdecide <;> cases hdecide
  · split at hdecide
    · cases hdecide
    · cases hdecide
    · rename_i hout
      rw [hout, Phase.updating.inj (Option.some.inj hdecide)]

/-! ## Whose sessions they are -/

/-- The connections of different clients are different sessions, a session that holds a lock holds that of
its client's key, and the version of an update is an `int`. -/
structure Linked (callers : ℕ → Caller) (s : Network) : Prop where
  lock : ∀ i, LockInv (s.servers i)
  session : ∀ {c i sess}, (s.clients c).conn i = some sess → sess < (s.servers i).sessions.length
  own : ∀ {c d i sess}, (s.clients c).conn i = some sess → (s.clients d).conn i = some sess → c = d
  key : ∀ {c i sess key slot}, (s.clients c).conn i = some sess →
    Holds (s.servers i) sess key slot → ∃ k val, (callers c).request = .put k val ∧ k.chars = key
  vno : ∀ {c v}, (s.clients c).phase = .updating v → IsInt v

theorem linked_init : Linked callers .init where
  lock _ := LockInv.init
  session h := by cases h
  own h := by cases h
  key h := by cases h
  vno h := by cases h

/-- Clients send what `FromClient` says. -/
theorem Linked.fromClient (h : Linked callers s) (hm : Meets q callers s c i e sess ev) :
    FromClient (s.servers i) ev := by
  cases hm with
  | contact loc hi hconn =>
    cases hr : (callers c).request with
    | get k => exact ⟨k, k, Or.inl rfl⟩
    | put k val => exact ⟨k, val, Or.inr rfl⟩
  | deliver loc hconn hy hmsg =>
    constructor
    · intro key slot hvoted
      obtain rfl := Option.some.inj (hy.symm.trans hvoted)
      obtain ⟨k, val, new_vno, hr, -, -, rfl⟩ := nextMsg_voted hmsg
      obtain ⟨k', val', hr', rfl⟩ := h.key hconn ⟨_, hvoted, rfl⟩
      obtain ⟨rfl, -⟩ := Request.put.inj (hr.symm.trans hr')
      exact ⟨val, new_vno, rfl⟩
    · intro key keyNew slot hupdated
      obtain rfl := Option.some.inj (hy.symm.trans hupdated)
      obtain ⟨k, val, hr, rfl⟩ := h.key hconn ⟨_, hupdated, rfl⟩
      rw [nextMsg_updated hmsg, hr]
      rfl
  | drop loc hconn => trivial
  | sent hconn => trivial

/-- The event is one of the client's session. -/
theorem Meets.conn_eq (hm : Meets q callers s c i e sess ev) : ev.conn (s.servers i) = sess := by
  cases hm <;> rfl

theorem Meets.absentKeyIsFree (hm : Meets q callers s c i e sess ev)
    (hfree : AbsentKeysFree callers s e) : AbsentKeyIsFree (s.servers i) ev := by
  cases hm with
  | contact loc hi hconn => exact hfree
  | deliver loc hconn hy hmsg => trivial
  | drop loc hconn => trivial
  | sent hconn => trivial

/-- The client's connection is this session already, or it is new. -/
theorem Meets.conn (hm : Meets q callers s c i e sess ev) :
    (s.clients c).conn i = some sess ∨
      (s.clients c).conn i = none ∧ sess = (s.servers i).sessions.length := by
  cases hm with
  | contact loc hi hconn => exact Or.inr ⟨hconn, rfl⟩
  | deliver loc hconn hy hmsg => exact Or.inl hconn
  | drop loc hconn => exact Or.inl hconn
  | sent hconn => exact Or.inl hconn

theorem Linked.serve (h : Linked callers s) (hm : Meets q callers s c i e sess ev)
    (hfree : AbsentKeyIsFree (s.servers i) ev) (hs : Served lier s s' c i sess ev) :
    Linked callers s' := by
  obtain ⟨hlen, hsess⟩ := length_sessions_step hs.step
  rw [hm.conn_eq] at hsess
  -- a connection of another client at the same server is another session
  have hother : ∀ d, d ≠ c → (s.clients d).conn i ≠ some sess := by
    intro d hd hconn
    rcases hm.conn with hc | ⟨-, rfl⟩
    · exact hd (h.own hconn hc)
    · exact absurd (h.session hconn) (lt_irrefl _)
  constructor
  · intro j
    by_cases hj : j = i
    · subst hj
      exact (h.lock j).step _ _ _ (h.fromClient hm) hfree hs.step
    · rw [hs.server j hj]
      exact h.lock j
  · intro d j sess' hconn
    rw [hs.conn] at hconn
    split at hconn
    · rename_i hdj
      obtain rfl := Option.some.inj hconn
      rwa [hdj.2]
    · by_cases hj : j = i
      · subst hj
        exact (h.session hconn).trans_le hlen
      · rw [hs.server j hj]
        exact h.session hconn
  · intro d d' j sess' hd hd'
    rw [hs.conn] at hd hd'
    split at hd <;> split at hd'
    · rename_i hdj hdj'
      exact hdj.1.trans hdj'.1.symm
    · rename_i hdj hdj'
      obtain rfl := Option.some.inj hd
      obtain ⟨rfl, rfl⟩ := hdj
      exact absurd hd' (hother d' fun hne => hdj' ⟨hne, rfl⟩)
    · rename_i hdj hdj'
      obtain rfl := Option.some.inj hd'
      obtain ⟨rfl, rfl⟩ := hdj'
      exact absurd hd (hother d fun hne => hdj ⟨hne, rfl⟩)
    · exact h.own hd hd'
  · intro d j sess' key slot hconn hholds
    rw [hs.conn] at hconn
    by_cases hj : j = i
    · subst hj
      rcases holds_of_step hs.step hholds with hold | ⟨msg, loc, rfl, rfl, hput, hkey⟩
      · split at hconn
        · rename_i hdj
          obtain rfl := Option.some.inj hconn
          obtain ⟨rfl, -⟩ := hdj
          rcases hm.conn with hc | ⟨-, rfl⟩
          · exact h.key hc hold
          · obtain ⟨x, hx, -⟩ := hold
            exact absurd (List.getElem?_eq_some_iff.mp hx).1 (lt_irrefl _)
        · exact h.key hconn hold
      · -- the session has just been accepted
        split at hconn
        · rename_i hdj
          obtain ⟨rfl, -⟩ := hdj
          cases hm with
          | contact loc hi hnew =>
            cases hr : (callers d).request with
            | get k =>
              rw [hr, Request.msg, readMsgType_getMsg] at hput
              exact absurd hput (by decide)
            | put k val =>
              rw [hr, Request.msg, readKey_putMsg k.isWord] at hkey
              exact ⟨k, val, rfl, hkey⟩
        · exact absurd (h.session hconn) (lt_irrefl _)
    · rw [hs.server j hj] at hholds
      rw [if_neg fun hdj => hj hdj.2] at hconn
      exact h.key hconn hholds
  · intro d v hphase
    rw [hs.phase] at hphase
    exact h.vno hphase

/-- What a client does by itself leaves its connections and the servers. -/
theorem Linked.setClient (h : Linked callers s) (hconn : x.conn = (s.clients c).conn)
    (hvno : ∀ v, x.phase = .updating v → IsInt v) : Linked callers (s.setClient c x) := by
  have hsame : ∀ d, ((s.setClient c x).clients d).conn = (s.clients d).conn := by
    intro d
    by_cases hd : d = c
    · rw [hd, clients_setClient_self, hconn]
    · rw [clients_setClient_of_ne _ _ hd]
  constructor
  · exact h.lock
  · intro d i sess hd
    exact h.session (hsame d ▸ hd)
  · intro d d' i sess hd hd'
    exact h.own (hsame d ▸ hd) (hsame d' ▸ hd')
  · intro d i sess key slot hd hholds
    exact h.key (hsame d ▸ hd) hholds
  · intro d v hphase
    by_cases hd : d = c
    · rw [hd, clients_setClient_self] at hphase
      exact hvno v hphase
    · rw [clients_setClient_of_ne _ _ hd] at hphase
      exact h.vno hphase

theorem Linked.step (s : Network) (e : NetEvent) (s' : Network) (h : Linked callers s)
    (hfree : AbsentKeysFree callers s e) (hstep : netStep q lier callers s e = some s') :
    Linked callers s' := by
  rcases netStep_cases hstep with ⟨c, i, sess, ev, hm, hserve⟩ | ⟨c, i, m, -, -, -, rfl⟩ |
    ⟨c, p, -, -, hdecide, rfl⟩
  · exact h.serve hm (hm.absentKeyIsFree hfree) (served_of_serve hserve)
  · exact h.setClient rfl fun _ hphase => h.vno hphase
  · refine h.setClient rfl fun v hp => ?_
    obtain rfl : p = .updating v := hp
    exact connectThreadPut_isInt (Caller.decide_updating hdecide)

/-- The lock of a key at one server is held by one client. -/
theorem Linked.holdsAt_unique (h : Linked callers s) (hc : HoldsAt s c i key) (hd : HoldsAt s d i key) :
    c = d := by
  obtain ⟨sess, hconn, slot, hholds⟩ := hc
  obtain ⟨sess', hconn', slot', hholds'⟩ := hd
  obtain rfl := (h.lock i).exclusive key sess sess' slot slot' hholds hholds'
  exact h.own hconn hconn'

/-- Two write quorums share a server. -/
theorem Linked.oneWriter (h : Linked callers s) : OneWriter q s := by
  intro key c d A B hA hB hAcard hBcard hc hd
  have hmajority := q.majority
  have hcard : (Finset.range q.N).card < A.card + B.card := by
    rw [Finset.card_range]
    omega
  obtain ⟨i, hi⟩ := Finset.inter_nonempty_of_card_lt_card_add_card hA hB hcard
  obtain ⟨hiA, hiB⟩ := Finset.mem_inter.mp hi
  exact h.holdsAt_unique (hc i hiA) (hd i hiB)

/-- However the clients and the servers interleave between the blocking calls, and wherever a session times
out: while no `PUT` finds its key absent at a server with another session for this key, no two clients ever
hold the lock of a key at a write quorum each. -/
theorem one_writer (q : Quorums) (lier : ℕ → ℤ) (callers : ℕ → Caller) {es : List NetEvent}
    (hfree : Each (netStep q lier callers) (AbsentKeysFree callers) .init es) :
    Always (netStep q lier callers) (OneWriter q) .init es :=
  (always_of_each linked_init Linked.step hfree).imp fun _ h => h.oneWriter

theorem fits_key1 : IsWord "key1".toList ∧ nul ∉ "key1".toList ∧ "key1".toList.length < KEYSIZE := by
  decide

/-- The key that every server starts with. -/
def presentKey : Word := .ofString "key1" fits_key1

def firstValue : Word := .ofString "first"
def secondValue : Word := .ofString "second"

/-- Two `PUT`s of one key. -/
def twoPuts (c : ℕ) : Caller :=
  ⟨.put presentKey (if c = 0 then firstValue else secondValue), {}⟩

/-- They run side by side, and each locks the key at one server. The third server votes for the first of
them, which decides. -/
def sideBySide : List NetEvent :=
  [.contact 0 0 {}, .contact 1 1 {}, .contact 0 1 {}, .contact 0 2 {}, .contact 1 2 {}, .hear 0 0,
    .hear 0 2, .decide 0, .deliver 0 0 {}, .drop 1 1 {}, .deliver 0 2 {}]

theorem one_writer_sideBySide :
    Always (netStep threeServers (fun _ => 0) twoPuts) (OneWriter threeServers) .init sideBySide :=
  one_writer threeServers (fun _ => 0) twoPuts (by decide)

end QuorumLogFs.Vote
