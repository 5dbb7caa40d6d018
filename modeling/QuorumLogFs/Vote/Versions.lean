import QuorumLogFs.Vote.Copies

/-!
# Versions under concurrency

Clients that run at the same time write and read one register for each key. A `PUT` takes effect when it
decides: from its votes until its update is delivered, its voters answer nobody else for this key, so
whoever hears a quorum afterwards hears the update from one of them. `Guarded` is what this needs: the
voters wait for the update, and the version that a `PUT` increments is the highest of its votes. `Sound` is
the invariant that follows.
-/

namespace QuorumLogFs.Vote

open QuorumLogFs.Basis

/-- No server lies. -/
def honest : ℕ → ℤ := fun _ => 0

/-- The copy of a key at server `i`. -/
def copyAt (s : Network) (key : Word) (i : ℕ) : Option (ℤ × List Char) :=
  stored key.chars (s.servers i).table

/-- The session of client `c` at server `i`. -/
def sessionAt (s : Network) (c i : ℕ) : Option Session :=
  ((s.clients c).conn i).bind fun sess => (s.servers i).sessions[sess]?

def Session.isVoted : Session → Bool
  | .voted _ _ => true
  | _ => false

/-- Server `i` has voted for client `c` and waits for the update. -/
def VotedAt (s : Network) (c i : ℕ) : Prop := ∃ x ∈ sessionAt s c i, x.isVoted

/-- Client `c` has counted a reply of server `i`. -/
def Heard (s : Network) (c i : ℕ) : Prop := ((s.clients c).replies i).isSome

/-- The versions held by the servers that a client has replies from. -/
def heardVersions (q : Quorums) (s : Network) (c : ℕ) (key : Word) : List ℤ :=
  ((List.range q.N).filter fun i => ((s.clients c).replies i).isSome).map fun i =>
    version (copyAt s key i)

/-- What is asked of a `PUT` of its key. -/
def Request.IfPut (p : Word → Prop) : Request → Prop
  | .get _ => True
  | .put key _ => p key

instance {p : Word → Prop} [DecidablePred p] : (r : Request) → Decidable (r.IfPut p)
  | .get _ => isTrue trivial
  | .put key _ => inferInstanceAs (Decidable (p key))

/-- The servers that a `PUT` counts wait for its update when it decides, and until it is delivered. -/
def VotesStay (q : Quorums) (callers : ℕ → Caller) (s : Network) : NetEvent → Prop
  | .decide c => (callers c).request.IfPut fun _ => ∀ i < q.N, Heard s c i → VotedAt s c i
  | .drop c i _ => ∀ x ∈ sessionAt s c i, x.isVoted →
      nextMsg (callers c).request (s.clients c) i x = none
  | _ => True

/-- When a `PUT` with its quorum decides, the highest version is the plurality of its votes, and it can be
incremented. -/
def TopVersionDecides (q : Quorums) (callers : ℕ → Caller) (s : Network) : NetEvent → Prop
  | .decide c => (callers c).request.IfPut fun key => q.Nw ≤ (heardVersions q s c key).length →
      ∃ m ∈ heardVersions q s c key, IsPlurality (heardVersions q s c key) m ∧
        (∀ x ∈ heardVersions q s c key, x ≤ m) ∧ m < INT_MAX
  | _ => True

/-- What the steps of the servers and the clients have to meet. -/
structure Guarded (q : Quorums) (callers : ℕ → Caller) (s : Network) (e : NetEvent) : Prop where
  absent : AbsentKeysFree callers s e
  votes : VotesStay q callers s e
  top : TopVersionDecides q callers s e

instance (s : Network) (c i : ℕ) : Decidable (VotedAt s c i) :=
  inferInstanceAs (Decidable (∃ x ∈ sessionAt s c i, x.isVoted = true))

instance (s : Network) (c i : ℕ) : Decidable (Heard s c i) :=
  inferInstanceAs (Decidable (Option.isSome _ = true))

instance (q : Quorums) (callers : ℕ → Caller) (s : Network) :
    (e : NetEvent) → Decidable (VotesStay q callers s e)
  | .decide c => inferInstanceAs (Decidable ((callers c).request.IfPut fun _ => _))
  | .drop c i _ => inferInstanceAs (Decidable (∀ x ∈ sessionAt s c i, x.isVoted = true → _))
  | .contact _ _ _ => isTrue trivial
  | .hear _ _ => isTrue trivial
  | .deliver _ _ _ => isTrue trivial
  | .sent _ _ => isTrue trivial

instance (q : Quorums) (callers : ℕ → Caller) (s : Network) :
    (e : NetEvent) → Decidable (TopVersionDecides q callers s e)
  | .decide c => inferInstanceAs (Decidable ((callers c).request.IfPut fun _ => _))
  | .contact _ _ _ => isTrue trivial
  | .hear _ _ => isTrue trivial
  | .deliver _ _ _ => isTrue trivial
  | .drop _ _ _ => isTrue trivial
  | .sent _ _ => isTrue trivial

instance (q : Quorums) (callers : ℕ → Caller) (s : Network) (e : NetEvent) :
    Decidable (Guarded q callers s e) :=
  decidable_of_iff (AbsentKeysFree callers s e ∧ VotesStay q callers s e ∧ TopVersionDecides q callers s e)
    ⟨fun h => ⟨h.1, h.2.1, h.2.2⟩, fun h => ⟨h.absent, h.votes, h.top⟩⟩

/-- Client `c` has decided to write `val` under this version. -/
def Writes (callers : ℕ → Caller) (s : Network) (c : ℕ) (key val : Word) (vno : ℤ) : Prop :=
  (callers c).request = .put key val ∧ (s.clients c).phase = .updating vno

/-- The copy is that of a fresh server, or a client has decided to write it. -/
def Written (callers : ℕ → Caller) (s : Network) (key : Word) (vno : ℤ) (x : List Char) : Prop :=
  stored key.chars initTable = some (vno, x) ∨
    ∃ c val, Writes callers s c key val vno ∧ x = val.chars

/-- The version that a fresh server has of a key. -/
def baseVersion (key : Word) : ℤ := version (stored key.chars initTable)

variable {q : Quorums} {callers : ℕ → Caller} {s s' : Network} {e : NetEvent} {ev : Event}
  {c d i j sess : ℕ} {key k val val' : Word} {v w : ℤ} {m x : List Char}

theorem Written.isWord (h : Written callers s key v x) : IsWord x := by
  rcases h with h | ⟨c, val, -, rfl⟩
  · exact isWord_of_stored_initTable key.isWord h
  · exact val.isWord

theorem Linked.isInt_of_written (h : Linked callers s) (hw : Written callers s key v x) : IsInt v := by
  rcases hw with hinit | ⟨c, val, hw, -⟩
  · obtain ⟨i, hi, heq⟩ := Option.map_eq_some_iff.mp hinit
    obtain ⟨rfl, -⟩ := Prod.mk.inj heq
    exact (idle_initTable key.chars i key.isWord hi).vno
  · exact h.vno hw.2

/-! ## Events at a server -/

/-- A client whose server waits for its update holds the lock of its key. -/
theorem Linked.holdsAt (h : Linked callers s) (hvoted : VotedAt s c i)
    (hr : (callers c).request = .put key val) : HoldsAt s c i key.chars := by
  obtain ⟨y, hy, hyv⟩ := hvoted
  obtain ⟨sess, hconn, hsess⟩ := Option.bind_eq_some_iff.mp hy
  cases y with
  | voted k slot =>
    have hholds : Holds (s.servers i) sess k slot := ⟨_, hsess, rfl⟩
    obtain ⟨k', val', hr', rfl⟩ := h.key hconn hholds
    obtain ⟨rfl, -⟩ := Request.put.inj (hr.symm.trans hr')
    exact ⟨sess, hconn, slot, hholds⟩
  | _ => cases hyv

/-- Nobody holds a key of which no session does. -/
theorem not_holdsAt (h : ∀ sess slot, ¬ Holds (s.servers i) sess key.chars slot) (d : ℕ) :
    ¬ HoldsAt s d i key.chars := by
  rintro ⟨sess, -, slot, hholds⟩
  exact h sess slot hholds

/-- Other sessions stay where they are. -/
theorem Served.sessionAt_of_ne {lier : ℕ → ℤ} (h : Linked callers s)
    (hm : Meets q callers s c i e sess ev) (hs : Served lier s s' c i sess ev)
    (hne : ¬ (d = c ∧ j = i)) : sessionAt s' d j = sessionAt s d j := by
  unfold sessionAt
  rw [hs.conn, if_neg hne]
  cases hd : (s.clients d).conn j with
  | none => rfl
  | some sess' =>
    rw [Option.bind_some, Option.bind_some]
    by_cases hj : j = i
    · subst hj
      have hsess : sess ≠ sess' := by
        rintro rfl
        rcases hm.conn with hc | ⟨-, rfl⟩
        · exact hne ⟨h.own hd hc, rfl⟩
        · exact absurd (h.session hd) (lt_irrefl _)
      exact session_step (h.session hd) (hm.conn_eq ▸ hsess) hs.step
    · rw [hs.server j hj]

theorem Served.sessionAt_self {lier : ℕ → ℤ} (hs : Served lier s s' c i sess ev) :
    sessionAt s' c i = (s'.servers i).sessions[sess]? := by
  unfold sessionAt
  rw [hs.conn, if_pos ⟨rfl, rfl⟩, Option.bind_some]

/-- What an event at server `i` does for client `c`. -/
inductive Handled (callers : ℕ → Caller) (s s' : Network) (c i : ℕ) (e : NetEvent)
    (sends : Option (List Char)) : Prop where
  /-- Nothing is stored and nothing is sent. -/
  | quiet (hcopies : ∀ key, copyAt s' key i = copyAt s key i) (hvoted : ¬ VotedAt s' c i)
      (hdrop : VotedAt s c i → ∃ loc, e = .drop c i loc) (hsends : sends = none)
  /-- A `GET` is answered. -/
  | answer {key : Word} {v : ℤ} {x : List Char} (hr : (callers c).request = .get key)
      (hcopies : ∀ key, copyAt s' key i = copyAt s key i) (hvoted : ¬ VotedAt s' c i)
      (hconn : (s.clients c).conn i = none) (hfree : ∀ d, ¬ HoldsAt s d i key.chars)
      (hcopy : copyAt s key i = some (v, x)) (hsends : sends = some (voteMsg v key.chars x))
  /-- The server votes for a `PUT`. -/
  | vote {key val : Word} (hr : (callers c).request = .put key val)
      (hcopies : ∀ key, copyAt s' key i = copyAt s key i)
      (hconn : (s.clients c).conn i = none) (hfree : ∀ d, ¬ HoldsAt s d i key.chars)
      (hsends : sends = some (voteReply key.chars (s.servers i).table))
  /-- The update of a `PUT` is stored. -/
  | update {key val : Word} {v : ℤ} (hw : Writes callers s c key val v) (hheard : Heard s c i)
      (hbefore : VotedAt s c i) (hvoted : ¬ VotedAt s' c i)
      (hcopy : copyAt s' key i = some (v, val.chars))
      (hother : ∀ k, k ≠ key → copyAt s' k i = copyAt s k i)

/-- A session that is not there has no vote. -/
theorem not_votedAt_of_none (h : (s.clients c).conn i = none) : ¬ VotedAt s c i := by
  rintro ⟨y, hy, -⟩
  rw [sessionAt, h] at hy
  cases hy

/-- A session that has got past its vote. -/
theorem Served.not_votedAt {lier : ℕ → ℤ} (hs : Served lier s s' c i sess ev) {y : Session}
    (hy : (s'.servers i).sessions[sess]? = some y) (hv : y.isVoted = false) : ¬ VotedAt s' c i := by
  rintro ⟨z, hz, hzv⟩
  rw [hs.sessionAt_self, hy, Option.mem_some_iff] at hz
  rw [← hz, hv] at hzv
  cases hzv

theorem SameCopies.copyAt (h : SameCopies (s.servers i).table (s'.servers i).table) (key : Word) :
    copyAt s' key i = copyAt s key i :=
  h key.chars key.isWord

/-- The event of a first message. -/
theorem handled_contact (h : Linked callers s) {loc : Locals} (hconn : (s.clients c).conn i = none)
    (hfree : AbsentKeyIsFree (s.servers i) (.accept (callers c).request.msg loc))
    (hs : Served honest s s' c i (s.servers i).sessions.length (.accept (callers c).request.msg loc)) :
    Handled callers s s' c i e
      (serverSends 0 (s.servers i) (.accept (callers c).request.msg loc)) := by
  have hbefore := not_votedAt_of_none hconn
  have hlast : ∀ {z : Session}, (s'.servers i).sessions = (s.servers i).sessions ++ [z] →
      (s'.servers i).sessions[(s.servers i).sessions.length]? = some z := by
    intro z hz
    rw [hz, List.getElem?_append_right le_rfl, Nat.sub_self]
    rfl
  cases hr : (callers c).request with
  | get key =>
    rw [hr] at hs
    obtain ⟨hcopies, ⟨z, hz, hzh⟩, hreply⟩ := accept_get (h.lock i) key.isWord hs.step
    have hvoted : ¬ VotedAt s' c i := hs.not_votedAt (hlast hz) (by cases z <;> first | rfl | cases hzh)
    cases hsends : serverSends 0 (s.servers i) (.accept (Request.get key).msg loc) with
    | none => exact .quiet hcopies.copyAt hvoted (fun hv => absurd hv hbefore) rfl
    | some m =>
      obtain ⟨hnobody, ⟨v, x⟩, hcopy, rfl⟩ := hreply m hsends
      exact .answer hr hcopies.copyAt hvoted hconn (not_holdsAt hnobody) hcopy rfl
  | put key val =>
    rw [hr] at hs hfree
    obtain ⟨hcopies, z, hz, hreply⟩ := accept_put (h.lock i) key.isWord hfree hs.step
    cases hsends : serverSends 0 (s.servers i) (.accept (Request.put key val).msg loc) with
    | none =>
      rw [show putMsg key.chars val.chars = (Request.put key val).msg from rfl, hsends] at hreply
      exact .quiet hcopies.copyAt (hs.not_votedAt (hlast hz) (by rw [hreply]; rfl))
        (fun hv => absurd hv hbefore) rfl
    | some m =>
      rw [show putMsg key.chars val.chars = (Request.put key val).msg from rfl, hsends] at hreply
      obtain ⟨rfl, -, hnobody⟩ := hreply
      exact .vote hr hcopies.copyAt hconn (not_holdsAt hnobody) rfl

/-- Every event at a server is one of the four. -/
theorem handled_of_served (h : Linked callers s) (hm : Meets q callers s c i e sess ev)
    (hfree : AbsentKeyIsFree (s.servers i) ev) (hs : Served honest s s' c i sess ev) :
    Handled callers s s' c i e (serverSends 0 (s.servers i) ev) := by
  have hstep : serverStep 0 (s.servers i) ev = some (s'.servers i) := hs.step
  cases hm with
  | contact loc hi hconn => exact handled_contact h hconn hfree hs
  | deliver loc hconn hy hmsg =>
    rename_i y msg
    have hlt := (List.getElem?_eq_some_iff.mp hy).1
    cases y with
    | voted key slot =>
      obtain ⟨k, val, v, hr, hphase, hheard, rfl⟩ := nextMsg_voted hmsg
      obtain ⟨k', val', hr', rfl⟩ := h.key hconn ⟨_, hy, rfl⟩
      obtain ⟨rfl, rfl⟩ := Request.put.inj (hr.symm.trans hr')
      obtain ⟨hcopy, hother, hsessions⟩ := recv_update (h.lock i) hy (h.vno hphase) hstep
      refine .update ⟨hr, hphase⟩ hheard ⟨.voted k.chars slot, ?_, rfl⟩ ?_ hcopy ?_
      · rw [sessionAt, hconn]
        exact hy
      · refine hs.not_votedAt (y := .updated k.chars k.chars slot) ?_ rfl
        rw [hsessions, List.getElem?_set_self hlt]
      · exact fun k' hk' => hother k'.chars k'.isWord fun heq => hk' (Word.ext heq)
    | updated key keyNew slot =>
      obtain ⟨hcopies, hsessions⟩ := recv_release hy _ loc hstep
      refine .quiet hcopies.copyAt (hs.not_votedAt (y := .closed) ?_ rfl) ?_ ?_
      · rw [hsessions, List.getElem?_set_self hlt]
      · rintro ⟨z, hz, hzv⟩
        rw [sessionAt, hconn, Option.bind_some, hy, Option.mem_some_iff] at hz
        subst hz
        cases hzv
      · rw [serverSends, hy]
    | reading slot => cases hmsg
    | closed => cases hmsg
  | drop loc hconn =>
    have hclosed : (s'.servers i).sessions = (s.servers i).sessions.set sess .closed ∧
        SameCopies (s.servers i).table (s'.servers i).table ∧
        sess < (s.servers i).sessions.length ∧
        serverSends 0 (s.servers i) (.recv sess none loc) = none := by
      simp only [serverStep] at hstep
      split at hstep
      · rename_i k slot hy
        have hrecv := recv_drop hy loc (by simp only [serverStep, hy]; exact hstep)
        exact ⟨hrecv.2, hrecv.1, (List.getElem?_eq_some_iff.mp hy).1, by rw [serverSends, hy]; rfl⟩
      · rename_i k keyNew slot hy
        have hrecv := recv_release hy none loc (by simp only [serverStep, hy]; exact hstep)
        exact ⟨hrecv.2, hrecv.1, (List.getElem?_eq_some_iff.mp hy).1, by rw [serverSends, hy]⟩
      · cases hstep
    obtain ⟨hsessions, hcopies, hlt, hsends⟩ := hclosed
    refine .quiet hcopies.copyAt (hs.not_votedAt (y := .closed) ?_ rfl) (fun _ => ⟨loc, rfl⟩) hsends
    rw [hsessions, List.getElem?_set_self hlt]
  | sent hconn =>
    simp only [serverStep] at hstep
    split at hstep
    · rename_i slot hy
      have hlt := (List.getElem?_eq_some_iff.mp hy).1
      have hafter := (Option.some.inj hstep).symm
      refine .quiet (SameCopies.copyAt ?_) (hs.not_votedAt (y := .closed) ?_ rfl) ?_ rfl
      · rw [hafter]
        exact sameCopies_getResponseDecr slot _
      · rw [hafter]
        exact List.getElem?_set_self hlt
      · rintro ⟨z, hz, hzv⟩
        rw [sessionAt, hconn, Option.bind_some, hy, Option.mem_some_iff] at hz
        subst hz
        cases hzv
    · cases hstep

/-! ## The invariant -/

/-- The copies, the votes and the replies agree with what clients have decided to write. Where the update of
a client is not delivered yet, its server holds an older copy and waits for it. -/
structure Sound (q : Quorums) (callers : ℕ → Caller) (s : Network) : Prop where
  linked : Linked callers s
  inside : ∀ {c i}, ((s.clients c).conn i).isSome → i < q.N
  new : ∀ {c i}, (s.clients c).conn i = none →
    (s.clients c).inbox i = none ∧ (s.clients c).replies i = none
  copies : ∀ {i key v x}, copyAt s key i = some (v, x) → Written callers s key v x
  base : ∀ i key, baseVersion key ≤ version (copyAt s key i)
  votes : ∀ {c i key val m}, (callers c).request = .put key val → (s.clients c).phase = .collecting →
    VotedAt s c i → (s.clients c).inbox i = some m ∨ (s.clients c).replies i = some m →
      m = voteReply key.chars (s.servers i).table
  pending : ∀ {c i key val v}, Writes callers s c key val v → Heard s c i → VotedAt s c i →
    version (copyAt s key i) < v
  applied : ∀ {c i key val v}, Writes callers s c key val v → Heard s c i → ¬ VotedAt s c i →
    v ≤ version (copyAt s key i)
  quorum : ∀ {c key val v}, Writes callers s c key val v → q.Nw ≤ responsesG q.N (s.clients c).replies
  above : ∀ {c key val v}, Writes callers s c key val v → baseVersion key < v
  unique : ∀ {c d key val val' v}, Writes callers s c key val v → Writes callers s d key val' v → c = d
  reads : ∀ {c i key m}, (callers c).request = .get key →
    (s.clients c).inbox i = some m ∨ (s.clients c).replies i = some m →
      ∃ v x, m = voteMsg v key.chars x ∧ Written callers s key v x
  outcome : ∀ {c out}, (s.clients c).phase = .read out → (∃ key, (callers c).request = .get key) ∧
    connectThreadGet q.N q.Nr q.Nw (callers c).env (s.clients c).replies = out

theorem sound_init : Sound q callers .init where
  linked := linked_init
  inside h := by cases h
  new _ := ⟨rfl, rfl⟩
  copies h := Or.inl h
  base _ _ := le_rfl
  votes _ _ _ h := by rcases h with h | h <;> cases h
  pending h := by cases h.2
  applied h := by cases h.2
  quorum h := by cases h.2
  above h := by cases h.2
  unique h := by cases h.2
  reads _ h := by rcases h with h | h <;> cases h
  outcome h := by cases h

/-! ## Events at a server keep it -/

section Serve

variable {lier : ℕ → ℤ} (hs : Served lier s s' c i sess ev)
include hs

theorem Served.writes : Writes callers s' d key val v ↔ Writes callers s d key val v := by
  unfold Writes
  rw [hs.phase]

theorem Served.written : Written callers s' key v x ↔ Written callers s key v x := by
  unfold Written
  simp only [hs.writes]

theorem Served.heard : Heard s' d j ↔ Heard s d j := by
  unfold Heard
  rw [hs.replies]

end Serve

/-- An event at server `i` stores the update of client `c`, or no copy changes. -/
theorem Handled.copy {sends : Option (List Char)} (h : Handled callers s s' c i e sends) (key : Word) :
    copyAt s' key i = copyAt s key i ∨ ∃ val v, Writes callers s c key val v ∧ Heard s c i ∧
      VotedAt s c i ∧ copyAt s' key i = some (v, val.chars) := by
  cases h with
  | quiet hcopies => exact Or.inl (hcopies key)
  | answer hr hcopies => exact Or.inl (hcopies key)
  | vote hr hcopies => exact Or.inl (hcopies key)
  | update hw hheard hbefore hvoted hcopy hother =>
    rename_i written val v
    by_cases hk : key = written
    · exact Or.inr ⟨_, _, hk ▸ hw, hheard, hbefore, hk ▸ hcopy⟩
    · exact Or.inl (hother key hk)

/-- Where another client is waited for, its key is not written. -/
theorem Handled.copy_of_votedAt {sends : Option (List Char)} (h : Handled callers s s' c i e sends)
    (hl : Linked callers s) (hr : (callers d).request = .put key val) (hvoted : VotedAt s d i)
    (hne : d ≠ c) : copyAt s' key i = copyAt s key i := by
  rcases h.copy key with hsame | ⟨val', v, hw, -, hc, -⟩
  · exact hsame
  · exact absurd (hl.holdsAt_unique (hl.holdsAt hvoted hr) (hl.holdsAt hc hw.1)) hne

/-- Only with its vote a server begins to wait. -/
theorem Handled.votedAt {sends : Option (List Char)} (h : Handled callers s s' c i e sends)
    (hvoted : VotedAt s' c i) : ∃ key val, (callers c).request = .put key val ∧
      (s.clients c).conn i = none ∧ (∀ k, copyAt s' k i = copyAt s k i) ∧
      sends = some (voteReply key.chars (s.servers i).table) := by
  cases h with
  | quiet hcopies hnot => exact absurd hvoted hnot
  | answer hr hcopies hnot => exact absurd hvoted hnot
  | vote hr hcopies hconn hfree hsends => exact ⟨_, _, hr, hconn, hcopies, hsends⟩
  | update hw hheard hbefore hnot => exact absurd hvoted hnot

theorem voteReply_congr (h : copyAt s' key i = copyAt s key i) :
    voteReply key.chars (s'.servers i).table = voteReply key.chars (s.servers i).table := by
  unfold voteReply
  rw [show stored key.chars (s'.servers i).table = stored key.chars (s.servers i).table from h]

theorem Served.copyAt_of_ne {lier : ℕ → ℤ} (hs : Served lier s s' c i sess ev) (key : Word) (hj : j ≠ i) :
    copyAt s' key j = copyAt s key j := by
  rw [copyAt, hs.server j hj, copyAt]

theorem Served.inbox_of_ne {lier : ℕ → ℤ} (hs : Served lier s s' c i sess ev)
    (hne : ¬ (d = c ∧ j = i)) : (s'.clients d).inbox j = (s.clients d).inbox j := by
  rw [hs.inbox, if_neg hne]

/-- After an event for client `c`, which has sent its update, the server has stored it. -/
theorem Sound.serve_applied_self {sends : Option (List Char)} (h : Sound q callers s)
    (ho : Handled callers s s' c i e sends) (hguard : Guarded q callers s e)
    (hw : Writes callers s c key val v) (hheard : Heard s c i) :
    v ≤ version (copyAt s' key i) := by
  by_cases hvoted : VotedAt s c i
  · cases ho with
    | quiet hcopies hnot' hdrop =>
      -- the server does not give up on an update that is sent
      exfalso
      obtain ⟨loc, rfl⟩ := hdrop hvoted
      obtain ⟨y, hy, hyv⟩ := hvoted
      have hnone := hguard.votes y hy hyv
      cases y with
      | voted k slot =>
        rw [nextMsg, if_pos (show ((s.clients c).replies i).isSome from hheard), hw.1, hw.2] at hnone
        cases hnone
      | _ => cases hyv
    | answer hr =>
      rw [hw.1] at hr
      cases hr
    | vote hr hcopies hconn => exact absurd hvoted (not_votedAt_of_none hconn)
    | update hw' hheard' hbefore hnot' hcopy =>
      obtain ⟨rfl, rfl⟩ := Request.put.inj (hw.1.symm.trans hw'.1)
      obtain rfl := Phase.updating.inj (hw.2.symm.trans hw'.2)
      rw [hcopy, version_some]
  · rcases ho.copy key with hsame | ⟨val', w, hw', -, hvoted', -⟩
    · rw [hsame]
      exact h.applied hw hheard hvoted
    · exact absurd hvoted' hvoted

section Serve

variable (h : Sound q callers s) (hm : Meets q callers s c i e sess ev)
  (hs : Served honest s s' c i sess ev) (ho : Handled callers s s' c i e (serverSends 0 (s.servers i) ev))
include h hs

include hm

theorem Sound.serve_votedAt_of_ne (hne : ¬ (d = c ∧ j = i)) : VotedAt s' d j ↔ VotedAt s d j := by
  rw [VotedAt, hs.sessionAt_of_ne h.linked hm hne, VotedAt]

theorem Sound.serve_inside (hd : ((s'.clients d).conn j).isSome) : j < q.N := by
  rw [hs.conn] at hd
  split at hd
  · rename_i hdj
    rw [hdj.2]
    cases hm with
    | contact loc hi hconn => exact hi
    | deliver loc hconn hy hmsg => exact h.inside (by rw [hconn]; rfl)
    | drop loc hconn => exact h.inside (by rw [hconn]; rfl)
    | sent hconn => exact h.inside (by rw [hconn]; rfl)
  · exact h.inside hd

omit hm

theorem Sound.serve_new (hd : (s'.clients d).conn j = none) :
    (s'.clients d).inbox j = none ∧ (s'.clients d).replies j = none := by
  rw [hs.conn] at hd
  split at hd
  · cases hd
  · rename_i hne
    rw [hs.inbox_of_ne hne, hs.replies]
    exact h.new hd

include ho

/-- The copy of a key at a server that waits for another client's update of it. -/
theorem Sound.serve_waits (hne : ¬ (d = c ∧ j = i)) (hr : (callers d).request = .put key val)
    (hvoted : VotedAt s d j) : copyAt s' key j = copyAt s key j := by
  by_cases hj : j = i
  · subst hj
    exact ho.copy_of_votedAt h.linked hr hvoted fun hd => hne ⟨hd, rfl⟩
  · exact hs.copyAt_of_ne key hj

theorem Sound.serve_copies (hcopy : copyAt s' key j = some (v, x)) : Written callers s' key v x := by
  rw [hs.written]
  by_cases hj : j = i
  · subst hj
    rcases ho.copy key with hsame | ⟨val, w, hw, -, -, hnew⟩
    · exact h.copies (hsame ▸ hcopy)
    · obtain ⟨rfl, rfl⟩ := Prod.mk.inj (Option.some.inj (hnew.symm.trans hcopy))
      exact Or.inr ⟨c, val, hw, rfl⟩
  · exact h.copies (hs.copyAt_of_ne key hj ▸ hcopy)

theorem Sound.serve_base (j : ℕ) (key : Word) : baseVersion key ≤ version (copyAt s' key j) := by
  by_cases hj : j = i
  · subst hj
    rcases ho.copy key with hsame | ⟨val, w, hw, -, -, hnew⟩
    · rw [hsame]
      exact h.base j key
    · rw [hnew, version_some]
      exact (h.above hw).le
  · rw [hs.copyAt_of_ne key hj]
    exact h.base j key

theorem Sound.serve_reads (hr : (callers d).request = .get key)
    (hmem : (s'.clients d).inbox j = some m ∨ (s'.clients d).replies j = some m) :
    ∃ v x, m = voteMsg v key.chars x ∧ Written callers s' key v x := by
  simp only [hs.written]
  by_cases hne : d = c ∧ j = i
  · obtain ⟨rfl, rfl⟩ := hne
    rw [hs.replies, hs.inbox, if_pos ⟨rfl, rfl⟩, show honest j = 0 from rfl] at hmem
    cases ho with
    | quiet hcopies hnot hdrop hsends =>
      rw [hsends] at hmem
      exact h.reads hr hmem
    | answer hr' hcopies hnot hconn hfree' hcopy hsends =>
      obtain rfl := Request.get.inj (hr.symm.trans hr')
      rw [hsends, (h.new hconn).2] at hmem
      rcases hmem with hmem | hmem
      · exact ⟨_, _, (Option.some.inj hmem).symm, h.copies hcopy⟩
      · cases hmem
    | vote hr' =>
      rw [hr] at hr'
      cases hr'
    | update hw =>
      have hr' := hr.symm.trans hw.1
      cases hr'
  · rw [hs.inbox_of_ne hne, hs.replies] at hmem
    exact h.reads hr hmem

include hm

theorem Sound.serve_votes (hr : (callers d).request = .put key val)
    (hphase : (s'.clients d).phase = .collecting) (hvoted : VotedAt s' d j)
    (hmem : (s'.clients d).inbox j = some m ∨ (s'.clients d).replies j = some m) :
    m = voteReply key.chars (s'.servers j).table := by
  rw [hs.phase] at hphase
  by_cases hne : d = c ∧ j = i
  · obtain ⟨rfl, rfl⟩ := hne
    obtain ⟨key', val', hr', hconn, hcopies, hsends⟩ := ho.votedAt hvoted
    obtain ⟨rfl, -⟩ := Request.put.inj (hr.symm.trans hr')
    rw [voteReply_congr (hcopies key)]
    rw [hs.replies, (h.new hconn).2, hs.inbox, if_pos ⟨rfl, rfl⟩,
      show honest j = 0 from rfl, hsends] at hmem
    rcases hmem with hmem | hmem
    · exact (Option.some.inj hmem).symm
    · cases hmem
  · rw [h.serve_votedAt_of_ne hm hs hne] at hvoted
    rw [hs.inbox_of_ne hne, hs.replies] at hmem
    rw [voteReply_congr (h.serve_waits hs ho hne hr hvoted)]
    exact h.votes hr hphase hvoted hmem

theorem Sound.serve_pending (hw : Writes callers s' d key val v) (hheard : Heard s' d j)
    (hvoted : VotedAt s' d j) : version (copyAt s' key j) < v := by
  rw [hs.writes] at hw
  rw [hs.heard] at hheard
  by_cases hne : d = c ∧ j = i
  · obtain ⟨rfl, rfl⟩ := hne
    obtain ⟨-, -, -, hconn, -, -⟩ := ho.votedAt hvoted
    rw [Heard, (h.new hconn).2] at hheard
    cases hheard
  · rw [h.serve_votedAt_of_ne hm hs hne] at hvoted
    rw [h.serve_waits hs ho hne hw.1 hvoted]
    exact h.pending hw hheard hvoted

theorem Sound.serve_applied (hguard : Guarded q callers s e) (hw : Writes callers s' d key val v)
    (hheard : Heard s' d j) (hnot : ¬ VotedAt s' d j) : v ≤ version (copyAt s' key j) := by
  rw [hs.writes] at hw
  rw [hs.heard] at hheard
  by_cases hne : d = c ∧ j = i
  · obtain ⟨rfl, rfl⟩ := hne
    exact h.serve_applied_self ho hguard hw hheard
  · rw [h.serve_votedAt_of_ne hm hs hne] at hnot
    have hold := h.applied hw hheard hnot
    by_cases hj : j = i
    · subst hj
      rcases ho.copy key with hsame | ⟨val', w, hw', hheard', hvoted', hnew⟩
      · rwa [hsame]
      · have hlt := h.pending hw' hheard' hvoted'
        rw [hnew, version_some]
        omega
    · rwa [hs.copyAt_of_ne key hj]

end Serve

theorem Sound.serve (h : Sound q callers s) (hm : Meets q callers s c i e sess ev)
    (hguard : Guarded q callers s e) (hfree : AbsentKeyIsFree (s.servers i) ev)
    (hs : Served honest s s' c i sess ev) : Sound q callers s' := by
  have ho := handled_of_served h.linked hm hfree hs
  exact
    { linked := h.linked.serve hm hfree hs
      inside := h.serve_inside hm hs
      new := h.serve_new hs
      copies := h.serve_copies hs ho
      base := h.serve_base hs ho
      votes := h.serve_votes hm hs ho
      pending := h.serve_pending hm hs ho
      applied := h.serve_applied hm hs ho hguard
      quorum := fun {d key val v} hw => by
        rw [hs.replies]
        exact h.quorum (hs.writes.mp hw)
      above := fun hw => h.above (hs.writes.mp hw)
      unique := fun hw hw' => h.unique (hs.writes.mp hw) (hs.writes.mp hw')
      reads := h.serve_reads hs ho
      outcome := fun {d out} hout => by
        rw [hs.phase] at hout
        rw [hs.replies]
        exact h.outcome hout }

/-! ## Replies of two clients -/

theorem responsesG_eq_card (N : ℕ) (f : ℕ → Option (List Char)) :
    responsesG N f = ((Finset.range N).filter fun i => (f i).isSome).card := by
  rw [responsesG, ← countP_range]
  exact List.countP_congr fun i _ => by simp

theorem exists_reply_both {N : ℕ} {f g : ℕ → Option (List Char)}
    (h : N < responsesG N f + responsesG N g) : ∃ i < N, (f i).isSome ∧ (g i).isSome := by
  rw [responsesG_eq_card, responsesG_eq_card] at h
  obtain ⟨i, hi⟩ := Finset.inter_nonempty_of_card_lt_card_add_card (Finset.filter_subset _ _)
    (Finset.filter_subset _ _) (by rwa [Finset.card_range])
  obtain ⟨hf, hg⟩ := Finset.mem_inter.mp hi
  obtain ⟨hiN, hf⟩ := Finset.mem_filter.mp hf
  exact ⟨i, Finset.mem_range.mp hiN, hf, (Finset.mem_filter.mp hg).2⟩

theorem responsesG_le (N : ℕ) (f : ℕ → Option (List Char)) : responsesG N f ≤ N := by
  simpa [responsesG] using List.countP_le_length (p := fun i => (f i).isSome) (l := List.range N)

theorem length_heardVersions :
    (heardVersions q s c key).length = responsesG q.N (s.clients c).replies := by
  rw [heardVersions, List.length_map, responsesG, List.countP_eq_length_filter]

theorem mem_heardVersions :
    v ∈ heardVersions q s c key ↔ ∃ i < q.N, Heard s c i ∧ version (copyAt s key i) = v := by
  simp [heardVersions, Heard, and_assoc]

theorem tally_heardVersions : tally (heardVersions q s c key) v =
    (List.range q.N).countP fun i =>
      ((s.clients c).replies i).isSome ∧ version (copyAt s key i) = v := by
  rw [tally, heardVersions, List.countP_map, List.countP_filter]
  refine List.countP_congr fun i _ => ?_
  simp [and_comm]

theorem baseVersion_nonneg (key : Word) : 0 ≤ baseVersion key := by
  unfold baseVersion
  cases he : stored key.chars initTable with
  | none => exact le_rfl
  | some e =>
    obtain ⟨i, hi, rfl⟩ := Option.map_eq_some_iff.mp he
    obtain rfl : i = 0 := by simpa [initTable] using searchKey_lt hi
    decide

theorem Sound.heard_lt (h : Sound q callers s) (hheard : Heard s c i) : i < q.N := by
  refine h.inside (c := c) (Option.isSome_iff_ne_none.mpr fun hnone => ?_)
  rw [Heard, (h.new hnone).2] at hheard
  cases hheard

/-- A copy with a version above the first is written by a client. -/
theorem Sound.writes_of_base_lt (h : Sound q callers s)
    (hlt : baseVersion key < version (copyAt s key i)) :
    ∃ c val, Writes callers s c key val (version (copyAt s key i)) := by
  cases hcopy : copyAt s key i with
  | none =>
    have := baseVersion_nonneg key
    rw [hcopy, version_none] at hlt
    omega
  | some e =>
    rw [hcopy] at hlt
    rcases h.copies hcopy with hinit | ⟨c, val, hw, -⟩
    · rw [baseVersion, hinit] at hlt
      exact absurd hlt (lt_irrefl _)
    · exact ⟨c, val, hw⟩

/-! ## What a client decides -/

section Decide

variable (h : Sound q callers s) (hr : (callers c).request = .put key val)
  (hphase : (s.clients c).phase = .collecting) (hvotes : ∀ i < q.N, Heard s c i → VotedAt s c i)
include h hr hphase hvotes

/-- What `selectServer` files in a `PUT` are the versions of its voters. -/
theorem Sound.map_fst_putItems :
    (putItems (keyVals_c (callers c).env (s.clients c).replies) (List.range q.N)).map Prod.fst =
      heardVersions q s c key := by
  rw [putItems, answered_keyVals_c, heardVersions, List.map_map]
  refine List.map_congr_left fun i hi => ?_
  obtain ⟨hi, hsome⟩ := List.mem_filter.mp hi
  obtain ⟨m, hm⟩ := Option.isSome_iff_exists.mp hsome
  have hvoted := hvotes i (List.mem_range.mp hi) hsome
  have hreply := h.votes hr hphase hvoted (Or.inr hm)
  simp only [Function.comp, keyVals_c, hm, hreply, voteReply]
  cases hcopy : stored key.chars (s.servers i).table with
  | none => simp [connectTo_zero, copyAt, hcopy]
  | some e =>
    have hwritten := h.copies (v := e.1) (x := e.2) hcopy
    rw [copyAt, hcopy]
    simp only [connectTo_voteMsg _ _ key.isWord hwritten.isWord (h.linked.isInt_of_written hwritten)]
    rfl

/-- Where a voter of this client is also one of a client that has decided before, the update is applied. -/
theorem Sound.le_version_of_writes (hi : i < q.N) (hc : Heard s c i)
    (hw : Writes callers s d key val' w) (hd : Heard s d i) : w ≤ version (copyAt s key i) := by
  have hcd : c ≠ d := by
    rintro rfl
    cases hphase.symm.trans hw.2
  refine h.applied hw hd fun hvoted => hcd ?_
  exact h.linked.holdsAt_unique (h.linked.holdsAt (hvotes i hi hc) hr) (h.linked.holdsAt hvoted hw.1)

/-- The voters have no smaller version than whoever has decided before. -/
theorem Sound.le_of_writes (hquorum : q.Nw ≤ responsesG q.N (s.clients c).replies) {top : ℤ}
    (hle : ∀ x ∈ heardVersions q s c key, x ≤ top) (hw : Writes callers s d key val' w) : w ≤ top := by
  have hmajority := q.majority
  have hquorum' := h.quorum hw
  obtain ⟨i, hi, hc, hd⟩ := exists_reply_both (N := q.N) (f := (s.clients c).replies)
    (g := (s.clients d).replies) (by omega)
  exact (h.le_version_of_writes hr hphase hvotes hi hc hw hd).trans
    (hle _ (mem_heardVersions.mpr ⟨i, hi, hc, rfl⟩))

/-- So many voters share the highest version that the buckets stay inside the table. -/
theorem Sound.length_group_putItems_lt (hN : q.N ≤ MAX_CON)
    (hquorum : q.Nw ≤ responsesG q.N (s.clients c).replies) {top : ℤ}
    (hmem : top ∈ heardVersions q s c key) (hle : ∀ x ∈ heardVersions q s c key, x ≤ top) :
    (group (putItems (keyVals_c (callers c).env (s.clients c).replies) (List.range q.N))).length <
      MAX_CON := by
  have hmajority := q.majority
  have hresponses := responsesG_le q.N (s.clients c).replies
  have hgroup := length_group_add_tally_le
    (putItems (keyVals_c (callers c).env (s.clients c).replies) (List.range q.N)) top
  rw [h.map_fst_putItems hr hphase hvotes, length_putItems, length_answered] at hgroup
  have hpos := tally_pos_iff.mpr hmem
  rcases hresponses.lt_or_eq with hlt | hall
  · omega
  · -- everybody has voted, and a write quorum of them has the version
    have hheard : ∀ i < q.N, ((s.clients c).replies i).isSome := fun i hi =>
      List.countP_eq_length.mp (by rw [← responsesG, hall, List.length_range]) i (List.mem_range.mpr hi)
    have hcount : q.Nw ≤ tally (heardVersions q s c key) top := by
      obtain ⟨i, hi, hci, htop⟩ := mem_heardVersions.mp hmem
      rcases (h.base i key).lt_or_eq with hbase | hbase
      · obtain ⟨d, val', hw⟩ := h.writes_of_base_lt hbase
        rw [htop] at hw
        refine (h.quorum hw).trans ?_
        rw [tally_heardVersions, responsesG]
        refine Int.ofNat_le.mpr (List.countP_mono_left fun j hj hdj => ?_)
        have hjN := List.mem_range.mp hj
        have hge := h.le_version_of_writes hr hphase hvotes hjN (hheard j hjN) hw hdj
        have hle' := hle _ (mem_heardVersions.mpr ⟨j, hjN, hheard j hjN, rfl⟩)
        exact decide_eq_true ⟨hheard j hjN, by omega⟩
      · rw [tally_heardVersions, List.countP_eq_length.mpr ?_, List.length_range]
        · omega
        · intro j hj
          have hjN := List.mem_range.mp hj
          have hge := h.base j key
          have hle' := hle _ (mem_heardVersions.mpr ⟨j, hjN, hheard j hjN, rfl⟩)
          exact decide_eq_true ⟨hheard j hjN, by omega⟩
    rw [MAX_CON] at hN ⊢
    omega

/-- A `PUT` that decides writes the version after the highest one of its voters. -/
theorem Sound.updating (hN : q.N ≤ MAX_CON) (htop : TopVersionDecides q callers s (.decide c))
    (hout : connectThreadPut q.N q.Nr q.Nw (callers c).env (s.clients c).replies = .update v) :
    q.Nw ≤ responsesG q.N (s.clients c).replies ∧
      (∀ x ∈ heardVersions q s c key, x < v) ∧ baseVersion key < v ∧
      ∀ {d val' w}, Writes callers s d key val' w → w < v := by
  have hquorum : q.Nw ≤ responsesG q.N (s.clients c).replies := by
    by_contra hlt
    rw [connectThreadPut, if_pos (not_le.mp hlt)] at hout
    cases hout
  simp only [TopVersionDecides, hr] at htop
  obtain ⟨m, hmem, hplur, hle, hmax⟩ := htop (by rwa [length_heardVersions])
  have hupdate := connectThreadPut_update q.Nr q.Nw (callers c).env hN hquorum
    (h.length_group_putItems_lt hr hphase hvotes hN hquorum hmem hle)
    (by rw [h.map_fst_putItems hr hphase hvotes]; exact hplur)
  obtain ⟨i, -, -, him⟩ := mem_heardVersions.mp hmem
  have hbase := h.base i key
  have hnonneg := baseVersion_nonneg key
  rw [hout, wrap32_of_range (by omega) (by omega)] at hupdate
  obtain rfl := PutOutcome.update.inj hupdate
  refine ⟨hquorum, fun x hx => Int.lt_add_one_of_le (hle x hx), by omega, fun hw => ?_⟩
  exact Int.lt_add_one_of_le (h.le_of_writes hr hphase hvotes hquorum hle hw)

end Decide

/-! ## Runs -/

section Alone

variable {y : ClientState}

/-- What a client keeps while it acts by itself, all clients keep. -/
theorem field_setClient {α : Type*} (g : ClientState → α) (hg : g y = g (s.clients c)) (d : ℕ) :
    g ((s.setClient c y).clients d) = g (s.clients d) := by
  by_cases hd : d = c
  · rw [hd, clients_setClient_self, hg]
  · rw [clients_setClient_of_ne _ _ hd]

/-- The servers do not see what a client does by itself. -/
theorem votedAt_setClient (hconn : y.conn = (s.clients c).conn) :
    VotedAt (s.setClient c y) d i ↔ VotedAt s d i := by
  have hsession : sessionAt (s.setClient c y) d i = sessionAt s d i := by
    unfold sessionAt
    rw [field_setClient ClientState.conn hconn, servers_setClient]
  rw [VotedAt, hsession, VotedAt]

theorem writes_setClient (hphase : y.phase = (s.clients c).phase) :
    Writes callers (s.setClient c y) d key val v ↔ Writes callers s d key val v := by
  rw [Writes, field_setClient ClientState.phase hphase, Writes]

theorem writes_setClient_of_ne (hne : d ≠ c) :
    Writes callers (s.setClient c y) d key val v ↔ Writes callers s d key val v := by
  rw [Writes, clients_setClient_of_ne _ _ hne, Writes]

/-- A client that has not decided writes nothing. -/
theorem ne_of_writes (hphase : (s.clients c).phase = .collecting) (hw : Writes callers s d key val v) :
    d ≠ c := by
  rintro rfl
  cases hphase.symm.trans hw.2

end Alone

/-- The reply of server `i` is received. -/
theorem Sound.hear (h : Sound q callers s) (hphase : (s.clients c).phase = .collecting)
    (hin : (s.clients c).inbox i = some m) :
    Sound q callers (s.setClient c
      { s.clients c with
        inbox := Function.update (s.clients c).inbox i none
        replies := Function.update (s.clients c).replies i (some m) }) := by
  set y : ClientState := { s.clients c with
    inbox := Function.update (s.clients c).inbox i none
    replies := Function.update (s.clients c).replies i (some m) } with hy
  have hsame : ∀ {d}, d ≠ c → (s.setClient c y).clients d = s.clients d :=
    fun hd => clients_setClient_of_ne _ _ hd
  have hconn := field_setClient (s := s) (c := c) (y := y) ClientState.conn rfl
  have hphases := field_setClient (s := s) (c := c) (y := y) ClientState.phase rfl
  have hvoted : ∀ {d j}, VotedAt (s.setClient c y) d j ↔ VotedAt s d j := votedAt_setClient rfl
  have hwrites : ∀ {d key val v}, Writes callers (s.setClient c y) d key val v ↔
      Writes callers s d key val v := writes_setClient rfl
  have hwritten : ∀ {key v x}, Written callers s key v x → Written callers (s.setClient c y) key v x := by
    simp only [Written, hwrites, imp_self, implies_true]
  -- whoever has decided is another client
  have hheard : ∀ {d key val v j}, Writes callers s d key val v →
      (Heard (s.setClient c y) d j ↔ Heard s d j) := fun hw => by
    rw [Heard, hsame (ne_of_writes hphase hw), Heard]
  have hmail : ∀ {d j m'}, ((s.setClient c y).clients d).inbox j = some m' ∨
      ((s.setClient c y).clients d).replies j = some m' →
      (s.clients d).inbox j = some m' ∨ (s.clients d).replies j = some m' := by
    intro d j m' hmem
    by_cases hd : d = c
    · subst hd
      rw [clients_setClient_self] at hmem
      by_cases hj : j = i
      · subst hj
        simp only [hy, Function.update_self] at hmem
        rcases hmem with hmem | hmem
        · cases hmem
        · exact Or.inl (hmem ▸ hin)
      · simpa only [hy, Function.update_of_ne hj] using hmem
    · rwa [hsame hd] at hmem
  refine ⟨h.linked.setClient rfl fun _ hp => h.linked.vno hp, fun hd => h.inside (hconn _ ▸ hd),
    fun {d j} hd => ?_, fun hcopy => hwritten (h.copies hcopy), h.base,
    fun hr hd hv hmem => h.votes hr (hphases _ ▸ hd) (hvoted.mp hv) (hmail hmem),
    fun hw hh hv => ?_, fun hw hh hv => ?_, fun {d key val v} hw => ?_,
    fun hw => h.above (hwrites.mp hw), fun hw hw' => h.unique (hwrites.mp hw) (hwrites.mp hw'),
    fun hr hmem => ?_, fun {d out} hout => ?_⟩
  · rw [hconn] at hd
    have hnew := h.new hd
    by_cases hdc : d = c
    · subst hdc
      have hji : j ≠ i := by
        rintro rfl
        cases hnew.1.symm.trans hin
      rw [clients_setClient_self]
      simpa only [hy, Function.update_of_ne hji] using hnew
    · rwa [hsame hdc]
  · have hw := hwrites.mp hw
    exact h.pending hw ((hheard hw).mp hh) (hvoted.mp hv)
  · have hw := hwrites.mp hw
    exact h.applied hw ((hheard hw).mp hh) fun hv' => hv (hvoted.mpr hv')
  · have hw := hwrites.mp hw
    rw [hsame (ne_of_writes hphase hw)]
    exact h.quorum hw
  · obtain ⟨w, x, hm, hx⟩ := h.reads hr (hmail hmem)
    exact ⟨w, x, hm, hwritten hx⟩
  · rw [hphases] at hout
    have hdc : d ≠ c := by
      rintro rfl
      cases hphase.symm.trans hout
    rw [hsame hdc]
    exact h.outcome hout

/-- A `GET` ends with what `selectServer` gave. -/
theorem Caller.decide_read {r : Caller} {f : ℕ → Option (List Char)} {out : GetOutcome}
    (hdecide : r.decide q f = some (.read out)) :
    (∃ key, r.request = .get key) ∧ connectThreadGet q.N q.Nr q.Nw r.env f = out := by
  unfold Caller.decide at hdecide
  split at hdecide
  · rename_i key hr
    refine ⟨⟨key, hr⟩, ?_⟩
    split at hdecide
    · cases hdecide
    · exact Phase.read.inj (Option.some.inj hdecide)
  · split at hdecide <;> cases hdecide

/-- The threads of a client are joined. -/
theorem Sound.decide (hN : q.N ≤ MAX_CON) (h : Sound q callers s)
    (hphase : (s.clients c).phase = .collecting) (hguard : Guarded q callers s (.decide c)) {p : Phase}
    (hdecide : (callers c).decide q (s.clients c).replies = some p) :
    Sound q callers (s.setClient c { s.clients c with phase := p }) := by
  set y : ClientState := { s.clients c with phase := p } with hy
  have hconn := field_setClient (s := s) (c := c) (y := y) ClientState.conn rfl
  have hinbox := field_setClient (s := s) (c := c) (y := y) ClientState.inbox rfl
  have hreplies := field_setClient (s := s) (c := c) (y := y) ClientState.replies rfl
  have hvoted : ∀ {d j}, VotedAt (s.setClient c y) d j ↔ VotedAt s d j := votedAt_setClient rfl
  have hheard : ∀ {d j}, Heard (s.setClient c y) d j ↔ Heard s d j := fun {d j} => by
    rw [Heard, hreplies, Heard]
  have hcollecting : ∀ {d}, ((s.setClient c y).clients d).phase = .collecting →
      (s.clients d).phase = .collecting := by
    intro d hd
    by_cases hdc : d = c
    · rw [hdc, hphase]
    · rwa [clients_setClient_of_ne _ _ hdc] at hd
  -- either the client has just decided, or it had before
  have hwrites : ∀ {d key val v}, Writes callers (s.setClient c y) d key val v →
      Writes callers s d key val v ∨ d = c ∧ (callers c).request = .put key val ∧ p = .updating v := by
    intro d key val v hw
    by_cases hd : d = c
    · subst hd
      obtain ⟨hr, hw⟩ := hw
      rw [clients_setClient_self] at hw
      exact Or.inr ⟨rfl, hr, hw⟩
    · exact Or.inl ((writes_setClient_of_ne hd).mp hw)
  have hwritten : ∀ {key v x}, Written callers s key v x → Written callers (s.setClient c y) key v x := by
    rintro key v x (hinit | ⟨d, val, hw, rfl⟩)
    · exact Or.inl hinit
    · exact Or.inr ⟨d, val, (writes_setClient_of_ne (ne_of_writes hphase hw)).mpr hw, rfl⟩
  have hvotes : ∀ {key val}, (callers c).request = .put key val →
      ∀ i < q.N, Heard s c i → VotedAt s c i := by
    intro key val hr
    have hv := hguard.votes
    rwa [VotesStay, hr] at hv
  have hnew : ∀ {key val v}, (callers c).request = .put key val → p = .updating v →
      q.Nw ≤ responsesG q.N (s.clients c).replies ∧
        (∀ x ∈ heardVersions q s c key, x < v) ∧ baseVersion key < v ∧
        ∀ {d val' w}, Writes callers s d key val' w → w < v := fun hr hp =>
    h.updating hr hphase (hvotes hr) hN hguard.top (Caller.decide_updating (hp ▸ hdecide))
  have hvno : ∀ v, p = .updating v → IsInt v := fun v hp =>
    connectThreadPut_isInt (Caller.decide_updating (hp ▸ hdecide))
  refine ⟨h.linked.setClient rfl hvno, fun hd => h.inside (hconn _ ▸ hd), fun {d j} hd => ?_,
    fun hcopy => hwritten (h.copies hcopy), h.base, fun hr hd hv hmem => ?_, fun hw hh hv => ?_,
    fun hw hh hv => ?_, fun {d key val v} hw => ?_, fun hw => ?_, fun {d d' key val val' v} hw hw' => ?_,
    fun {d j key m} hr hmem => ?_, fun {d out} hout => ?_⟩
  · rw [hinbox, hreplies]
    exact h.new (hconn _ ▸ hd)
  · rw [hinbox, hreplies] at hmem
    exact h.votes hr (hcollecting hd) (hvoted.mp hv) hmem
  · rcases hwrites hw with hw | ⟨rfl, hr, hp⟩
    · exact h.pending hw (hheard.mp hh) (hvoted.mp hv)
    · have hh := hheard.mp hh
      exact (hnew hr hp).2.1 _ (mem_heardVersions.mpr ⟨_, h.heard_lt hh, hh, rfl⟩)
  · rcases hwrites hw with hw | ⟨rfl, hr, hp⟩
    · exact h.applied hw (hheard.mp hh) fun hv' => hv (hvoted.mpr hv')
    · have hh := hheard.mp hh
      exact absurd (hvoted.mpr (hvotes hr _ (h.heard_lt hh) hh)) hv
  · rw [hreplies]
    rcases hwrites hw with hw | ⟨rfl, hr, hp⟩
    · exact h.quorum hw
    · exact (hnew hr hp).1
  · rcases hwrites hw with hw | ⟨rfl, hr, hp⟩
    · exact h.above hw
    · exact (hnew hr hp).2.2.1
  · rcases hwrites hw with hold | ⟨rfl, hr, hp⟩ <;> rcases hwrites hw' with hold' | ⟨rfl, hr', hp'⟩
    · exact h.unique hold hold'
    · exact absurd ((hnew hr' hp').2.2.2 hold) (lt_irrefl _)
    · exact absurd ((hnew hr hp).2.2.2 hold') (lt_irrefl _)
    · rfl
  · rw [hinbox, hreplies] at hmem
    obtain ⟨w, x, hm, hx⟩ := h.reads hr hmem
    exact ⟨w, x, hm, hwritten hx⟩
  · rw [hreplies]
    by_cases hdc : d = c
    · subst hdc
      rw [clients_setClient_self] at hout
      obtain rfl : p = .read out := hout
      exact Caller.decide_read hdecide
    · rw [clients_setClient_of_ne _ _ hdc] at hout
      exact h.outcome hout

theorem Sound.step (hN : q.N ≤ MAX_CON) (s : Network) (e : NetEvent) (s' : Network)
    (h : Sound q callers s) (hguard : Guarded q callers s e)
    (hstep : netStep q honest callers s e = some s') : Sound q callers s' := by
  rcases netStep_cases hstep with ⟨c, i, sess, ev, hm, hserve⟩ | ⟨c, i, m, rfl, hphase, hin, rfl⟩ |
    ⟨c, p, rfl, hphase, hdecide, rfl⟩
  · exact h.serve hm hguard (hm.absentKeyIsFree hguard.absent) (served_of_serve hserve)
  · exact h.hear hphase hin
  · exact h.decide hN hphase hguard hdecide

/-- Servers that hold one version of a key hold one value. -/
def CopiesAgree (s : Network) : Prop :=
  ∀ (key : Word) i j v x y, copyAt s key i = some (v, x) → copyAt s key j = some (v, y) → x = y

/-- A server's copy changes to one with a larger version only. -/
def VersionsRise (s s' : Network) : Prop :=
  ∀ (key : Word) i, copyAt s' key i = copyAt s key i ∨
    version (copyAt s key i) < version (copyAt s' key i)

theorem Sound.copiesAgree (h : Sound q callers s) : CopiesAgree s := by
  intro key i j v x y hi hj
  rcases h.copies hi with hinit | ⟨c, val, hw, rfl⟩ <;>
    rcases h.copies hj with hinit' | ⟨d, val', hw', rfl⟩
  · exact (Prod.mk.inj (Option.some.inj (hinit.symm.trans hinit'))).2
  · have hlt := h.above hw'
    rw [baseVersion, hinit, version_some] at hlt
    exact absurd hlt (lt_irrefl _)
  · have hlt := h.above hw
    rw [baseVersion, hinit', version_some] at hlt
    exact absurd hlt (lt_irrefl _)
  · obtain rfl := h.unique hw hw'
    obtain ⟨-, rfl⟩ := Request.put.inj (hw.1.symm.trans hw'.1)
    rfl

theorem Sound.versionsRise (h : Sound q callers s) (hguard : Guarded q callers s e)
    (hstep : netStep q honest callers s e = some s') : VersionsRise s s' := by
  intro key j
  rcases netStep_cases hstep with ⟨c, i, sess, ev, hm, hserve⟩ | ⟨c, i, m, -, -, -, rfl⟩ |
    ⟨c, p, -, -, -, rfl⟩
  · have hs := served_of_serve hserve
    by_cases hj : j = i
    · subst hj
      rcases (handled_of_served h.linked hm (hm.absentKeyIsFree hguard.absent) hs).copy key with
        hsame | ⟨val, v, hw, hheard, hvoted, hnew⟩
      · exact Or.inl hsame
      · refine Or.inr ?_
        rw [hnew, version_some]
        exact h.pending hw hheard hvoted
    · refine Or.inl ?_
      rw [copyAt, hs.server j hj, copyAt]
  · exact Or.inl rfl
  · exact Or.inl rfl

/-- In every such run a copy changes to one with a larger version only, and at any time the copies of one
version are the same everywhere: no two `PUT`s write under one version. -/
theorem versions_rise (q : Quorums) (hN : q.N ≤ MAX_CON) (callers : ℕ → Caller) {es : List NetEvent}
    (hguard : Each (netStep q honest callers) (Guarded q callers) .init es) :
    Steps (netStep q honest callers) (fun s _ s' => VersionsRise s s' ∧ CopiesAgree s') .init es :=
  steps_of_each sound_init (Sound.step hN)
    (fun s e s' h hguard' hstep =>
      ⟨h.versionsRise hguard' hstep, (h.step hN s e s' hguard' hstep).copiesAgree⟩) hguard

/-- A `PUT`, a `GET` and another `PUT` of one key. -/
def putGetPut : ℕ → Caller
  | 0 => ⟨.put presentKey firstValue, {}⟩
  | 1 => ⟨.get presentKey, {}⟩
  | _ => ⟨.put presentKey secondValue, {}⟩

/-- The `GET` asks one server before the first `PUT` decides and one after its update. The second `PUT`
starts before the `GET` has ended. -/
def overlapping : List NetEvent :=
  [.contact 1 2 {}, .contact 0 0 {}, .contact 0 1 {}, .hear 0 0, .hear 0 1, .decide 0, .sent 1 2,
    .deliver 0 0 {}, .deliver 0 0 {}, .contact 1 0 {}, .sent 1 0, .contact 2 0 {}, .contact 2 2 {},
    .hear 1 0, .hear 1 2, .decide 1, .hear 2 0, .hear 2 2, .decide 2, .deliver 2 2 {}]

theorem versions_rise_overlapping :
    Steps (netStep threeServers honest putGetPut) (fun s _ s' => VersionsRise s s' ∧ CopiesAgree s')
      .init overlapping :=
  versions_rise threeServers (by decide) putGetPut (by decide)

end QuorumLogFs.Vote
