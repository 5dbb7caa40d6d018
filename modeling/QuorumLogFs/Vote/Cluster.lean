import QuorumLogFs.Vote.Client
import QuorumLogFs.Vote.Sessions

/-!
# Client runs against the servers, one after the other

A run of the client opens one connection to every server; `isReply` decides on each side whether the
server looks at it. When runs do not overlap, a server's part of a run is its session from the first
message to the end: `endSession` for the parts after the client has decided. The machine of this
module takes one client run at a time and records what came of it.
-/

namespace QuorumLogFs.Vote

open QuorumLogFs.Basis

/-! ## One server's part of a run -/

/-- The first message of a connection, which is dropped when `isReply` refuses it. -/
def firstRound (answers : Bool) (loc : Locals) (msg : List Char) (t : Table) :
    Option (Table × Option (List Char) × Session) :=
  if answers then responseServer 0 loc msg t else some (t, none, .closed)

/-- The rest of the session: a read ends, a `PUT` session gets the client's `update` and answers it,
or `none` when the client has exited. `keyG` is the key the client releases after `updatedone`. -/
def endSession (loc : Locals) (update : Option (List Char)) (keyG : List Char) (t : Table) :
    Session → Option Table
  | .reading i => some (getResponseDecr i t)
  | .voted key i => do
    let (t, resMsg, keyNew) ← putResponseUpdate key i loc update t
    match keyNew with
    | some keyNew => putResponseRelease key keyNew loc (resMsg.bind (connectToRelease keyG)) t
    | none => some t
  | _ => some t

/-- Nobody works on the entry, and the client can read it. -/
structure KeyVal.Idle (kv : KeyVal) : Prop where
  lock : kv.lock = 0
  numGetters : kv.numGetters = 0
  value : IsWord kv.value
  vno : IsInt kv.vno

/-- Between runs every key that is found is idle. A slot without a name may stay locked for ever. -/
def Idle (t : Table) : Prop :=
  ∀ key i, IsWord key → searchKey key t = some i → (entry t i).Idle

/-- The version and the value a table holds for a key. -/
def stored (key : List Char) (t : Table) : Option (ℤ × List Char) :=
  (searchKey key t).map fun i => ((entry t i).vno, (entry t i).value)

theorem idle_initTable : Idle initTable := by
  intro key i hkey hi
  have h0 : i = 0 := by
    have := searchKey_lt hi
    simpa [initTable] using this
  subst h0
  exact ⟨rfl, rfl, by decide, by decide⟩

/-- Two tables agree on the keys that satisfy `p`: these are found in the same slots, with the same
contents. -/
def SameFor (p : List Char → Prop) (t t' : Table) : Prop :=
  ∀ k, IsWord k → p k → searchKey k t' = searchKey k t ∧
    ∀ i, searchKey k t = some i → entry t' i = entry t i

theorem SameFor.trans {p : List Char → Prop} {t t' t'' : Table} (h : SameFor p t t')
    (h' : SameFor p t' t'') : SameFor p t t'' := by
  intro k hk hp
  obtain ⟨hs, he⟩ := h k hk hp
  obtain ⟨hs', he'⟩ := h' k hk hp
  refine ⟨hs'.trans hs, fun i hi => ?_⟩
  rw [he' i (hs.trans hi), he i hi]

theorem SameFor.stored_eq {p : List Char → Prop} {t t' : Table} (h : SameFor p t t')
    {k : List Char} (hk : IsWord k) (hp : p k) : stored k t' = stored k t := by
  obtain ⟨hs, he⟩ := h k hk hp
  rw [stored, stored, hs]
  cases hi : searchKey k t with
  | none => rfl
  | some i => simp [he i hi]

theorem SameFor.idle {t t' : Table} (h : SameFor (fun _ => True) t t') (ht : Idle t) : Idle t' := by
  intro k i hk hi
  obtain ⟨hs, he⟩ := h k hk trivial
  rw [hs] at hi
  rw [he i hi]
  exact ht k i hk hi

/-- A slot without a name is not seen. -/
theorem sameFor_append (t : Table) (kv : KeyVal) (hkv : kv.key = []) :
    SameFor (fun _ => True) t (t ++ [kv]) := by
  intro k hk _
  constructor
  · simp [searchKey, List.findIdx?_append, hkv, hk.1]
  · intro i hi
    simp [entry, List.getD, List.getElem?_append_left (searchKey_lt hi)]

/-- A slot is seen under its key only. -/
theorem sameFor_modify {t : Table} {i : ℕ} {key : List Char} {f : KeyVal → KeyVal}
    (hf : ∀ kv, (f kv).key = kv.key) (hi : (entry t i).key = key) :
    SameFor (· ≠ key) t (t.modify i f) := by
  intro k _ hne
  refine ⟨searchKey_modify hf k i t, fun j hj => entry_modify_ne ?_ f⟩
  rintro rfl
  exact hne ((key_entry_of_searchKey hj).symm.trans hi)

/-! ## A `GET` session -/

/-- A `GET` leaves an idle table as it was and delivers what it holds. -/
theorem get_session {t : Table} (ht : Idle t) (key : Word) (loc : Locals) :
    ∃ r, responseServer 0 loc (getMsg key.chars) t = some r ∧
      r.2.1 = ((stored key.chars t).map fun e => voteMsg e.1 key.chars e.2) ∧
      ∀ loc' update keyG, endSession loc' update keyG r.1 r.2.2 = some t := by
  rw [responseServer_getMsg 0 loc key.isWord key.fits_key, getResponseSend]
  cases hi : searchKey key.chars t with
  | none => exact ⟨_, rfl, by simp [stored, hi], fun _ _ _ => rfl⟩
  | some i =>
    have hlock := (ht key.chars i key.isWord hi).lock
    simp only [hlock, if_true]
    refine ⟨_, rfl, by simp [stored, hi, key_entry_of_searchKey hi], fun _ _ _ => ?_⟩
    rw [endSession, getResponseDecr, modify_modify]
    exact congrArg some (modify_eq_self (by simp))

/-! ## A `PUT` session -/

/-- A server's vote as a message: its entry, or the bare version `0`. -/
def voteReply (key : List Char) (t : Table) : List Char :=
  match stored key t with
  | some e => voteMsg e.1 key e.2
  | none => decimal 0

/-- The slot a voting server has locked: the one found under the key, or a new one without name. -/
def VoteSlot (key : List Char) (t t' : Table) (i : ℕ) : Prop :=
  (searchKey key t = some i ∧ t' = t.modify i fun kv => { kv with lock := 1 }) ∨
    (searchKey key t = none ∧ i = t.length ∧ t' = t ++ [{ initKeyValStruct with lock := 1 }])

/-- An idle server that has room for the key votes. -/
theorem put_vote {t : Table} (ht : Idle t) (key val : Word) (loc : Locals)
    {r : Table × Option (List Char) × Session}
    (h : responseServer 0 loc (putMsg key.chars val.chars) t = some r) :
    ∃ t' i, r = (t', some (voteReply key.chars t), .voted key.chars i) ∧
      VoteSlot key.chars t t' i := by
  rw [responseServer_putMsg 0 loc key.isWord val.isWord key.fits_key val.fits_val,
    putResponseVote] at h
  cases hi : searchKey key.chars t with
  | none =>
    by_cases hlen : t.length < MAXKEYS
    · have hentry : entry (t ++ [initKeyValStruct]) t.length = initKeyValStruct := by
        rw [entry_append_init, entry_of_length_le le_rfl]
      simp only [hi, if_pos hlen, grantVote, hentry] at h
      refine ⟨_, t.length, ?_, Or.inr ⟨hi, rfl, rfl⟩⟩
      rw [← Option.some.inj h]
      simp only [modify_append_self, voteReply, stored, hi, if_true]
      rfl
    · simp [hi, hlen] at h
  | some i =>
    obtain ⟨hlock, hget, -, -⟩ := ht key.chars i key.isWord hi
    simp only [hi, grantVote, hlock, hget, and_self, if_true] at h
    refine ⟨_, i, ?_, Or.inl ⟨hi, rfl⟩⟩
    rw [← Option.some.inj h]
    simp [voteReply, stored, hi, key_entry_of_searchKey hi]

/-- When the client exits, the server is left with what it held. -/
theorem put_abort {t t' : Table} (ht : Idle t) {key : List Char} {i : ℕ} (hkey : IsWord key)
    (h : VoteSlot key t t' i) (loc : Locals) (keyG : List Char) :
    ∃ t'', endSession loc none keyG t' (.voted key i) = some t'' ∧
      SameFor (fun _ => True) t t'' := by
  refine ⟨releaselockResponse key t', rfl, ?_⟩
  rcases h with ⟨hi, rfl⟩ | ⟨hi, rfl, rfl⟩
  · have hlock := (ht key i hkey hi).lock
    have hself : releaselockResponse key (t.modify i fun kv => { kv with lock := 1 }) = t := by
      rw [releaselockResponse, searchKey_modify (fun _ => by rfl), hi]
      dsimp only
      rw [modify_modify]
      refine modify_eq_self ?_
      simp [← hlock]
    rw [hself]
    exact fun _ _ _ => ⟨rfl, fun _ _ => rfl⟩
  · have hsame := sameFor_append t { initKeyValStruct with lock := 1 } rfl
    have hnone : searchKey key (t ++ [{ initKeyValStruct with lock := 1 }]) = none :=
      (hsame key hkey trivial).1.trans hi
    rw [releaselockResponse, hnone]
    exact hsame

/-- A locked slot that is found under the key or that no key finds takes the update and is released.
-/
theorem endSession_update {t : Table} (key val : Word) {i : ℕ} (hi : i < t.length)
    (hlock : (entry t i).lock ≠ 0)
    (hslot : searchKey key.chars t = some i ∨ searchKey key.chars t = none) (loc : Locals) {vno : ℤ}
    (hvno : IsInt vno) :
    endSession loc (some (updateMsg key.chars val.chars vno)) key.chars t (.voted key.chars i) =
      some (t.modify i fun kv =>
        { kv with key := key.chars, value := val.chars, vno := vno, lock := 0 }) := by
  have hfound : searchKey key.chars (t.modify i fun kv => { kv with key := key.chars }) = some i := by
    rcases hslot with hsome | hnone
    · rw [searchKey_rename_same (key_entry_of_searchKey hsome), hsome]
    · exact searchKey_rename_self hi hnone
  have hlocked : (entry (t.modify i fun kv => { kv with key := key.chars }) i).lock ≠ 0 := by
    rw [entry_modify_self hi]
    exact hlock
  have hupdate := updateResponse_stored hfound hlocked val.fits_value vno
  rw [modify_modify] at hupdate
  have hfound' : searchKey key.chars (t.modify i
      ((fun kv => { kv with value := val.chars, vno := vno }) ∘
        fun kv => { kv with key := key.chars })) = some i := by
    rw [← modify_modify, searchKey_modify fun _ => by rfl]
    exact hfound
  simp only [endSession, putResponseUpdate_updateMsg key.chars i loc key val, storedInt_of_isInt hvno,
    hupdate, Option.map_some, Option.bind_eq_bind, Option.bind_some, connectToRelease_updatedoneMsg,
    putResponseRelease_releaselockMsg, releaselockResponse, hfound', modify_modify]
  rfl

/-- After a `PUT` the server holds the update, and what it held for other keys. -/
theorem put_update {t t' : Table} (ht : Idle t) (key val : Word) {i : ℕ}
    (h : VoteSlot key.chars t t' i) (loc : Locals) {vno : ℤ} (hvno : IsInt vno) :
    ∃ t'', endSession loc (some (updateMsg key.chars val.chars vno)) key.chars t'
        (.voted key.chars i) = some t'' ∧
      SameFor (· ≠ key.chars) t t'' ∧ stored key.chars t'' = some (vno, val.chars) ∧ Idle t'' := by
  -- the slot in the table after the vote
  have hvote : SameFor (· ≠ key.chars) t t' ∧ i < t'.length ∧ (entry t' i).lock ≠ 0 ∧
      (entry t' i).numGetters = 0 ∧
      ((searchKey key.chars t' = some i) ∨ (searchKey key.chars t' = none ∧ (entry t' i).key = [])) := by
    rcases h with ⟨hi, rfl⟩ | ⟨hi, rfl, rfl⟩
    · have hlt := searchKey_lt hi
      refine ⟨sameFor_modify (fun _ => by rfl) (key_entry_of_searchKey hi), by simpa using hlt, ?_,
        ?_, Or.inl ?_⟩
      · rw [entry_modify_self hlt]
        exact one_ne_zero
      · rw [entry_modify_self hlt]
        exact (ht key.chars i key.isWord hi).numGetters
      · rw [searchKey_modify (fun _ => by rfl), hi]
    · have hsame := sameFor_append t { initKeyValStruct with lock := 1 } rfl
      have hentry : entry (t ++ [{ initKeyValStruct with lock := 1 }]) t.length =
          { initKeyValStruct with lock := 1 } := by simp [entry]
      refine ⟨fun k hk _ => hsame k hk trivial, by simp, ?_, ?_, Or.inr ⟨?_, ?_⟩⟩
      · rw [hentry]
        exact one_ne_zero
      · rw [hentry]
        rfl
      · exact (hsame key.chars key.isWord trivial).1.trans hi
      · rw [hentry]
        rfl
  obtain ⟨hsame, hlt, hlock, hget, hslot⟩ := hvote
  refine ⟨_, endSession_update key val hlt hlock (hslot.imp id And.left) loc hvno, ?_⟩
  set t'' := t'.modify i fun kv =>
    { kv with key := key.chars, value := val.chars, vno := vno, lock := 0 } with ht''
  have hentry : entry t'' i =
      { entry t' i with key := key.chars, value := val.chars, vno := vno, lock := 0 } :=
    entry_modify_self hlt _
  have hsplit : t'' = (t'.modify i fun kv => { kv with key := key.chars }).modify i
      fun kv => { kv with value := val.chars, vno := vno, lock := 0 } := by
    rw [ht'', modify_modify]
    rfl
  have hfound : searchKey key.chars t'' = some i := by
    rw [hsplit, searchKey_modify fun _ => by rfl]
    rcases hslot with hsome | ⟨hnone, -⟩
    · rw [searchKey_rename_same (key_entry_of_searchKey hsome), hsome]
    · exact searchKey_rename_self hlt hnone
  have hrest : SameFor (· ≠ key.chars) t' t'' := by
    intro k hk hne
    have hslotKey : k ≠ (entry t' i).key := by
      rcases hslot with hsome | ⟨-, hnil⟩
      · rwa [key_entry_of_searchKey hsome]
      · rw [hnil]
        exact hk.1
    refine ⟨?_, fun j hj => entry_modify_ne ?_ _⟩
    · rw [hsplit, searchKey_modify fun _ => by rfl]
      exact searchKey_rename_ne hne hslotKey
    · rintro rfl
      exact hslotKey (key_entry_of_searchKey hj).symm
  refine ⟨hsame.trans hrest, ?_, ?_⟩
  · simp [stored, hfound, hentry]
  · intro k j hk hj
    by_cases hne : k = key.chars
    · obtain rfl : i = j := by simpa [hne, hfound] using hj
      rw [hentry]
      exact ⟨rfl, hget, val.isWord, hvno⟩
    · obtain ⟨hs, he⟩ := (hsame.trans hrest) k hk hne
      rw [hs] at hj
      rw [he j hj]
      exact ht k j hk hj

/-! ## The machine -/

/-- What the command line asks for. -/
inductive Request where
  | get (key : Word)
  | put (key val : Word)

/-- The first message of a run. -/
def Request.msg : Request → List Char
  | .get key => getMsg key.chars
  | .put key val => putMsg key.chars val.chars

/-- `keyG` -/
def Request.keyG : Request → List Char
  | .get key => key.chars
  | .put key _ => key.chars

/-- A run of the client: `answers` are the servers whose `isReply` lets it through. -/
structure ClientRun where
  request : Request
  answers : Finset ℕ
  env : Env := {}
  loc : ℕ → Locals := fun _ => {}

/-- What is left of a run. -/
inductive Done where
  | get (key : List Char) (out : GetOutcome)
  | put (key val : List Char) (out : PutOutcome)
deriving DecidableEq, Repr

/-- The servers' tables and the runs so far. -/
structure Cluster where
  tables : ℕ → Table
  history : List Done

/-- All servers have just started. -/
def Cluster.init : Cluster := ⟨fun _ => initTable, []⟩

/-- What server `i` does with the first message. -/
def ClientRun.first (r : ClientRun) (tables : ℕ → Table) (i : ℕ) :
    Option (Table × Option (List Char) × Session) :=
  firstRound (decide (i ∈ r.answers)) (r.loc i) r.request.msg (tables i)

/-- What the servers send in the first round. -/
def ClientRun.replies (r : ClientRun) (tables : ℕ → Table) (i : ℕ) : Option (List Char) :=
  (r.first tables i).bind fun x => x.2.1

/-- What server `i` does in the run, the client having sent `update` or nothing in the second round. -/
def ClientRun.session (r : ClientRun) (update : Option (List Char)) (tables : ℕ → Table) (i : ℕ) :
    Option Table := do
  let (t, _, session) ← r.first tables i
  endSession (r.loc i) update r.request.keyG t session

/-- Server `i` after the run. -/
def ClientRun.finish (r : ClientRun) (update : Option (List Char)) (tables : ℕ → Table) (i : ℕ) :
    Table :=
  (r.session update tables i).getD (tables i)

/-- What the client sends in the second round of a `PUT`. -/
def PutOutcome.msg (key val : Word) : PutOutcome → Option (List Char)
  | .update new_vno => some (updateMsg key.chars val.chars new_vno)
  | .noQuorum => none
  | .outOfTable => none

/-- One run of the client; not defined when a server's table is full. -/
def clusterStep (q : Quorums) (s : Cluster) (r : ClientRun) : Option Cluster :=
  match r.request with
  | .get key =>
    if ∀ i < q.N, (r.session none s.tables i).isSome then
      some
        { tables := r.finish none s.tables
          history := s.history ++
            [.get key.chars (connectThreadGet q.N q.Nr q.Nw r.env (r.replies s.tables))] }
    else none
  | .put key val =>
    let out := connectThreadPut q.N q.Nr q.Nw r.env (r.replies s.tables)
    if ∀ i < q.N, (r.session (out.msg key val) s.tables i).isSome then
      some
        { tables := r.finish (out.msg key val) s.tables
          history := s.history ++ [.put key.chars val.chars out] }
    else none

/-! ## What one run does -/

/-- The servers below `N` that let the run through. -/
def ClientRun.through (r : ClientRun) (N : ℕ) : Finset ℕ :=
  (Finset.range N).filter fun i => i ∈ r.answers

theorem ClientRun.through_subset (r : ClientRun) (N : ℕ) : r.through N ⊆ Finset.range N :=
  Finset.filter_subset _ _

theorem ClientRun.mem_through {r : ClientRun} {N i : ℕ} :
    i ∈ r.through N ↔ i < N ∧ i ∈ r.answers := by
  simp [ClientRun.through]

/-- A server that refuses the connection keeps its table. -/
theorem ClientRun.finish_of_notMem {r : ClientRun} {tables : ℕ → Table} {i : ℕ}
    (hi : i ∉ r.answers) (update : Option (List Char)) : r.finish update tables i = tables i := by
  simp [ClientRun.finish, ClientRun.session, ClientRun.first, firstRound, hi, endSession]

theorem ClientRun.replies_of_notMem {r : ClientRun} {tables : ℕ → Table} {i : ℕ}
    (hi : i ∉ r.answers) : r.replies tables i = none := by
  simp [ClientRun.replies, ClientRun.first, firstRound, hi]

/-- A server that takes part in the run has answered its first message. -/
theorem ClientRun.first_isSome {r : ClientRun} {update : Option (List Char)} {tables : ℕ → Table} {i : ℕ}
    (h : (r.session update tables i).isSome) : (r.first tables i).isSome := by
  obtain ⟨t, ht⟩ := Option.isSome_iff_exists.mp h
  obtain ⟨x, hx, -⟩ := Option.bind_eq_some_iff.mp ht
  rw [hx]
  rfl

theorem ClientRun.finish_of_session {r : ClientRun} {update : Option (List Char)} {tables : ℕ → Table}
    {i : ℕ} {t : Table} (h : r.session update tables i = some t) : r.finish update tables i = t := by
  rw [ClientRun.finish, h, Option.getD_some]

/-- In a `GET` every server keeps its table, and the servers that answer deliver what they hold. -/
theorem ClientRun.get_spec {r : ClientRun} {key : Word} (hr : r.request = .get key)
    {tables : ℕ → Table} {i : ℕ} (hidle : Idle (tables i)) :
    r.finish none tables i = tables i ∧
      (i ∈ r.answers → r.replies tables i =
        (stored key.chars (tables i)).map fun e => voteMsg e.1 key.chars e.2) := by
  by_cases hi : i ∈ r.answers
  · obtain ⟨x, hx, hreply, hend⟩ := get_session hidle key (r.loc i)
    have hfirst : r.first tables i = some x := by
      simpa [ClientRun.first, firstRound, hi, hr, Request.msg] using hx
    refine ⟨finish_of_session ?_, fun _ => ?_⟩
    · simp only [ClientRun.session, hfirst, Option.bind_eq_bind, Option.bind_some]
      exact hend _ _ _
    · simp only [ClientRun.replies, hfirst, Option.bind_some, hreply]
  · exact ⟨finish_of_notMem hi none, fun h => absurd h hi⟩

/-- In a `PUT` every server that lets the run through votes; it is left with what it held when the
client gives up, and with the update otherwise. -/
theorem ClientRun.put_spec {r : ClientRun} {key val : Word} (hr : r.request = .put key val)
    {tables : ℕ → Table} {i : ℕ} (hidle : Idle (tables i)) (hi : i ∈ r.answers)
    (hroom : (r.first tables i).isSome) :
    r.replies tables i = some (voteReply key.chars (tables i)) ∧
      SameFor (fun _ => True) (tables i) (r.finish none tables i) ∧
      ∀ vno, IsInt vno → SameFor (· ≠ key.chars) (tables i)
          (r.finish (some (updateMsg key.chars val.chars vno)) tables i) ∧
        stored key.chars (r.finish (some (updateMsg key.chars val.chars vno)) tables i) =
          some (vno, val.chars) ∧
        Idle (r.finish (some (updateMsg key.chars val.chars vno)) tables i) := by
  obtain ⟨x, hx⟩ := Option.isSome_iff_exists.mp hroom
  have hresp : responseServer 0 (r.loc i) (putMsg key.chars val.chars) (tables i) = some x := by
    simpa [ClientRun.first, firstRound, hi, hr, Request.msg] using hx
  have hkeyG : r.request.keyG = key.chars := by rw [hr]; rfl
  obtain ⟨t', j, rfl, hslot⟩ := put_vote hidle key val (r.loc i) hresp
  have hsession : ∀ update, r.session update tables i =
      endSession (r.loc i) update key.chars t' (.voted key.chars j) := by
    intro update
    simp only [ClientRun.session, hx, hkeyG, Option.bind_eq_bind, Option.bind_some]
  refine ⟨by simp only [ClientRun.replies, hx, Option.bind_some], ?_, fun vno hvno => ?_⟩
  · obtain ⟨t'', ht'', hsame⟩ := put_abort hidle key.isWord hslot (r.loc i) key.chars
    rw [finish_of_session ((hsession none).trans ht'')]
    exact hsame
  · obtain ⟨t'', ht'', hupdate⟩ := put_update hidle key val hslot (r.loc i) hvno
    rw [finish_of_session ((hsession _).trans ht'')]
    exact hupdate

end QuorumLogFs.Vote
