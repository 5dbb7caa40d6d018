import QuorumLogFs.Basis.Runs
import QuorumLogFs.Vote.Server

/-!
# One server and its connections

Reference: `Server.c`, `responseServer` and `serverThread`.

Every accepted connection has a thread. A thread runs its handler up to the next blocking call
without interruption, so an event of the machine is: a connection is accepted and its first message
dispatched, a blocked `send` returns, or a blocked `recvTimeout` returns. What a thread is blocked
in is its `Session`; sessions are numbered in the order of arrival.
-/

namespace QuorumLogFs.Vote

open QuorumLogFs.Basis

/-- Where a connection's thread is blocked. -/
inductive Session where
  /-- `getResponse` in `send`, registered on slot `i`. -/
  | reading (i : ℕ)
  /-- `putResponse` for `key` waiting for the update, its vote sent and slot `i` locked. -/
  | voted (key : List Char) (i : ℕ)
  /-- `putResponse` for `key` waiting for the release, after an update that named `keyNew`. -/
  | updated (key keyNew : List Char) (i : ℕ)
  /-- The handler has returned. -/
  | closed
deriving DecidableEq, Repr

/-- `responseServer` up to the first blocking call: the table, the message sent and the session. The
words of the message have to fit the arrays they are read into. `putResponse` gets the value of a `PUT`
too and ignores it. -/
def responseServer (lier : ℤ) (loc : Locals) (msg : List Char) (t : Table) :
    Option (Table × Option (List Char) × Session) :=
  let msgType := readMsgType msg loc.msgType
  let key := readKey msg loc.key
  if MAX_MSGTYPE_SIZE ≤ msgType.length ∨ MAX_KEY_SIZE ≤ key.length then none
  else if msgType = "GET".toList then
    match getResponseSend lier key t with
    | (t, some (i, resMsg)) => some (t, some resMsg, .reading i)
    | (t, none) => some (t, none, .closed)
  else if msgType = "PUT".toList then
    if (readPutValue msg loc.value).length < MAX_VAL_SIZE then
      match putResponseVote lier key t with
      | some (t, some (i, resMsg)) => some (t, some resMsg, .voted key i)
      | some (t, none) => some (t, none, .closed)
      | none => none
    else none
  else if msgType = "update".toList then
    let args := readValueVno msg
    let value := argStr args 0 loc.value
    if value.length < MAX_VAL_SIZE then
      (updateResponse key value (argInt args 1 (-1)) t).map fun r => (r.1, r.2, .closed)
    else none
  else if msgType = "releaselock".toList then
    some (releaselockResponse key t, none, .closed)
  else some (t, none, .closed)

/-- The table and the threads. -/
structure ServerState where
  table : Table
  sessions : List Session
deriving DecidableEq, Repr

/-- `main` up to the `accept` loop. -/
def ServerState.init : ServerState := ⟨initTable, []⟩

/-- The end of a blocking call. -/
inductive Event where
  /-- A connection is accepted and sends its first message. -/
  | accept (msg : List Char) (loc : Locals)
  /-- The `send` of session `c` returns. -/
  | sent (c : ℕ)
  /-- The `recvTimeout` of session `c` returns, with a message unless it timed out or the peer
  closed the connection. -/
  | recv (c : ℕ) (msg : Option (List Char)) (loc : Locals)

/-- One thread runs from one blocking call to the next. -/
def serverStep (lier : ℤ) (s : ServerState) : Event → Option ServerState
  | .accept msg loc =>
    (responseServer lier loc msg s.table).map fun r => ⟨r.1, s.sessions ++ [r.2.2]⟩
  | .sent c =>
    match s.sessions[c]? with
    | some (.reading i) => some ⟨getResponseDecr i s.table, s.sessions.set c .closed⟩
    | _ => none
  | .recv c msg loc =>
    match s.sessions[c]? with
    | some (.voted key i) =>
      (putResponseUpdate key i loc msg s.table).map fun r =>
        ⟨r.1, s.sessions.set c (match r.2.2 with
          | some keyNew => .updated key keyNew i
          | none => .closed)⟩
    | some (.updated key keyNew _) =>
      (putResponseRelease key keyNew loc msg s.table).map fun t => ⟨t, s.sessions.set c .closed⟩
    | _ => none

/-! ## Dispatch -/

/-- What a first message does, by its type. -/
theorem responseServer_cases {lier : ℤ} {loc : Locals} {msg : List Char} {t t' : Table}
    {sent : Option (List Char)} {z : Session}
    (h : responseServer lier loc msg t = some (t', sent, z)) :
    (readMsgType msg loc.msgType = "GET".toList ∧
      ((∃ i resMsg, getResponseSend lier (readKey msg loc.key) t = (t', some (i, resMsg)) ∧
          sent = some resMsg ∧ z = .reading i) ∨
        getResponseSend lier (readKey msg loc.key) t = (t', none) ∧ sent = none ∧ z = .closed)) ∨
    (readMsgType msg loc.msgType = "PUT".toList ∧
      ((∃ i resMsg, putResponseVote lier (readKey msg loc.key) t = some (t', some (i, resMsg)) ∧
          sent = some resMsg ∧ z = .voted (readKey msg loc.key) i) ∨
        putResponseVote lier (readKey msg loc.key) t = some (t', none) ∧ sent = none ∧ z = .closed)) ∨
    (readMsgType msg loc.msgType = "update".toList ∧ z = .closed ∧
      ∃ val vno, updateResponse (readKey msg loc.key) val vno t = some (t', sent)) ∨
    (readMsgType msg loc.msgType = "releaselock".toList ∧ z = .closed ∧
      t' = releaselockResponse (readKey msg loc.key) t ∧ sent = none) ∨
    (readMsgType msg loc.msgType ≠ "GET".toList ∧ readMsgType msg loc.msgType ≠ "PUT".toList ∧
      z = .closed ∧ t' = t ∧ sent = none) := by
  simp only [responseServer] at h
  split at h
  · cases h
  split at h
  · rename_i htype
    refine Or.inl ⟨htype, ?_⟩
    split at h
    · rename_i u i resMsg hsend
      obtain ⟨rfl, hrest⟩ := Prod.mk.inj (Option.some.inj h)
      obtain ⟨rfl, rfl⟩ := Prod.mk.inj hrest
      exact Or.inl ⟨i, resMsg, hsend, rfl, rfl⟩
    · rename_i u hsend
      obtain ⟨rfl, hrest⟩ := Prod.mk.inj (Option.some.inj h)
      obtain ⟨rfl, rfl⟩ := Prod.mk.inj hrest
      exact Or.inr ⟨hsend, rfl, rfl⟩
  rename_i hget
  refine Or.inr ?_
  split at h
  · rename_i htype
    refine Or.inl ⟨htype, ?_⟩
    split at h
    · split at h
      · rename_i u i resMsg hvote
        obtain ⟨rfl, hrest⟩ := Prod.mk.inj (Option.some.inj h)
        obtain ⟨rfl, rfl⟩ := Prod.mk.inj hrest
        exact Or.inl ⟨i, resMsg, hvote, rfl, rfl⟩
      · rename_i u hvote
        obtain ⟨rfl, hrest⟩ := Prod.mk.inj (Option.some.inj h)
        obtain ⟨rfl, rfl⟩ := Prod.mk.inj hrest
        exact Or.inr ⟨hvote, rfl, rfl⟩
      · cases h
    · cases h
  rename_i hput
  refine Or.inr ?_
  split at h
  · rename_i htype
    refine Or.inl ⟨htype, ?_⟩
    split at h
    · obtain ⟨⟨u, sent'⟩, hr, heq⟩ := Option.map_eq_some_iff.mp h
      obtain ⟨rfl, hrest⟩ := Prod.mk.inj heq
      obtain ⟨rfl, rfl⟩ := Prod.mk.inj hrest
      exact ⟨rfl, _, _, hr⟩
    · cases h
  refine Or.inr ?_
  split at h
  · rename_i htype
    obtain ⟨rfl, hrest⟩ := Prod.mk.inj (Option.some.inj h)
    obtain ⟨rfl, rfl⟩ := Prod.mk.inj hrest
    exact Or.inl ⟨htype, rfl, rfl, rfl⟩
  · obtain ⟨rfl, hrest⟩ := Prod.mk.inj (Option.some.inj h)
    obtain ⟨rfl, rfl⟩ := Prod.mk.inj hrest
    exact Or.inr ⟨hget, hput, rfl, rfl, rfl⟩

/-- What a `GET` does. -/
theorem responseServer_get {lier : ℤ} {loc : Locals} {msg : List Char} {t t' : Table}
    {sent : Option (List Char)} {z : Session}
    (h : responseServer lier loc msg t = some (t', sent, z))
    (hget : readMsgType msg loc.msgType = "GET".toList) :
    (∃ i resMsg, getResponseSend lier (readKey msg loc.key) t = (t', some (i, resMsg)) ∧
        sent = some resMsg ∧ z = .reading i) ∨
      getResponseSend lier (readKey msg loc.key) t = (t', none) ∧ sent = none ∧ z = .closed := by
  rcases responseServer_cases h with ⟨-, hcase⟩ | ⟨htype, -⟩ | ⟨htype, -⟩ | ⟨htype, -⟩ | ⟨hno, -⟩
  · exact hcase
  · exact absurd (hget.symm.trans htype) (by decide)
  · exact absurd (hget.symm.trans htype) (by decide)
  · exact absurd (hget.symm.trans htype) (by decide)
  · exact absurd hget hno

/-- What the first message of a `PUT` does. -/
theorem responseServer_put {lier : ℤ} {loc : Locals} {msg : List Char} {t t' : Table}
    {sent : Option (List Char)} {z : Session}
    (h : responseServer lier loc msg t = some (t', sent, z))
    (hput : readMsgType msg loc.msgType = "PUT".toList) :
    (∃ i resMsg, putResponseVote lier (readKey msg loc.key) t = some (t', some (i, resMsg)) ∧
        sent = some resMsg ∧ z = .voted (readKey msg loc.key) i) ∨
      putResponseVote lier (readKey msg loc.key) t = some (t', none) ∧ sent = none ∧ z = .closed := by
  rcases responseServer_cases h with ⟨htype, -⟩ | ⟨-, hcase⟩ | ⟨htype, -⟩ | ⟨htype, -⟩ | ⟨-, hno, -⟩
  · exact absurd (hput.symm.trans htype) (by decide)
  · exact hcase
  · exact absurd (hput.symm.trans htype) (by decide)
  · exact absurd (hput.symm.trans htype) (by decide)
  · exact absurd hput hno

/-- What a `PUT` session does when a wait of it ends. -/
theorem serverStep_recv_cases {lier : ℤ} {s s' : ServerState} {c : ℕ} {msg : Option (List Char)}
    {loc : Locals} (h : serverStep lier s (.recv c msg loc) = some s') :
    (∃ key i t sent keyNew, s.sessions[c]? = some (.voted key i) ∧
      putResponseUpdate key i loc msg s.table = some (t, sent, keyNew) ∧
      s' = ⟨t, s.sessions.set c (keyNew.elim .closed fun keyNew => .updated key keyNew i)⟩) ∨
    ∃ key keyNew i t, s.sessions[c]? = some (.updated key keyNew i) ∧
      putResponseRelease key keyNew loc msg s.table = some t ∧
      s' = ⟨t, s.sessions.set c .closed⟩ := by
  simp only [serverStep] at h
  split at h
  · rename_i key i hx
    obtain ⟨⟨t, sent, keyNew⟩, hr, rfl⟩ := Option.map_eq_some_iff.mp h
    refine Or.inl ⟨key, i, t, sent, keyNew, hx, hr, ?_⟩
    cases keyNew with
    | none => rfl
    | some keyNew => rfl
  · rename_i key keyNew i hx
    obtain ⟨t, hr, rfl⟩ := Option.map_eq_some_iff.mp h
    exact Or.inr ⟨key, keyNew, i, t, hx, hr, rfl⟩
  · cases h

/-! ## The client's messages -/

theorem responseServer_getMsg (lier : ℤ) (loc : Locals) {key : List Char} (hkey : IsWord key)
    (hfits : key.length < MAX_KEY_SIZE) (t : Table) :
    responseServer lier loc (getMsg key) t =
      match getResponseSend lier key t with
      | (t, some (i, resMsg)) => some (t, some resMsg, .reading i)
      | (t, none) => some (t, none, .closed) := by
  have hroom : ¬(MAX_MSGTYPE_SIZE ≤ "GET".toList.length ∨ MAX_KEY_SIZE ≤ key.length) :=
    not_or.mpr ⟨by decide, not_le.mpr hfits⟩
  simp only [responseServer, readMsgType_getMsg, readKey_getMsg hkey, if_neg hroom]
  rfl

theorem responseServer_putMsg (lier : ℤ) (loc : Locals) {key val : List Char} (hkey : IsWord key)
    (hval : IsWord val) (hfits : key.length < MAX_KEY_SIZE) (hfits' : val.length < MAX_VAL_SIZE)
    (t : Table) :
    responseServer lier loc (putMsg key val) t =
      match putResponseVote lier key t with
      | some (t, some (i, resMsg)) => some (t, some resMsg, .voted key i)
      | some (t, none) => some (t, none, .closed)
      | none => none := by
  have hroom : ¬(MAX_MSGTYPE_SIZE ≤ "PUT".toList.length ∨ MAX_KEY_SIZE ≤ key.length) :=
    not_or.mpr ⟨by decide, not_le.mpr hfits⟩
  simp only [responseServer, readMsgType_putMsg, readKey_putMsg hkey, readPutValue_putMsg hkey hval,
    if_neg hroom, if_pos hfits']
  rfl

/-- An update of words that fit the entry. -/
theorem putResponseUpdate_updateMsg (key : List Char) (i : ℕ) (loc : Locals) (keyNew val : Word)
    (vno : ℤ) (t : Table) :
    putResponseUpdate key i loc (some (updateMsg keyNew.chars val.chars vno)) t =
      (updateResponse keyNew.chars val.chars (storedInt vno)
        (t.modify i fun kv => { kv with key := keyNew.chars })).map fun r =>
          (r.1, r.2, some keyNew.chars) := by
  have htype : ¬MAX_MSGTYPE_SIZE ≤ "update".toList.length := by decide
  have hval : val.chars.length < MAX_VAL_SIZE := val.fits.trans (by decide)
  have hargs : argStr [Arg.str keyNew.chars, .str val.chars, .int vno] 0 loc.key = keyNew.chars ∧
      argStr [Arg.str keyNew.chars, .str val.chars, .int vno] 1 loc.value = val.chars ∧
      argInt [Arg.str keyNew.chars, .str val.chars, .int vno] 2 loc.vno = storedInt vno :=
    ⟨rfl, rfl, rfl⟩
  simp only [putResponseUpdate, readMsgType_updateMsg, if_neg htype, if_true,
    readUpdate_updateMsg keyNew.isWord val.isWord, hargs, if_pos (And.intro keyNew.fits hval)]

/-- An update that has been taken. -/
theorem putResponseUpdate_eq_some {key keyNew : List Char} {i : ℕ} {loc : Locals} {t t' : Table}
    {sent named : Option (List Char)} (hkey : IsWord keyNew) (val : Word) {vno : ℤ}
    (h : putResponseUpdate key i loc (some (updateMsg keyNew val.chars vno)) t = some (t', sent, named)) :
    updateResponse keyNew val.chars (storedInt vno) (t.modify i fun kv => { kv with key := keyNew }) =
      some (t', sent) ∧ named = some keyNew := by
  obtain ⟨m, k, v, n, hm, -, hk, hv, hn, -, hu, hnamed⟩ | ⟨hno, -⟩ := putResponseUpdate_cases h
  · obtain rfl := Option.some.inj hm
    rw [readUpdate_updateMsg hkey val.isWord] at hk hv hn
    obtain rfl : k = keyNew := hk
    obtain rfl : v = val.chars := hv
    obtain rfl : n = storedInt vno := hn
    exact ⟨hu, hnamed⟩
  · exact absurd (readMsgType_updateMsg _ _ _ _) (hno _ rfl)

theorem putResponseRelease_releaselockMsg (key keyNew : List Char) (loc : Locals)
    (k : List Char) (t : Table) :
    putResponseRelease key keyNew loc (some (releaselockMsg k)) t =
      some (releaselockResponse keyNew t) := by
  have htype : ¬MAX_MSGTYPE_SIZE ≤ "releaselock".toList.length := by decide
  simp only [putResponseRelease, readMsgType_releaselockMsg, if_neg htype, if_true]

end QuorumLogFs.Vote
