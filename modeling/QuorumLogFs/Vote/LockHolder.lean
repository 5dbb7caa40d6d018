import QuorumLogFs.Vote.ReaderCount
import QuorumLogFs.Vote.WriteLock

/-!
# What happens to a locked entry

A message that names other keys and other slots leaves a locked entry alone, and the lock keeps a `PUT` of
the key away from it. What a message names, it names inside a `PUT` session as well as at the start of a
connection, and an update carries a key of its own.
-/

namespace QuorumLogFs.Vote

open QuorumLogFs.Basis

/-- The connection an event belongs to; a new one gets the next number. -/
def Event.conn (s : ServerState) : Event → ℕ
  | .accept _ _ => s.sessions.length
  | .sent c => c
  | .recv c _ _ => c

/-- A message of this type was received. -/
def Received (msg : Option (List Char)) (loc : Locals) (msgType : List Char) : Prop :=
  ∃ m ∈ msg, readMsgType m loc.msgType = msgType

@[simp] theorem received_some {m : List Char} {loc : Locals} {msgType : List Char} :
    Received (some m) loc msgType ↔ readMsgType m loc.msgType = msgType := by
  simp [Received]

@[simp] theorem not_received_none {loc : Locals} {msgType : List Char} :
    ¬ Received none loc msgType := by
  simp [Received]

/-- The key an update carries. -/
def keyOfUpdate (msg : Option (List Char)) (loc : Locals) : List Char :=
  argStr (readUpdate (msg.getD [])) 0 loc.key

/-- Slot `i` still is the entry of `k`, with the same value, version and lock. -/
structure SameEntry (k : List Char) (i : ℕ) (t t' : Table) : Prop where
  found : searchKey k t' = some i
  value : (entry t' i).value = (entry t i).value
  vno : (entry t' i).vno = (entry t i).vno
  lock : (entry t' i).lock = (entry t i).lock

/-! ## Messages about other keys -/

section

variable {k key : List Char} {i j : ℕ} {t t' : Table}

theorem SameEntry.of_entry (h : searchKey k t' = some i) (he : entry t' i = entry t i) :
    SameEntry k i t t' :=
  ⟨h, by rw [he], by rw [he], by rw [he]⟩

/-- Renaming another slot to another key. -/
theorem searchKey_rename_other (hk : searchKey k t = some i) (hne : key ≠ k) (hij : j ≠ i) :
    searchKey k (t.modify j fun kv => { kv with key := key }) = some i := by
  obtain ⟨kv, hkv, hkey, hfirst⟩ := searchKey_eq_some.mp hk
  refine searchKey_eq_some.mpr ⟨kv, by simpa [List.getElem?_modify, hij] using hkv, hkey, ?_⟩
  intro n hn kv' hkv'
  by_cases hjn : j = n
  · simp only [List.getElem?_modify, hjn, if_true, Option.map_eq_map,
      Option.map_eq_some_iff] at hkv'
    obtain ⟨kv₀, -, rfl⟩ := hkv'
    exact hne
  · simp only [List.getElem?_modify, hjn, if_false, Option.map_eq_map, Option.map_id'] at hkv'
    exact hfirst n hn kv' hkv'

/-- A slot that is not called by the key keeps its entry. -/
theorem entry_releaselockResponse_ne (hne : (entry t i).key ≠ key) :
    entry (releaselockResponse key t) i = entry t i := by
  unfold releaselockResponse
  split
  · rfl
  · rename_i j hj
    refine entry_modify_ne ?_ _
    rintro rfl
    exact hne (key_entry_of_searchKey hj)

theorem entry_updateResponse_ne {val : List Char} {vno : ℤ} {sent : Option (List Char)}
    (hne : (entry t i).key ≠ key) (h : updateResponse key val vno t = some (t', sent)) :
    entry t' i = entry t i := by
  obtain ⟨j, hj, -, -, rfl, -⟩ | ⟨-, rfl, -⟩ := updateResponse_cases h
  · refine entry_modify_ne ?_ _
    rintro rfl
    exact hne (key_entry_of_searchKey hj)
  · rfl

theorem sameEntry_releaselockResponse (hk : searchKey k t = some i) (hne : key ≠ k) :
    SameEntry k i t (releaselockResponse key t) :=
  .of_entry (by rw [searchKey_releaselockResponse, hk])
    (entry_releaselockResponse_ne (by rw [key_entry_of_searchKey hk]; exact hne.symm))

theorem sameEntry_updateResponse {val : List Char} {vno : ℤ} {sent : Option (List Char)}
    (hk : searchKey k t = some i) (hne : key ≠ k) (h : updateResponse key val vno t = some (t', sent)) :
    SameEntry k i t t' :=
  .of_entry (by rw [searchKey_updateResponse h, hk])
    (entry_updateResponse_ne (by rw [key_entry_of_searchKey hk]; exact hne.symm) h)

/-- A `PUT` of another key, or of this key while its entry is locked. -/
theorem sameEntry_putResponseVote {lier : ℤ} {r : Option (ℕ × List Char)}
    (hk : searchKey k t = some i) (hlock : (entry t i).lock ≠ 0)
    (h : putResponseVote lier key t = some (t', r)) : SameEntry k i t t' := by
  have hi := searchKey_lt hk
  -- the granted slot is not the locked one
  have hgrant : ∀ (u : Table) (j : ℕ) (resMsg : List Char), searchKey k u = some i →
      entry u i = entry t i → grantVote j resMsg u = (t', r) → SameEntry k i t t' := by
    intro u j resMsg hu hentry hg
    have hsearch := searchKey_grantVote k j resMsg u
    rw [hg, hu] at hsearch
    refine .of_entry hsearch ?_
    unfold grantVote at hg
    split at hg
    · rename_i hfree
      obtain ⟨rfl, -⟩ := Prod.mk.inj hg
      have hji : j ≠ i := by
        rintro rfl
        exact hlock (hentry ▸ hfree.1)
      rw [entry_modify_ne hji, hentry]
    · obtain ⟨rfl, -⟩ := Prod.mk.inj hg
      exact hentry
  unfold putResponseVote at h
  split at h
  · split at h
    · refine hgrant _ _ _ ?_ (entry_append_init t i) (Option.some.inj h)
      obtain ⟨kv, hkv, hkey, hfirst⟩ := searchKey_eq_some.mp hk
      refine searchKey_eq_some.mpr ⟨kv, by rwa [List.getElem?_append_left hi], hkey, ?_⟩
      intro n hn kv' hkv'
      rw [List.getElem?_append_left (hn.trans hi)] at hkv'
      exact hfirst n hn kv' hkv'
    · cases h
  · exact hgrant t _ _ hk rfl (Option.some.inj h)

end

/-! ## Messages on other connections -/

section

variable {lier : ℤ} {s s' : ServerState} {c d : ℕ} {k : List Char} {i : ℕ} {e : Event}
  {msg : Option (List Char)} {loc : Locals}

/-- A first message that neither updates nor releases `k`. -/
theorem sameEntry_accept {m : List Char} (hk : searchKey k s.table = some i)
    (hlock : (entry s.table i).lock ≠ 0)
    (hupdate : Received (some m) loc "update".toList → readKey m loc.key ≠ k)
    (hrelease : Received (some m) loc "releaselock".toList → readKey m loc.key ≠ k)
    (hstep : serverStep lier s (.accept m loc) = some s') : SameEntry k i s.table s'.table := by
  obtain ⟨⟨t, resp, z⟩, hresp, rfl⟩ := Option.map_eq_some_iff.mp hstep
  have hread : SameEntry k i s.table (getResponseSend lier (readKey m loc.key) s.table).1 := by
    have hfields := fun {α : Type} (g : KeyVal → α) (hg : ∀ kv n, g { kv with numGetters := n } = g kv) =>
      getResponseSend_field g hg lier (readKey m loc.key) s.table i
    exact ⟨by rw [searchKey_getResponseSend, hk], hfields KeyVal.value (fun _ _ => rfl),
      hfields KeyVal.vno (fun _ _ => rfl), hfields KeyVal.lock (fun _ _ => rfl)⟩
  rcases responseServer_cases hresp with ⟨-, hcase⟩ | ⟨-, hcase⟩ | ⟨htype, -, val, vno, hu⟩ |
    ⟨htype, -, rfl, -⟩ | ⟨-, -, -, rfl, -⟩
  · -- a `GET` counts a reader
    obtain ⟨j, resMsg, hsend, -⟩ | ⟨hsend, -⟩ := hcase
    · rwa [hsend] at hread
    · rwa [hsend] at hread
  · -- a `PUT` does not get the vote for a locked entry
    obtain ⟨j, resMsg, hvote, -⟩ | ⟨hvote, -⟩ := hcase
    · exact sameEntry_putResponseVote hk hlock hvote
    · exact sameEntry_putResponseVote hk hlock hvote
  · exact sameEntry_updateResponse hk (hupdate (received_some.mpr htype)) hu
  · exact sameEntry_releaselockResponse hk (hrelease (received_some.mpr htype))
  · exact ⟨hk, rfl, rfl, rfl⟩

theorem sameEntry_sent (hk : searchKey k s.table = some i)
    (hstep : serverStep lier s (.sent d) = some s') : SameEntry k i s.table s'.table := by
  simp only [serverStep] at hstep
  split at hstep
  · obtain rfl := Option.some.inj hstep
    have hfields := fun {α : Type} (g : KeyVal → α) (hg : ∀ kv n, g { kv with numGetters := n } = g kv) j =>
      entry_modify_field g (fun kv => hg kv (kv.numGetters - 1)) s.table j i
    exact ⟨by rw [searchKey_getResponseDecr, hk], hfields KeyVal.value (fun _ _ => rfl) _,
      hfields KeyVal.vno (fun _ _ => rfl) _, hfields KeyVal.lock (fun _ _ => rfl) _⟩
  · cases hstep

/-- The key of an update that is stored. -/
theorem keyOfUpdate_of_cases {key : List Char} {j : ℕ} {t : Table} {sent keyNew : Option (List Char)}
    (h : putResponseUpdate key j loc msg s.table = some (t, sent, keyNew)) :
    (∃ val vno, Received msg loc "update".toList ∧
        updateResponse (keyOfUpdate msg loc) val vno
          (s.table.modify j fun kv => { kv with key := keyOfUpdate msg loc }) = some (t, sent) ∧
        keyNew = some (keyOfUpdate msg loc)) ∨
      ¬ Received msg loc "update".toList ∧ t = releaselockResponse key s.table ∧ keyNew = none := by
  obtain ⟨m, k', val, vno, rfl, htype, rfl, -, -, -, hu, rfl⟩ | ⟨hno, rfl, -, rfl⟩ :=
    putResponseUpdate_cases h
  · exact Or.inl ⟨val, vno, received_some.mpr htype, hu, rfl⟩
  · refine Or.inr ⟨?_, rfl, rfl⟩
    rintro ⟨m, hm, htype⟩
    exact hno m hm htype

/-- An update inside another session, for another key and another slot. -/
theorem sameEntry_putResponseUpdate {key : List Char} {j : ℕ} {t : Table}
    {sent keyNew : Option (List Char)} (hk : searchKey k s.table = some i)
    (hupdate : Received msg loc "update".toList → keyOfUpdate msg loc ≠ k ∧ j ≠ i) (hne : key ≠ k)
    (h : putResponseUpdate key j loc msg s.table = some (t, sent, keyNew)) :
    SameEntry k i s.table t := by
  obtain ⟨val, vno, hrec, hu, -⟩ | ⟨-, rfl, -⟩ := keyOfUpdate_of_cases h
  · obtain ⟨hkey, hji⟩ := hupdate hrec
    have hk' := searchKey_rename_other hk hkey hji
    have hsame := sameEntry_updateResponse hk' hkey hu
    have hentry := entry_modify_ne (t := s.table) hji fun kv => { kv with key := keyOfUpdate msg loc }
    exact ⟨hsame.found, hsame.value.trans (by rw [hentry]), hsame.vno.trans (by rw [hentry]),
      hsame.lock.trans (by rw [hentry])⟩
  · exact sameEntry_releaselockResponse hk hne

/-- The end of another session, for another key. -/
theorem sameEntry_putResponseRelease {key keyNew : List Char} {t : Table}
    (hk : searchKey k s.table = some i) (hnew : keyNew ≠ k) (hne : key ≠ k)
    (h : putResponseRelease key keyNew loc msg s.table = some t) : SameEntry k i s.table t := by
  obtain ⟨-, rfl⟩ | ⟨-, rfl⟩ := putResponseRelease_cases h
  · exact sameEntry_releaselockResponse hk hnew
  · exact sameEntry_releaselockResponse hk hne

/-- An event on another connection leaves a session where it is. -/
theorem session_step (hc : c < s.sessions.length) (hconn : e.conn s ≠ c)
    (hstep : serverStep lier s e = some s') : s'.sessions[c]? = s.sessions[c]? := by
  cases e with
  | accept msg loc =>
    obtain ⟨r, -, rfl⟩ := Option.map_eq_some_iff.mp hstep
    exact List.getElem?_append_left hc
  | sent d =>
    simp only [serverStep] at hstep
    split at hstep
    · obtain rfl := Option.some.inj hstep
      exact List.getElem?_set_ne hconn
    · cases hstep
  | recv d msg loc =>
    obtain ⟨key, i, t, sent, keyNew, -, -, rfl⟩ | ⟨key, keyNew, i, t, -, -, rfl⟩ :=
      serverStep_recv_cases hstep
    · exact List.getElem?_set_ne hconn
    · exact List.getElem?_set_ne hconn

end

/-! ## What a step does to the sessions -/

section

variable {lier : ℤ} {s s' : ServerState} {c : ℕ} {key : List Char} {i : ℕ} {e : Event}

/-- Only a `PUT` starts a session that holds a lock. -/
theorem holder_responseServer {msg : List Char} {loc : Locals} {t t' : Table}
    {resp : Option (List Char)} {z : Session}
    (h : responseServer lier loc msg t = some (t', resp, z)) (hz : z.holder = some (key, i)) :
    readMsgType msg loc.msgType = "PUT".toList ∧ readKey msg loc.key = key := by
  rcases responseServer_cases h with ⟨-, hcase⟩ | ⟨hput, hcase⟩ | ⟨-, rfl, -⟩ | ⟨-, rfl, -⟩ |
    ⟨-, -, rfl, -⟩
  · obtain ⟨j, resMsg, -, -, rfl⟩ | ⟨-, -, rfl⟩ := hcase
    · cases hz
    · cases hz
  · obtain ⟨j, resMsg, -, -, rfl⟩ | ⟨-, -, rfl⟩ := hcase
    · exact ⟨hput, (Prod.mk.inj (Option.some.inj hz)).1⟩
    · cases hz
  · cases hz
  · cases hz
  · cases hz

/-- A session that holds a lock after an event has held it before, or it has just been accepted for a
`PUT`. -/
theorem holds_of_step (hstep : serverStep lier s e = some s') (h : Holds s' c key i) :
    Holds s c key i ∨ ∃ msg loc, e = .accept msg loc ∧ c = s.sessions.length ∧
      readMsgType msg loc.msgType = "PUT".toList ∧ readKey msg loc.key = key := by
  -- the session goes on with its slot, or ends
  have hkeep : ∀ {d : ℕ} {z z' : Session} {t : Table}, s.sessions[d]? = some z →
      (z'.holder = z.holder ∨ z'.holder = none) →
      Holds ⟨t, s.sessions.set d z'⟩ c key i → Holds s c key i := by
    intro d z z' t hz hz' h
    rw [holds_set hz] at h
    split at h
    · rename_i hcd
      rcases hz' with hz' | hz'
      · exact ⟨z, hcd ▸ hz, hz' ▸ h⟩
      · rw [hz'] at h
        cases h
    · exact h
  cases e with
  | accept msg loc =>
    obtain ⟨⟨t, resp, z⟩, hresp, rfl⟩ := Option.map_eq_some_iff.mp hstep
    rcases holds_append.mp h with h | ⟨hsess, hz⟩
    · exact Or.inl h
    · exact Or.inr ⟨msg, loc, rfl, hsess, holder_responseServer hresp hz⟩
  | sent d =>
    simp only [serverStep] at hstep
    split at hstep
    · rename_i j hx
      obtain rfl := Option.some.inj hstep
      exact Or.inl (hkeep hx (Or.inr rfl) h)
    · cases hstep
  | recv d msg loc =>
    rcases serverStep_recv_cases hstep with ⟨k, j, t, sent, keyNew, hz, -, rfl⟩ |
      ⟨k, keyNew, j, t, hz, -, rfl⟩
    · refine Or.inl (hkeep hz ?_ h)
      cases keyNew with
      | none => exact Or.inr rfl
      | some keyNew => exact Or.inl rfl
    · exact Or.inl (hkeep hz (Or.inr rfl) h)

/-- An accepted connection gets the next session, and no session is ever forgotten. -/
theorem length_sessions_step (hstep : serverStep lier s e = some s') :
    s.sessions.length ≤ s'.sessions.length ∧ e.conn s < s'.sessions.length := by
  cases e with
  | accept msg loc =>
    obtain ⟨r, -, rfl⟩ := Option.map_eq_some_iff.mp hstep
    simp [Event.conn]
  | sent d =>
    simp only [serverStep] at hstep
    split at hstep
    · rename_i j hx
      obtain rfl := Option.some.inj hstep
      have := (List.getElem?_eq_some_iff.mp hx).1
      simpa [Event.conn] using this
    · cases hstep
  | recv d msg loc =>
    rcases serverStep_recv_cases hstep with ⟨k, j, t, sent, keyNew, hz, -, rfl⟩ |
      ⟨k, keyNew, j, t, hz, -, rfl⟩
    · have := (List.getElem?_eq_some_iff.mp hz).1
      simpa [Event.conn] using this
    · have := (List.getElem?_eq_some_iff.mp hz).1
      simpa [Event.conn] using this

end

end QuorumLogFs.Vote
