import QuorumLogFs.Vote.Sessions

/-!
# The write lock

A `PUT` session holds the lock of its slot from its vote to its end. For a key in the table the slot
is the one all lookups find, so a second `PUT` sees the lock. A key that is not in the table has no
slot yet: every `PUT` that finds none reserves a slot of its own, which gets its name only with the
update, and grants itself the vote.
-/

namespace QuorumLogFs.Vote

open QuorumLogFs.Basis

/-- The key and the slot of a `PUT` session that has been sent its vote and has not ended. -/
def Session.holder : Session → Option (List Char × ℕ)
  | .voted key i => some (key, i)
  | .updated key _ i => some (key, i)
  | _ => none

/-- Session `c` is a `PUT` session for `key` between its vote and its end, on slot `i`. -/
def Holds (s : ServerState) (c : ℕ) (key : List Char) (i : ℕ) : Prop :=
  ∃ x, s.sessions[c]? = some x ∧ x.holder = some (key, i)

/-- At most one `PUT` session for a key is between its vote and its end. -/
def WriteLockExclusive (s : ServerState) : Prop :=
  ∀ key c c' i i', Holds s c key i → Holds s c' key i' → c = c'

/-- What `Client.c` sends, in each state of its connection: `GET` or `PUT` first, after a vote the
update of the same key, after that the release of the key. It may also stop at any point. -/
def FromClient (s : ServerState) : Event → Prop
  | .accept msg _ => ∃ key val : Word, msg = getMsg key.chars ∨ msg = putMsg key.chars val.chars
  | .sent _ => True
  | .recv _ none _ => True
  | .recv c (some msg) _ =>
    (∀ key i, s.sessions[c]? = some (.voted key i) →
      ∃ (val : Word) (vno : ℤ), msg = updateMsg key val.chars vno) ∧
    (∀ key keyNew i, s.sessions[c]? = some (.updated key keyNew i) → msg = releaselockMsg key)

/-- A `PUT` for a key that is not in the table comes while no other `PUT` session for this key is
between its vote and its end. -/
def AbsentKeyIsFree (s : ServerState) : Event → Prop
  | .accept msg loc => readMsgType msg loc.msgType = "PUT".toList →
      searchKey (readKey msg loc.key) s.table = none →
      ∀ c i, ¬ Holds s c (readKey msg loc.key) i
  | _ => True

/-! ## The invariant -/

/-- A session holds a locked slot that no other session holds, and the slot carries the key of the
session as soon as any slot does. -/
structure LockInv (s : ServerState) : Prop where
  word : ∀ {c key i}, Holds s c key i → IsWord key
  lock : ∀ {c key i}, Holds s c key i → (entry s.table i).lock ≠ 0
  slots : ∀ {c c' key key' i}, Holds s c key i → Holds s c' key' i → c = c'
  exclusive : WriteLockExclusive s
  named : ∀ {c key i}, Holds s c key i → searchKey key s.table = some i ∨
    (searchKey key s.table = none ∧ (entry s.table i).key = [])
  updated : ∀ {c : ℕ} {key keyNew : List Char} {i : ℕ},
    s.sessions[c]? = some (.updated key keyNew i) →
      keyNew = key ∧ searchKey key s.table = some i

theorem LockInv.init : LockInv .init := by
  constructor <;> simp [Holds, ServerState.init, WriteLockExclusive]

/-- A held slot is in the table. -/
theorem LockInv.slot_lt {s : ServerState} (h : LockInv s) {c : ℕ} {key : List Char} {i : ℕ}
    (hc : Holds s c key i) : i < s.table.length := by
  by_contra hi
  exact h.lock hc (by rw [entry_of_length_le (not_lt.mp hi)]; rfl)

/-! ## How the sessions change -/

theorem holds_append {s : ServerState} {t : Table} {x : Session} {c : ℕ} {key : List Char} {i : ℕ} :
    Holds ⟨t, s.sessions ++ [x]⟩ c key i ↔
      Holds s c key i ∨ (c = s.sessions.length ∧ x.holder = some (key, i)) := by
  simp only [Holds, List.getElem?_append]
  rcases lt_trichotomy c s.sessions.length with h | h | h
  · simp [h, h.ne]
  · simp [h]
  · have hsub : ([x] : List Session)[c - s.sessions.length]? = none := by
      rw [List.getElem?_eq_none]
      simp only [List.length_singleton]
      omega
    simp [h.not_gt, hsub, h.ne']

theorem holds_set {s : ServerState} {t : Table} {x y : Session} {c c' : ℕ} {key : List Char}
    {i : ℕ} (hc : s.sessions[c]? = some x) :
    Holds ⟨t, s.sessions.set c y⟩ c' key i ↔
      if c' = c then y.holder = some (key, i) else Holds s c' key i := by
  have hlt := (List.getElem?_eq_some_iff.mp hc).1
  simp only [Holds]
  by_cases h : c' = c
  · subst h
    simp [List.getElem?_set_self hlt]
  · simp [List.getElem?_set_ne (Ne.symm h), h]

/-! ## Steps that touch no lock and no name -/

/-- The table keeps its keys and what the held keys find. -/
structure SameNames (t t' : Table) : Prop where
  key : ∀ i, (entry t' i).key = (entry t i).key
  search : ∀ k, IsWord k → searchKey k t' = searchKey k t

/-- A new session that holds nothing, in a table with the same names and locks. -/
theorem LockInv.append_idle {s : ServerState} (h : LockInv s) {t : Table} {x : Session}
    (hx : x.holder = none) (hn : SameNames s.table t)
    (hl : ∀ i, (entry t i).lock = (entry s.table i).lock) :
    LockInv ⟨t, s.sessions ++ [x]⟩ := by
  have hold : ∀ {c key i}, Holds ⟨t, s.sessions ++ [x]⟩ c key i → Holds s c key i := by
    intro c key i hc
    simpa [holds_append, hx] using hc
  constructor
  · exact fun hc => h.word (hold hc)
  · exact fun hc => by rw [hl]; exact h.lock (hold hc)
  · exact fun hc hc' => h.slots (hold hc) (hold hc')
  · exact fun key c c' i i' hc hc' => h.exclusive key c c' i i' (hold hc) (hold hc')
  · intro c key i hc
    rw [hn.search key (h.word (hold hc)), hn.key]
    exact h.named (hold hc)
  · intro c key keyNew i hc
    have hc' : s.sessions[c]? = some (Session.updated key keyNew i) := by
      rw [List.getElem?_append] at hc
      split at hc
      · exact hc
      · obtain rfl : x = .updated key keyNew i := by
          simpa using List.mem_of_getElem? hc |> List.mem_singleton.mp |>.symm
        simp [Session.holder] at hx
    obtain ⟨hkey, hsearch⟩ := h.updated hc'
    exact ⟨hkey, by rw [hn.search key (h.word ⟨_, hc', rfl⟩), hsearch]⟩

/-- A new session that takes the lock of slot `i`. -/
theorem LockInv.append_holder {s : ServerState} (h : LockInv s) {t : Table} {key : List Char}
    {i : ℕ} (hkey : IsWord key) (hn : SameNames s.table t)
    (hfree : (entry s.table i).lock = 0) (hself : (entry t i).lock ≠ 0)
    (hl : ∀ j, j ≠ i → (entry t j).lock = (entry s.table j).lock)
    (hnone : ∀ c j, ¬ Holds s c key j)
    (hnamed : searchKey key s.table = some i ∨
      (searchKey key s.table = none ∧ (entry s.table i).key = [])) :
    LockInv ⟨t, s.sessions ++ [.voted key i]⟩ := by
  have hne : ∀ {c k j}, Holds s c k j → j ≠ i := by
    rintro c k j hc rfl
    exact h.lock hc hfree
  have hcases : ∀ {c k j}, Holds ⟨t, s.sessions ++ [.voted key i]⟩ c k j →
      Holds s c k j ∨ (c = s.sessions.length ∧ key = k ∧ i = j) := by
    intro c k j hc
    simpa [holds_append, Session.holder] using hc
  constructor
  · intro c k j hc
    rcases hcases hc with hc | ⟨-, rfl, -⟩
    · exact h.word hc
    · exact hkey
  · intro c k j hc
    rcases hcases hc with hc | ⟨-, -, rfl⟩
    · rw [hl j (hne hc)]
      exact h.lock hc
    · exact hself
  · intro c c' k k' j hc hc'
    rcases hcases hc with hc | ⟨rfl, -, rfl⟩ <;> rcases hcases hc' with hc' | ⟨rfl, -, hij⟩
    · exact h.slots hc hc'
    · exact absurd hij.symm (hne hc)
    · exact absurd rfl (hne hc')
    · rfl
  · intro k c c' j j' hc hc'
    rcases hcases hc with hc | ⟨rfl, rfl, -⟩ <;> rcases hcases hc' with hc' | ⟨rfl, hk, -⟩
    · exact h.exclusive k c c' j j' hc hc'
    · exact absurd (hk ▸ hc) (hnone c j)
    · exact absurd hc' (hnone c' j')
    · rfl
  · intro c k j hc
    rcases hcases hc with hc | ⟨-, rfl, rfl⟩
    · rw [hn.search k (h.word hc), hn.key]
      exact h.named hc
    · rw [hn.search key hkey, hn.key]
      exact hnamed
  · intro c k keyNew j hc
    have hc' : s.sessions[c]? = some (.updated k keyNew j) := by
      rw [List.getElem?_append] at hc
      split at hc
      · exact hc
      · have := List.mem_singleton.mp (List.mem_of_getElem? hc)
        simp at this
    obtain ⟨hk, hsearch⟩ := h.updated hc'
    exact ⟨hk, by rw [hn.search k (h.word ⟨_, hc', rfl⟩), hsearch]⟩

/-! ## Accepting a connection -/

theorem sameNames_getResponseSend (lier : ℤ) (key : List Char) (t : Table) :
    SameNames t (getResponseSend lier key t).1 where
  key i := getResponseSend_field KeyVal.key (fun _ _ => rfl) lier key t i
  search k _ := searchKey_getResponseSend lier k key t

/-- `putResponseVote` keeps the names; when it sends a vote it has locked a slot that was free and
that carries the key, or no name when the key was absent. -/
theorem putResponseVote_spec {lier : ℤ} {key : List Char} {t t' : Table}
    {r : Option (ℕ × List Char)} (h : putResponseVote lier key t = some (t', r)) :
    SameNames t t' ∧
      match r with
      | none => ∀ j, (entry t' j).lock = (entry t j).lock
      | some (i, _) => (entry t i).lock = 0 ∧ (entry t' i).lock ≠ 0 ∧
          (∀ j, j ≠ i → (entry t' j).lock = (entry t j).lock) ∧
          (searchKey key t = some i ∨ (searchKey key t = none ∧ (entry t i).key = [])) := by
  -- both branches end in `grantVote`, on a table that already reads like `t`
  have hgrant : ∀ (u : Table) (i : ℕ) (resMsg : List Char), i < u.length →
      (∀ j, entry u j = entry t j) → (∀ k, IsWord k → searchKey k u = searchKey k t) →
      (searchKey key t = some i ∨ (searchKey key t = none ∧ (entry t i).key = [])) →
      grantVote i resMsg u = (t', r) →
      SameNames t t' ∧
        match r with
        | none => ∀ j, (entry t' j).lock = (entry t j).lock
        | some (i, _) => (entry t i).lock = 0 ∧ (entry t' i).lock ≠ 0 ∧
            (∀ j, j ≠ i → (entry t' j).lock = (entry t j).lock) ∧
            (searchKey key t = some i ∨ (searchKey key t = none ∧ (entry t i).key = [])) := by
    intro u i resMsg hi hu hsearch hnamed hg
    have hnames : SameNames t (grantVote i resMsg u).1 :=
      { key := fun j => by rw [grantVote_field KeyVal.key (fun _ => rfl), hu]
        search := fun k hk => by rw [searchKey_grantVote, hsearch k hk] }
    rw [hg] at hnames
    refine ⟨hnames, ?_⟩
    rw [grantVote] at hg
    split at hg
    · rename_i hfree
      obtain ⟨rfl, rfl⟩ := Prod.mk.inj hg
      refine ⟨by rw [← hu]; exact hfree.1, ?_, ?_, hnamed⟩
      · rw [entry_modify_self hi]
        exact one_ne_zero
      · intro j hj
        rw [entry_modify_ne (Ne.symm hj), hu]
    · obtain ⟨rfl, rfl⟩ := Prod.mk.inj hg
      exact fun j => by rw [hu]
  rw [putResponseVote] at h
  split at h
  · rename_i hnone
    split at h
    · refine hgrant _ _ _ (by simp) (entry_append_init t)
        (fun k hk => searchKey_append_init hk.1 t) (Or.inr ⟨hnone, ?_⟩) (Option.some.inj h)
      rw [entry_of_length_le le_rfl]
      rfl
    · exact absurd h (by simp)
  · rename_i i hsome
    exact hgrant t i _ (searchKey_lt hsome) (fun _ => rfl) (fun _ _ => rfl) (Or.inl hsome)
      (Option.some.inj h)

/-- What `putResponseVote` does to the slots: none for a key it finds, one more for a key it does
not find; the vote is for this slot. -/
theorem putResponseVote_slots {lier : ℤ} {key : List Char} {t t' : Table} {r : Option (ℕ × List Char)}
    (h : putResponseVote lier key t = some (t', r)) :
    (∀ i, (entry t' i).key = (entry t i).key) ∧ ∃ j, (∀ i resMsg, r = some (i, resMsg) → i = j) ∧
      ((searchKey key t = some j ∧ t'.length = t.length) ∨
        (searchKey key t = none ∧ j = t.length ∧ t'.length = t.length + 1)) := by
  have hgrant : ∀ (u : Table) (j : ℕ) (resMsg : List Char), grantVote j resMsg u = (t', r) →
      (∀ i, (entry t' i).key = (entry u i).key) ∧ t'.length = u.length ∧
        ∀ i resMsg, r = some (i, resMsg) → i = j := by
    intro u j resMsg hg
    have hkey := grantVote_field KeyVal.key (fun _ => rfl) j resMsg u
    have hlen := length_grantVote j resMsg u
    rw [hg] at hkey hlen
    refine ⟨hkey, hlen, fun i resMsg' hr => ?_⟩
    unfold grantVote at hg
    split at hg
    · obtain ⟨-, rfl⟩ := Prod.mk.inj hg
      exact (Prod.mk.inj (Option.some.inj hr)).1.symm
    · obtain ⟨-, rfl⟩ := Prod.mk.inj hg
      cases hr
  unfold putResponseVote at h
  split at h
  · rename_i hnone
    split at h
    · obtain ⟨hkey, hlen, hslot⟩ := hgrant _ _ _ (Option.some.inj h)
      refine ⟨fun i => by rw [hkey, entry_append_init], t.length, hslot, Or.inr ⟨hnone, rfl, ?_⟩⟩
      rw [hlen, List.length_append, List.length_singleton]
    · cases h
  · rename_i j hsome
    obtain ⟨hkey, hlen, hslot⟩ := hgrant _ _ _ (Option.some.inj h)
    exact ⟨hkey, j, hslot, Or.inl ⟨hsome, hlen⟩⟩

theorem LockInv.accept {lier : ℤ} {s s' : ServerState} (h : LockInv s) (msg : List Char)
    (loc : Locals) (hclient : FromClient s (.accept msg loc))
    (hfree : AbsentKeyIsFree s (.accept msg loc))
    (hstep : serverStep lier s (.accept msg loc) = some s') : LockInv s' := by
  simp only [serverStep, Option.map_eq_some_iff] at hstep
  obtain ⟨⟨t', resp, x⟩, hresp, rfl⟩ := hstep
  obtain ⟨key, val, rfl | rfl⟩ := hclient
  · rw [responseServer_getMsg lier loc key.isWord key.fits_key] at hresp
    have hnames := sameNames_getResponseSend lier key.chars s.table
    have hlock := getResponseSend_field KeyVal.lock (fun _ _ => rfl) lier key.chars s.table
    split at hresp <;>
    · rename_i hget
      simp only [Option.some.injEq, Prod.mk.injEq] at hresp
      obtain ⟨rfl, -, rfl⟩ := hresp
      rw [hget] at hnames hlock
      exact h.append_idle rfl hnames hlock
  · rw [responseServer_putMsg lier loc key.isWord val.isWord key.fits_key val.fits_val] at hresp
    have hfree' := hfree (readMsgType_putMsg _ _ _)
    rw [readKey_putMsg key.isWord] at hfree'
    split at hresp
    · rename_i t i resMsg hvote
      simp only [Option.some.injEq, Prod.mk.injEq] at hresp
      obtain ⟨rfl, -, rfl⟩ := hresp
      obtain ⟨hnames, hfreeSlot, hself, hother, hnamed⟩ := putResponseVote_spec hvote
      refine h.append_holder key.isWord hnames hfreeSlot hself hother ?_ hnamed
      intro c j hc
      -- another session for the key holds the slot its lookup finds, which is locked
      rcases hnamed with hi | ⟨hnone, -⟩
      · rcases h.named hc with hj | ⟨hj, -⟩
        · obtain rfl : i = j := by simpa [hi] using hj
          exact h.lock hc hfreeSlot
        · simp [hi] at hj
      · exact hfree' hnone c j hc
    · rename_i t hvote
      simp only [Option.some.injEq, Prod.mk.injEq] at hresp
      obtain ⟨rfl, -, rfl⟩ := hresp
      obtain ⟨hnames, hlock⟩ := putResponseVote_spec hvote
      exact h.append_idle rfl hnames hlock
    · exact absurd hresp (by simp)

/-! ## Ending a session -/

/-- `releaselockResponse` for the key of a session unlocks no other session's slot. -/
theorem LockInv.lock_releaselockResponse {s : ServerState} (h : LockInv s) {c c' : ℕ}
    {key key' : List Char} {i i' : ℕ} (hc : Holds s c key i) (hc' : Holds s c' key' i')
    (hne : c' ≠ c) :
    (entry (releaselockResponse key s.table) i').lock = (entry s.table i').lock := by
  have hii : i ≠ i' := by
    rintro rfl
    exact hne (h.slots hc' hc)
  rw [releaselockResponse]
  rcases h.named hc with hi | ⟨hi, -⟩
  · simp [hi, entry_modify_ne hii]
  · simp [hi]

/-- A session ends with the release of its key. -/
theorem LockInv.close {s : ServerState} (h : LockInv s) {c : ℕ} {x : Session} {key : List Char}
    {i : ℕ} (hx : s.sessions[c]? = some x) (hc : x.holder = some (key, i)) :
    LockInv ⟨releaselockResponse key s.table, s.sessions.set c .closed⟩ := by
  have hold : ∀ {c' k j},
      Holds ⟨releaselockResponse key s.table, s.sessions.set c .closed⟩ c' k j →
      c' ≠ c ∧ Holds s c' k j := by
    intro c' k j hc'
    rw [holds_set hx] at hc'
    split at hc'
    · simp [Session.holder] at hc'
    · exact ⟨‹_›, hc'⟩
  constructor
  · exact fun hc' => h.word (hold hc').2
  · intro c' k j hc'
    obtain ⟨hne, hc'⟩ := hold hc'
    rw [h.lock_releaselockResponse ⟨x, hx, hc⟩ hc' hne]
    exact h.lock hc'
  · exact fun hc' hc'' => h.slots (hold hc').2 (hold hc'').2
  · exact fun k c' c'' j j' hc' hc'' => h.exclusive k c' c'' j j' (hold hc').2 (hold hc'').2
  · intro c' k j hc'
    rw [searchKey_releaselockResponse, releaselockResponse_field KeyVal.key fun _ => rfl]
    exact h.named (hold hc').2
  · intro c' k keyNew j hc'
    rw [searchKey_releaselockResponse]
    by_cases hcc : c' = c
    · subst hcc
      rw [List.getElem?_set_self (List.getElem?_eq_some_iff.mp hx).1] at hc'
      simp at hc'
    · rw [List.getElem?_set_ne (Ne.symm hcc)] at hc'
      exact h.updated hc'

/-! ## The update -/

/-- A `PUT` session of a client gets the update of its key, or nothing. -/
theorem putResponseUpdate_fromClient {s : ServerState} {c : ℕ} {key : List Char} {i : ℕ}
    {msg : Option (List Char)} {loc : Locals} {t : Table} {sent keyNew : Option (List Char)}
    (hclient : FromClient s (.recv c msg loc)) (hx : s.sessions[c]? = some (.voted key i))
    (hkey : IsWord key) (h : putResponseUpdate key i loc msg s.table = some (t, sent, keyNew)) :
    (∃ (val : Word) (vno : ℤ), msg = some (updateMsg key val.chars vno) ∧
      updateResponse key val.chars (storedInt vno)
        (s.table.modify i fun kv => { kv with key := key }) = some (t, sent) ∧ keyNew = some key) ∨
      msg = none ∧ t = releaselockResponse key s.table ∧ sent = none ∧ keyNew = none := by
  cases msg with
  | none =>
    obtain ⟨m, -, -, -, hm, -⟩ | ⟨-, ht, hsent, hnew⟩ := putResponseUpdate_cases h
    · cases hm
    · exact Or.inr ⟨rfl, ht, hsent, hnew⟩
  | some m =>
    obtain ⟨val, vno, rfl⟩ := hclient.1 key i hx
    obtain ⟨hu, hnew⟩ := putResponseUpdate_eq_some hkey val h
    exact Or.inl ⟨val, vno, rfl, hu, hnew⟩

/-- A session's slot is named after its key and the update is stored. -/
theorem LockInv.update {s : ServerState} (h : LockInv s) {c : ℕ} {key : List Char} {i : ℕ}
    (hx : s.sessions[c]? = some (.voted key i)) {val : List Char} {vno : ℤ} {t : Table}
    {sent : Option (List Char)}
    (hu : updateResponse key val vno (s.table.modify i fun kv => { kv with key := key }) =
      some (t, sent)) : LockInv ⟨t, s.sessions.set c (.updated key key i)⟩ := by
  have hc : Holds s c key i := ⟨_, hx, rfl⟩
  have hword := h.word hc
  have hi := h.slot_lt hc
  have hlock : ∀ j, (entry t j).lock = (entry s.table j).lock := fun j => by
    rw [updateResponse_field KeyVal.lock (fun _ => rfl) hu]
    exact entry_modify_field KeyVal.lock (fun _ => by rfl) s.table i j
  have hkeyOther : ∀ j, j ≠ i → (entry t j).key = (entry s.table j).key := fun j hj => by
    rw [updateResponse_field KeyVal.key (fun _ => rfl) hu, entry_modify_ne (Ne.symm hj)]
  have hself : searchKey key t = some i := by
    rw [searchKey_updateResponse hu]
    rcases h.named hc with hsome | ⟨hnone, -⟩
    · rw [searchKey_rename_same (key_entry_of_searchKey hsome), hsome]
    · exact searchKey_rename_self hi hnone
  have hother : ∀ k, IsWord k → k ≠ key → searchKey k t = searchKey k s.table := by
    intro k hk hne
    rw [searchKey_updateResponse hu]
    refine searchKey_rename_ne hne ?_
    rcases h.named hc with hsome | ⟨-, hnil⟩
    · rwa [key_entry_of_searchKey hsome]
    · rw [hnil]
      exact hk.1
  have hcases : ∀ {c' k j}, Holds ⟨t, s.sessions.set c (.updated key key i)⟩ c' k j →
      Holds s c' k j ∧ (c' = c → k = key ∧ j = i) := by
    intro c' k j hc'
    rw [holds_set hx] at hc'
    split at hc'
    · rename_i hcc
      obtain ⟨rfl, rfl⟩ : key = k ∧ i = j := by simpa [Session.holder] using hc'
      exact ⟨hcc ▸ hc, fun _ => ⟨rfl, rfl⟩⟩
    · rename_i hcc
      exact ⟨hc', fun h => absurd h hcc⟩
  constructor
  · exact fun hc' => h.word (hcases hc').1
  · exact fun hc' => by rw [hlock]; exact h.lock (hcases hc').1
  · exact fun hc' hc'' => h.slots (hcases hc').1 (hcases hc'').1
  · exact fun k c' c'' j j' hc' hc'' =>
      h.exclusive k c' c'' j j' (hcases hc').1 (hcases hc'').1
  · intro c' k j hc'
    obtain ⟨hk, hsame⟩ := hcases hc'
    by_cases hcc : c' = c
    · obtain ⟨rfl, rfl⟩ := hsame hcc
      exact Or.inl hself
    · have hkne : k ≠ key := by
        rintro rfl
        exact hcc (h.exclusive k c' c j i hk hc)
      have hjne : j ≠ i := by
        rintro rfl
        exact hcc (h.slots hk hc)
      rw [hother k (h.word hk) hkne, hkeyOther j hjne]
      exact h.named hk
  · intro c' k keyNew j hc'
    by_cases hcc : c' = c
    · subst hcc
      rw [List.getElem?_set_self (List.getElem?_eq_some_iff.mp hx).1] at hc'
      simp only [Option.some.injEq, Session.updated.injEq] at hc'
      obtain ⟨rfl, rfl, rfl⟩ := hc'
      exact ⟨rfl, hself⟩
    · rw [List.getElem?_set_ne (Ne.symm hcc)] at hc'
      have hk : Holds s c' k j := ⟨_, hc', rfl⟩
      have hkne : k ≠ key := by
        rintro rfl
        exact hcc (h.exclusive k c' c j i hk hc)
      obtain ⟨hnew, hsearch⟩ := h.updated hc'
      exact ⟨hnew, by rw [hother k (h.word hk) hkne, hsearch]⟩

theorem LockInv.recv {lier : ℤ} {s s' : ServerState} (h : LockInv s) (c : ℕ)
    (msg : Option (List Char)) (loc : Locals) (hclient : FromClient s (.recv c msg loc))
    (hstep : serverStep lier s (.recv c msg loc) = some s') : LockInv s' := by
  rcases serverStep_recv_cases hstep with ⟨key, i, t, sent, keyNew, hx, hr, rfl⟩ |
    ⟨key, keyNew, i, t, hx, hr, rfl⟩
  · rcases putResponseUpdate_fromClient hclient hx (h.word ⟨_, hx, rfl⟩) hr with
      ⟨val, vno, -, hu, rfl⟩ | ⟨-, rfl, -, rfl⟩
    · exact h.update hx hu
    · exact h.close hx rfl
  · obtain ⟨rfl, -⟩ := h.updated hx
    obtain ⟨-, rfl⟩ | ⟨-, rfl⟩ := putResponseRelease_cases hr
    · exact h.close hx rfl
    · exact h.close hx rfl

theorem LockInv.sent {lier : ℤ} {s s' : ServerState} (h : LockInv s) (c : ℕ)
    (hstep : serverStep lier s (.sent c) = some s') : LockInv s' := by
  simp only [serverStep] at hstep
  split at hstep
  · rename_i i hx
    obtain rfl := Option.some.inj hstep
    have hold : ∀ {c' k j},
        Holds ⟨getResponseDecr i s.table, s.sessions.set c .closed⟩ c' k j → Holds s c' k j := by
      intro c' k j hc'
      rw [holds_set hx] at hc'
      split at hc'
      · simp [Session.holder] at hc'
      · exact hc'
    constructor
    · exact fun hc' => h.word (hold hc')
    · intro c' k j hc'
      rw [getResponseDecr, entry_modify_field KeyVal.lock fun _ => by rfl]
      exact h.lock (hold hc')
    · exact fun hc' hc'' => h.slots (hold hc') (hold hc'')
    · exact fun k c' c'' j j' hc' hc'' => h.exclusive k c' c'' j j' (hold hc') (hold hc'')
    · intro c' k j hc'
      rw [searchKey_getResponseDecr, getResponseDecr, entry_modify_field KeyVal.key fun _ => by rfl]
      exact h.named (hold hc')
    · intro c' k keyNew j hc'
      rw [searchKey_getResponseDecr]
      by_cases hcc : c' = c
      · subst hcc
        rw [List.getElem?_set_self (List.getElem?_eq_some_iff.mp hx).1] at hc'
        simp at hc'
      · rw [List.getElem?_set_ne (Ne.symm hcc)] at hc'
        exact h.updated hc'
  · exact absurd hstep (by simp)

/-! ## Runs -/

theorem LockInv.step {lier : ℤ} (s : ServerState) (e : Event) (s' : ServerState)
    (h : LockInv s) (hclient : FromClient s e) (hfree : AbsentKeyIsFree s e)
    (hstep : serverStep lier s e = some s') : LockInv s' := by
  cases e with
  | accept msg loc => exact h.accept msg loc hclient hfree hstep
  | sent c => exact h.sent c hstep
  | recv c msg loc => exact h.recv c msg loc hclient hstep

/-- A `PUT` for an absent key is granted a vote whatever other sessions for the key are doing. -/
theorem not_exclusive_of_absent_key {lier : ℤ} (s : ServerState) (e : Event) (s' : ServerState)
    (hno : ¬ AbsentKeyIsFree s e) (hstep : serverStep lier s e = some s') :
    ¬ WriteLockExclusive s' := by
  cases e with
  | sent c => exact absurd trivial hno
  | recv c msg loc => exact absurd trivial hno
  | accept msg loc =>
    simp only [AbsentKeyIsFree, not_forall, not_not] at hno
    obtain ⟨hput, hnone, c, i, hc⟩ := hno
    obtain ⟨⟨t', resp, x⟩, hresp, rfl⟩ := Option.map_eq_some_iff.mp hstep
    -- the reserved slot is neither locked nor read, so the vote is granted
    have hgrant : ∀ resMsg, grantVote s.table.length resMsg (s.table ++ [initKeyValStruct]) =
        ((s.table ++ [initKeyValStruct]).modify s.table.length fun kv => { kv with lock := 1 },
          some (s.table.length, resMsg)) := by
      intro resMsg
      rw [grantVote, entry_append_init, entry_of_length_le le_rfl]
      exact if_pos ⟨rfl, rfl⟩
    obtain ⟨j, resMsg, hvote, -, rfl⟩ | ⟨hvote, -, -⟩ := responseServer_put hresp hput
    · intro hex
      have hlt : c < s.sessions.length := by
        obtain ⟨y, hy, -⟩ := hc
        exact (List.getElem?_eq_some_iff.mp hy).1
      have hcc := hex (readKey msg loc.key) c s.sessions.length i j
        (holds_append.mpr (Or.inl hc)) (holds_append.mpr (Or.inr ⟨rfl, rfl⟩))
      omega
    · simp only [putResponseVote, hnone, hgrant] at hvote
      split at hvote
      · simp at hvote
      · cases hvote

/-- In every run of a server whose connections all send what `Client.c` sends, in any order and
stopping anywhere, the `PUT` sessions of a key exclude each other throughout if and only if no `PUT`
finds its key absent while another `PUT` session for it is under way. -/
theorem writeLockExclusive_iff (lier : ℤ) (es : List Event) (s : ServerState)
    (hrun : run (serverStep lier) .init es = some s)
    (hclient : Each (serverStep lier) FromClient .init es) :
    Always (serverStep lier) WriteLockExclusive .init es ↔
      Each (serverStep lier) AbsentKeyIsFree .init es :=
  always_iff_each LockInv.init (fun _ h => h.exclusive) LockInv.step
    (fun s e s' _ _ hno hstep => not_exclusive_of_absent_key s e s' hno hstep) hrun hclient

/-! ## Two runs -/

/-- `PUT key1 key2`, for a key the server starts with. -/
def putPresent : Event :=
  .accept (putMsg (Word.ofString "key1").chars (Word.ofString "key2").chars) {}

/-- `PUT key2 key1`, for a key it does not start with. -/
def putAbsent : Event :=
  .accept (putMsg (Word.ofString "key2").chars (Word.ofString "key1").chars) {}

/-- A whole session for `key1`, and another `PUT` of it that overlaps nothing. -/
def putTwice : List Event :=
  [putPresent, .recv 0 (some (updateMsg "key1".toList (Word.ofString "key2").chars 2)) {},
    .recv 0 (some (releaselockMsg "key1".toList)) {}, putPresent]

/-- The slot of `key1` with other contents. -/
def slotKey1 (val : String) (vno lock : ℤ) : Table :=
  [{ entry initTable 0 with value := val.toList, vno := vno, lock := lock }]

theorem fromClient_putTwice : Each (serverStep 0) FromClient .init putTwice := by
  refine .cons ⟨_, _, .inr rfl⟩
    (t := ⟨slotKey1 "value1" 1 1, [.voted "key1".toList 0]⟩) (by rfl) ?_
  refine .cons ⟨fun key i h => ?_, by simp⟩
    (t := ⟨slotKey1 "key2" 2 1, [.updated "key1".toList "key1".toList 0]⟩) (by rfl) ?_
  · obtain ⟨rfl, -⟩ : "key1".toList = key ∧ 0 = i := by simpa using h
    exact ⟨_, 2, rfl⟩
  refine .cons ⟨by simp, fun key keyNew i h => ?_⟩
    (t := ⟨slotKey1 "key2" 2 0, [.closed]⟩) (by rfl) ?_
  · obtain ⟨rfl, -⟩ : "key1".toList = key ∧ _ := by simpa using h
    rfl
  exact .cons ⟨_, _, .inr rfl⟩
    (t := ⟨slotKey1 "key2" 2 1, [.closed, .voted "key1".toList 0]⟩) (by rfl) each_nil

theorem writeLockExclusive_putTwice :
    Always (serverStep 0) WriteLockExclusive .init putTwice := by
  refine (writeLockExclusive_iff 0 putTwice _ (by rfl) fromClient_putTwice).mpr ?_
  -- `key1` is in the table throughout, so no `PUT` finds its key absent
  have hpresent : ∀ t ss, searchKey "key1".toList t = some 0 →
      AbsentKeyIsFree ⟨t, ss⟩ putPresent := by
    intro t ss ht _ hnone
    rw [show readKey _ _ = "key1".toList from by rfl, ht] at hnone
    exact absurd hnone (by simp)
  refine .cons (hpresent _ _ (by rfl))
    (t := ⟨slotKey1 "value1" 1 1, [.voted "key1".toList 0]⟩) (by rfl) ?_
  refine .cons trivial
    (t := ⟨slotKey1 "key2" 2 1, [.updated "key1".toList "key1".toList 0]⟩) (by rfl) ?_
  refine .cons trivial (t := ⟨slotKey1 "key2" 2 0, [.closed]⟩) (by rfl) ?_
  exact .cons (hpresent _ _ (by rfl))
    (t := ⟨slotKey1 "key2" 2 1, [.closed, .voted "key1".toList 0]⟩) (by rfl) each_nil

/-- Two overlapping `PUT` sessions for an absent key are both sent a vote. -/
theorem not_writeLockExclusive_putAbsent :
    Each (serverStep 0) FromClient .init [putAbsent, putAbsent] ∧
      ∃ s, run (serverStep 0) .init [putAbsent, putAbsent] = some s ∧
        Holds s 0 "key2".toList 1 ∧ Holds s 1 "key2".toList 2 ∧ ¬ WriteLockExclusive s := by
  have hclient : ∀ s, FromClient s putAbsent := fun s => ⟨_, _, .inr rfl⟩
  refine ⟨?_, ⟨initTable ++ [{ initKeyValStruct with lock := 1 }, { initKeyValStruct with lock := 1 }],
    [.voted "key2".toList 1, .voted "key2".toList 2]⟩, by rfl, ?_⟩
  · exact each_cons.mpr ⟨hclient _, fun s _ => each_cons.mpr ⟨hclient s, fun _ _ => each_nil⟩⟩
  · have h0 : Holds ⟨initTable ++ [{ initKeyValStruct with lock := 1 },
        { initKeyValStruct with lock := 1 }],
        [.voted "key2".toList 1, .voted "key2".toList 2]⟩ 0 "key2".toList 1 := ⟨_, rfl, rfl⟩
    have h1 : Holds ⟨initTable ++ [{ initKeyValStruct with lock := 1 },
        { initKeyValStruct with lock := 1 }],
        [.voted "key2".toList 1, .voted "key2".toList 2]⟩ 1 "key2".toList 2 := ⟨_, rfl, rfl⟩
    exact ⟨h0, h1, fun h => absurd (h _ _ _ _ _ h0 h1) (by decide)⟩

end QuorumLogFs.Vote
