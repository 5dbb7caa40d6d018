import QuorumLogFs.Vote.LockHolder

/-!
# The sessions of a key

The lock of an entry has no owner: `updateKey` asks whether some session holds it, and
`releaselockResponse` clears it for whoever names the key. So the lock keeps the other `PUT` sessions away
from an entry as long as nobody gets past it: a first message that updates or releases the key, an update
of a session for another key, a session that reserved its slot when the key was missing. In the runs where
none of these happens, only the session that holds the lock acts on the entry.
-/

namespace QuorumLogFs.Vote

open QuorumLogFs.Basis

/-- A `PUT` session for `k` is between its vote and its end. -/
def UnderWay (k : List Char) (s : ServerState) : Prop := ∃ c i, Holds s c k i

/-- The message respects the sessions for `k`. While one of them is under way, no connection starts with
an update or a release of `k`, nor with a `PUT` that finds `k` missing; inside the `PUT` sessions the key of
an update is `k` exactly if the session is for `k`. Messages name a key. -/
def Respects (k : List Char) (s : ServerState) : Event → Prop
  | .accept msg loc => readKey msg loc.key ≠ [] ∧
      (UnderWay k s → readKey msg loc.key = k →
        ¬ Received (some msg) loc "update".toList ∧ ¬ Received (some msg) loc "releaselock".toList ∧
          (Received (some msg) loc "PUT".toList → searchKey k s.table ≠ none))
  | .sent _ => True
  | .recv c msg loc => Received msg loc "update".toList → ∀ key i,
      s.sessions[c]? = some (.voted key i) → keyOfUpdate msg loc ≠ [] ∧ (keyOfUpdate msg loc = k ↔ key = k)

/-! ## The invariant -/

/-- At most one `PUT` session for `k` is under way, its slot is locked, is found under `k` as soon as any
slot is, and is held by no session for another key. -/
structure KeyInv (k : List Char) (s : ServerState) : Prop where
  ne_nil : ∀ {c key i}, Holds s c key i → key ≠ []
  slot_lt : ∀ {c key i}, Holds s c key i → i < s.table.length
  exclusive : ∀ {c c' i i'}, Holds s c k i → Holds s c' k i' → c = c'
  lock : ∀ {c i}, Holds s c k i → (entry s.table i).lock ≠ 0
  named : ∀ {c i}, Holds s c k i →
    searchKey k s.table = some i ∨ searchKey k s.table = none ∧ (entry s.table i).key = []
  other : ∀ {c key i}, Holds s c key i → key ≠ k →
    (entry s.table i).key ≠ k ∧ ∀ c', ¬ Holds s c' k i
  updated : ∀ {c : ℕ} {key keyNew : List Char} {i : ℕ},
    s.sessions[c]? = some (.updated key keyNew i) → keyNew ≠ [] ∧ (keyNew = k ↔ key = k)

section

variable {lier : ℤ} {s s' : ServerState} {c : ℕ} {k : Word} {key : List Char} {i : ℕ} {e : Event}
  {t : Table} {x y : Session}

theorem KeyInv.init (k : List Char) : KeyInv k .init := by
  constructor <;> simp [Holds, ServerState.init]

/-- A slot of another session is not called `k`, and a slot of `k` is not called by another key. -/
theorem KeyInv.key_ne (h : KeyInv k.chars s) (hc : Holds s c k.chars i) (hnil : key ≠ [])
    (hne : key ≠ k.chars) : (entry s.table i).key ≠ key := by
  rcases h.named hc with hfound | ⟨-, hunnamed⟩
  · rw [key_entry_of_searchKey hfound]
    exact hne.symm
  · rw [hunnamed]
    exact hnil.symm

/-- A step that starts no session, and gives no name to a slot. -/
theorem KeyInv.frame (h : KeyInv k.chars s) (hlen : s.table.length ≤ s'.table.length)
    (hsearch : searchKey k.chars s'.table = searchKey k.chars s.table)
    (hkeys : ∀ j, (entry s'.table j).key = (entry s.table j).key)
    (hholds : ∀ {c key j}, Holds s' c key j → Holds s c key j)
    (hlock : ∀ {c j}, Holds s' c k.chars j → (entry s'.table j).lock ≠ 0)
    (hupdated : ∀ {c : ℕ} {key keyNew : List Char} {j : ℕ},
      s'.sessions[c]? = some (.updated key keyNew j) → s.sessions[c]? = some (.updated key keyNew j)) :
    KeyInv k.chars s' where
  ne_nil hc := h.ne_nil (hholds hc)
  slot_lt hc := (h.slot_lt (hholds hc)).trans_le hlen
  exclusive hc hc' := h.exclusive (hholds hc) (hholds hc')
  lock := hlock
  named hc := by
    rw [hsearch, hkeys]
    exact h.named (hholds hc)
  other hc hne := by
    rw [hkeys]
    exact ⟨(h.other (hholds hc) hne).1, fun c' hc' => (h.other (hholds hc) hne).2 c' (hholds hc')⟩
  updated hc := h.updated (hupdated hc)

/-- A session that is appended is not waiting for its release. -/
theorem updated_append {keyNew : List Char} (hx : ∀ key keyNew j, x ≠ .updated key keyNew j)
    (hc : (s.sessions ++ [x])[c]? = some (.updated key keyNew i)) :
    s.sessions[c]? = some (.updated key keyNew i) := by
  rw [List.getElem?_append] at hc
  split at hc
  · exact hc
  · exact absurd (List.mem_singleton.mp (List.mem_of_getElem? hc)).symm (hx _ _ _)

/-- A new session that holds nothing. -/
theorem KeyInv.append_idle (h : KeyInv k.chars s) (hx : x.holder = none)
    (hn : SameNames s.table t) (hlen : s.table.length ≤ t.length)
    (hlock : ∀ {c j}, Holds s c k.chars j → (entry t j).lock ≠ 0) :
    KeyInv k.chars ⟨t, s.sessions ++ [x]⟩ := by
  have hold : ∀ {c key j}, Holds ⟨t, s.sessions ++ [x]⟩ c key j → Holds s c key j := by
    intro c key j hc
    simpa [holds_append, hx] using hc
  refine h.frame hlen (hn.search _ k.isWord) hn.key hold (fun hc => hlock (hold hc)) fun hc => ?_
  refine updated_append (fun _ _ _ => ?_) hc
  rintro rfl
  cases hx

/-- A session ends; if it was for `k`, no session for `k` is left. -/
theorem KeyInv.close (h : KeyInv k.chars s) (hx : s.sessions[c]? = some x)
    (hn : SameNames s.table t) (hlen : t.length = s.table.length)
    (hlock : ∀ {c' j}, c' ≠ c → Holds s c' k.chars j → (entry t j).lock ≠ 0) :
    KeyInv k.chars ⟨t, s.sessions.set c .closed⟩ := by
  have hold : ∀ {c' key j}, Holds ⟨t, s.sessions.set c .closed⟩ c' key j → c' ≠ c ∧ Holds s c' key j := by
    intro c' key j hc'
    rw [holds_set hx] at hc'
    split at hc'
    · cases hc'
    · exact ⟨‹_›, hc'⟩
  refine h.frame hlen.ge (hn.search _ k.isWord) hn.key (fun hc => (hold hc).2)
    (fun hc => hlock (hold hc).1 (hold hc).2) fun {c' key keyNew j} hc => ?_
  have hne : c' ≠ c := (hold ⟨_, hc, rfl⟩).1
  rwa [List.getElem?_set_ne hne.symm] at hc

theorem sameNames_releaselockResponse (key : List Char) (t : Table) :
    SameNames t (releaselockResponse key t) where
  key i := releaselockResponse_field KeyVal.key (fun _ => rfl) key t i
  search k _ := searchKey_releaselockResponse k key t

theorem sameNames_updateResponse {val : List Char} {vno : ℤ} {sent : Option (List Char)} {u : Table}
    (h : updateResponse key val vno t = some (u, sent)) : SameNames t u where
  key i := updateResponse_field KeyVal.key (fun _ => rfl) h i
  search k _ := searchKey_updateResponse h k

/-- Releasing another key keeps the lock of a session for `k`. -/
theorem KeyInv.lock_releaselockResponse (h : KeyInv k.chars s) (hc : Holds s c k.chars i)
    (hnil : key ≠ []) (hne : key ≠ k.chars) :
    (entry (releaselockResponse key s.table) i).lock ≠ 0 := by
  rw [entry_releaselockResponse_ne (h.key_ne hc hnil hne)]
  exact h.lock hc

/-- The end of a session with the release of a key, which is `k` only if the session is for `k`. -/
theorem KeyInv.release (h : KeyInv k.chars s) (hx : s.sessions[c]? = some x)
    (hc : x.holder = some (key, i)) {key' : List Char} (hnil : key' ≠ [])
    (hkey : key' = k.chars → key = k.chars) :
    KeyInv k.chars ⟨releaselockResponse key' s.table, s.sessions.set c .closed⟩ := by
  refine h.close hx (sameNames_releaselockResponse key' s.table) (length_releaselockResponse key' _) ?_
  intro c' j hne hc'
  refine h.lock_releaselockResponse hc' hnil fun heq => ?_
  obtain rfl := hkey heq
  exact hne (h.exclusive hc' ⟨x, hx, hc⟩)

/-- A vote for a free slot. -/
theorem KeyInv.vote (h : KeyInv k.chars s) (hnil : key ≠ [])
    (hmissing : key = k.chars → UnderWay k.chars s → searchKey key s.table ≠ none)
    {resMsg : List Char} (hvote : putResponseVote lier key s.table = some (t, some (i, resMsg))) :
    KeyInv k.chars ⟨t, s.sessions ++ [.voted key i]⟩ := by
  obtain ⟨hnames, hfree, hself, hlock, hnamed⟩ := putResponseVote_spec hvote
  obtain ⟨-, j, hj, hslot⟩ := putResponseVote_slots hvote
  obtain rfl := hj i resMsg rfl
  have hlen : s.table.length ≤ t.length := (putResponseVote_getters hvote).2
  have hlt : i < t.length := by
    by_contra hle
    exact hself (by rw [entry_of_length_le (not_lt.mp hle)]; rfl)
  have hcases : ∀ {c key' j}, Holds ⟨t, s.sessions ++ [.voted key i]⟩ c key' j →
      Holds s c key' j ∨ (c = s.sessions.length ∧ key = key' ∧ i = j) := by
    intro c key' j hc
    simpa [holds_append, Session.holder] using hc
  -- another session for `k` would have its slot locked
  have hnone : key = k.chars → ∀ c j, ¬ Holds s c k.chars j := by
    rintro rfl c j hc
    rcases h.named hc with hfound | ⟨hno, -⟩
    · rcases hnamed with hi | ⟨hi, -⟩
      · obtain rfl := Option.some.inj (hfound.symm.trans hi)
        exact h.lock hc hfree
      · exact absurd (hfound.symm.trans hi) (by simp)
    · exact hmissing rfl ⟨c, j, hc⟩ hno
  -- the slot is called by the key, or it is new
  have hkey : (entry s.table i).key = key ∨ s.table.length ≤ i := by
    rcases hslot with ⟨hi, -⟩ | ⟨-, rfl, -⟩
    · exact Or.inl (key_entry_of_searchKey hi)
    · exact Or.inr le_rfl
  have hunlike : key ≠ k.chars → (entry s.table i).key ≠ k.chars := by
    intro hne
    rcases hnamed with hi | ⟨-, hnil'⟩
    · rw [key_entry_of_searchKey hi]
      exact hne
    · rw [hnil']
      exact k.isWord.1.symm
  constructor
  · intro c key' j hc
    rcases hcases hc with hc | ⟨-, rfl, -⟩
    · exact h.ne_nil hc
    · exact hnil
  · intro c key' j hc
    rcases hcases hc with hc | ⟨-, -, rfl⟩
    · exact (h.slot_lt hc).trans_le hlen
    · exact hlt
  · intro c c' j j' hc hc'
    rcases hcases hc with hc | ⟨rfl, rfl, -⟩ <;> rcases hcases hc' with hc' | ⟨rfl, hk, -⟩
    · exact h.exclusive hc hc'
    · exact absurd hc (hnone hk c j)
    · exact absurd hc' (hnone rfl c' j')
    · rfl
  · intro c j hc
    rcases hcases hc with hold | ⟨-, -, rfl⟩
    · rw [hlock j]
      · exact h.lock hold
      · rintro rfl
        exact h.lock hold hfree
    · exact hself
  · intro c j hc
    rw [hnames.search _ k.isWord, hnames.key]
    rcases hcases hc with hc | ⟨-, rfl, rfl⟩
    · exact h.named hc
    · exact hnamed
  · intro c key' j hc hne
    rw [hnames.key]
    rcases hcases hc with hold | ⟨-, rfl, rfl⟩
    · refine ⟨(h.other hold hne).1, fun c' hc' => ?_⟩
      rcases hcases hc' with hold' | ⟨-, rfl, rfl⟩
      · exact (h.other hold hne).2 c' hold'
      · rcases hkey with hkey | hge
        · exact (h.other hold hne).1 hkey
        · exact absurd (h.slot_lt hold) (not_lt.mpr hge)
    · refine ⟨hunlike hne, fun c' hc' => ?_⟩
      rcases hcases hc' with hold' | ⟨-, heq, -⟩
      · exact h.lock hold' hfree
      · exact hne heq
  · intro c key' keyNew j hc
    exact h.updated (updated_append (fun _ _ _ => by simp) hc)

/-- The update of a session, of `k` exactly if the session is for `k`. -/
theorem KeyInv.update (h : KeyInv k.chars s) (hx : s.sessions[c]? = some (.voted key i))
    {keyNew val : List Char} {vno : ℤ} {sent : Option (List Char)} (hnil : keyNew ≠ [])
    (hnew : keyNew = k.chars ↔ key = k.chars)
    (hu : updateResponse keyNew val vno (s.table.modify i fun kv => { kv with key := keyNew }) =
      some (t, sent)) : KeyInv k.chars ⟨t, s.sessions.set c (.updated key keyNew i)⟩ := by
  have hc : Holds s c key i := ⟨_, hx, rfl⟩
  have hlt := h.slot_lt hc
  have hlen : t.length = s.table.length := (length_updateResponse hu).trans (List.length_modify ..)
  have hlock : ∀ j, (entry t j).lock = (entry s.table j).lock := fun j => by
    rw [updateResponse_field KeyVal.lock (fun _ => rfl) hu]
    exact entry_modify_field KeyVal.lock (fun _ => by rfl) s.table i j
  have hkeys : ∀ j, (entry t j).key = if j = i then keyNew else (entry s.table j).key := fun j => by
    rw [updateResponse_field KeyVal.key (fun _ => rfl) hu]
    by_cases hji : j = i
    · rw [hji, if_pos rfl, entry_modify_self hlt]
    · rw [if_neg hji, entry_modify_ne (Ne.symm hji)]
  have hholds : ∀ {c' key' j}, Holds ⟨t, s.sessions.set c (.updated key keyNew i)⟩ c' key' j →
      Holds s c' key' j := by
    intro c' key' j hc'
    rw [holds_set hx] at hc'
    split at hc'
    · rename_i hcc
      obtain ⟨rfl, rfl⟩ := Prod.mk.inj (Option.some.inj hc')
      exact hcc ▸ hc
    · exact hc'
  have hnamed : ∀ {c' j}, Holds s c' k.chars j → searchKey k.chars t = some j ∨
      searchKey k.chars t = none ∧ (entry t j).key = [] := by
    intro c' j hc'
    rw [searchKey_updateResponse hu]
    by_cases hk : key = k.chars
    · -- the slot gets its name, or has it already
      subst hk
      obtain rfl := hnew.mpr rfl
      obtain rfl := h.exclusive hc hc'
      obtain rfl : i = j := by
        obtain ⟨y, hy, hyj⟩ := hc'
        obtain rfl := Option.some.inj (hx.symm.trans hy)
        exact (Prod.mk.inj (Option.some.inj hyj)).2
      rcases h.named hc with hfound | ⟨hno, -⟩
      · rw [searchKey_rename_same (key_entry_of_searchKey hfound), hfound]
        exact Or.inl rfl
      · exact Or.inl (searchKey_rename_self hlt hno)
    · have hne : k.chars ≠ keyNew := fun heq => hk (hnew.mp heq.symm)
      have hji : j ≠ i := by
        rintro rfl
        exact (h.other hc hk).2 c' hc'
      rw [searchKey_rename_ne hne (h.other hc hk).1.symm, hkeys, if_neg hji]
      exact h.named hc'
  constructor
  · exact fun hc' => h.ne_nil (hholds hc')
  · exact fun hc' => (h.slot_lt (hholds hc')).trans_le hlen.ge
  · exact fun hc' hc'' => h.exclusive (hholds hc') (hholds hc'')
  · exact fun hc' => by rw [hlock]; exact h.lock (hholds hc')
  · exact fun hc' => hnamed (hholds hc')
  · intro c' key' j hc' hne
    refine ⟨?_, fun c'' hc'' => (h.other (hholds hc') hne).2 c'' (hholds hc'')⟩
    rw [hkeys]
    split
    · rename_i hji
      subst hji
      intro heq
      have hk := hnew.mp heq
      exact (h.other (hholds hc') hne).2 c (hk ▸ hc)
    · exact (h.other (hholds hc') hne).1
  · intro c' key' keyNew' j hc'
    by_cases hcc : c' = c
    · subst hcc
      rw [List.getElem?_set_self (List.getElem?_eq_some_iff.mp hx).1] at hc'
      obtain ⟨rfl, rfl, rfl⟩ := Session.updated.inj (Option.some.inj hc')
      exact ⟨hnil, hnew⟩
    · rw [List.getElem?_set_ne (Ne.symm hcc)] at hc'
      exact h.updated hc'

theorem KeyInv.accept {m : List Char} {loc : Locals} (h : KeyInv k.chars s)
    (hok : Respects k.chars s (.accept m loc)) (hstep : serverStep lier s (.accept m loc) = some s') :
    KeyInv k.chars s' := by
  obtain ⟨⟨t, resp, z⟩, hresp, rfl⟩ := Option.map_eq_some_iff.mp hstep
  obtain ⟨hnil, hok⟩ := hok
  rcases responseServer_cases hresp with ⟨-, hcase⟩ | ⟨htype, hcase⟩ | ⟨-, rfl, val, vno, hu⟩ |
    ⟨htype, rfl, rfl, -⟩ | ⟨-, -, rfl, rfl, -⟩
  · have hnames := sameNames_getResponseSend lier (readKey m loc.key) s.table
    have hlen := length_getResponseSend lier (readKey m loc.key) s.table
    have hlock := getResponseSend_field KeyVal.lock (fun _ _ => rfl) lier (readKey m loc.key) s.table
    obtain ⟨j, resMsg, hsend, -, rfl⟩ | ⟨hsend, -, rfl⟩ := hcase <;>
    · rw [hsend] at hnames hlen hlock
      refine h.append_idle rfl hnames hlen.ge fun hc => ?_
      rw [hlock]
      exact h.lock hc
  · obtain ⟨j, resMsg, hvote, -, rfl⟩ | ⟨hvote, -, rfl⟩ := hcase
    · refine h.vote hnil (fun hkey hway => ?_) hvote
      rw [hkey]
      exact (hok hway hkey).2.2 (received_some.mpr htype)
    · obtain ⟨hnames, hlock⟩ := putResponseVote_spec hvote
      refine h.append_idle rfl hnames (putResponseVote_getters hvote).2 fun hc => ?_
      rw [hlock]
      exact h.lock hc
  · refine h.append_idle rfl (sameNames_updateResponse hu) (length_updateResponse hu).ge fun hc => ?_
    rw [updateResponse_field KeyVal.lock (fun _ => rfl) hu]
    exact h.lock hc
  · refine h.append_idle rfl (sameNames_releaselockResponse _ _) (by simp) fun {c j} hc => ?_
    refine h.lock_releaselockResponse hc hnil fun hkey => ?_
    exact (hok ⟨c, j, hc⟩ hkey).2.1 (received_some.mpr htype)
  · exact h.append_idle rfl ⟨fun _ => rfl, fun _ _ => rfl⟩ le_rfl h.lock

theorem KeyInv.sent {d : ℕ} (h : KeyInv k.chars s) (hstep : serverStep lier s (.sent d) = some s') :
    KeyInv k.chars s' := by
  simp only [serverStep] at hstep
  split at hstep
  · rename_i j hx
    obtain rfl := Option.some.inj hstep
    have hnames : SameNames s.table (getResponseDecr j s.table) :=
      { key := entry_modify_field KeyVal.key (fun _ => by rfl) s.table j
        search := fun key _ => searchKey_getResponseDecr key j s.table }
    refine h.close hx hnames (length_getResponseDecr j s.table) fun _ hc => ?_
    rw [getResponseDecr, entry_modify_field KeyVal.lock fun _ => by rfl]
    exact h.lock hc
  · cases hstep

theorem KeyInv.recv {d : ℕ} {msg : Option (List Char)} {loc : Locals} (h : KeyInv k.chars s)
    (hok : Respects k.chars s (.recv d msg loc)) (hstep : serverStep lier s (.recv d msg loc) = some s') :
    KeyInv k.chars s' := by
  rcases serverStep_recv_cases hstep with ⟨key, j, t, sent, keyNew, hx, hr, rfl⟩ |
    ⟨key, keyNew, j, t, hx, hr, rfl⟩
  · have hnil := h.ne_nil (⟨_, hx, rfl⟩ : Holds s d key j)
    obtain ⟨val, vno, hrec, hu, rfl⟩ | ⟨-, rfl, rfl⟩ := keyOfUpdate_of_cases hr
    · obtain ⟨hne, hkey⟩ := hok hrec key j hx
      exact h.update hx hne hkey hu
    · exact h.release hx rfl hnil id
  · have hnil := h.ne_nil (⟨_, hx, rfl⟩ : Holds s d key j)
    obtain ⟨hne, hkey⟩ := h.updated hx
    obtain ⟨-, rfl⟩ | ⟨-, rfl⟩ := putResponseRelease_cases hr
    · exact h.release hx rfl hne hkey.mp
    · exact h.release hx rfl hnil id

theorem KeyInv.step (h : KeyInv k.chars s) (hok : Respects k.chars s e)
    (hstep : serverStep lier s e = some s') : KeyInv k.chars s' := by
  cases e with
  | accept m loc => exact h.accept hok hstep
  | sent d => exact h.sent hstep
  | recv d msg loc => exact h.recv hok hstep

/-! ## From the vote to the end of the session -/

/-- While a session for `k` has its entry, a step on another connection leaves the entry alone. -/
theorem KeyInv.sameEntry (h : KeyInv k.chars s) (hc : Holds s c k.chars i)
    (hk : searchKey k.chars s.table = some i) (hok : Respects k.chars s e) (hconn : e.conn s ≠ c)
    (hstep : serverStep lier s e = some s') : SameEntry k.chars i s.table s'.table := by
  cases e with
  | accept m loc =>
    have hfirst := hok.2 ⟨c, i, hc⟩
    exact sameEntry_accept hk (h.lock hc) (fun hrec hkey => (hfirst hkey).1 hrec)
      (fun hrec hkey => (hfirst hkey).2.1 hrec) hstep
  | sent d => exact sameEntry_sent hk hstep
  | recv d msg loc =>
    -- the session is for another key, and holds another slot
    have hother : ∀ {key j}, Holds s d key j → key ≠ k.chars := by
      rintro key j hd rfl
      exact hconn (h.exclusive hd hc)
    rcases serverStep_recv_cases hstep with ⟨key, j, t, sent, keyNew, hx, hr, rfl⟩ |
      ⟨key, keyNew, j, t, hx, hr, rfl⟩
    · have hd : Holds s d key j := ⟨_, hx, rfl⟩
      refine sameEntry_putResponseUpdate hk (fun hrec => ⟨?_, ?_⟩) (hother hd) hr
      · exact fun hkey => hother hd ((hok hrec key j hx).2.mp hkey)
      · rintro rfl
        exact (h.other hd (hother hd)).2 c hc
    · have hd : Holds s d key j := ⟨_, hx, rfl⟩
      exact sameEntry_putResponseRelease hk (fun hkey => hother hd ((h.updated hx).2.mp hkey))
        (hother hd) hr

/-- The session's own messages change no other entry, and its entry is still found. -/
theorem KeyInv.own (h : KeyInv k.chars s) (hc : Holds s c k.chars i)
    (hk : searchKey k.chars s.table = some i) (hok : Respects k.chars s e) (hconn : e.conn s = c)
    (hstep : serverStep lier s e = some s') :
    searchKey k.chars s'.table = some i ∧ ∀ j, j ≠ i → entry s'.table j = entry s.table j := by
  obtain ⟨y, hy, hyi⟩ := hc
  have hrelease : ∀ j, j ≠ i → entry (releaselockResponse k.chars s.table) j = entry s.table j := by
    intro j hji
    simp only [releaselockResponse, hk]
    exact entry_modify_ne hji.symm _
  cases e with
  | accept m loc =>
    have hlt := (List.getElem?_eq_some_iff.mp hy).1
    exact absurd hconn hlt.ne'
  | sent d =>
    obtain rfl : d = c := hconn
    simp only [serverStep, hy] at hstep
    cases y with
    | reading j => cases hyi
    | voted key j => cases hstep
    | updated key keyNew j => cases hstep
    | closed => cases hstep
  | recv d msg loc =>
    obtain rfl : d = c := hconn
    rcases serverStep_recv_cases hstep with ⟨key, j, t, sent, keyNew, hx, hr, rfl⟩ |
      ⟨key, keyNew, j, t, hx, hr, rfl⟩
    · obtain rfl := Option.some.inj (hy.symm.trans hx)
      obtain ⟨rfl, rfl⟩ := Prod.mk.inj (Option.some.inj hyi)
      obtain ⟨val, vno, hrec, hu, -⟩ | ⟨-, rfl, -⟩ := keyOfUpdate_of_cases hr
      · rw [(hok hrec _ _ hx).2.mpr rfl] at hu
        have hname := searchKey_rename_same (key_entry_of_searchKey hk) k.chars
        refine ⟨by rw [searchKey_updateResponse hu, hname, hk], fun n hn => ?_⟩
        obtain ⟨m, hm, -, -, rfl, -⟩ | ⟨-, rfl, -⟩ := updateResponse_cases hu
        · obtain rfl : j = m := Option.some.inj ((hname.trans hk).symm.trans hm)
          rw [entry_modify_ne hn.symm, entry_modify_ne hn.symm]
        · exact entry_modify_ne hn.symm _
      · exact ⟨by rw [searchKey_releaselockResponse, hk], hrelease⟩
    · obtain rfl := Option.some.inj (hy.symm.trans hx)
      obtain ⟨rfl, rfl⟩ := Prod.mk.inj (Option.some.inj hyi)
      obtain rfl := (h.updated hx).2.mpr rfl
      obtain ⟨-, rfl⟩ | ⟨-, rfl⟩ := putResponseRelease_cases hr
      · exact ⟨by rw [searchKey_releaselockResponse, hk], hrelease⟩
      · exact ⟨by rw [searchKey_releaselockResponse, hk], hrelease⟩

end

/-- The entry of `k` is in slot `i` as long as session `c` holds it. -/
structure HolderInv (c : ℕ) (k : List Char) (i : ℕ) (s : ServerState) : Prop where
  keyInv : KeyInv k s
  accepted : c < s.sessions.length
  found : ∀ {j}, Holds s c k j → j = i ∧ searchKey k s.table = some i

section

variable {lier : ℤ} {s s' : ServerState} {c : ℕ} {k : Word} {i : ℕ} {e : Event}

/-- A session that is sent its vote for the key in slot `i`. -/
theorem HolderInv.granted {msg : List Char} {loc : Locals} (h : KeyInv k.chars s)
    (hok : Respects k.chars s (.accept msg loc)) (hk : searchKey k.chars s.table = some i)
    (hstep : serverStep lier s (.accept msg loc) = some s')
    (hvoted : s'.sessions[s.sessions.length]? = some (.voted k.chars i)) :
    HolderInv s.sessions.length k.chars i s' where
  keyInv := h.step hok hstep
  accepted := (List.getElem?_eq_some_iff.mp hvoted).1
  found {j} hj := by
    obtain ⟨z, hz, hzj⟩ := hj
    obtain rfl := Option.some.inj (hvoted.symm.trans hz)
    refine ⟨(Prod.mk.inj (Option.some.inj hzj)).2.symm, ?_⟩
    obtain ⟨⟨t, resp, x⟩, hresp, rfl⟩ := Option.map_eq_some_iff.mp hstep
    obtain rfl : x = .voted k.chars i := by simpa using hvoted
    obtain ⟨hput, -⟩ := holder_responseServer hresp (rfl : _ = some (k.chars, i))
    obtain ⟨j, resMsg, hvote, -⟩ | ⟨-, -, hclosed⟩ := responseServer_put hresp hput
    · rw [(putResponseVote_spec hvote).1.search _ k.isWord, hk]
    · cases hclosed

theorem HolderInv.step (h : HolderInv c k.chars i s) (hok : Respects k.chars s e)
    (hstep : serverStep lier s e = some s') : HolderInv c k.chars i s' where
  keyInv := h.keyInv.step hok hstep
  accepted := h.accepted.trans_le (length_sessions_step hstep).1
  found {j} hj := by
    have hc : Holds s c k.chars j := by
      refine (holds_of_step hstep hj).resolve_right ?_
      rintro ⟨msg, loc, -, hnew, -⟩
      exact h.accepted.ne hnew
    obtain ⟨rfl, hfound⟩ := h.found hc
    refine ⟨rfl, ?_⟩
    by_cases hconn : e.conn s = c
    · exact (h.keyInv.own hc hfound hok hconn hstep).1
    · exact (h.keyInv.sameEntry hc hfound hok hconn hstep).found

end

/-- What is claimed of a step while session `c` holds the entry of `k` in slot `i`: on another connection it
leaves value, version and lock of the entry alone, in the session it leaves all other entries alone. -/
def OnlyHolderActs (c : ℕ) (k : List Char) (i : ℕ) (s : ServerState) (e : Event) (s' : ServerState) :
    Prop :=
  Holds s c k i → (e.conn s ≠ c → SameEntry k i s.table s'.table) ∧
    (e.conn s = c → ∀ j, j ≠ i → entry s'.table j = entry s.table j)

/-- In every run whose messages respect the sessions for `k`, from the moment that a `PUT` session is sent
its vote for the existing key `k` until it ends, only this session acts on the entry, and on no other. -/
theorem only_holder_acts (lier : ℤ) (k : Word) {before after : List Event} {s₀ s₁ : ServerState}
    {msg : List Char} {loc : Locals} {i : ℕ}
    (hrespects : Each (serverStep lier) (Respects k.chars) .init (before ++ .accept msg loc :: after))
    (hrun : run (serverStep lier) .init before = some s₀) (hk : searchKey k.chars s₀.table = some i)
    (hstep : serverStep lier s₀ (.accept msg loc) = some s₁)
    (hvoted : s₁.sessions[s₀.sessions.length]? = some (.voted k.chars i)) :
    Steps (serverStep lier) (OnlyHolderActs s₀.sessions.length k.chars i) s₁ after := by
  have h₀ : KeyInv k.chars s₀ := run_invariant (KeyInv.init _) (fun _ _ _ h hok hs => h.step hok hs)
    (hrespects.initial (List.prefix_append _ _)) hrun
  obtain ⟨hok, hafter⟩ := each_cons.mp (hrespects.rest hrun)
  refine steps_of_each (HolderInv.granted h₀ hok hk hstep hvoted) (fun _ _ _ h hok hs => h.step hok hs)
    (fun s e s' h hok hs hc => ?_) (hafter s₁ hstep)
  obtain ⟨-, hfound⟩ := h.found hc
  exact ⟨fun hconn => h.keyInv.sameEntry hc hfound hok hconn hs,
    fun hconn => (h.keyInv.own hc hfound hok hconn hs).2⟩

/-! ## The client's messages -/

section

variable {k : List Char} {s : ServerState} {c : ℕ} {loc : Locals}

theorem respects_getMsg (key : Word) : Respects k s (.accept (getMsg key.chars) loc) := by
  refine ⟨by rw [readKey_getMsg key.isWord]; exact key.isWord.1, fun _ _ => ⟨?_, ?_, ?_⟩⟩ <;>
  · rw [received_some, readMsgType_getMsg]
    exact fun h => absurd h (by decide)

theorem respects_putMsg (key val : Word)
    (h : UnderWay k s → key.chars = k → searchKey k s.table ≠ none) :
    Respects k s (.accept (putMsg key.chars val.chars) loc) := by
  have hkey : readKey (putMsg key.chars val.chars) loc.key = key.chars := readKey_putMsg key.isWord _
  refine ⟨by rw [hkey]; exact key.isWord.1, fun hway heq => ⟨?_, ?_, fun _ => h hway (hkey ▸ heq)⟩⟩ <;>
  · rw [received_some, readMsgType_putMsg]
    exact fun h => absurd h (by decide)

theorem respects_updateMsg {key : List Char} (hkey : IsWord key) (val : Word) (vno : ℤ)
    (h : ∀ key' i, s.sessions[c]? = some (.voted key' i) → key' = key) :
    Respects k s (.recv c (some (updateMsg key val.chars vno)) loc) := by
  intro _ key' i hx
  have hnew : keyOfUpdate (some (updateMsg key val.chars vno)) loc = key := by
    rw [keyOfUpdate, Option.getD_some, readUpdate_updateMsg hkey val.isWord]
    rfl
  rw [hnew, h key' i hx]
  exact ⟨hkey.1, Iff.rfl⟩

theorem respects_releaselockMsg (key : List Char) :
    Respects k s (.recv c (some (releaselockMsg key)) loc) := by
  intro hrec
  rw [received_some, readMsgType_releaselockMsg] at hrec
  exact absurd hrec (by decide)

end

/-- What `Client.c` sends respects the sessions for every key, as long as no `PUT` finds its key missing
while another session for it is under way. -/
theorem respects_of_fromClient {lier : ℤ} (k : List Char) {es : List Event}
    (hclient : Each (serverStep lier) FromClient .init es)
    (hfree : Each (serverStep lier) AbsentKeyIsFree .init es) :
    Each (serverStep lier) (Respects k) .init es := by
  have hinv : Always (serverStep lier) LockInv .init es := always_of_each LockInv.init
    (fun s e s' h hok hs => h.step s e s' hok.1 hok.2 hs) (hclient.and hfree)
  intro es' e hp s hrun
  have h := hinv es' ((List.prefix_append es' [e]).trans hp) s hrun
  have hfrom := hclient es' e hp s hrun
  have hfree := hfree es' e hp s hrun
  cases e with
  | accept msg loc =>
    obtain ⟨key, val, rfl | rfl⟩ := hfrom
    · exact respects_getMsg key
    · refine respects_putMsg key val ?_
      rintro ⟨c, i, hc⟩ rfl hnone
      have hkey : readKey (putMsg key.chars val.chars) loc.key = key.chars := readKey_putMsg key.isWord _
      have hfree := hfree (readMsgType_putMsg _ _ _)
      rw [hkey] at hfree
      exact hfree hnone c i hc
  | sent c => trivial
  | recv c msg loc =>
    cases msg with
    | none => exact fun hrec => absurd hrec not_received_none
    | some m =>
      intro hrec key i hx
      obtain ⟨val, vno, rfl⟩ := hfrom.1 key i hx
      refine respects_updateMsg (h.word ⟨_, hx, rfl⟩) val vno (fun key' i' hx' => ?_) hrec key i hx
      exact (Session.voted.inj (Option.some.inj (hx'.symm.trans hx))).1

/-! ## Runs with and without respect -/

/-- `PUT key` with the value `v`, as the first message of a connection. -/
def putFirst (key : String) : Event := .accept (putMsg key.toList "v".toList) {}

/-- The update of `key` to the value `val` inside session `c`. -/
def updateIn (c : ℕ) (key val : String) : Event :=
  .recv c (some (updateMsg key.toList val.toList 7)) {}

/-- The release of `key` at the end of session `c`. -/
def releaseIn (c : ℕ) (key : String) : Event := .recv c (some (releaselockMsg key.toList)) {}

/-- A new entry while its session is waiting for the release. -/
def key2Locked : KeyVal :=
  { initKeyValStruct with key := "key2".toList, value := "w".toList, vno := 7, lock := 1 }

/-- While the session holds the entry, another `PUT` of the key is refused, and a session for a new key
comes to its update. -/
theorem only_holder_acts_refuses :
    Steps (serverStep 0) (OnlyHolderActs 0 "key1".toList 0)
      ⟨slotKey1 "value1" 1 1, [.voted "key1".toList 0]⟩
      [putFirst "key1", putFirst "key2", updateIn 2 "key2" "w", updateIn 0 "key1" "w",
        releaseIn 0 "key1"] := by
  have hpresent : ∀ t ss, searchKey "key1".toList t = some 0 →
      Respects "key1".toList ⟨t, ss⟩ (putFirst "key1") := fun t ss ht =>
    respects_putMsg (.ofString "key1") (.ofString "v") fun _ _ => by rw [ht]; simp
  refine @only_holder_acts 0 (.ofString "key1") [] _ .init _ (putMsg "key1".toList "v".toList) {} 0
    ?_ rfl (by rfl) (by rfl) rfl
  refine .cons (hpresent _ _ (by rfl))
    (t := ⟨slotKey1 "value1" 1 1, [.voted "key1".toList 0]⟩) (by rfl) ?_
  refine .cons (hpresent _ _ (by rfl))
    (t := ⟨slotKey1 "value1" 1 1, [.voted "key1".toList 0, .closed]⟩) (by rfl) ?_
  refine .cons (respects_putMsg (.ofString "key2") (.ofString "v") fun _ h => absurd h (by decide))
    (t := ⟨slotKey1 "value1" 1 1 ++ [{ initKeyValStruct with lock := 1 }],
      [.voted "key1".toList 0, .closed, .voted "key2".toList 1]⟩) (by rfl) ?_
  refine .cons (respects_updateMsg (by decide) (.ofString "w") 7 fun key' i h => ?_)
    (t := ⟨slotKey1 "value1" 1 1 ++ [key2Locked],
      [.voted "key1".toList 0, .closed, .updated "key2".toList "key2".toList 1]⟩) (by rfl) ?_
  · exact (Session.voted.inj (Option.some.inj h)).1.symm
  refine .cons (respects_updateMsg (by decide) (.ofString "w") 7 fun key' i h => ?_)
    (t := ⟨slotKey1 "w" 7 1 ++ [key2Locked], [.updated "key1".toList "key1".toList 0, .closed,
      .updated "key2".toList "key2".toList 1]⟩) (by rfl) ?_
  · exact (Session.voted.inj (Option.some.inj h)).1.symm
  exact each_cons.mpr ⟨respects_releaselockMsg _, fun _ _ => each_nil⟩

/-- The run `before`, a vote for the existing `key`, and then a message that breaks the claim. -/
def Breaks (before : List Event) (key : String) (e : Event) : Prop :=
  ∃ s₀ s₁ i, run (serverStep 0) .init before = some s₀ ∧ searchKey key.toList s₀.table = some i ∧
    serverStep 0 s₀ (putFirst key) = some s₁ ∧
    s₁.sessions[s₀.sessions.length]? = some (.voted key.toList i) ∧
    ¬ Steps (serverStep 0) (OnlyHolderActs s₀.sessions.length key.toList i) s₁ [e]

theorem breaks_of_value {before : List Event} {key : String} {e : Event} {s₀ s₁ s₂ : ServerState}
    {i : ℕ} (hrun : run (serverStep 0) .init before = some s₀)
    (hk : searchKey key.toList s₀.table = some i) (hstep : serverStep 0 s₀ (putFirst key) = some s₁)
    (hvoted : s₁.sessions[s₀.sessions.length]? = some (.voted key.toList i))
    (he : serverStep 0 s₁ e = some s₂)
    (hbad : (e.conn s₁ ≠ s₀.sessions.length ∧
        ((entry s₂.table i).lock ≠ (entry s₁.table i).lock ∨
          (entry s₂.table i).value ≠ (entry s₁.table i).value)) ∨
      (e.conn s₁ = s₀.sessions.length ∧
        ∃ j, j ≠ i ∧ (entry s₂.table j).value ≠ (entry s₁.table j).value)) :
    Breaks before key e := by
  refine ⟨s₀, s₁, i, hrun, hk, hstep, hvoted, fun h => ?_⟩
  obtain ⟨hother, hown⟩ := h [] e (List.prefix_refl _) s₁ s₂ rfl he ⟨_, hvoted, rfl⟩
  rcases hbad with ⟨hconn, hlock | hvalue⟩ | ⟨hconn, j, hj, hvalue⟩
  · exact hlock (hother hconn).lock
  · exact hvalue (hother hconn).value
  · exact hvalue (by rw [hown hconn j hj])

/-- Another connection releases the lock of the session, or starts with an update of the key, or updates it
inside a session for another key, or inside a session that reserved its slot when the key was missing; or
the session itself updates another key. -/
theorem not_only_holder_acts :
    Breaks [] "key1" (.accept (releaselockMsg "key1".toList) {}) ∧
    Breaks [] "key1" (.accept (updateMsg "key1".toList "w".toList 7) {}) ∧
    Breaks [putFirst "key2"] "key1" (updateIn 0 "key1" "w") ∧
    Breaks [putFirst "key2", putFirst "key2", updateIn 0 "key2" "w", releaseIn 0 "key2"] "key2"
      (updateIn 1 "key2" "u") ∧
    Breaks [putFirst "key2", updateIn 0 "key2" "w", releaseIn 0 "key2", putFirst "key1"] "key2"
      (updateIn 2 "key1" "u") := by
  refine ⟨breaks_of_value rfl (by rfl) (by rfl) rfl (by rfl) (Or.inl ⟨by decide, Or.inl (by decide)⟩),
    breaks_of_value rfl (by rfl) (by rfl) rfl (by rfl) (Or.inl ⟨by decide, Or.inr (by decide)⟩),
    breaks_of_value rfl (by rfl) (by rfl) rfl (by rfl) (Or.inl ⟨by decide, Or.inr (by decide)⟩),
    breaks_of_value rfl (by rfl) (by rfl) rfl (by rfl) (Or.inl ⟨by decide, Or.inr (by decide)⟩),
    breaks_of_value rfl (by rfl) (by rfl) rfl (by rfl) (Or.inr ⟨by decide, 0, by decide, by decide⟩)⟩

end QuorumLogFs.Vote
