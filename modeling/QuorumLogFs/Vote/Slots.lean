import QuorumLogFs.Vote.WriteLock

/-!
# The slots of the key table

`putResponse` reserves a slot for a key it does not find, and the slot gets its name with the update.
A session that ends before its update leaves the slot without a name and locked, so the next `PUT` of
the key reserves another one; two sessions that overlap give the same name to two slots. As long as a
key is missing only for its first `PUT`, every slot belongs to a key of its own.
-/

namespace QuorumLogFs.Vote

open QuorumLogFs.Basis

/-- The key of a `PUT`. -/
def Event.putKey : Event → Option (List Char)
  | .accept msg loc =>
    if readMsgType msg loc.msgType = "PUT".toList then some (readKey msg loc.key) else none
  | _ => none

/-- The keys requested by `PUT`. -/
def putKeys (es : List Event) : List (List Char) := es.filterMap Event.putKey

/-- No two slots carry the same name, and between the `PUT` sessions there are no more slots than
keys requested by `PUT`, besides the initial one. -/
structure OneSlotPerKey (es : List Event) (s : ServerState) : Prop where
  unique : ∀ i < s.table.length, ∀ j < s.table.length,
    (entry s.table i).key = (entry s.table j).key → (entry s.table i).key ≠ [] → i = j
  numKeys : (∀ c key i, ¬ Holds s c key i) →
    s.table.length ≤ (putKeys es).toFinset.card + 1

/-- A `PUT` finds its key missing only when no `PUT` requested the key before. -/
def MissingOnlyFirst (lier : ℤ) (es : List Event) : Prop :=
  ∀ es' e, es' ++ [e] <+: es → ∀ s, run (serverStep lier) .init es' = some s →
    ∀ key ∈ e.putKey, searchKey key s.table = none → key ∉ putKeys es'

/-! ## The invariant -/

/-- Every slot belongs to a key, `owners` in the order of the slots: it carries this key or no name,
and the sessions that hold it are for this key. -/
structure SlotInv (es : List Event) (owners : List (List Char)) (s : ServerState) : Prop where
  length : owners.length = s.table.length
  nodup : owners.Nodup
  words : ∀ key ∈ owners, IsWord key
  first : (entry s.table 0).key = "key1".toList
  owned : ∀ i key, owners[i]? = some key → (entry s.table i).key = [] ∨ (entry s.table i).key = key
  requested : ∀ key ∈ owners, key = "key1".toList ∨ key ∈ putKeys es
  holder : ∀ {c key i}, Holds s c key i → owners[i]? = some key

variable {lier : ℤ} {es : List Event} {owners : List (List Char)} {s s' : ServerState}

theorem slotInv_init : SlotInv [] ["key1".toList] .init where
  length := rfl
  nodup := by simp
  words key h := by
    rw [List.mem_singleton.mp h]
    decide
  first := rfl
  owned i key h := by
    rcases i with _ | i
    · exact Or.inr (Option.some.inj h)
    · cases h
  requested key h := Or.inl (List.mem_singleton.mp h)
  holder h := by simp [Holds, ServerState.init] at h

/-- A named slot belongs to the key it is named after. -/
theorem SlotInv.owner_of_name (h : SlotInv es owners s) {i : ℕ} (hi : i < s.table.length)
    (hne : (entry s.table i).key ≠ []) : owners[i]? = some (entry s.table i).key := by
  have hlt : i < owners.length := h.length ▸ hi
  have hget := List.getElem?_eq_getElem hlt
  rcases h.owned i _ hget with hnil | hkey
  · exact absurd hnil hne
  · rw [hkey, hget]

theorem SlotInv.oneSlotPerKey (h : SlotInv es owners s) : OneSlotPerKey es s where
  unique i hi j hj hkey hne := by
    have hoi := h.owner_of_name hi hne
    have hoj := h.owner_of_name hj (hkey ▸ hne)
    obtain ⟨hilt, hi'⟩ := List.getElem?_eq_some_iff.mp hoi
    obtain ⟨hjlt, hj'⟩ := List.getElem?_eq_some_iff.mp hoj
    exact h.nodup.getElem_inj_iff.mp (hi'.trans (hkey.trans hj'.symm))
  numKeys _ := by
    rw [← h.length, ← List.toFinset_card_of_nodup h.nodup]
    calc owners.toFinset.card ≤ (insert "key1".toList (putKeys es).toFinset).card := by
          refine Finset.card_le_card fun key hkey => ?_
          rw [Finset.mem_insert, List.mem_toFinset]
          exact h.requested key (List.mem_toFinset.mp hkey)
      _ ≤ _ := Finset.card_insert_le _ _

/-- The events before a step are among those after it. -/
theorem putKeys_snoc (es : List Event) (e : Event) :
    putKeys (es ++ [e]) = putKeys es ++ e.putKey.toList := by
  cases h : e.putKey <;> simp [putKeys, h]

/-- A step that adds no slot, renames none but as its owner, and gives no slot a new holder. -/
theorem SlotInv.of_keys (h : SlotInv es owners s) (e : Event)
    (hlen : s'.table.length = s.table.length)
    (hkey : ∀ i, (entry s'.table i).key = (entry s.table i).key ∨
      owners[i]? = some (entry s'.table i).key)
    (hfirst : (entry s'.table 0).key = "key1".toList)
    (hholder : ∀ {c key i}, Holds s' c key i → owners[i]? = some key) :
    SlotInv (es ++ [e]) owners s' where
  length := h.length.trans hlen.symm
  nodup := h.nodup
  words := h.words
  first := hfirst
  owned i key hi := by
    rcases hkey i with hsame | hown
    · rw [hsame]
      exact h.owned i key hi
    · exact Or.inr (Option.some.inj (hown.symm.trans hi))
  requested key hk := by
    rw [putKeys_snoc, List.mem_append]
    exact (h.requested key hk).imp id Or.inl
  holder := hholder

/-! ## The steps -/

/-- A key the table does not have, and that no `PUT` requested, has no slot yet. -/
theorem SlotInv.not_owner (h : SlotInv es owners s) {key : List Char}
    (hnone : searchKey key s.table = none) (hreq : key ∉ putKeys es) : key ∉ owners := by
  intro hmem
  rcases h.requested key hmem with rfl | hmem'
  · have hpos : 0 < s.table.length := by
      rw [← h.length]
      exact List.length_pos_of_mem hmem
    exact searchKey_eq_none.mp hnone _ (List.mem_of_getElem? (getElem?_entry hpos)) h.first
  · exact hreq hmem'

/-- A `PUT` of a key it finds, or of a key that no `PUT` requested before. -/
theorem SlotInv.put (h : SlotInv es owners s) (e : Event) {key : List Char} (hword : IsWord key)
    (hput : e.putKey = some key) (hmissing : searchKey key s.table = none → key ∉ putKeys es)
    {t : Table} {r : Option (ℕ × List Char)} (hvote : putResponseVote lier key s.table = some (t, r))
    {x : Session} (hx : ∀ k i, x.holder = some (k, i) → k = key ∧ ∃ resMsg, r = some (i, resMsg)) :
    ∃ owners', SlotInv (es ++ [e]) owners' ⟨t, s.sessions ++ [x]⟩ := by
  obtain ⟨hkeys, j, hslot, hcase⟩ := putResponseVote_slots hvote
  have hnew : ∀ {c k i}, Holds ⟨t, s.sessions ++ [x]⟩ c k i →
      Holds s c k i ∨ (k = key ∧ i = j) := by
    intro c k i hc
    rcases holds_append.mp hc with hc | ⟨-, hc⟩
    · exact Or.inl hc
    · obtain ⟨rfl, resMsg, hr⟩ := hx k i hc
      exact Or.inr ⟨rfl, hslot i resMsg hr⟩
  rcases hcase with ⟨hsome, hlen⟩ | ⟨hnone, rfl, hlen⟩
  · -- the slot it finds belongs to the key it is named after
    refine ⟨owners, h.of_keys e hlen (fun i => Or.inl (hkeys i)) ((hkeys 0).trans h.first) ?_⟩
    intro c k i hc
    rcases hnew hc with hc | ⟨rfl, rfl⟩
    · exact h.holder hc
    · have hname := key_entry_of_searchKey hsome
      have hne := hword.1
      rw [← hname] at hne ⊢
      exact h.owner_of_name (searchKey_lt hsome) hne
  · have hnot := h.not_owner hnone (hmissing hnone)
    have hold : ∀ {i k}, owners[i]? = some k → (owners ++ [key])[i]? = some k := fun hi => by
      rw [List.getElem?_append_left (List.getElem?_eq_some_iff.mp hi).1, hi]
    refine ⟨owners ++ [key], ?_, ?_, ?_, (hkeys 0).trans h.first, ?_, ?_, ?_⟩
    · simp [h.length, hlen]
    · exact List.Nodup.append h.nodup (List.nodup_singleton key) (by simpa using hnot)
    · intro k hk
      rcases List.mem_append.mp hk with hk | hk
      · exact h.words k hk
      · rwa [List.mem_singleton.mp hk]
    · intro i k hi
      rw [show (entry t i).key = (entry s.table i).key from hkeys i]
      rcases lt_or_ge i owners.length with hlt | hge
      · rw [List.getElem?_append_left hlt] at hi
        exact h.owned i k hi
      · rw [entry_of_length_le (h.length ▸ hge)]
        exact Or.inl rfl
    · intro k hk
      rw [putKeys_snoc, List.mem_append, hput]
      rcases List.mem_append.mp hk with hk | hk
      · exact (h.requested k hk).imp id Or.inl
      · exact Or.inr (Or.inr (by simpa using hk))
    · intro c k i hc
      rcases hnew hc with hc | ⟨rfl, rfl⟩
      · exact hold (h.holder hc)
      · rw [← h.length]
        exact List.getElem?_concat_length ..

theorem SlotInv.accept (h : SlotInv es owners s) {msg : List Char} {loc : Locals}
    (hclient : FromClient s (.accept msg loc))
    (hmissing : ∀ key ∈ Event.putKey (.accept msg loc), searchKey key s.table = none →
      key ∉ putKeys es)
    (hstep : serverStep lier s (.accept msg loc) = some s') :
    ∃ owners', SlotInv (es ++ [.accept msg loc]) owners' s' := by
  simp only [serverStep, Option.map_eq_some_iff] at hstep
  obtain ⟨⟨t, resp, x⟩, hresp, rfl⟩ := hstep
  obtain ⟨key, val, rfl | rfl⟩ := hclient
  · -- a `GET` touches the reader counters only
    rw [responseServer_getMsg lier loc key.isWord key.fits_key] at hresp
    have hkeys := getResponseSend_field KeyVal.key (fun _ _ => rfl) lier key.chars s.table
    have hlen := length_getResponseSend lier key.chars s.table
    refine ⟨owners, ?_⟩
    have hkept : ∀ {x' : Session}, x'.holder = none → t = (getResponseSend lier key.chars s.table).1 →
        x = x' → SlotInv (es ++ [.accept (getMsg key.chars) loc]) owners ⟨t, s.sessions ++ [x]⟩ := by
      rintro x' hx' rfl rfl
      refine h.of_keys _ hlen (fun i => Or.inl (hkeys i)) ((hkeys 0).trans h.first) fun hc => ?_
      rcases holds_append.mp hc with hc | ⟨-, hc⟩
      · exact h.holder hc
      · rw [hx'] at hc
        cases hc
    split at hresp <;>
    · rename_i hget
      simp only [Option.some.injEq, Prod.mk.injEq] at hresp
      obtain ⟨rfl, -, rfl⟩ := hresp
      exact hkept (by rfl) (by rw [hget]) rfl
  · rw [responseServer_putMsg lier loc key.isWord val.isWord key.fits_key val.fits_val] at hresp
    have hput : Event.putKey (.accept (putMsg key.chars val.chars) loc) = some key.chars := by
      simp only [Event.putKey, readMsgType_putMsg, if_true, readKey_putMsg key.isWord]
    have hmissing := hmissing key.chars hput
    split at hresp
    · rename_i t' i resMsg hvote
      simp only [Option.some.injEq, Prod.mk.injEq] at hresp
      obtain ⟨rfl, -, rfl⟩ := hresp
      refine h.put _ key.isWord hput hmissing hvote fun k j hx => ?_
      obtain ⟨rfl, rfl⟩ := Prod.mk.inj (Option.some.inj hx)
      exact ⟨rfl, resMsg, rfl⟩
    · rename_i t' hvote
      simp only [Option.some.injEq, Prod.mk.injEq] at hresp
      obtain ⟨rfl, -, rfl⟩ := hresp
      exact h.put _ key.isWord hput hmissing hvote fun k j hx => by cases hx
    · cases hresp

/-- A session whose slot keeps its owner goes on or ends. -/
theorem holder_of_set {t : Table} {c : ℕ} {x y : Session} (hx : s.sessions[c]? = some x)
    (hy : y.holder = x.holder ∨ y.holder = none) {c' : ℕ} {key : List Char} {i : ℕ}
    (hc : Holds ⟨t, s.sessions.set c y⟩ c' key i) : ∃ d, Holds s d key i := by
  rw [holds_set hx] at hc
  split at hc
  · rcases hy with hy | hy
    · exact ⟨c, x, hx, hy ▸ hc⟩
    · rw [hy] at hc
      cases hc
  · exact ⟨c', hc⟩

theorem SlotInv.sent (h : SlotInv es owners s) {c : ℕ}
    (hstep : serverStep lier s (.sent c) = some s') : SlotInv (es ++ [.sent c]) owners s' := by
  simp only [serverStep] at hstep
  split at hstep
  · rename_i i hx
    obtain rfl := Option.some.inj hstep
    have hkeys := entry_modify_field KeyVal.key
      (f := fun kv => { kv with numGetters := kv.numGetters - 1 }) (fun _ => by rfl) s.table i
    refine h.of_keys _ (length_getResponseDecr _ _) (fun j => Or.inl (hkeys j))
      ((hkeys 0).trans h.first) fun hc => ?_
    obtain ⟨d, hd⟩ := holder_of_set hx (Or.inr rfl) hc
    exact h.holder hd
  · cases hstep

/-- Releasing a key and ending a session. -/
theorem SlotInv.close (h : SlotInv es owners s) (e : Event) {c : ℕ} {x : Session}
    (hx : s.sessions[c]? = some x) (key : List Char) :
    SlotInv (es ++ [e]) owners ⟨releaselockResponse key s.table, s.sessions.set c .closed⟩ := by
  have hkeys := releaselockResponse_field KeyVal.key (fun _ => rfl) key s.table
  refine h.of_keys e (length_releaselockResponse _ _) (fun j => Or.inl (hkeys j))
    ((hkeys 0).trans h.first) fun hc => ?_
  obtain ⟨d, hd⟩ := holder_of_set hx (Or.inr rfl) hc
  exact h.holder hd

/-- The update names the slot after its owner. -/
theorem SlotInv.update (h : SlotInv es owners s) (e : Event) {c : ℕ} {key : List Char} {i : ℕ}
    (hx : s.sessions[c]? = some (.voted key i)) {val : List Char} {vno : ℤ} {t : Table}
    {sent : Option (List Char)}
    (hu : updateResponse key val vno (s.table.modify i fun kv => { kv with key := key }) =
      some (t, sent)) :
    SlotInv (es ++ [e]) owners ⟨t, s.sessions.set c (.updated key key i)⟩ := by
  have howner : owners[i]? = some key := h.holder ⟨_, hx, rfl⟩
  have hkey : ∀ j, (entry t j).key = if j = i then key else (entry s.table j).key := by
    intro j
    rw [updateResponse_field KeyVal.key (fun _ => rfl) hu]
    have hi : i < s.table.length := h.length ▸ (List.getElem?_eq_some_iff.mp howner).1
    by_cases hji : j = i
    · rw [hji, if_pos rfl, entry_modify_self hi]
    · rw [if_neg hji, entry_modify_ne (Ne.symm hji)]
  refine h.of_keys e ?_ (fun j => ?_) ?_ fun hc => ?_
  · exact (length_updateResponse hu).trans (List.length_modify ..)
  · rw [hkey]
    split
    · rename_i hji
      exact Or.inr (hji ▸ howner)
    · exact Or.inl rfl
  · rw [hkey]
    split
    · rename_i hi
      subst hi
      have hpos : 0 < s.table.length := h.length ▸ (List.getElem?_eq_some_iff.mp howner).1
      have hfirst := h.owner_of_name hpos (by rw [h.first]; simp)
      rw [h.first] at hfirst
      exact Option.some.inj (howner.symm.trans hfirst)
    · exact h.first
  · obtain ⟨d, hd⟩ := holder_of_set hx (Or.inl (show Session.holder (.updated key key i) = _ from rfl)) hc
    exact h.holder hd

theorem SlotInv.recv (h : SlotInv es owners s) {c : ℕ} {msg : Option (List Char)} {loc : Locals}
    (hclient : FromClient s (.recv c msg loc))
    (hstep : serverStep lier s (.recv c msg loc) = some s') :
    SlotInv (es ++ [.recv c msg loc]) owners s' := by
  rcases serverStep_recv_cases hstep with ⟨key, i, t, sent, keyNew, hx, hr, rfl⟩ |
    ⟨key, keyNew, i, t, hx, hr, rfl⟩
  · have hword := h.words key (List.mem_of_getElem? (h.holder ⟨_, hx, rfl⟩))
    rcases putResponseUpdate_fromClient hclient hx hword hr with
      ⟨val, vno, -, hu, rfl⟩ | ⟨-, rfl, -, rfl⟩
    · exact h.update _ hx hu
    · exact h.close _ hx key
  · obtain ⟨-, rfl⟩ | ⟨-, rfl⟩ := putResponseRelease_cases hr
    · exact h.close _ hx keyNew
    · exact h.close _ hx key

/-! ## Runs -/

theorem MissingOnlyFirst.initial {es' : List Event} (h : MissingOnlyFirst lier es)
    (hp : es' <+: es) : MissingOnlyFirst lier es' :=
  fun _ _ h' => h _ _ (h'.trans hp)

/-- The invariant holds throughout a run in which keys are missing only for their first `PUT`. -/
theorem slotInv_run (hrun : run (serverStep lier) .init es = some s)
    (hclient : Each (serverStep lier) FromClient .init es) (hmissing : MissingOnlyFirst lier es) :
    ∃ owners, SlotInv es owners s := by
  induction es using List.reverseRecOn generalizing s with
  | nil =>
    obtain rfl := Option.some.inj hrun
    exact ⟨_, slotInv_init⟩
  | append_singleton es e ih =>
    rw [run_snoc] at hrun
    obtain ⟨t, ht, hstep⟩ := Option.bind_eq_some_iff.mp hrun
    have hp := List.prefix_append es [e]
    obtain ⟨owners, hI⟩ := ih ht (hclient.initial hp) (hmissing.initial hp)
    have hlast := hclient.last ht
    have hmissing' := hmissing es e (List.prefix_refl _) t ht
    cases e with
    | accept msg loc => exact hI.accept hlast hmissing' hstep
    | sent c => exact ⟨owners, hI.sent hstep⟩
    | recv c msg loc => exact ⟨owners, hI.recv hlast hstep⟩

/-- A connection of a client is turned down only for a `PUT` that needs a slot when all are taken. -/
theorem serverStep_accept_ne_none {msg : List Char} {loc : Locals}
    (hclient : FromClient s (.accept msg loc))
    (h : ∀ key ∈ Event.putKey (.accept msg loc), searchKey key s.table = none → s.table.length < MAXKEYS) :
    serverStep lier s (.accept msg loc) ≠ none := by
  simp only [serverStep, ne_eq, Option.map_eq_none_iff]
  obtain ⟨key, val, rfl | rfl⟩ := hclient
  · rw [responseServer_getMsg lier loc key.isWord key.fits_key]
    split <;> simp
  · have h := h key.chars (by
      simp only [Event.putKey, readMsgType_putMsg, if_true, readKey_putMsg key.isWord]
      rfl)
    rw [responseServer_putMsg lier loc key.isWord val.isWord key.fits_key val.fits_val]
    split
    · simp
    · simp
    · rename_i hvote
      unfold putResponseVote at hvote
      split at hvote
      · rename_i hnone
        rw [if_pos (h hnone)] at hvote
        cases hvote
      · cases hvote

/-- In every run of a server whose connections send what `Client.c` sends, in any order and stopping
anywhere, in which a key is missing only for its first `PUT`: every key has one slot, there is no
other slot, and as long as fewer than `MAXKEYS` keys are requested no connection makes the server
leave its table. -/
theorem one_slot_per_key (lier : ℤ) (es : List Event)
    (hclient : Each (serverStep lier) FromClient .init es) (hmissing : MissingOnlyFirst lier es) :
    (∀ es', es' <+: es → ∀ s, run (serverStep lier) .init es' = some s → OneSlotPerKey es' s) ∧
      ∀ es' msg loc, es' ++ [.accept msg loc] <+: es →
        (putKeys (es' ++ [.accept msg loc])).toFinset.card < MAXKEYS →
        ∀ s, run (serverStep lier) .init es' = some s →
          serverStep lier s (.accept msg loc) ≠ none := by
  constructor
  · intro es' hp s hrun
    obtain ⟨owners, hI⟩ := slotInv_run hrun (hclient.initial hp) (hmissing.initial hp)
    exact hI.oneSlotPerKey
  · intro es' msg loc hp hcard s hrun
    have hp' := (List.prefix_append es' [.accept msg loc]).trans hp
    obtain ⟨owners, hI⟩ := slotInv_run hrun (hclient.initial hp') (hmissing.initial hp')
    refine serverStep_accept_ne_none (hclient es' _ hp s hrun) fun key hkey hnone => ?_
    -- the key itself is one of the requested ones that have no slot yet
    have hnot := hI.not_owner hnone (hmissing es' _ hp s hrun key hkey hnone)
    have hsub : (insert key owners.toFinset).card ≤
        (insert "key1".toList (putKeys (es' ++ [.accept msg loc])).toFinset).card := by
      refine Finset.card_le_card fun k hk => ?_
      rw [putKeys_snoc, Option.mem_def.mp hkey]
      rcases Finset.mem_insert.mp hk with rfl | hk
      · simp
      · rcases hI.requested k (List.mem_toFinset.mp hk) with rfl | hk <;> simp [*]
    rw [Finset.card_insert_of_notMem (by simpa using hnot),
      List.toFinset_card_of_nodup hI.nodup, hI.length] at hsub
    have := Finset.card_insert_le "key1".toList (putKeys (es' ++ [.accept msg loc])).toFinset
    omega

/-! ## Three runs -/

theorem missingOnlyFirst_nil : MissingOnlyFirst lier [] := by
  intro es' e hp
  simp at hp

theorem MissingOnlyFirst.snoc {e : Event} (h : MissingOnlyFirst lier es)
    (he : ∀ s, run (serverStep lier) .init es = some s →
      ∀ key ∈ e.putKey, searchKey key s.table = none → key ∉ putKeys es) :
    MissingOnlyFirst lier (es ++ [e]) := by
  intro es' e' hp
  rcases List.prefix_concat_iff.mp hp with heq | hp
  · obtain ⟨rfl, rfl⟩ : es' = es ∧ e' = e := by simpa using List.append_inj' heq rfl
    exact he
  · exact h es' e' hp

/-- The update of session `c` for `key2`. -/
def updateKey2 (c : ℕ) : Event := .recv c (some (updateMsg "key2".toList "key1".toList 1)) {}

/-- The release of session 0 for `key2`. -/
def releaseKey2 : Event := .recv 0 (some (releaselockMsg "key2".toList)) {}

/-- The table after `key2` was stored. -/
def tableKey2 (lock : ℤ) : Table :=
  initTable ++ [{ initKeyValStruct with
    key := "key2".toList, value := "key1".toList, vno := 1, lock := lock }]

theorem fromClient_putAbsentTwice :
    Each (serverStep 0) FromClient .init [putAbsent, updateKey2 0, releaseKey2, putAbsent] := by
  refine .cons ⟨_, _, .inr rfl⟩
    (t := ⟨initTable ++ [{ initKeyValStruct with lock := 1 }], [.voted "key2".toList 1]⟩)
    (by rfl) ?_
  refine .cons ⟨fun key i h => ?_, by simp⟩
    (t := ⟨tableKey2 1, [.updated "key2".toList "key2".toList 1]⟩) (by rfl) ?_
  · obtain ⟨rfl, -⟩ : "key2".toList = key ∧ 1 = i := by simpa using h
    exact ⟨Word.ofString "key1", 1, rfl⟩
  refine .cons ⟨by simp, fun key keyNew i h => ?_⟩ (t := ⟨tableKey2 0, [.closed]⟩) (by rfl) ?_
  · obtain ⟨rfl, -⟩ : "key2".toList = key ∧ _ := by simpa using h
    rfl
  exact each_cons.mpr ⟨⟨_, _, .inr rfl⟩, fun _ _ => each_nil⟩

/-- The second `PUT` finds the slot that the first one has named. -/
theorem missingOnlyFirst_putAbsentTwice :
    MissingOnlyFirst 0 ([putAbsent] ++ [updateKey2 0] ++ [releaseKey2] ++ [putAbsent]) := by
  have hno : ∀ c msg loc, Event.putKey (.recv c msg loc) = none := fun _ _ _ => rfl
  have hfirst : MissingOnlyFirst 0 ([] ++ [putAbsent]) :=
    missingOnlyFirst_nil.snoc fun _ _ _ _ _ => List.not_mem_nil
  refine ((hfirst.snoc ?_).snoc ?_).snoc ?_
  · exact fun _ _ key h => absurd h (by simp [updateKey2, hno])
  · exact fun _ _ key h => absurd h (by simp [releaseKey2, hno])
  · intro s hs key hkey hnone
    have hrun : run (serverStep 0) .init ([putAbsent] ++ [updateKey2 0] ++ [releaseKey2]) =
        some ⟨tableKey2 0, [.closed]⟩ := by rfl
    obtain rfl := Option.some.inj (hrun.symm.trans hs)
    obtain rfl : "key2".toList = key :=
      Option.some.inj (show Event.putKey putAbsent = some key from hkey)
    cases hnone

theorem one_slot_per_key_putAbsentTwice :
    (∀ es', es' <+: [putAbsent, updateKey2 0, releaseKey2, putAbsent] →
        ∀ s, run (serverStep 0) .init es' = some s → OneSlotPerKey es' s) ∧
      ∀ es' msg loc, es' ++ [.accept msg loc] <+: [putAbsent, updateKey2 0, releaseKey2, putAbsent] →
        (putKeys (es' ++ [.accept msg loc])).toFinset.card < MAXKEYS →
        ∀ s, run (serverStep 0) .init es' = some s → serverStep 0 s (.accept msg loc) ≠ none :=
  one_slot_per_key 0 _ fromClient_putAbsentTwice missingOnlyFirst_putAbsentTwice

/-- A `PUT` of a new key that is given up leaves its slot behind, and the next one takes another. Two
that overlap name two slots after their key. -/
theorem not_one_slot_per_key_putAbsent :
    Each (serverStep 0) FromClient .init [putAbsent, .recv 0 none {}, putAbsent, .recv 1 none {}] ∧
      (∃ s, run (serverStep 0) .init [putAbsent, .recv 0 none {}, putAbsent, .recv 1 none {}] = some s ∧
        ¬ OneSlotPerKey [putAbsent, .recv 0 none {}, putAbsent, .recv 1 none {}] s) ∧
      ∃ s, run (serverStep 0) .init [putAbsent, putAbsent, updateKey2 0, updateKey2 1] = some s ∧
        (entry s.table 1).key = "key2".toList ∧ (entry s.table 2).key = "key2".toList := by
  have hclient : ∀ s, FromClient s putAbsent := fun s => ⟨_, _, .inr rfl⟩
  refine ⟨?_, ⟨⟨initTable ++ [{ initKeyValStruct with lock := 1 }, { initKeyValStruct with lock := 1 }],
    [.closed, .closed]⟩, by rfl, fun h => ?_⟩, ⟨_, by rfl, by rfl, by rfl⟩⟩
  · exact each_cons.mpr ⟨hclient _, fun _ _ => each_cons.mpr ⟨trivial, fun _ _ =>
      each_cons.mpr ⟨hclient _, fun _ _ => each_cons.mpr ⟨trivial, fun _ _ => each_nil⟩⟩⟩⟩
  · have hfree : ∀ c key i, ¬ Holds ⟨initTable ++ [{ initKeyValStruct with lock := 1 },
        { initKeyValStruct with lock := 1 }], [.closed, .closed]⟩ c key i := by
      rintro c key i ⟨x, hx, hholder⟩
      have hmem : x ∈ [Session.closed, Session.closed] := List.mem_of_getElem? hx
      obtain rfl : x = .closed := by simpa using hmem
      cases hholder
    have hcard := h.numKeys hfree
    revert hcard
    decide

end QuorumLogFs.Vote
