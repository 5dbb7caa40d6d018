import QuorumLogFs.Vote.Server

/-!
# A `PUT` session on its own

Reference: `putResponse` in `Server.c`.

The parts of `putResponse` one after the other, with nothing in between. The lock is taken through a
pointer and released by looking up a name. The slot that was locked is found under the key requested
until an update has renamed it, and never if it was reserved for an absent key that no update named.
Where a word of a message does not fit its array, the session has no result.
-/

namespace QuorumLogFs.Vote

open QuorumLogFs.Basis

/-- What `putResponse` leaves, with the slot it locked and whether it has applied an update. -/
structure PutDone where
  table : Table
  locked : Option ℕ
  applied : Bool

/-- `putResponse` from its first `recvTimeout` on, with slot `i` locked. -/
def putWaits (key : List Char) (i : ℕ) (loc : Locals) (msg₁ msg₂ : Option (List Char))
    (t : Table) : Option PutDone := do
  let (t, sent, keyNew) ← putResponseUpdate key i loc msg₁ t
  match keyNew with
  | none => some ⟨t, some i, false⟩
  | some keyNew =>
    let t ← putResponseRelease key keyNew { loc with msgType := "update".toList } msg₂ t
    some ⟨t, some i, sent.isSome⟩

/-- `putResponse`: `msg₁` and `msg₂` are what its two `recvTimeout` return. Behind the first message
`msgType` holds `update`. -/
def putResponse (lier : ℤ) (key : List Char) (loc : Locals) (msg₁ msg₂ : Option (List Char))
    (t : Table) : Option PutDone := do
  let (t, vote) ← putResponseVote lier key t
  match vote with
  | none => some ⟨t, none, false⟩
  | some (i, _) => putWaits key i loc msg₁ msg₂ t

/-- `putResponse` returns without the lock it took, and with the table as it was unless it has
applied an update. -/
def CleansUp (lier : ℤ) (key : List Char) (loc : Locals) (msg₁ msg₂ : Option (List Char))
    (t : Table) : Prop :=
  ∃ r, putResponse lier key loc msg₁ msg₂ t = some r ∧
    (∀ i ∈ r.locked, (entry r.table i).lock = 0) ∧ (r.applied = false → r.table = t)

/-! ## When it does -/

/-- The type of the message fits its array. `old` is what the array holds before. -/
def TypeFits (old : List Char) (msg : Option (List Char)) : Prop :=
  ∀ m, msg = some m → (readMsgType m old).length < MAX_MSGTYPE_SIZE

/-- The key and the value that an update names. -/
def updateNames (loc : Locals) (msg : Option (List Char)) : Option (List Char × List Char) :=
  msg.bind fun msg =>
    if readMsgType msg loc.msgType = "update".toList then
      some (argStr (readUpdate msg) 0 loc.key, argStr (readUpdate msg) 1 loc.value)
    else none

/-- The message is a `releaselock`. -/
def Releases (msg : Option (List Char)) : Prop :=
  ∃ m, msg = some m ∧ readMsgType m "update".toList = "releaselock".toList

/-- No slot in front of slot `i` has this key. -/
def FirstNamed (keyNew : List Char) (i : ℕ) (t : Table) : Prop :=
  ∀ j, j < i → (entry t j).key ≠ keyNew

/-- The update names no slot in front of the locked one, and what follows releases the name that it
gave to the slot. Both words fit the entry, and the type of what follows fits its array. -/
structure ReleasesSlot (key keyNew val : List Char) (i : ℕ) (msg₂ : Option (List Char)) (t : Table) :
    Prop where
  key_fits : keyNew.length < KEYSIZE
  value_fits : val.length < VALSIZE
  type_fits : TypeFits "update".toList msg₂
  first : FirstNamed keyNew i t
  released : keyNew = key ∨ Releases msg₂

/-- For a present key: its entry is in use, or no update comes, or the name of the slot is released.
For an absent one there has to be a slot left, and an update. -/
def Orderly (key : List Char) (loc : Locals) (msg₁ msg₂ : Option (List Char)) (t : Table) : Prop :=
  match searchKey key t with
  | some i => (entry t i).lock = 0 → (entry t i).numGetters = 0 → TypeFits loc.msgType msg₁ ∧
      ∀ w, updateNames loc msg₁ = some w → ReleasesSlot key w.1 w.2 i msg₂ t
  | none => t.length < MAXKEYS ∧
      ∃ w, updateNames loc msg₁ = some w ∧ ReleasesSlot key w.1 w.2 t.length msg₂ t

variable {key keyNew val k : List Char} {i j : ℕ} {t : Table} {loc : Locals}
  {msg₁ msg₂ : Option (List Char)}

/-! ## Lookups of a renamed slot -/

/-- The name of the slot is found there, unless an earlier slot has it too. -/
theorem searchKey_rename_iff (hi : i < t.length) :
    searchKey keyNew (t.modify i fun kv => { kv with key := keyNew }) = some i ↔
      FirstNamed keyNew i t := by
  rw [searchKey_eq_some]
  constructor
  · rintro ⟨kv, -, -, hfirst⟩ j hj
    have hold : entry (t.modify i fun kv => { kv with key := keyNew }) j = entry t j :=
      entry_modify_ne (by omega) _
    rw [← hold]
    exact hfirst j hj _ (getElem?_entry (by simp; omega))
  · intro hfirst
    refine ⟨{ entry t i with key := keyNew }, by simp [getElem?_entry hi], rfl, ?_⟩
    intro j hj kv' hkv'
    have hold : entry (t.modify i fun kv => { kv with key := keyNew }) j = entry t j :=
      entry_modify_ne (by omega) _
    rw [← entry_of_getElem? hkv', hold]
    exact hfirst j hj

/-- Another name does not find the slot. -/
theorem searchKey_rename_of_ne (hi : i < t.length) (hne : k ≠ keyNew) :
    searchKey k (t.modify i fun kv => { kv with key := keyNew }) ≠ some i := by
  intro h
  have hkey := key_entry_of_searchKey h
  rw [entry_modify_self hi] at hkey
  exact hne hkey.symm

/-- A release of a name that finds another slot leaves this one alone. -/
theorem entry_releaselockResponse_other (h : searchKey k t ≠ some i) :
    entry (releaselockResponse k t) i = entry t i := by
  unfold releaselockResponse
  split
  · rfl
  · rename_i j hj
    exact entry_modify_ne (fun hji : j = i => h (hji ▸ hj)) _

theorem lock_releaselockResponse_self (hi : i < t.length) (h : searchKey k t = some i) :
    (entry (releaselockResponse k t) i).lock = 0 := by
  unfold releaselockResponse
  rw [h]
  exact congrArg KeyVal.lock (entry_modify_self hi _)

/-! ## The waits -/

theorem updateNames_eq_none : updateNames loc msg₁ = none ↔
    ∀ m, msg₁ = some m → readMsgType m loc.msgType ≠ "update".toList := by
  cases msg₁ <;> simp [updateNames]

theorem updateNames_eq_some {w : List Char × List Char} (h : updateNames loc msg₁ = some w) :
    ∃ m, msg₁ = some m ∧ readMsgType m loc.msgType = "update".toList ∧
      w = (argStr (readUpdate m) 0 loc.key, argStr (readUpdate m) 1 loc.value) := by
  obtain ⟨m, hm, hw⟩ := Option.bind_eq_some_iff.mp h
  by_cases htype : readMsgType m loc.msgType = "update".toList
  · rw [if_pos htype] at hw
    exact ⟨m, hm, htype, (Option.some.inj hw).symm⟩
  · rw [if_neg htype] at hw
    cases hw

/-- Without an update the key requested is released, if the type of the message fits. -/
theorem putWaits_of_none (h : updateNames loc msg₁ = none) {r : PutDone} :
    putWaits key i loc msg₁ msg₂ t = some r ↔
      TypeFits loc.msgType msg₁ ∧ r = ⟨releaselockResponse key t, some i, false⟩ := by
  have hmsg : putResponseUpdate key i loc msg₁ t =
      if ∃ m, msg₁ = some m ∧ MAX_MSGTYPE_SIZE ≤ (readMsgType m loc.msgType).length then none
      else some (releaselockResponse key t, none, none) := by
    cases msg₁ with
    | none => simp [putResponseUpdate]
    | some m =>
      have htype := updateNames_eq_none.mp h m rfl
      simp only [putResponseUpdate, if_neg htype, Option.some.injEq, exists_eq_left']
  have hfits : TypeFits loc.msgType msg₁ ↔
      ¬∃ m, msg₁ = some m ∧ MAX_MSGTYPE_SIZE ≤ (readMsgType m loc.msgType).length := by
    simp [TypeFits]
  rw [putWaits, hmsg, hfits]
  split
  · rename_i hlong
    exact iff_of_false (fun hr => by cases hr) fun hr => hr.1 hlong
  · rename_i hshort
    rw [and_iff_right hshort, eq_comm]
    exact Option.some_inj

/-- After an update one name is released, in the table that the update has left. -/
theorem putWaits_of_some {w : List Char × List Char} (h : updateNames loc msg₁ = some w) {r : PutDone}
    (hr : putWaits key i loc msg₁ msg₂ t = some r) :
    ∃ vno u sent k, w.1.length < KEYSIZE ∧ TypeFits "update".toList msg₂ ∧
      updateResponse w.1 w.2 vno (t.modify i fun kv => { kv with key := w.1 }) = some (u, sent) ∧
      r = ⟨releaselockResponse k u, some i, sent.isSome⟩ ∧
      (k = w.1 ∧ Releases msg₂ ∨ k = key ∧ ¬ Releases msg₂) := by
  obtain ⟨m, hm, htype, rfl⟩ := updateNames_eq_some h
  obtain ⟨⟨u, sent, keyNew⟩, hupdate, hr⟩ := Option.bind_eq_some_iff.mp hr
  obtain ⟨m', k, val, vno, hm', -, rfl, rfl, -, hfits, hstored, rfl⟩ | ⟨hnot, -⟩ :=
    putResponseUpdate_cases hupdate
  · obtain rfl := Option.some.inj (hm.symm.trans hm')
    obtain ⟨u', hrelease, hr⟩ := Option.bind_eq_some_iff.mp hr
    have htypeFits : TypeFits "update".toList msg₂ := by
      rintro m rfl
      by_contra hlong
      simp only [putResponseRelease, if_pos (not_lt.mp hlong)] at hrelease
      cases hrelease
    obtain ⟨⟨m₂, hm₂, hrel⟩, rfl⟩ | ⟨hrel, rfl⟩ := putResponseRelease_cases hrelease
    · exact ⟨vno, u, sent, _, hfits, htypeFits, hstored, (Option.some.inj hr).symm,
        Or.inl ⟨rfl, m₂, hm₂, hrel⟩⟩
    · refine ⟨vno, u, sent, _, hfits, htypeFits, hstored, (Option.some.inj hr).symm,
        Or.inr ⟨rfl, ?_⟩⟩
      rintro ⟨m₂, hm₂, hrel'⟩
      exact hrel m₂ hm₂ hrel'
  · exact absurd htype (hnot m hm)

/-- An update that fits the entry is stored where it finds its key, and then a name is released. -/
theorem putWaits_stored {w : List Char × List Char} (h : updateNames loc msg₁ = some w)
    (hrel : ReleasesSlot key w.1 w.2 i msg₂ t) :
    ∃ r, putWaits key i loc msg₁ msg₂ t = some r := by
  obtain ⟨m, rfl, htype, rfl⟩ := updateNames_eq_some h
  obtain ⟨⟨u, sent⟩, hstored⟩ := updateResponse_isSome hrel.value_fits
    (argStr (readUpdate m) 0 loc.key) (argInt (readUpdate m) 2 loc.vno)
    (t.modify i fun kv => { kv with key := argStr (readUpdate m) 0 loc.key })
  have hupdate : putResponseUpdate key i loc (some m) t =
      some (u, sent, some (argStr (readUpdate m) 0 loc.key)) := by
    have hshort : ¬MAX_MSGTYPE_SIZE ≤ (readMsgType m loc.msgType).length := by
      rw [htype]
      decide
    have hval : (argStr (readUpdate m) 1 loc.value).length < MAX_VAL_SIZE :=
      hrel.value_fits.trans (by decide)
    simp only [putResponseUpdate, if_neg hshort, if_pos htype,
      if_pos (And.intro hrel.key_fits hval), hstored, Option.map_some]
  obtain ⟨u', hrelease⟩ : ∃ u', putResponseRelease key (argStr (readUpdate m) 0 loc.key)
      { loc with msgType := "update".toList } msg₂ u = some u' := by
    cases msg₂ with
    | none => exact ⟨_, rfl⟩
    | some m₂ =>
      simp only [putResponseRelease, if_neg (not_le.mpr (hrel.type_fits m₂ rfl))]
      split
      · exact ⟨_, rfl⟩
      · exact ⟨_, rfl⟩
  exact ⟨_, Option.bind_eq_some_iff.mpr ⟨_, hupdate, Option.bind_eq_some_iff.mpr ⟨u', hrelease, rfl⟩⟩⟩

/-- After an update, a locked slot is unlocked exactly if its name is released; the update has then
been applied. -/
theorem putWaits_update_iff {w : List Char × List Char} (hi : i < t.length)
    (hlock : (entry t i).lock = 1) (h : updateNames loc msg₁ = some w) {r : PutDone}
    (hr : putWaits key i loc msg₁ msg₂ t = some r) :
    r.locked = some i ∧ ((entry r.table i).lock = 0 ↔ ReleasesSlot key w.1 w.2 i msg₂ t) ∧
      ((entry r.table i).lock = 0 → r.applied = true) := by
  obtain ⟨vno, u', sent, k, hkey, htype, hstored, rfl, hk⟩ := putWaits_of_some h hr
  generalize hrename : (t.modify i fun kv => { kv with key := w.1 }) = u at hstored
  have hfound : searchKey w.1 u = some i ↔ FirstNamed w.1 i t := hrename ▸ searchKey_rename_iff hi
  have hother : ∀ k, k ≠ w.1 → searchKey k u ≠ some i := fun k hne =>
    hrename ▸ searchKey_rename_of_ne hi hne
  have hlen : u.length = t.length := by rw [← hrename, List.length_modify]
  have hlocked : (entry u i).lock = 1 := by
    rw [← hrename, entry_modify_self hi]
    exact hlock
  have hupdated : (entry u' i).lock = 1 := by
    rw [updateResponse_field KeyVal.lock (fun _ => rfl) hstored, hlocked]
  have hunlock : (entry (releaselockResponse k u') i).lock = 0 ↔ searchKey k u = some i := by
    rw [← searchKey_updateResponse hstored k]
    constructor
    · intro h0
      by_contra hne
      rw [entry_releaselockResponse_other hne, hupdated] at h0
      exact one_ne_zero h0
    · exact lock_releaselockResponse_self (by rw [length_updateResponse hstored, hlen]; exact hi)
  -- a name that finds the slot is the one that the update gave it, and the update has found it too
  have happly : searchKey k u = some i →
      searchKey w.1 u = some i ∧ w.2.length < VALSIZE ∧ sent.isSome = true := by
    intro hs
    have hself : searchKey w.1 u = some i := by
      by_cases hne : k = w.1
      · exact hne ▸ hs
      · exact absurd hs (hother k hne)
    obtain ⟨-, -, -, hval, -, rfl⟩ | ⟨hfree, -⟩ := updateResponse_cases hstored
    · exact ⟨hself, hval, rfl⟩
    · rw [hfree i hself] at hlocked
      exact absurd hlocked zero_ne_one
  refine ⟨rfl, hunlock.trans ⟨fun hs => ?_, fun hrel => ?_⟩, fun h0 => (happly (hunlock.mp h0)).2.2⟩
  · obtain ⟨hself, hval, -⟩ := happly hs
    refine ⟨hkey, hval, htype, hfound.mp hself, ?_⟩
    rcases hk with ⟨-, hrelease⟩ | ⟨rfl, -⟩
    · exact Or.inr hrelease
    · by_contra hnot
      exact hother _ (fun heq => hnot (Or.inl heq.symm)) hs
  · have hself := hfound.mpr hrel.first
    rcases hk with ⟨rfl, -⟩ | ⟨rfl, hnot⟩
    · exact hself
    · exact hrel.released.resolve_right hnot ▸ hself

/-! ## The whole session -/

theorem ReleasesSlot.congr {u : Table} (h : ∀ j, j < i → (entry u j).key = (entry t j).key) :
    ReleasesSlot key keyNew val i msg₂ u ↔ ReleasesSlot key keyNew val i msg₂ t := by
  have hfirst : FirstNamed keyNew i u ↔ FirstNamed keyNew i t :=
    forall₂_congr fun j hj => by rw [h j hj]
  exact ⟨fun hr => { hr with first := hfirst.mp hr.first },
    fun hr => { hr with first := hfirst.mpr hr.first }⟩

/-- A session that has locked its slot and gets an update. -/
theorem cleansUp_update_iff {u : Table} {w : List Char × List Char} (hi : i < u.length)
    (hlock : (entry u i).lock = 1) (hkeys : ∀ j, j < i → (entry u j).key = (entry t j).key)
    (h : updateNames loc msg₁ = some w) {lier : ℤ}
    (hr : putResponse lier key loc msg₁ msg₂ t = putWaits key i loc msg₁ msg₂ u) :
    CleansUp lier key loc msg₁ msg₂ t ↔ ReleasesSlot key w.1 w.2 i msg₂ t := by
  have hsame : ReleasesSlot key w.1 w.2 i msg₂ u ↔ ReleasesSlot key w.1 w.2 i msg₂ t :=
    ReleasesSlot.congr hkeys
  constructor
  · rintro ⟨r, hr', hzero, -⟩
    obtain ⟨hlocked, hunlock, -⟩ := putWaits_update_iff hi hlock h (hr ▸ hr')
    exact hsame.mp (hunlock.mp (hzero i hlocked))
  · intro hrel
    obtain ⟨r, hr'⟩ := putWaits_stored h (hsame.mpr hrel)
    obtain ⟨hlocked, hunlock, happlied⟩ := putWaits_update_iff hi hlock h hr'
    have hzero := hunlock.mpr (hsame.mpr hrel)
    refine ⟨r, hr.trans hr', fun j hj => ?_, fun hnot => ?_⟩
    · obtain rfl : i = j := Option.some.inj (hlocked.symm.trans hj)
      exact hzero
    · rw [happlied hzero] at hnot
      cases hnot

/-- The type of an update fits. -/
theorem typeFits_of_updateNames {w : List Char × List Char} (h : updateNames loc msg₁ = some w) :
    TypeFits loc.msgType msg₁ := by
  obtain ⟨m, rfl, htype, -⟩ := updateNames_eq_some h
  intro m' hm'
  rw [← Option.some.inj hm', htype]
  decide

/-- A session for a present key. -/
theorem cleansUp_present_iff (lier : ℤ) (hs : searchKey key t = some i) :
    CleansUp lier key loc msg₁ msg₂ t ↔
      ((entry t i).lock = 0 → (entry t i).numGetters = 0 → TypeFits loc.msgType msg₁ ∧
        ∀ w, updateNames loc msg₁ = some w → ReleasesSlot key w.1 w.2 i msg₂ t) := by
  have hi := searchKey_lt hs
  by_cases hfree : (entry t i).lock = 0 ∧ (entry t i).numGetters = 0
  · -- the slot is locked
    have hr : putResponse lier key loc msg₁ msg₂ t = putWaits key i loc msg₁ msg₂
        (t.modify i fun kv => { kv with lock := 1 }) := by
      simp only [putResponse, putResponseVote, hs, grantVote, if_pos hfree, Option.bind_eq_bind,
        Option.bind_some]
    cases hn : updateNames loc msg₁ with
    | none =>
      have hback : releaselockResponse key (t.modify i fun kv => { kv with lock := 1 }) = t := by
        unfold releaselockResponse
        rw [searchKey_modify (fun _ => by rfl), hs]
        show (t.modify i _).modify i _ = t
        rw [modify_modify]
        refine modify_eq_self ?_
        simp only [Function.comp_apply]
        rw [← hfree.1]
      constructor
      · rintro ⟨r, hr', -⟩ - -
        exact ⟨((putWaits_of_none hn).mp (hr ▸ hr')).1, fun w hw => by cases hw⟩
      · intro h
        refine ⟨_, hr.trans ((putWaits_of_none hn).mpr ⟨(h hfree.1 hfree.2).1, rfl⟩),
          fun j hj => ?_, fun _ => hback⟩
        obtain rfl : i = j := Option.some.inj hj
        show (entry (releaselockResponse key _) i).lock = 0
        rw [hback, hfree.1]
    | some w =>
      have hlock : (entry (t.modify i fun kv => { kv with lock := 1 }) i).lock = 1 := by
        rw [entry_modify_self hi]
      rw [cleansUp_update_iff (by simpa using hi) hlock (fun j _ => ?_) hn hr]
      · refine ⟨fun h _ _ => ⟨typeFits_of_updateNames hn, fun w' hw => Option.some.inj hw ▸ h⟩,
          fun h => (h hfree.1 hfree.2).2 w rfl⟩
      · exact entry_modify_field KeyVal.key (fun _ => by rfl) t i j
  · -- the entry is in use
    have hr : putResponse lier key loc msg₁ msg₂ t = some ⟨t, none, false⟩ := by
      simp only [putResponse, putResponseVote, hs, grantVote, if_neg hfree, Option.bind_eq_bind,
        Option.bind_some]
    refine iff_of_true ⟨_, hr, fun j hj => ?_, fun _ => rfl⟩ fun h0 hg => absurd ⟨h0, hg⟩ hfree
    cases hj

/-- A session for an absent key, which reserves a slot. -/
theorem cleansUp_absent_iff (lier : ℤ) (hs : searchKey key t = none) :
    CleansUp lier key loc msg₁ msg₂ t ↔
      t.length < MAXKEYS ∧ ∃ w, updateNames loc msg₁ = some w ∧
        ReleasesSlot key w.1 w.2 t.length msg₂ t := by
  by_cases hroom : t.length < MAXKEYS
  · generalize hu : (t ++ [initKeyValStruct]).modify t.length (fun kv => { kv with lock := 1 }) = u
    have hlen : u.length = t.length + 1 := by simp [← hu]
    have hi : t.length < u.length := by omega
    have hlock : (entry u t.length).lock = 1 := by
      rw [← hu, entry_modify_self (by simp)]
    have hr : putResponse lier key loc msg₁ msg₂ t = putWaits key t.length loc msg₁ msg₂ u := by
      have hfree : (entry (t ++ [initKeyValStruct]) t.length).lock = 0 ∧
          (entry (t ++ [initKeyValStruct]) t.length).numGetters = 0 := by
        rw [entry_append_init, entry_of_length_le le_rfl]
        exact ⟨rfl, rfl⟩
      simp only [putResponse, putResponseVote, hs, if_pos hroom, grantVote, if_pos hfree,
        Option.bind_eq_bind, Option.bind_some, hu]
    cases hn : updateNames loc msg₁ with
    | none =>
      -- the reserved slot stays
      refine iff_of_false ?_ ?_
      · rintro ⟨r, hr', -, hsame⟩
        obtain ⟨-, rfl⟩ := (putWaits_of_none hn).mp (hr ▸ hr')
        have hlen' := congrArg List.length (hsame rfl)
        rw [length_releaselockResponse, hlen] at hlen'
        omega
      · rintro ⟨-, w, hw, -⟩
        cases hw
    | some w =>
      rw [cleansUp_update_iff hi hlock (fun j _ => ?_) hn hr]
      · refine ⟨fun h => ⟨hroom, w, rfl, h⟩, ?_⟩
        rintro ⟨-, w', hw, h⟩
        exact Option.some.inj hw ▸ h
      · rw [← hu, entry_modify_field KeyVal.key (fun _ => by rfl), entry_append_init]
  · refine iff_of_false ?_ fun h => hroom h.1
    rintro ⟨r, hr, -⟩
    simp only [putResponse, putResponseVote, hs, if_neg hroom, Option.bind_eq_bind,
      Option.bind_none] at hr
    cases hr

/-- A session cleans up exactly when it is orderly. -/
theorem cleansUp_iff (lier : ℤ) (key : List Char) (loc : Locals) (msg₁ msg₂ : Option (List Char))
    (t : Table) : CleansUp lier key loc msg₁ msg₂ t ↔ Orderly key loc msg₁ msg₂ t := by
  unfold Orderly
  cases hs : searchKey key t with
  | some i => exact cleansUp_present_iff lier hs
  | none => exact cleansUp_absent_iff lier hs

/-- A `PUT` of an absent key whose client goes away leaves a locked slot without a name. -/
theorem not_cleansUp_absent : ¬ CleansUp 0 "key2".toList {} none none initTable := by
  rw [cleansUp_absent_iff 0 (by decide)]
  rintro ⟨-, w, hw, -⟩
  cases hw

end QuorumLogFs.Vote
