import QuorumLogFs.Vote.Sessions

/-!
# The reader counter

`getResponse` raises `numGetters` on its unlocked branch only, but lowers it on both. A `GET` that
finds its entry locked therefore leaves the counter one too low, for good; as long as no `GET` does,
the counter of an entry is the number of threads reading it.
-/

namespace QuorumLogFs.Vote

open QuorumLogFs.Basis

/-- The `getResponse` calls that have registered on slot `i` and not finished. -/
def readers (s : ServerState) (i : ℕ) : ℕ := s.sessions.count (.reading i)

/-- The counters are exact, so an unlocked entry nobody reads grants the next `PUT` its vote. -/
structure ReaderCountExact (s : ServerState) : Prop where
  exact : ∀ i, (entry s.table i).numGetters = readers s i
  grants : ∀ lier key i, searchKey key s.table = some i → (entry s.table i).lock = 0 →
    readers s i = 0 → ∃ t' resMsg, putResponseVote lier key s.table = some (t', some (i, resMsg))

/-- A `GET` that is accepted does not find its entry locked. -/
def GetFindsUnlocked (s : ServerState) : Event → Prop
  | .accept msg loc => readMsgType msg loc.msgType = "GET".toList →
      ∀ i, searchKey (readKey msg loc.key) s.table = some i → (entry s.table i).lock = 0
  | _ => True

/-- The inductive form: besides the counts, readers are registered on slots of the table. -/
structure ReaderInv (s : ServerState) : Prop where
  exact : ∀ i, (entry s.table i).numGetters = readers s i
  slots : ∀ i, Session.reading i ∈ s.sessions → i < s.table.length

theorem ReaderInv.init : ReaderInv .init where
  exact i := by
    rcases i with _ | i <;> rfl
  slots i h := by simp [ServerState.init] at h

theorem ReaderInv.toExact {s : ServerState} (h : ReaderInv s) : ReaderCountExact s where
  exact := h.exact
  grants lier key i hi hlock hreaders := by
    have hget : (entry s.table i).numGetters = 0 := by rw [h.exact, hreaders]; rfl
    simp only [putResponseVote, hi, grantVote, hlock, hget, and_self, if_true]
    exact ⟨_, _, rfl⟩

/-! ## Steps that do not touch the counters -/

/-- A step that keeps the counters and adds or ends a session that is not a reader. -/
theorem ReaderInv.of_same {s s' : ServerState} (h : ReaderInv s)
    (hget : ∀ i, (entry s'.table i).numGetters = (entry s.table i).numGetters)
    (hread : ∀ i, readers s' i = readers s i) (hlen : s.table.length ≤ s'.table.length) :
    ReaderInv s' where
  exact i := by rw [hget, hread, h.exact]
  slots i hi := by
    have hpos : 0 < readers s i := by rw [← hread]; exact List.count_pos_iff.mpr hi
    exact (h.slots i (List.count_pos_iff.mp hpos)).trans_le hlen

theorem readers_append_ne {s : ServerState} {t : Table} {x : Session}
    (hx : ∀ i, x ≠ .reading i) (i : ℕ) : readers ⟨t, s.sessions ++ [x]⟩ i = readers s i := by
  simp [readers, hx i]

theorem readers_set_ne {s : ServerState} {t : Table} {c : ℕ} {x y : Session}
    (hc : s.sessions[c]? = some x) (hx : ∀ i, x ≠ .reading i) (hy : ∀ i, y ≠ .reading i) (i : ℕ) :
    readers ⟨t, s.sessions.set c y⟩ i = readers s i := by
  obtain ⟨hlt, rfl⟩ := List.getElem?_eq_some_iff.mp hc
  simp [readers, List.count_set, hlt, hx i, hy i]

theorem putResponseUpdate_getters {key : List Char} {i : ℕ} {loc : Locals} {msg : Option (List Char)}
    {t t' : Table} {sent keyNew : Option (List Char)}
    (h : putResponseUpdate key i loc msg t = some (t', sent, keyNew)) :
    (∀ j, (entry t' j).numGetters = (entry t j).numGetters) ∧ t'.length = t.length := by
  obtain ⟨m, k, val, vno, -, -, -, -, -, -, hu, -⟩ | ⟨-, rfl, -, -⟩ := putResponseUpdate_cases h
  · refine ⟨fun j => ?_, (length_updateResponse hu).trans (List.length_modify ..)⟩
    rw [updateResponse_field KeyVal.numGetters (fun _ => rfl) hu]
    exact entry_modify_field KeyVal.numGetters (fun _ => by rfl) t i j
  · exact ⟨releaselockResponse_field KeyVal.numGetters (fun _ => rfl) key t,
      length_releaselockResponse key t⟩

theorem putResponseRelease_getters {key keyNew : List Char} {loc : Locals} {msg : Option (List Char)}
    {t t' : Table} (h : putResponseRelease key keyNew loc msg t = some t') :
    (∀ j, (entry t' j).numGetters = (entry t j).numGetters) ∧ t'.length = t.length := by
  obtain ⟨-, rfl⟩ | ⟨-, rfl⟩ := putResponseRelease_cases h
  · exact ⟨releaselockResponse_field KeyVal.numGetters (fun _ => rfl) keyNew t,
      length_releaselockResponse keyNew t⟩
  · exact ⟨releaselockResponse_field KeyVal.numGetters (fun _ => rfl) key t,
      length_releaselockResponse key t⟩

theorem putResponseVote_getters {lier : ℤ} {key : List Char} {t t' : Table}
    {r : Option (ℕ × List Char)} (h : putResponseVote lier key t = some (t', r)) :
    (∀ j, (entry t' j).numGetters = (entry t j).numGetters) ∧ t.length ≤ t'.length := by
  rw [putResponseVote] at h
  split at h
  · split at h
    · have ht' := congrArg Prod.fst (Option.some.inj h)
      subst ht'
      refine ⟨fun j => ?_, by simp⟩
      rw [grantVote_field KeyVal.numGetters (fun _ => rfl), entry_append_init]
    · exact absurd h (by simp)
  · have ht' := congrArg Prod.fst (Option.some.inj h)
    subst ht'
    exact ⟨fun j => grantVote_field KeyVal.numGetters (fun _ => rfl) _ _ t j, by simp⟩

/-- What a first message does to the counters: only that of a `GET` changes one. -/
theorem responseServer_getters {lier : ℤ} {msg : List Char} {loc : Locals} {t t' : Table}
    {resp : Option (List Char)} {z : Session}
    (h : responseServer lier loc msg t = some (t', resp, z)) :
    (readMsgType msg loc.msgType = "GET".toList ∧ ∃ i, searchKey (readKey msg loc.key) t = some i ∧
      ((entry t i).lock = 0 ∧ z = .reading i ∧
          t' = t.modify i (fun kv => { kv with numGetters := kv.numGetters + 1 }) ∨
        (entry t i).lock ≠ 0 ∧ (∀ j, z ≠ .reading j) ∧ t' = getResponseDecr i t)) ∨
    (¬ (readMsgType msg loc.msgType = "GET".toList ∧ searchKey (readKey msg loc.key) t ≠ none)) ∧
      (∀ j, z ≠ .reading j) ∧ t.length ≤ t'.length ∧
      ∀ j, (entry t' j).numGetters = (entry t j).numGetters := by
  have hnotGet : ∀ {type : List Char}, type ≠ "GET".toList → readMsgType msg loc.msgType = type →
      ¬ (readMsgType msg loc.msgType = "GET".toList ∧ searchKey (readKey msg loc.key) t ≠ none) :=
    fun hne htype hc => hne (htype.symm.trans hc.1)
  rcases responseServer_cases h with ⟨hget, hcase⟩ | ⟨hput, hcase⟩ | ⟨hupdate, rfl, val, vno, hu⟩ |
    ⟨hrelease, rfl, rfl, -⟩ | ⟨hget, -, rfl, rfl, -⟩
  · unfold getResponseSend at hcase
    cases hsearch : searchKey (readKey msg loc.key) t with
    | none =>
      rw [hsearch] at hcase
      obtain ⟨i, resMsg, hsend, -, -⟩ | ⟨hsend, -, rfl⟩ := hcase
      · cases hsend
      · obtain ⟨rfl, -⟩ := Prod.mk.inj hsend
        exact Or.inr ⟨fun hc => hc.2 rfl, by simp, le_rfl, fun _ => rfl⟩
    | some i =>
      refine Or.inl ⟨hget, i, rfl, ?_⟩
      rw [hsearch] at hcase
      by_cases hlock : (entry t i).lock = 0
      · simp only [hlock, if_true] at hcase
        obtain ⟨j, resMsg, hsend, -, rfl⟩ | ⟨hsend, -, -⟩ := hcase
        · obtain ⟨rfl, hslot⟩ := Prod.mk.inj hsend
          obtain ⟨rfl, -⟩ := Prod.mk.inj (Option.some.inj hslot)
          exact Or.inl ⟨hlock, rfl, rfl⟩
        · cases hsend
      · simp only [hlock, if_false] at hcase
        obtain ⟨j, resMsg, hsend, -, -⟩ | ⟨hsend, -, rfl⟩ := hcase
        · cases hsend
        · obtain ⟨rfl, -⟩ := Prod.mk.inj hsend
          exact Or.inr ⟨hlock, by simp, rfl⟩
  · refine Or.inr ⟨hnotGet (by decide) hput, ?_⟩
    obtain ⟨i, resMsg, hvote, -, rfl⟩ | ⟨hvote, -, rfl⟩ := hcase
    · obtain ⟨hgetters, hlen⟩ := putResponseVote_getters hvote
      exact ⟨by simp, hlen, hgetters⟩
    · obtain ⟨hgetters, hlen⟩ := putResponseVote_getters hvote
      exact ⟨by simp, hlen, hgetters⟩
  · exact Or.inr ⟨hnotGet (by decide) hupdate, by simp, (length_updateResponse hu).ge,
      updateResponse_field KeyVal.numGetters (fun _ => rfl) hu⟩
  · exact Or.inr ⟨hnotGet (by decide) hrelease, by simp, by simp,
      releaselockResponse_field KeyVal.numGetters (fun _ => rfl) _ _⟩
  · exact Or.inr ⟨fun hc => hget hc.1, by simp, le_rfl, fun _ => rfl⟩

/-! ## The step lemma -/

/-- Accepting a connection. -/
theorem ReaderInv.accept {lier : ℤ} {s s' : ServerState} (h : ReaderInv s) (msg : List Char)
    (loc : Locals) (hok : GetFindsUnlocked s (.accept msg loc))
    (hstep : serverStep lier s (.accept msg loc) = some s') : ReaderInv s' := by
  obtain ⟨⟨t', resp, sess⟩, hresp, rfl⟩ := Option.map_eq_some_iff.mp hstep
  rcases responseServer_getters hresp with ⟨hget, i, hsearch, hcase⟩ | ⟨-, hsess, hlen, hgetters⟩
  · -- by `hok` the entry is unlocked and the thread registers
    have hlt := searchKey_lt hsearch
    rcases hcase with ⟨-, rfl, rfl⟩ | ⟨hlock, -, -⟩
    · constructor
      · intro j
        by_cases hij : i = j
        · subst hij
          simp [entry_modify_self hlt, readers, h.exact i]
        · have hne : Session.reading i ≠ .reading j := by simpa using hij
          simp [entry_modify_ne hij, readers, h.exact j, hne]
      · intro j hj
        simp only [List.length_modify]
        rcases List.mem_append.mp hj with hj | hj
        · exact h.slots j hj
        · obtain rfl : j = i := by simpa using hj
          exact hlt
    · exact absurd (hok hget i hsearch) hlock
  · exact h.of_same hgetters (readers_append_ne hsess) hlen

/-- The `send` of a `GET` returns: its thread leaves the counter and the sessions together. -/
theorem ReaderInv.sent {lier : ℤ} {s s' : ServerState} (h : ReaderInv s) (c : ℕ)
    (hstep : serverStep lier s (.sent c) = some s') : ReaderInv s' := by
  simp only [serverStep] at hstep
  split at hstep
  · rename_i i hc
    obtain rfl := Option.some.inj hstep
    obtain ⟨hlt, hci⟩ := List.getElem?_eq_some_iff.mp hc
    have hmem : Session.reading i ∈ s.sessions := List.mem_of_getElem? hc
    have hslot := h.slots i hmem
    have hpos : 0 < readers s i := List.count_pos_iff.mpr hmem
    constructor
    · intro j
      by_cases hij : i = j
      · subst hij
        have hcount : readers ⟨getResponseDecr i s.table, s.sessions.set c .closed⟩ i
            = readers s i - 1 := by
          simp [readers, List.count_set, hlt, hci]
        rw [hcount, getResponseDecr, entry_modify_self hslot, h.exact i]
        dsimp only
        omega
      · have hne : Session.reading i ≠ .reading j := by simpa using hij
        have hcount : readers ⟨getResponseDecr i s.table, s.sessions.set c .closed⟩ j
            = readers s j := by
          simp [readers, List.count_set, hlt, hci, hne]
        rw [hcount, getResponseDecr, entry_modify_ne hij, h.exact j]
    · intro j hj
      rw [length_getResponseDecr]
      rcases List.mem_or_eq_of_mem_set hj with hj | hj
      · exact h.slots j hj
      · simp at hj
  · exact absurd hstep (by simp)

/-- A `recvTimeout` of a `PUT` returns. -/
theorem ReaderInv.recv {lier : ℤ} {s s' : ServerState} (h : ReaderInv s) (c : ℕ)
    (msg : Option (List Char)) (loc : Locals)
    (hstep : serverStep lier s (.recv c msg loc) = some s') : ReaderInv s' := by
  rcases serverStep_recv_cases hstep with ⟨key, i, t, sent, keyNew, hc, hr, rfl⟩ |
    ⟨key, keyNew, i, t, hc, hr, rfl⟩
  · obtain ⟨hgetters, hlen⟩ := putResponseUpdate_getters hr
    refine h.of_same hgetters (readers_set_ne hc (by simp) fun j => ?_) hlen.ge
    cases keyNew <;> simp
  · obtain ⟨hgetters, hlen⟩ := putResponseRelease_getters hr
    exact h.of_same hgetters (readers_set_ne hc (by simp) (by simp)) hlen.ge

theorem ReaderInv.step {lier : ℤ} (s : ServerState) (e : Event) (s' : ServerState)
    (h : ReaderInv s) (hok : GetFindsUnlocked s e) (hstep : serverStep lier s e = some s') :
    ReaderInv s' := by
  cases e with
  | accept msg loc => exact h.accept msg loc hok hstep
  | sent c => exact h.sent c hstep
  | recv c msg loc => exact h.recv c msg loc hstep

/-- A `GET` that finds its entry locked is counted down without having been counted up. -/
theorem readerCount_of_locked_get {lier : ℤ} (s : ServerState) (e : Event) (s' : ServerState)
    (h : ReaderInv s) (hno : ¬ GetFindsUnlocked s e) (hstep : serverStep lier s e = some s') :
    ¬ ReaderCountExact s' := by
  cases e with
  | accept msg loc =>
    simp only [GetFindsUnlocked, not_forall] at hno
    obtain ⟨hget, i, hsearch, hlock⟩ := hno
    have hlt := searchKey_lt hsearch
    obtain ⟨⟨t', resp, sess⟩, hresp, rfl⟩ := Option.map_eq_some_iff.mp hstep
    obtain ⟨-, j, hj, hcase⟩ := (responseServer_getters hresp).resolve_right fun hc =>
      hc.1 ⟨hget, by simp [hsearch]⟩
    obtain rfl := Option.some.inj (hsearch.symm.trans hj)
    obtain ⟨-, hsess, rfl⟩ := hcase.resolve_left fun hc => hlock hc.1
    intro hexact
    have hi := hexact.exact i
    rw [readers_append_ne hsess] at hi
    simp only [getResponseDecr, entry_modify_self hlt, h.exact i] at hi
    omega
  | sent c => exact absurd trivial hno
  | recv c msg loc => exact absurd trivial hno

/-- In every run of a server, under any messages whose words fit their arrays, on any connections in any
order, the reader counters are exact throughout if and only if no `GET` finds its entry locked. -/
theorem readerCountExact_iff (lier : ℤ) (es : List Event) (s : ServerState)
    (hrun : run (serverStep lier) .init es = some s) :
    Always (serverStep lier) ReaderCountExact .init es ↔
      Each (serverStep lier) GetFindsUnlocked .init es :=
  always_iff_each (I := ReaderInv) (E := fun _ _ => True) ReaderInv.init
    (fun _ => ReaderInv.toExact) (fun s e s' h _ => ReaderInv.step s e s' h)
    (fun s e s' h _ => readerCount_of_locked_get s e s' h) hrun (fun _ _ _ _ _ => trivial)

/-- Two overlapping `GET` sessions. -/
theorem readerCountExact_getTwice : Always (serverStep 0) ReaderCountExact .init
    [.accept (getMsg "key1".toList) {}, .accept (getMsg "key1".toList) {}, .sent 0] := by
  refine (readerCountExact_iff 0 _ _ (by rfl)).mpr ?_
  have hunlocked : ∀ t ss, (∀ i, (entry t i).lock = 0) →
      GetFindsUnlocked ⟨t, ss⟩ (.accept (getMsg "key1".toList) {}) :=
    fun t ss ht _ i _ => ht i
  have hslot : ∀ n i, (entry [{ entry initTable 0 with numGetters := n }] i).lock = 0 := by
    intro n i
    rcases i with _ | i <;> rfl
  refine .cons (hunlocked initTable [] (hslot 0))
    (t := ⟨[{ entry initTable 0 with numGetters := 1 }], [.reading 0]⟩) (by rfl) ?_
  refine .cons (hunlocked _ _ (hslot 1))
    (t := ⟨[{ entry initTable 0 with numGetters := 2 }], [.reading 0, .reading 0]⟩) (by rfl) ?_
  exact .cons trivial
    (t := ⟨[{ entry initTable 0 with numGetters := 1 }], [.closed, .reading 0]⟩) (by rfl) each_nil

/-- A `GET` inside a `PUT` session. -/
def getDuringPut : List Event :=
  [.accept (putMsg "key1".toList "v".toList) {}, .accept (getMsg "key1".toList) {},
    .recv 0 (some (updateMsg "key1".toList "v".toList 2)) {},
    .recv 0 (some (releaselockMsg "key1".toList)) {}]

/-- It leaves the counter at `-1` with nobody reading, and the unlocked key refuses the next
`PUT`. -/
theorem not_readerCountExact_getDuringPut :
    ∃ s, run (serverStep 0) .init getDuringPut = some s ∧
      (entry s.table 0).numGetters = -1 ∧ (entry s.table 0).lock = 0 ∧ readers s 0 = 0 ∧
      putResponseVote 0 "key1".toList s.table = some (s.table, none) ∧ ¬ ReaderCountExact s := by
  refine ⟨⟨[{ entry initTable 0 with value := "v".toList, vno := 2, numGetters := -1 }],
    [.closed, .closed]⟩, by rfl, rfl, rfl, by decide, by rfl, fun h => ?_⟩
  have h0 := h.exact 0
  revert h0
  decide

end QuorumLogFs.Vote
