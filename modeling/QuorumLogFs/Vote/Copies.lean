import QuorumLogFs.Vote.Network

/-!
# The copies that a server holds

Reference: `Server.c`.

What the events of a server do to the version and the value that it stores for a key, while its clients
are those of `Network`: only the update of a session that holds the key changes them. A reply carries what
is stored, and while a session holds a key no other client gets a reply for it.
-/

namespace QuorumLogFs.Vote

open QuorumLogFs.Basis

/-- The two tables hold the same copies. -/
def SameCopies (t t' : Table) : Prop := ∀ k, IsWord k → stored k t' = stored k t

variable {t t' : Table} {key k : List Char} {i : ℕ}

/-- What a fresh server stores is a word. -/
theorem isWord_of_stored_initTable (hk : IsWord k) {e : ℤ × List Char}
    (he : stored k initTable = some e) : IsWord e.2 := by
  obtain ⟨i, hi, rfl⟩ := Option.map_eq_some_iff.mp he
  exact (idle_initTable k i hk hi).value

/-- A copy is what the slot of its key holds. -/
theorem stored_of_searchKey (h : searchKey key t = some i) :
    stored key t = some ((entry t i).vno, (entry t i).value) := by
  rw [stored, h, Option.map_some]

theorem sameCopies_of (hsearch : ∀ k, IsWord k → searchKey k t' = searchKey k t)
    (hvno : ∀ i, (entry t' i).vno = (entry t i).vno)
    (hvalue : ∀ i, (entry t' i).value = (entry t i).value) : SameCopies t t' := by
  intro k hk
  rw [stored, stored, hsearch k hk]
  congr 1
  funext i
  rw [hvno, hvalue]

/-! ## Parts of the handlers -/

theorem sameCopies_releaselockResponse (key : List Char) (t : Table) :
    SameCopies t (releaselockResponse key t) :=
  sameCopies_of (fun k _ => searchKey_releaselockResponse k key t)
    (releaselockResponse_field KeyVal.vno (fun _ => rfl) key t)
    (releaselockResponse_field KeyVal.value (fun _ => rfl) key t)

theorem sameCopies_getResponseDecr (i : ℕ) (t : Table) : SameCopies t (getResponseDecr i t) :=
  sameCopies_of (fun k _ => searchKey_getResponseDecr k i t)
    (entry_modify_field KeyVal.vno (fun _ => by rfl) t i)
    (entry_modify_field KeyVal.value (fun _ => by rfl) t i)

theorem sameCopies_getResponseSend (lier : ℤ) (key : List Char) (t : Table) :
    SameCopies t (getResponseSend lier key t).1 :=
  sameCopies_of (fun k _ => searchKey_getResponseSend lier k key t)
    (getResponseSend_field KeyVal.vno (fun _ _ => rfl) lier key t)
    (getResponseSend_field KeyVal.value (fun _ _ => rfl) lier key t)

/-- A vote touches locks only, in a table that may be longer by a fresh slot. -/
theorem putResponseVote_field {α : Type*} (g : KeyVal → α) (hg : ∀ kv, g { kv with lock := 1 } = g kv)
    {lier : ℤ} {r : Option (ℕ × List Char)} (h : putResponseVote lier key t = some (t', r)) (j : ℕ) :
    g (entry t' j) = g (entry t j) := by
  unfold putResponseVote at h
  split at h
  · split at h
    · have ht : t' = _ := (congrArg Prod.fst (Option.some.inj h)).symm
      rw [ht, grantVote_field g hg, entry_append_init]
    · cases h
  · have ht : t' = _ := (congrArg Prod.fst (Option.some.inj h)).symm
    rw [ht, grantVote_field g hg]

theorem sameCopies_putResponseVote {lier : ℤ} {r : Option (ℕ × List Char)}
    (h : putResponseVote lier key t = some (t', r)) : SameCopies t t' :=
  sameCopies_of (putResponseVote_spec h).1.search
    (putResponseVote_field KeyVal.vno (fun _ => rfl) h)
    (putResponseVote_field KeyVal.value (fun _ => rfl) h)

theorem sameCopies_putResponseRelease {keyNew : List Char} {loc : Locals} {msg : Option (List Char)}
    (h : putResponseRelease key keyNew loc msg t = some t') : SameCopies t t' := by
  obtain ⟨-, rfl⟩ | ⟨-, rfl⟩ := putResponseRelease_cases h
  · exact sameCopies_releaselockResponse keyNew t
  · exact sameCopies_releaselockResponse key t

/-- The vote is what is stored. -/
theorem putResponseVote_reply {resMsg : List Char}
    (h : putResponseVote 0 key t = some (t', some (i, resMsg))) : resMsg = voteReply key t := by
  have hgrant : ∀ {u : Table} {j : ℕ} {m : List Char},
      grantVote j m u = (t', some (i, resMsg)) → resMsg = m := by
    intro u j m hg
    unfold grantVote at hg
    split at hg
    · exact (Prod.mk.inj (Option.some.inj (congrArg Prod.snd hg))).2.symm
    · simp at hg
  unfold putResponseVote at h
  unfold voteReply
  split at h
  · rename_i hnone
    split at h
    · rw [stored, hnone]
      simpa using hgrant (Option.some.inj h)
    · cases h
  · rename_i j hsome
    rw [stored_of_searchKey hsome]
    simpa [key_entry_of_searchKey hsome] using hgrant (Option.some.inj h)

/-! ## Events -/

section Events

variable {y y' : ServerState} {loc : Locals} {sess slot : ℕ} {m : List Char}

/-- A slot that is not locked is held by nobody. -/
theorem LockInv.not_holds (h : LockInv y) (hi : searchKey key y.table = some i)
    (hlock : (entry y.table i).lock = 0) (sess slot : ℕ) : ¬ Holds y sess key slot := by
  intro hholds
  rcases h.named hholds with hj | ⟨hj, -⟩
  · obtain rfl := Option.some.inj (hi.symm.trans hj)
    exact h.lock hholds hlock
  · rw [hi] at hj
    cases hj

/-- A `GET` changes no copy. It is answered with the copy, and only while no session holds the key. -/
theorem accept_get (h : LockInv y) (hkey : IsWord key)
    (hstep : serverStep 0 y (.accept (getMsg key) loc) = some y') :
    SameCopies y.table y'.table ∧
      (∃ z, y'.sessions = y.sessions ++ [z] ∧ z.holder = none) ∧
      ∀ m, serverSends 0 y (.accept (getMsg key) loc) = some m →
        (∀ sess slot, ¬ Holds y sess key slot) ∧
          ∃ e, stored key y.table = some e ∧ m = voteMsg e.1 key e.2 := by
  obtain ⟨⟨t, resp, z⟩, hresp, rfl⟩ := Option.map_eq_some_iff.mp hstep
  have hsends : serverSends 0 y (.accept (getMsg key) loc) = resp := by
    rw [serverSends, hresp]
    rfl
  rw [hsends]
  have hcase := responseServer_get hresp (readMsgType_getMsg _ _)
  rw [readKey_getMsg hkey] at hcase
  have hsame := sameCopies_getResponseSend 0 key y.table
  obtain ⟨j, resMsg, hget, rfl, rfl⟩ | ⟨hget, rfl, rfl⟩ := hcase
  · rw [hget] at hsame
    refine ⟨hsame, ⟨_, rfl, rfl⟩, fun m hm => ?_⟩
    obtain rfl := Option.some.inj hm
    unfold getResponseSend at hget
    split at hget
    · cases (congrArg Prod.snd hget)
    · rename_i i hi
      dsimp only at hget
      split at hget
      · rename_i hlock
        have hmsg := (Prod.mk.inj (Option.some.inj (congrArg Prod.snd hget))).2
        refine ⟨h.not_holds hi hlock, _, stored_of_searchKey hi, ?_⟩
        rw [← hmsg, if_pos rfl, key_entry_of_searchKey hi]
      · cases (congrArg Prod.snd hget)
  · rw [hget] at hsame
    exact ⟨hsame, ⟨_, rfl, rfl⟩, fun m hm => by cases hm⟩

/-- A `PUT` changes no copy. Its vote is the copy, and the new session holds the key, which no session
did before. -/
theorem accept_put (h : LockInv y) (hkey : IsWord key) {val : List Char}
    (hfree : AbsentKeyIsFree y (.accept (putMsg key val) loc))
    (hstep : serverStep 0 y (.accept (putMsg key val) loc) = some y') :
    SameCopies y.table y'.table ∧
      ∃ z, y'.sessions = y.sessions ++ [z] ∧
        match serverSends 0 y (.accept (putMsg key val) loc) with
        | some m => m = voteReply key y.table ∧ (∃ slot, z = .voted key slot) ∧
            ∀ sess slot, ¬ Holds y sess key slot
        | none => z = .closed := by
  obtain ⟨⟨t, resp, z⟩, hresp, rfl⟩ := Option.map_eq_some_iff.mp hstep
  have hsends : serverSends 0 y (.accept (putMsg key val) loc) = resp := by
    rw [serverSends, hresp]
    rfl
  rw [hsends]
  have hfree' := hfree (readMsgType_putMsg _ _ _)
  rw [readKey_putMsg hkey] at hfree'
  have hcase := responseServer_put hresp (readMsgType_putMsg _ _ _)
  rw [readKey_putMsg hkey] at hcase
  obtain ⟨j, resMsg, hvote, rfl, rfl⟩ | ⟨hvote, rfl, rfl⟩ := hcase
  · refine ⟨sameCopies_putResponseVote hvote, _, rfl, putResponseVote_reply hvote, ⟨j, rfl⟩, ?_⟩
    obtain ⟨-, hlock, -, -, hi | ⟨hnone, -⟩⟩ := putResponseVote_spec hvote
    · exact h.not_holds hi hlock
    · exact hfree' hnone
  · exact ⟨sameCopies_putResponseVote hvote, _, rfl, rfl⟩

/-- The update of a session that holds the key is stored, and changes no other copy. -/
theorem recv_update (h : LockInv y) (hy : y.sessions[sess]? = some (.voted key slot)) {val : Word}
    {vno : ℤ} (hvno : IsInt vno)
    (hstep : serverStep 0 y (.recv sess (some (updateMsg key val.chars vno)) loc) = some y') :
    stored key y'.table = some (vno, val.chars) ∧
      (∀ k, IsWord k → k ≠ key → stored k y'.table = stored k y.table) ∧
      y'.sessions = y.sessions.set sess (.updated key key slot) := by
  have hholds : Holds y sess key slot := ⟨_, hy, rfl⟩
  have hword := h.word hholds
  have hlt := h.slot_lt hholds
  obtain ⟨k, i, t, sent, keyNew, hx, hr, rfl⟩ | ⟨k, keyNew, i, t, hx, -⟩ := serverStep_recv_cases hstep
  swap
  · cases hy.symm.trans hx
  obtain ⟨rfl, rfl⟩ := Session.voted.inj (Option.some.inj (hy.symm.trans hx))
  obtain ⟨hu, rfl⟩ := putResponseUpdate_eq_some hword val hr
  rw [storedInt_of_isInt hvno] at hu
  -- the slot has its name, and the update finds it locked
  set u := y.table.modify slot fun kv => { kv with key := key }
  have hnamed : searchKey key u = some slot := by
    rcases h.named hholds with hsome | ⟨hnone, -⟩
    · rw [searchKey_rename_same (key_entry_of_searchKey hsome), hsome]
    · exact searchKey_rename_self hlt hnone
  have hlock : (entry u slot).lock ≠ 0 := by
    rw [entry_modify_self hlt]
    exact h.lock hholds
  have hlen : slot < u.length := searchKey_lt hnamed
  have hstored : t = u.modify slot fun kv => { kv with value := val.chars, vno := vno } := by
    rw [updateResponse_stored hnamed hlock val.fits_value] at hu
    exact (congrArg Prod.fst (Option.some.inj hu)).symm
  refine ⟨?_, fun k hk hne => ?_, rfl⟩
  · dsimp only
    rw [stored_of_searchKey ((searchKey_updateResponse hu key).trans hnamed), hstored,
      entry_modify_self hlen]
  · have hold : k ≠ (entry y.table slot).key := by
      rcases h.named hholds with hsome | ⟨-, hnil⟩
      · rwa [key_entry_of_searchKey hsome]
      · rw [hnil]
        exact hk.1
    have hsearch : searchKey k u = searchKey k y.table := searchKey_rename_ne hne hold
    dsimp only
    rw [stored, stored, searchKey_updateResponse hu, hsearch]
    cases hj : searchKey k y.table with
    | none => rfl
    | some j =>
      have hji : slot ≠ j := by
        rintro rfl
        exact hold (key_entry_of_searchKey hj).symm
      rw [Option.map_some, Option.map_some, hstored, entry_modify_ne hji, entry_modify_ne hji]

/-- After its update a session changes no copy any more. -/
theorem recv_release (hy : y.sessions[sess]? = some (.updated key k slot))
    (msg : Option (List Char)) (loc : Locals)
    (hstep : serverStep 0 y (.recv sess msg loc) = some y') :
    SameCopies y.table y'.table ∧ y'.sessions = y.sessions.set sess .closed := by
  simp only [serverStep, hy] at hstep
  obtain ⟨t, ht, rfl⟩ := Option.map_eq_some_iff.mp hstep
  exact ⟨sameCopies_putResponseRelease ht, rfl⟩

/-- A session that gets no update ends. -/
theorem recv_drop (hy : y.sessions[sess]? = some (.voted key slot)) (loc : Locals)
    (hstep : serverStep 0 y (.recv sess none loc) = some y') :
    SameCopies y.table y'.table ∧ y'.sessions = y.sessions.set sess .closed := by
  simp only [serverStep, hy] at hstep
  obtain rfl := Option.some.inj hstep
  exact ⟨sameCopies_releaselockResponse key y.table, rfl⟩

end Events

end QuorumLogFs.Vote
