import QuorumLogFs.Vote.Cluster

/-!
# The second round of a `PUT`

After the votes the client sends the update to every server that answered, joins the threads, and
ends. It counts nothing in this round: a `PUT` that ends without an error is stored by as many
servers as took the update, not by a quorum of them.
-/

namespace QuorumLogFs.Vote

open QuorumLogFs.Basis

/-- A server between its vote and the end of the update: the slot of its session, its table when the
session goes on (other sessions may have changed it since the vote), and whether the update comes
while the thread is still waiting. -/
structure Voter where
  slot : ℕ
  table : Table
  hears : Bool
  loc : Locals := {}

/-- The table after the session's first `recvTimeout`, `none` when a string does not fit. -/
def Voter.finish (v : Voter) (key msg : List Char) : Option Table :=
  (putResponseUpdate key v.slot v.loc (if v.hears then some msg else none) v.table).map Prod.fst

/-- `connectThread` for a `PUT` to its end: the version written and the tables of the servers, `none`
when it exits in the first round. The update is sent where `sock` is not `-1`. -/
def connectThreadPutEnd (N : ℕ) (Nr Nw : ℤ) (env : Env) (replies : ℕ → Option (List Char))
    (servers : ℕ → Voter) (keyG valG : List Char) : Option (ℤ × (ℕ → Option Table)) :=
  match connectThreadPut N Nr Nw env replies with
  | .update new_vnoG =>
    some (new_vnoG, fun i =>
      if (keyVals_c env replies i).sock ≠ -1 then
        (servers i).finish keyG (updateMsg keyG valG new_vnoG)
      else some (servers i).table)
  | _ => none

/-- The table in which the update looks for its key: the slot of the session has got the name. -/
def Voter.named (v : Voter) (key : List Char) : Table :=
  v.table.modify v.slot fun kv => { kv with key := key }

/-- The update is heard and finds its key locked. -/
def Voter.TakesUpdate (v : Voter) (key : List Char) : Prop :=
  v.hears ∧ ∃ i, searchKey key (v.named key) = some i ∧ (entry (v.named key) i).lock ≠ 0

/-- The server holds this version and value already when the update is due. -/
def Voter.HoldsAlready (v : Voter) (key val : List Char) (vno : ℤ) : Prop :=
  stored key (if v.hears then v.named key else v.table) = some (vno, val)

instance (v : Voter) (key : List Char) : Decidable (v.TakesUpdate key) :=
  decidable_of_iff (v.hears ∧ (searchKey key (v.named key)).any fun i =>
    (entry (v.named key) i).lock ≠ 0) (by simp [Voter.TakesUpdate, Option.any_eq_true])

instance (v : Voter) (key val : List Char) (vno : ℤ) : Decidable (v.HoldsAlready key val vno) :=
  inferInstanceAs (Decidable (_ = _))

theorem stored_releaselockResponse (key key' : List Char) (t : Table) :
    stored key (releaselockResponse key' t) = stored key t := by
  simp only [stored, searchKey_releaselockResponse,
    releaselockResponse_field KeyVal.vno (fun _ => rfl),
    releaselockResponse_field KeyVal.value (fun _ => rfl)]

/-- `updateResponse` stores the update if it finds the key locked; else the table has to hold it already. -/
theorem stored_updateResponse_iff {key val : List Char} (hval : val.length < VALSIZE) (vno : ℤ)
    (t : Table) :
    ((updateResponse key val vno t).bind fun r => stored key r.1) = some (vno, val) ↔
      (∃ i, searchKey key t = some i ∧ (entry t i).lock ≠ 0) ∨ stored key t = some (vno, val) := by
  obtain ⟨⟨t', sent⟩, hr⟩ := updateResponse_isSome hval key vno t
  have hsearch := searchKey_updateResponse hr key
  rw [hr, Option.bind_some]
  obtain ⟨i, hi, hlock, -, rfl, -⟩ | ⟨hfree, rfl, -⟩ := updateResponse_cases hr
  · refine iff_of_true ?_ (Or.inl ⟨i, hi, hlock⟩)
    rw [stored, hsearch, hi, Option.map_some, entry_modify_self (searchKey_lt hi)]
  · refine ⟨Or.inr, fun h => h.resolve_left ?_⟩
    rintro ⟨i, hi, hlock⟩
    exact hlock (hfree i hi)

/-- What a server that has voted holds at the end of the update. -/
theorem stored_finish_iff (v : Voter) (key val : Word) {vno : ℤ} (hvno : IsInt vno) :
    (v.finish key.chars (updateMsg key.chars val.chars vno)).bind (stored key.chars) =
        some (vno, val.chars) ↔
      v.TakesUpdate key.chars ∨ v.HoldsAlready key.chars val.chars vno := by
  rw [Voter.finish, Voter.TakesUpdate, Voter.HoldsAlready]
  by_cases hhears : v.hears = true
  · have hupdate := @stored_updateResponse_iff key.chars val.chars val.fits_value vno (v.named key.chars)
    simp only [hhears, if_true, true_and, putResponseUpdate_updateMsg key.chars v.slot v.loc key val,
      storedInt_of_isInt hvno, Option.map_map, Option.bind_map]
    exact hupdate
  · simp only [hhears]
    simp [putResponseUpdate, stored_releaselockResponse]

/-- Server `i` stores the update of this run, or holds it already. -/
def Commits (replies : ℕ → Option (List Char)) (servers : ℕ → Voter) (key val : List Char) (vno : ℤ)
    (i : ℕ) : Prop :=
  if (replies i).isSome then
    (servers i).TakesUpdate key ∨ (servers i).HoldsAlready key val vno
  else stored key (servers i).table = some (vno, val)

instance (replies : ℕ → Option (List Char)) (servers : ℕ → Voter) (key val : List Char) (vno : ℤ)
    (i : ℕ) : Decidable (Commits replies servers key val vno i) :=
  inferInstanceAs (Decidable (ite _ _ _))

/-- When a `PUT` ends without an error, `Nw` servers hold its key, value and version if and only if
so many of them heard the update in time and found the key locked, or held it already. -/
theorem put_on_quorum_iff (N : ℕ) (Nr Nw : ℤ) (env : Env) (replies : ℕ → Option (List Char))
    (servers : ℕ → Voter) (key val : Word) {new_vnoG : ℤ} {tables : ℕ → Option Table}
    (hend : connectThreadPutEnd N Nr Nw env replies servers key.chars val.chars =
      some (new_vnoG, tables)) :
    Nw ≤ ((Finset.range N).filter fun i =>
        (tables i).bind (stored key.chars) = some (new_vnoG, val.chars)).card ↔
      Nw ≤ ((Finset.range N).filter fun i =>
        Commits replies servers key.chars val.chars new_vnoG i).card := by
  rw [connectThreadPutEnd] at hend
  split at hend
  swap
  · exact absurd hend (by simp)
  simp only [Option.some.injEq, Prod.mk.injEq] at hend
  obtain ⟨rfl, rfl⟩ := hend
  rename_i vno hput
  have hiff : ∀ i ∈ Finset.range N,
      (if (keyVals_c env replies i).sock ≠ -1 then
        (servers i).finish key.chars (updateMsg key.chars val.chars vno)
      else some (servers i).table).bind (stored key.chars) = some (vno, val.chars) ↔
        Commits replies servers key.chars val.chars vno i := by
    intro i _
    have hsock : (keyVals_c env replies i).sock ≠ -1 ↔ (replies i).isSome := by
      have h := congrArg (i ∈ ·) (answered_keyVals_c env replies [i])
      simpa [answered] using h
    rw [Commits]
    by_cases hreply : (replies i).isSome
    · rw [if_pos (hsock.mpr hreply), if_pos hreply]
      exact stored_finish_iff (servers i) key val (connectThreadPut_isInt hput)
    · rw [if_neg (fun h => hreply (hsock.mp h)), if_neg hreply, Option.bind_some]
  rw [Finset.filter_congr hiff]

/-- A server that has voted for the missing key `k` and then stops listening. -/
def failingVoter : Voter where
  slot := 1
  table := initTable ++ [{ initKeyValStruct with lock := 1 }]
  hears := false

/-- A server that has voted with the version 3 of the key `k`. -/
def hearingVoter : Voter where
  slot := 1
  table := initTable ++
    [{ initKeyValStruct with key := "k".toList, value := "u".toList, vno := 3, lock := 1 }]
  hears := true

/-- The first server does not answer, and the last one fails between its vote and the update. -/
theorem put_on_quorum_lastFails :
    ∃ tables, connectThreadPutEnd 4 2 2 {}
        (fun i => [none, some (voteMsg 3 "k".toList "u".toList), some (voteMsg 3 "k".toList "u".toList),
          some (decimal 0)].getD i none)
        (fun i => if i = 3 then failingVoter else hearingVoter) "k".toList "v".toList =
          some (4, tables) ∧
      (2 : ℤ) ≤ ((Finset.range 4).filter fun i =>
        (tables i).bind (stored "k".toList) = some (4, "v".toList)).card := by
  have hend : connectThreadPut 4 2 2 {} (fun i => [none, some (voteMsg 3 "k".toList "u".toList),
      some (voteMsg 3 "k".toList "u".toList), some (decimal 0)].getD i none) = .update 4 := by
    decide
  refine ⟨_, by rw [connectThreadPutEnd, hend], ?_⟩
  exact (put_on_quorum_iff 4 2 2 {} _ _ (.ofString "k") (.ofString "v") (by
    rw [connectThreadPutEnd, hend]; rfl)).mpr (by decide)

/-- The server votes and then stops listening: the client still ends without an error. -/
theorem not_put_on_quorum_unheard :
    ∃ tables, connectThreadPutEnd 1 1 1 {} (fun _ => some (decimal 0)) (fun _ => failingVoter)
        "k".toList "v".toList = some (1, tables) ∧
      ¬ (1 : ℤ) ≤ ((Finset.range 1).filter fun i =>
        (tables i).bind (stored "k".toList) = some (1, "v".toList)).card :=
  ⟨_, rfl, by decide⟩

end QuorumLogFs.Vote
