import QuorumLogFs.Basis.Int32
import QuorumLogFs.Vote.Select

/-!
# A run of the client

Reference: `Client.c`, `connectTo`, `connectThread` and `main`.

The threads of one round are joined before the client looks at what they stored, and each writes its
own slot of `keyVals_c`, so a round is a function of the replies: `none` for a server that could not
be reached or did not answer in time.
-/

namespace QuorumLogFs.Vote

open QuorumLogFs.Basis

/-- The sizes `main` accepts: a read quorum meets every write quorum, and two write quorums meet. -/
structure Quorums where
  N : ℕ
  Nr : ℤ
  Nw : ℤ
  overlap : (N : ℤ) < Nr + Nw
  majority : (N : ℤ) < 2 * Nw

/-- What the system hands the client: the memory behind `keyVals_c` and the socket descriptors. -/
structure Env where
  old : ℕ → KeyVal := fun _ => initKeyValStruct
  fd : ℕ → ℕ := fun i => i

/-- `connectTo`, the slot of `keyVals_c` it leaves. -/
def connectTo (fd : ℕ) (old : KeyVal) : Option (List Char) → KeyVal
  | none => { old with sock := -1 }
  | some recv_data =>
    let args := readVote recv_data
    { old with
      vno := argInt args 0 old.vno
      key := argStr args 1 old.key
      value := argStr args 2 old.value
      sock := fd }

/-- `keyVals_c` after the first round. -/
def keyVals_c (env : Env) (replies : ℕ → Option (List Char)) (i : ℕ) : KeyVal :=
  connectTo (env.fd i) (env.old i) (replies i)

/-- `responsesG`: the threads that received something. -/
def responsesG (N : ℕ) (replies : ℕ → Option (List Char)) : ℕ :=
  (List.range N).countP fun i => (replies i).isSome

/-- What a `GET` ends with. -/
inductive GetOutcome where
  /-- Fewer responses than the read quorum. -/
  | noQuorum
  /-- `selectServer` left its table. -/
  | outOfTable
  /-- The chosen server, the key and value printed, and the servers reported. -/
  | reading (HVNO : ℕ) (key val : List Char) (lied : List ℕ)
deriving DecidableEq, Repr

/-- What the first round of a `PUT` ends with. -/
inductive PutOutcome where
  /-- Fewer responses than the write quorum. -/
  | noQuorum
  /-- `selectServer` left its table. -/
  | outOfTable
  /-- The update goes to all servers that responded, with this version. -/
  | update (new_vno : ℤ)
deriving DecidableEq, Repr

/-- `connectThread` for a `GET`. -/
def connectThreadGet (N : ℕ) (Nr Nw : ℤ) (env : Env) (replies : ℕ → Option (List Char)) :
    GetOutcome :=
  if (responsesG N replies : ℤ) < Nr then .noQuorum
  else
    match selectServer hashTable .get Nr Nw N (keyVals_c env replies) with
    | .lesserQuorum => .noQuorum
    | .outOfTable => .outOfTable
    | .chosen HVNO lied =>
      .reading HVNO (keyVals_c env replies HVNO).key (keyVals_c env replies HVNO).value lied

/-- `connectThread` for a `PUT`, up to the update message. -/
def connectThreadPut (N : ℕ) (Nr Nw : ℤ) (env : Env) (replies : ℕ → Option (List Char)) :
    PutOutcome :=
  if (responsesG N replies : ℤ) < Nw then .noQuorum
  else
    match selectServer hashTable .put Nr Nw N (keyVals_c env replies) with
    | .lesserQuorum => .noQuorum
    | .outOfTable => .outOfTable
    | .chosen HVNO _ => .update (wrap32 ((keyVals_c env replies HVNO).vno + 1))

/-- What `connectTo` sends when it receives something during a `PUT`: the release of the key once
the update is done. -/
def connectToRelease (keyG recv_data : List Char) : Option (List Char) :=
  if argStr (scan [.str true, .white, .str false] recv_data) 0 [] = "updatedone".toList then
    some (releaselockMsg keyG)
  else none

/-! ## Reading the replies -/

/-- The vote of an entry fills the slot with this entry. -/
theorem connectTo_voteMsg (fd : ℕ) (old : KeyVal) {key val : List Char} (hkey : IsWord key)
    (hval : IsWord val) {vno : ℤ} (hvno : IsInt vno) :
    connectTo fd old (some (voteMsg vno key val)) =
      { old with vno := vno, key := key, value := val, sock := fd } := by
  have hargs : argInt [Arg.int vno, .str key, .str val] 0 old.vno = vno := argInt_of_isInt rfl hvno _
  simp only [connectTo, readVote_voteMsg hkey hval, hargs]
  rfl

/-- The vote for a missing key sets the version only. -/
theorem connectTo_zero (fd : ℕ) (old : KeyVal) :
    connectTo fd old (some (decimal 0)) = { old with vno := 0, sock := fd } := by
  simp only [connectTo, readVote_zero]
  rfl

theorem connectToRelease_updatedoneMsg (keyG key : List Char) :
    connectToRelease keyG (updatedoneMsg key) = some (releaselockMsg keyG) := by
  have hword : IsWord "updatedone".toList := by decide
  rw [connectToRelease, show updatedoneMsg key = "updatedone".toList ++ ' ' :: key from rfl,
    scan_str_word hword (endsWord_space _)]
  rfl

/-- A server answered exactly when its reply arrived. -/
theorem answered_keyVals_c (env : Env) (replies : ℕ → Option (List Char)) (is : List ℕ) :
    answered (keyVals_c env replies) is = is.filter fun i => (replies i).isSome := by
  refine List.filter_congr fun i _ => ?_
  cases h : replies i with
  | none => simp [keyVals_c, h, connectTo]
  | some recv_data =>
    have hfd : ((env.fd i : ℕ) : ℤ) ≠ -1 := by omega
    simp [keyVals_c, h, connectTo, hfd]

theorem length_answered (env : Env) (N : ℕ) (replies : ℕ → Option (List Char)) :
    (answered (keyVals_c env replies) (List.range N)).length = responsesG N replies := by
  rw [answered_keyVals_c, responsesG, List.countP_eq_length_filter]

/-! ## What the rounds end with -/

/-- A `GET` that reaches its quorum prints the plurality value of the highest version, from a server
that answered with both. -/
theorem connectThreadGet_reading {N : ℕ} (Nr Nw : ℤ) (env : Env)
    {replies : ℕ → Option (List Char)} {V : ℤ} {v : List Char} (hN : N ≤ MAX_CON)
    (hquorum : Nr ≤ responsesG N replies) (hV : 0 ≤ V)
    (hmem : ∃ i ∈ answered (keyVals_c env replies) (List.range N), (keyVals_c env replies i).vno = V)
    (hupper : ∀ i ∈ answered (keyVals_c env replies) (List.range N),
      (keyVals_c env replies i).vno ≤ V)
    (hplur : IsPlurality
      ((getItems (keyVals_c env replies) V (List.range N)).map Prod.fst) v) :
    ∃ i, connectThreadGet N Nr Nw env replies = .reading i (keyVals_c env replies i).key v
        (minority (group (getItems (keyVals_c env replies) V (List.range N)))) ∧
      i ∈ answered (keyVals_c env replies) (List.range N) ∧
      (keyVals_c env replies i).vno = V ∧ (keyVals_c env replies i).value = v := by
  obtain ⟨i, is, his⟩ := List.exists_cons_of_ne_nil (members_ne_nil_of_mem hplur.1)
  obtain ⟨hi, hiV, hiv⟩ := mem_getItems.mp (mem_members.mp (his ▸ List.mem_cons_self))
  have hselect := selectServer_get hashTable Nr Nw hN (by rwa [length_answered]) hV hmem hupper
    (plurality_group hplur)
  rw [his] at hselect
  refine ⟨i, ?_, hi, hiV, hiv⟩
  rw [connectThreadGet, if_neg (not_lt.mpr hquorum), hselect]
  simp only [List.headD_cons, hiv]

/-- The new version is an `int`. -/
theorem connectThreadPut_isInt {N : ℕ} {Nr Nw : ℤ} {env : Env} {replies : ℕ → Option (List Char)}
    {new_vno : ℤ} (h : connectThreadPut N Nr Nw env replies = .update new_vno) : IsInt new_vno := by
  unfold connectThreadPut at h
  split at h
  · cases h
  · split at h
    · cases h
    · cases h
    · rw [← PutOutcome.update.inj h]
      exact isInt_wrap32 _

/-- A `PUT` that reaches its quorum writes the version after the plurality version. -/
theorem connectThreadPut_update {N : ℕ} (Nr Nw : ℤ) (env : Env)
    {replies : ℕ → Option (List Char)} {m : ℤ} (hN : N ≤ MAX_CON)
    (hquorum : Nw ≤ responsesG N replies)
    (hindex : (group (putItems (keyVals_c env replies) (List.range N))).length < MAX_CON)
    (hplur : IsPlurality ((putItems (keyVals_c env replies) (List.range N)).map Prod.fst) m) :
    connectThreadPut N Nr Nw env replies = .update (wrap32 (m + 1)) := by
  obtain ⟨i, is, his⟩ := List.exists_cons_of_ne_nil (members_ne_nil_of_mem hplur.1)
  have hi : (m, i) ∈ putItems (keyVals_c env replies) (List.range N) :=
    mem_members.mp (his ▸ List.mem_cons_self)
  obtain ⟨j, -, hj⟩ := List.mem_map.mp hi
  obtain ⟨hjm, rfl⟩ := Prod.mk.inj hj
  have hselect := selectServer_put hashTable (fun _ => rfl) Nr Nw hN (by rwa [length_answered]) hindex
    (plurality_group hplur)
  rw [his] at hselect
  rw [connectThreadPut, if_neg (not_lt.mpr hquorum), hselect]
  simp only [List.headD_cons, hjm]

end QuorumLogFs.Vote
