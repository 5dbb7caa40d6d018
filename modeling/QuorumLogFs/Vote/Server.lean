import QuorumLogFs.Vote.Wire
import Mathlib.Data.List.Nodup

/-!
# The server's key table and its handlers

Reference: `Server.c`, `Vote.h`.

The table is the list of the slots below `numKeys`; a pointer into it is an index. `getResponse`
blocks once (in `send`) and `putResponse` twice (in `recvTimeout`), so each of them is cut at these
points: a part is what the thread does between two blocking calls. A part returns what it sends and
where the thread waits next.

`putResponseVote` takes a slot behind `numKeys` for a key it does not find. `keyVals` has `MAXKEYS`
slots and the code does not look. It does not look at the length of a key or value either, which it
copies into an entry, nor at that of a word of a message. The model returns `none` where a string does
not fit, since what the program does after writing behind its array is not defined.
-/

namespace QuorumLogFs.Vote

open QuorumLogFs.Basis

/-- `MAXKEYS` -/
def MAXKEYS : ℕ := 1000

/-- `LIER_VNO_INCR` -/
def LIER_VNO_INCR : ℤ := 10

/-- `keyval_t`, one slot of the table. The client keeps the replies it received in the same type. -/
structure KeyVal where
  key : List Char
  value : List Char
  sock : ℤ
  vno : ℤ
  lock : ℤ
  numGetters : ℤ
  condWaitLock : ℤ
deriving DecidableEq, Repr

/-- `initKeyValStruct` -/
def initKeyValStruct : KeyVal where
  key := []
  value := []
  sock := -1
  vno := 0
  lock := 0
  numGetters := 0
  condWaitLock := 1

/-- `keyVals[0 .. numKeys)` -/
abbrev Table := List KeyVal

/-- The table `main` starts with. -/
def initTable : Table :=
  [{ key := "key1".toList, value := "value1".toList, sock := 0, vno := 1, lock := 0,
     numGetters := 0, condWaitLock := 1 }]

/-- `*keyval` for the slot `i`. -/
def entry (t : Table) (i : ℕ) : KeyVal := t.getD i initKeyValStruct

/-- `searchKey`: the first slot with this key, `none` for `NULL`. -/
def searchKey (key : List Char) (t : Table) : Option ℕ :=
  t.findIdx? fun kv => key = kv.key

/-- `updateKey`: its result and the table it leaves. `strcpy(keyToUpdate->value,val)` needs a value that
fits. -/
def updateKey (key val : List Char) (vno : ℤ) (t : Table) : Option (ℤ × Table) :=
  match searchKey key t with
  | none => some (-1, t)
  | some i =>
    if (entry t i).lock = 0 then some (-2, t)
    else if val.length < VALSIZE then
      some (0, t.modify i fun kv => { kv with value := val, vno := vno })
    else none

/-- `releaselockResponse` -/
def releaselockResponse (key : List Char) (t : Table) : Table :=
  match searchKey key t with
  | none => t
  | some i => t.modify i fun kv => { kv with lock := 0 }

/-- `updateResponse`: the table and the message sent, if any. -/
def updateResponse (key val : List Char) (vno : ℤ) (t : Table) : Option (Table × Option (List Char)) :=
  (updateKey key val vno t).map fun r => (r.2, if r.1 = 0 then some (updatedoneMsg key) else none)

/-! ## `getResponse` -/

/-- `atomicDecr(&(keyval->numGetters))`, the last step of `getResponse`. -/
def getResponseDecr (i : ℕ) (t : Table) : Table :=
  t.modify i fun kv => { kv with numGetters := kv.numGetters - 1 }

/-- `getResponse` up to its `send`: the slot it has registered on and the message it sends. When
the entry is locked nothing is sent, but the counter is still decremented. -/
def getResponseSend (lier : ℤ) (key : List Char) (t : Table) :
    Table × Option (ℕ × List Char) :=
  match searchKey key t with
  | none => (t, none)
  | some i =>
    let kv := entry t i
    if kv.lock = 0 then
      (t.modify i fun kv => { kv with numGetters := kv.numGetters + 1 },
        some (i, voteMsg kv.vno kv.key (if lier = 0 then kv.value else kv.value ++ "lie".toList)))
    else (getResponseDecr i t, none)

/-! ## `putResponse` -/

/-- The local variables of a handler before anything is assigned to them: what the stack holds. -/
structure Locals where
  msgType : List Char := []
  key : List Char := []
  value : List Char := []
  vno : ℤ := 0

/-- The vote of `putResponse` for the slot `i`: granted, with its lock taken, when the entry is
neither locked nor being read. -/
def grantVote (i : ℕ) (resMsg : List Char) (t : Table) : Table × Option (ℕ × List Char) :=
  if (entry t i).lock = 0 ∧ (entry t i).numGetters = 0 then
    (t.modify i fun kv => { kv with lock := 1 }, some (i, resMsg))
  else (t, none)

/-- `putResponse` up to its first `recvTimeout`: the slot it has locked and the vote it sends. -/
def putResponseVote (lier : ℤ) (key : List Char) (t : Table) :
    Option (Table × Option (ℕ × List Char)) :=
  match searchKey key t with
  | none =>
    if t.length < MAXKEYS then
      some (grantVote t.length
        (if lier = 0 then decimal 0
          else voteMsg (initKeyValStruct.vno + LIER_VNO_INCR) initKeyValStruct.key
            (initKeyValStruct.value ++ "lie".toList))
        (t ++ [initKeyValStruct]))
    else none
  | some i =>
    let kv := entry t i
    some (grantVote i
      (if lier = 0 then voteMsg kv.vno kv.key kv.value
        else voteMsg (kv.vno + LIER_VNO_INCR) kv.key kv.value) t)

/-- `putResponse` from its first `recvTimeout` to its second: the table, the message sent, and the
key it was told to write when it goes on waiting. `msg` is what was received, `none` after a timeout
or a close. The arrays `keyNew` and `valNew` are longer than those of the entry. -/
def putResponseUpdate (key : List Char) (i : ℕ) (loc : Locals) (msg : Option (List Char))
    (t : Table) : Option (Table × Option (List Char) × Option (List Char)) :=
  match msg with
  | none => some (releaselockResponse key t, none, none)
  | some msg =>
    if MAX_MSGTYPE_SIZE ≤ (readMsgType msg loc.msgType).length then none
    else if readMsgType msg loc.msgType = "update".toList then
      let args := readUpdate msg
      let keyNew := argStr args 0 loc.key
      let valNew := argStr args 1 loc.value
      if keyNew.length < KEYSIZE ∧ valNew.length < MAX_VAL_SIZE then
        (updateResponse keyNew valNew (argInt args 2 loc.vno)
          (t.modify i fun kv => { kv with key := keyNew })).map fun r => (r.1, r.2, some keyNew)
      else none
    else some (releaselockResponse key t, none, none)

/-- `putResponse` after its second `recvTimeout`. -/
def putResponseRelease (key keyNew : List Char) (loc : Locals) (msg : Option (List Char))
    (t : Table) : Option Table :=
  match msg with
  | none => some (releaselockResponse key t)
  | some msg =>
    if MAX_MSGTYPE_SIZE ≤ (readMsgType msg loc.msgType).length then none
    else if readMsgType msg loc.msgType = "releaselock".toList then
      some (releaselockResponse keyNew t)
    else some (releaselockResponse key t)

/-! ## Lookups -/

theorem searchKey_eq_some {key : List Char} {t : Table} {i : ℕ} :
    searchKey key t = some i ↔
      ∃ kv, t[i]? = some kv ∧ kv.key = key ∧ ∀ j < i, ∀ kv', t[j]? = some kv' → kv'.key ≠ key := by
  rw [searchKey, List.findIdx?_eq_some_iff_getElem]
  constructor
  · rintro ⟨hi, hkey, hfirst⟩
    refine ⟨t[i], List.getElem?_eq_getElem hi, by simpa using (of_decide_eq_true hkey).symm, ?_⟩
    intro j hj kv' hkv' hk
    obtain ⟨hjlen, rfl⟩ := List.getElem?_eq_some_iff.mp hkv'
    exact hfirst j hj (by simp [hk])
  · rintro ⟨kv, hkv, rfl, hfirst⟩
    obtain ⟨hi, rfl⟩ := List.getElem?_eq_some_iff.mp hkv
    refine ⟨hi, by simp, fun j hj hk => ?_⟩
    exact hfirst j hj t[j] (List.getElem?_eq_getElem (hj.trans hi)) (of_decide_eq_true hk).symm

theorem searchKey_eq_none {key : List Char} {t : Table} :
    searchKey key t = none ↔ ∀ kv ∈ t, kv.key ≠ key := by
  rw [searchKey, List.findIdx?_eq_none_iff]
  constructor
  · intro h kv hkv hk
    simpa [hk] using h kv hkv
  · exact fun h kv hkv => decide_eq_false fun hk => h kv hkv hk.symm

theorem searchKey_lt {key : List Char} {t : Table} {i : ℕ} (h : searchKey key t = some i) :
    i < t.length := by
  obtain ⟨kv, hkv, -⟩ := searchKey_eq_some.mp h
  exact (List.getElem?_eq_some_iff.mp hkv).1

theorem entry_of_getElem? {t : Table} {i : ℕ} {kv : KeyVal} (h : t[i]? = some kv) :
    entry t i = kv := by
  simp [entry, List.getD, h]

theorem getElem?_entry {t : Table} {i : ℕ} (h : i < t.length) : t[i]? = some (entry t i) := by
  simp [entry, List.getD, List.getElem?_eq_getElem h]

theorem key_entry_of_searchKey {key : List Char} {t : Table} {i : ℕ}
    (h : searchKey key t = some i) : (entry t i).key = key := by
  obtain ⟨kv, hkv, hkey, -⟩ := searchKey_eq_some.mp h
  rw [entry_of_getElem? hkv, hkey]

/-- A change that keeps the keys keeps every lookup. -/
theorem searchKey_modify {f : KeyVal → KeyVal} (hf : ∀ kv, (f kv).key = kv.key) (key : List Char)
    (i : ℕ) (t : Table) : searchKey key (t.modify i f) = searchKey key t := by
  induction t generalizing i with
  | nil => simp
  | cons kv t ih =>
    cases i with
    | zero => simp [searchKey, List.findIdx?_cons, hf]
    | succ i =>
      simp only [searchKey, List.modify_succ_cons, List.findIdx?_cons]
      rw [show List.findIdx? (fun kv => decide (key = kv.key)) (t.modify i f) = _ from ih i]
      rfl

/-- Naming a slot is seen by the lookups of its old and of its new name only. -/
theorem searchKey_rename_ne {key k : List Char} {t : Table} {i : ℕ} (hk : k ≠ key)
    (hold : k ≠ (entry t i).key) :
    searchKey k (t.modify i fun kv => { kv with key := key }) = searchKey k t := by
  induction t generalizing i with
  | nil => simp
  | cons kv t ih =>
    cases i with
    | zero =>
      have hold' : k ≠ kv.key := by simpa [entry] using hold
      simp [searchKey, List.findIdx?_cons, hk, hold']
    | succ i =>
      have hrec := ih (i := i) (by simpa [entry] using hold)
      simp only [searchKey] at hrec
      simp only [searchKey, List.modify_succ_cons, List.findIdx?_cons, hrec]

/-- A slot that gets a name no slot had is the one found under it. -/
theorem searchKey_rename_self {key : List Char} {t : Table} {i : ℕ} (hi : i < t.length)
    (hnone : searchKey key t = none) :
    searchKey key (t.modify i fun kv => { kv with key := key }) = some i := by
  rw [searchKey_eq_some]
  refine ⟨{ entry t i with key := key }, by simp [getElem?_entry hi], rfl, ?_⟩
  intro j hj kv' hkv'
  have hij : i ≠ j := by omega
  simp only [List.getElem?_modify, hij, if_false, Option.map_eq_map, Option.map_id'] at hkv'
  exact searchKey_eq_none.mp hnone kv' (List.mem_of_getElem? hkv')

/-- Naming a slot as it is called already changes no lookup. -/
theorem searchKey_rename_same {key : List Char} {t : Table} {i : ℕ} (h : (entry t i).key = key)
    (k : List Char) :
    searchKey k (t.modify i fun kv => { kv with key := key }) = searchKey k t := by
  induction t generalizing i with
  | nil => simp
  | cons kv t ih =>
    cases i with
    | zero =>
      have h' : kv.key = key := by simpa [entry] using h
      simp [searchKey, List.findIdx?_cons, h']
    | succ i =>
      have hrec := ih (i := i) (by simpa [entry] using h)
      simp only [searchKey] at hrec
      simp only [searchKey, List.modify_succ_cons, List.findIdx?_cons, hrec]

/-- A fresh slot has no name, so no key of a message finds it. -/
theorem searchKey_append_init {key : List Char} (hkey : key ≠ []) (t : Table) :
    searchKey key (t ++ [initKeyValStruct]) = searchKey key t := by
  simp [searchKey, List.findIdx?_append, initKeyValStruct, hkey]

/-- What a change of slot `i` does to slot `j`. -/
theorem entry_modify (t : Table) (i j : ℕ) (f : KeyVal → KeyVal) :
    entry (t.modify i f) j = if i = j ∧ j < t.length then f (entry t j) else entry t j := by
  by_cases hij : i = j
  · subst hij
    by_cases hlen : i < t.length
    · simp [entry, List.getD, hlen]
    · simp [entry, List.getD, hlen]
  · simp [entry, List.getD, hij]

theorem entry_modify_self {t : Table} {i : ℕ} (h : i < t.length) (f : KeyVal → KeyVal) :
    entry (t.modify i f) i = f (entry t i) := by
  rw [entry_modify, if_pos ⟨rfl, h⟩]

theorem entry_modify_ne {t : Table} {i j : ℕ} (h : i ≠ j) (f : KeyVal → KeyVal) :
    entry (t.modify i f) j = entry t j := by
  rw [entry_modify, if_neg fun hij => h hij.1]

/-- A change that keeps a field of its slot keeps it in every slot. -/
theorem entry_modify_field {α : Type*} (g : KeyVal → α) {f : KeyVal → KeyVal}
    (hf : ∀ kv, g (f kv) = g kv) (t : Table) (i j : ℕ) :
    g (entry (t.modify i f) j) = g (entry t j) := by
  rw [entry_modify]
  split
  · exact hf _
  · rfl

/-- Reserving a slot changes no entry: an entry behind the table already reads as initialised. -/
@[simp] theorem entry_append_init (t : Table) (j : ℕ) :
    entry (t ++ [initKeyValStruct]) j = entry t j := by
  rcases lt_or_ge j t.length with h | h
  · simp [entry, List.getD, List.getElem?_append_left h]
  · rcases Nat.eq_or_lt_of_le h with rfl | h'
    · simp [entry, List.getD]
    · have hlen : (t ++ [initKeyValStruct]).length ≤ j := by simpa using h'
      simp [entry, List.getD, List.getElem?_eq_none h, List.getElem?_eq_none hlen]

theorem entry_of_length_le {t : Table} {i : ℕ} (h : t.length ≤ i) :
    entry t i = initKeyValStruct := by
  simp [entry, List.getD, List.getElem?_eq_none h]

theorem modify_modify (t : Table) (i : ℕ) (f g : KeyVal → KeyVal) :
    (t.modify i f).modify i g = t.modify i (g ∘ f) := by
  simp [List.modify_modify_eq]

theorem modify_append_self (t : Table) (kv : KeyVal) (f : KeyVal → KeyVal) :
    (t ++ [kv]).modify t.length f = t ++ [f kv] := by
  induction t with
  | nil => rfl
  | cons kv' t ih => simp [ih]

theorem modify_eq_self {t : Table} {i : ℕ} {f : KeyVal → KeyVal} (h : f (entry t i) = entry t i) :
    t.modify i f = t := by
  apply List.ext_getElem?
  intro j
  rcases eq_or_ne i j with rfl | hij
  · rcases lt_or_ge i t.length with hi | hi
    · rw [List.getElem?_modify_eq, getElem?_entry hi]
      simpa using h
    · simp [List.getElem?_eq_none hi]
  · simp [hij]

/-! ## What the handlers leave alone -/

@[simp] theorem searchKey_releaselockResponse (key key' : List Char) (t : Table) :
    searchKey key (releaselockResponse key' t) = searchKey key t := by
  rw [releaselockResponse]
  split
  · rfl
  · exact searchKey_modify (fun _ => by rfl) key _ t

/-- An update is stored where its key is found locked, and answered; else nothing changes. -/
theorem updateResponse_cases {key val : List Char} {vno : ℤ} {t t' : Table}
    {sent : Option (List Char)} (h : updateResponse key val vno t = some (t', sent)) :
    (∃ i, searchKey key t = some i ∧ (entry t i).lock ≠ 0 ∧ val.length < VALSIZE ∧
        t' = t.modify i (fun kv => { kv with value := val, vno := vno }) ∧
        sent = some (updatedoneMsg key)) ∨
      (∀ i, searchKey key t = some i → (entry t i).lock = 0) ∧ t' = t ∧ sent = none := by
  obtain ⟨⟨code, u⟩, hr, heq⟩ := Option.map_eq_some_iff.mp h
  obtain ⟨rfl, rfl⟩ := Prod.mk.inj heq
  unfold updateKey at hr
  split at hr
  · rename_i hnone
    obtain ⟨rfl, rfl⟩ := Prod.mk.inj (Option.some.inj hr)
    exact Or.inr ⟨fun i hi => (by rw [hnone] at hi; cases hi), rfl, rfl⟩
  · rename_i i hi
    split at hr
    · rename_i hlock
      obtain ⟨rfl, rfl⟩ := Prod.mk.inj (Option.some.inj hr)
      exact Or.inr ⟨fun j hj => Option.some.inj (hi.symm.trans hj) ▸ hlock, rfl, rfl⟩
    · rename_i hlock
      split at hr
      · rename_i hval
        obtain ⟨rfl, rfl⟩ := Prod.mk.inj (Option.some.inj hr)
        exact Or.inl ⟨i, hi, hlock, hval, rfl, rfl⟩
      · cases hr

/-- A value that fits is stored. -/
theorem updateResponse_stored {key val : List Char} {t : Table} {i : ℕ}
    (hi : searchKey key t = some i) (hlock : (entry t i).lock ≠ 0) (hval : val.length < VALSIZE)
    (vno : ℤ) : updateResponse key val vno t =
      some (t.modify i (fun kv => { kv with value := val, vno := vno }), some (updatedoneMsg key)) := by
  simp only [updateResponse, updateKey, hi, if_neg hlock, if_pos hval, Option.map_some, if_true]

/-- An update with a value that fits has a result. -/
theorem updateResponse_isSome {val : List Char} (hval : val.length < VALSIZE) (key : List Char)
    (vno : ℤ) (t : Table) : ∃ r, updateResponse key val vno t = some r := by
  unfold updateResponse updateKey
  split
  · exact ⟨_, rfl⟩
  · split
    · exact ⟨_, rfl⟩
    · exact ⟨_, rfl⟩

theorem searchKey_updateResponse {key' val : List Char} {vno : ℤ} {t t' : Table}
    {sent : Option (List Char)} (h : updateResponse key' val vno t = some (t', sent))
    (key : List Char) : searchKey key t' = searchKey key t := by
  obtain ⟨i, -, -, -, rfl, -⟩ | ⟨-, rfl, -⟩ := updateResponse_cases h
  · exact searchKey_modify (fun _ => by rfl) key i t
  · rfl

@[simp] theorem searchKey_grantVote (key : List Char) (i : ℕ) (resMsg : List Char) (t : Table) :
    searchKey key (grantVote i resMsg t).1 = searchKey key t := by
  rw [grantVote]
  split
  · exact searchKey_modify (fun _ => by rfl) key i t
  · rfl

@[simp] theorem searchKey_getResponseDecr (key : List Char) (i : ℕ) (t : Table) :
    searchKey key (getResponseDecr i t) = searchKey key t :=
  searchKey_modify (fun _ => by rfl) key i t

@[simp] theorem searchKey_getResponseSend (lier : ℤ) (key key' : List Char) (t : Table) :
    searchKey key (getResponseSend lier key' t).1 = searchKey key t := by
  rw [getResponseSend]
  split
  · rfl
  · dsimp only
    split
    · exact searchKey_modify (fun _ => by rfl) key _ t
    · exact searchKey_getResponseDecr key _ t

/-- `getResponse` touches the reader counters only. -/
theorem getResponseSend_field {α : Type*} (g : KeyVal → α)
    (hg : ∀ kv n, g { kv with numGetters := n } = g kv) (lier : ℤ) (key : List Char) (t : Table)
    (j : ℕ) : g (entry (getResponseSend lier key t).1 j) = g (entry t j) := by
  rw [getResponseSend]
  split
  · rfl
  · dsimp only
    split
    · exact entry_modify_field g (fun kv => hg kv _) t _ j
    · exact entry_modify_field g (fun kv => hg kv _) t _ j

/-- `releaselockResponse` touches locks only. -/
theorem releaselockResponse_field {α : Type*} (g : KeyVal → α)
    (hg : ∀ kv, g { kv with lock := 0 } = g kv) (key : List Char) (t : Table) (j : ℕ) :
    g (entry (releaselockResponse key t) j) = g (entry t j) := by
  rw [releaselockResponse]
  split
  · rfl
  · exact entry_modify_field g hg t _ j

@[simp] theorem length_releaselockResponse (key : List Char) (t : Table) :
    (releaselockResponse key t).length = t.length := by
  rw [releaselockResponse]
  split <;> simp

/-- `updateResponse` touches values and versions only. -/
theorem updateResponse_field {α : Type*} (g : KeyVal → α) {key val : List Char} {vno : ℤ}
    (hg : ∀ kv, g { kv with value := val, vno := vno } = g kv) {t t' : Table}
    {sent : Option (List Char)} (h : updateResponse key val vno t = some (t', sent)) (j : ℕ) :
    g (entry t' j) = g (entry t j) := by
  obtain ⟨i, -, -, -, rfl, -⟩ | ⟨-, rfl, -⟩ := updateResponse_cases h
  · exact entry_modify_field g hg t i j
  · rfl

theorem length_updateResponse {key val : List Char} {vno : ℤ} {t t' : Table}
    {sent : Option (List Char)} (h : updateResponse key val vno t = some (t', sent)) :
    t'.length = t.length := by
  obtain ⟨i, -, -, -, rfl, -⟩ | ⟨-, rfl, -⟩ := updateResponse_cases h
  · exact List.length_modify ..
  · rfl

@[simp] theorem length_getResponseDecr (i : ℕ) (t : Table) :
    (getResponseDecr i t).length = t.length := by
  simp [getResponseDecr]

@[simp] theorem length_getResponseSend (lier : ℤ) (key : List Char) (t : Table) :
    (getResponseSend lier key t).1.length = t.length := by
  rw [getResponseSend]
  split
  · rfl
  · dsimp only
    split <;> simp

@[simp] theorem length_grantVote (i : ℕ) (resMsg : List Char) (t : Table) :
    (grantVote i resMsg t).1.length = t.length := by
  rw [grantVote]
  split <;> simp

/-- What a `PUT` session does when its first wait ends: it stores the update that it was sent, if that
finds its key locked, and goes on waiting; or it releases the key that it was called for. -/
theorem putResponseUpdate_cases {key : List Char} {i : ℕ} {loc : Locals} {msg : Option (List Char)}
    {t t' : Table} {sent keyNew : Option (List Char)}
    (h : putResponseUpdate key i loc msg t = some (t', sent, keyNew)) :
    (∃ m k val vno, msg = some m ∧ readMsgType m loc.msgType = "update".toList ∧
        k = argStr (readUpdate m) 0 loc.key ∧ val = argStr (readUpdate m) 1 loc.value ∧
        vno = argInt (readUpdate m) 2 loc.vno ∧ k.length < KEYSIZE ∧
        updateResponse k val vno (t.modify i fun kv => { kv with key := k }) = some (t', sent) ∧
        keyNew = some k) ∨
      (∀ m, msg = some m → readMsgType m loc.msgType ≠ "update".toList) ∧
        t' = releaselockResponse key t ∧ sent = none ∧ keyNew = none := by
  unfold putResponseUpdate at h
  split at h
  · obtain ⟨rfl, hrest⟩ := Prod.mk.inj (Option.some.inj h)
    obtain ⟨rfl, rfl⟩ := Prod.mk.inj hrest
    exact Or.inr ⟨fun m hm => (by cases hm), rfl, rfl, rfl⟩
  · rename_i m
    split at h
    · cases h
    · split at h
      · rename_i htype
        dsimp only at h
        split at h
        · rename_i hfits
          obtain ⟨⟨u, sent'⟩, hr, heq⟩ := Option.map_eq_some_iff.mp h
          obtain ⟨rfl, hrest⟩ := Prod.mk.inj heq
          obtain ⟨rfl, rfl⟩ := Prod.mk.inj hrest
          exact Or.inl ⟨m, _, _, _, rfl, htype, rfl, rfl, rfl, hfits.1, hr, rfl⟩
        · cases h
      · rename_i htype
        obtain ⟨rfl, hrest⟩ := Prod.mk.inj (Option.some.inj h)
        obtain ⟨rfl, rfl⟩ := Prod.mk.inj hrest
        exact Or.inr ⟨fun m' hm => Option.some.inj hm ▸ htype, rfl, rfl, rfl⟩

/-- When the second wait ends, the key of the update is released, or the key that the session was called
for. -/
theorem putResponseRelease_cases {key keyNew : List Char} {loc : Locals} {msg : Option (List Char)}
    {t t' : Table} (h : putResponseRelease key keyNew loc msg t = some t') :
    (∃ m, msg = some m ∧ readMsgType m loc.msgType = "releaselock".toList) ∧
        t' = releaselockResponse keyNew t ∨
      (∀ m, msg = some m → readMsgType m loc.msgType ≠ "releaselock".toList) ∧
        t' = releaselockResponse key t := by
  unfold putResponseRelease at h
  split at h
  · exact Or.inr ⟨fun m hm => (by cases hm), (Option.some.inj h).symm⟩
  · rename_i m
    split at h
    · cases h
    · split at h
      · rename_i htype
        exact Or.inl ⟨⟨m, rfl, htype⟩, (Option.some.inj h).symm⟩
      · rename_i htype
        exact Or.inr ⟨fun m' hm => Option.some.inj hm ▸ htype, (Option.some.inj h).symm⟩

/-- `grantVote` touches locks only. -/
theorem grantVote_field {α : Type*} (g : KeyVal → α)
    (hg : ∀ kv, g { kv with lock := 1 } = g kv) (i : ℕ) (resMsg : List Char) (t : Table) (j : ℕ) :
    g (entry (grantVote i resMsg t).1 j) = g (entry t j) := by
  rw [grantVote]
  split
  · exact entry_modify_field g hg t i j
  · rfl

end QuorumLogFs.Vote
