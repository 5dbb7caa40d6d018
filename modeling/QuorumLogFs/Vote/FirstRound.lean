import QuorumLogFs.Vote.Responses

/-!
# The first round

Reference: `connectTo` and `connectThread` in `Client.c`, `keyval_t` in `Vote.h`.

`connectThread` looks at `responsesG` and `keyVals_c` when it has joined its threads. Where every reply
fits the entry of its server, it finds what `keyVals_c` and `responsesG` say, however the threads have
interleaved: the bytes of an entry read as the entry that `connectTo` leaves. And the threads can be
joined, since a swap of `responsesG` fails only after a swap of another thread.
-/

namespace QuorumLogFs.Vote

open QuorumLogFs.Basis

/-! ## Entries in bytes -/

/-- The string in an array of `KEYSIZE` bytes. -/
def loadString (mem : Bytes) (a : ℕ) : List Char :=
  ((List.range KEYSIZE).map fun k => Char.ofNat (mem (a + k))).takeWhile (· ≠ nul)

/-- `keyVals_c[i]` -/
def keyValAt (mem : Bytes) (i : ℕ) : KeyVal where
  key := loadString mem (i * SIZEOF_KEYVAL)
  value := loadString mem (i * SIZEOF_KEYVAL + VALUE_OFFSET)
  sock := sockAt mem i
  vno := loadInt mem (i * SIZEOF_KEYVAL + VNO_OFFSET)
  lock := loadInt mem (i * SIZEOF_KEYVAL + VNO_OFFSET + 4)
  numGetters := loadInt mem (i * SIZEOF_KEYVAL + VNO_OFFSET + 8)
  condWaitLock := loadInt mem (i * SIZEOF_KEYVAL + VNO_OFFSET + 12)

/-- A word that `sscanf` stores has room in an array of `KEYSIZE` bytes. -/
def FitsField : Arg → Prop
  | .int _ => True
  | .str w => w.length < KEYSIZE ∧ nul ∉ w ∧ ∀ c ∈ w, c.toNat < 256

instance : DecidablePred FitsField
  | .int _ => isTrue trivial
  | .str w =>
    have : Decidable (∀ c ∈ w, c.toNat < 256) := List.decidableBAll _ _
    inferInstanceAs (Decidable (_ ∧ _ ∧ _))

/-- The reply fits the entry of its server. -/
def FitsEntry (recv_data : List Char) : Prop := ∀ arg ∈ readVote recv_data, FitsField arg

instance : DecidablePred FitsEntry := fun _ => inferInstanceAs (Decidable (∀ arg ∈ _, FitsField arg))

/-- The entry after `sscanf`. -/
def scanned (kv : KeyVal) (recv_data : List Char) : KeyVal :=
  { kv with
    vno := argInt (readVote recv_data) 0 kv.vno
    key := argStr (readVote recv_data) 1 kv.key
    value := argStr (readVote recv_data) 2 kv.value }

/-- What `malloc` and `socket` have handed the client. -/
def Round.env {N : ℕ} (r : Round N) (old : Bytes) : Env where
  old := keyValAt old
  fd i := if h : i < N then r.sockfd ⟨i, h⟩ else 0

section Load

variable {mem mem' : Bytes} {a b i j : ℕ} {bytes : List ℕ} {w recv_data : List Char} {n : ℤ}

theorem loadInt_store_of_disjoint (h : b + 4 ≤ a ∨ a + bytes.length ≤ b) :
    loadInt (store mem a bytes) b = loadInt mem b := by
  unfold loadInt
  rw [store_of_notMem (by omega), store_of_notMem (by omega), store_of_notMem (by omega),
    store_of_notMem (by omega)]

theorem loadString_congr (h : ∀ k, k < KEYSIZE → mem' (a + k) = mem (a + k)) :
    loadString mem' a = loadString mem a := by
  unfold loadString
  congr 1
  refine List.map_congr_left fun k hk => ?_
  rw [h k (List.mem_range.mp hk)]

theorem loadString_store_of_disjoint (h : b + KEYSIZE ≤ a ∨ a + bytes.length ≤ b) :
    loadString (store mem a bytes) b = loadString mem b :=
  loadString_congr fun k hk => store_of_notMem (by omega)

/-- A string that has room in its array is read back. -/
theorem loadString_store (h : FitsField (.str w)) : loadString (store mem a (stringBytes w)) a = w := by
  obtain ⟨hlen, hnul, hbytes⟩ := h
  have hbyte : ∀ k, k < w.length + 1 →
      store mem a (stringBytes w) (a + k) = (stringBytes w).getD k 0 := by
    intro k hk
    exact store_at (by rw [length_stringBytes]; exact hk)
  have hfield : (List.range w.length).map
      (fun k => Char.ofNat (store mem a (stringBytes w) (a + k))) = w := by
    refine List.ext_getElem (by simp) fun k hk hk' => ?_
    rw [List.getElem_map, List.getElem_range, hbyte k (by omega)]
    have hget : (stringBytes w).getD k 0 = w[k].toNat := by
      have hmap : k < (w.map fun c => c.toNat % 256).length := by simpa using hk'
      rw [stringBytes, List.getD_eq_getElem?_getD, List.getElem?_append_left hmap,
        List.getElem?_eq_getElem hmap, Option.getD_some, List.getElem_map]
      exact Nat.mod_eq_of_lt (hbytes _ (List.getElem_mem hk'))
    rw [hget, Char.ofNat_toNat]
  obtain ⟨m, hm⟩ := Nat.exists_eq_add_of_lt hlen
  have hsplit : (List.range KEYSIZE).map (fun k => Char.ofNat (store mem a (stringBytes w) (a + k))) =
      w ++ nul :: (List.range m).map
        (fun k => Char.ofNat (store mem a (stringBytes w) (a + (w.length + (k + 1))))) := by
    rw [hm, Nat.add_assoc, List.range_add, List.map_append, hfield, List.range_succ_eq_map]
    simp only [List.map_cons, List.map_map, Nat.add_zero]
    rw [hbyte w.length (by omega)]
    have hend : (stringBytes w).getD w.length 0 = 0 := by simp [stringBytes]
    rw [hend]
    rfl
  rw [loadString, hsplit]
  refine takeWhile_exact (fun c hc => ?_) (fun c hc => ?_)
  · rw [decide_eq_true_iff]
    rintro rfl
    exact hnul hc
  · obtain rfl : nul = c := Option.some.inj hc
    simp

/-- An entry is made of its own bytes. -/
theorem keyValAt_congr (h : ∀ x, i * SIZEOF_KEYVAL ≤ x → x < (i + 1) * SIZEOF_KEYVAL → mem' x = mem x) :
    keyValAt mem' i = keyValAt mem i := by
  simp only [SIZEOF_KEYVAL, SOCK_OFFSET, KEYSIZE] at h
  simp only [keyValAt, sockAt, loadInt, SIZEOF_KEYVAL, VALUE_OFFSET, VNO_OFFSET, SOCK_OFFSET, KEYSIZE]
  rw [loadString_congr fun k hk => h _ (by omega) (by rw [KEYSIZE] at hk; omega),
    loadString_congr fun k hk => h _ (by omega) (by rw [KEYSIZE] at hk; omega)]
  simp (disch := omega) only [h]

theorem keyValAt_setSock_of_ne (hne : j ≠ i) : keyValAt (setSock mem i n) j = keyValAt mem j := by
  have hlen : (intBytes n).length = 4 := rfl
  refine keyValAt_congr fun x hx hx' => store_of_notMem ?_
  simp only [SIZEOF_KEYVAL, SOCK_OFFSET, KEYSIZE] at *
  omega

theorem keyValAt_setSock_self (hlo : -(2 ^ 31) ≤ n) (hhi : n ≤ INT_MAX) :
    keyValAt (setSock mem i n) i = { keyValAt mem i with sock := n } := by
  have hlen : (intBytes n).length = 4 := rfl
  unfold setSock
  simp only [keyValAt, SIZEOF_KEYVAL, VALUE_OFFSET, VNO_OFFSET, SOCK_OFFSET, KEYSIZE, sockAt] at *
  rw [loadInt_store mem _ hlo hhi, loadString_store_of_disjoint (by rw [KEYSIZE]; omega),
    loadString_store_of_disjoint (by rw [KEYSIZE]; omega)]
  simp (disch := omega) only [loadInt_store_of_disjoint]

theorem keyValAt_storeVno :
    keyValAt (store mem (i * SIZEOF_KEYVAL + VNO_OFFSET) (intBytes (storedInt n))) i =
      { keyValAt mem i with vno := storedInt n } := by
  have hlen : (intBytes (storedInt n)).length = 4 := rfl
  have hvno := isInt_storedInt n
  simp only [keyValAt, SIZEOF_KEYVAL, VALUE_OFFSET, VNO_OFFSET, SOCK_OFFSET, KEYSIZE, sockAt] at *
  rw [loadInt_store mem _ hvno.1 hvno.2, loadString_store_of_disjoint (by rw [KEYSIZE]; omega),
    loadString_store_of_disjoint (by rw [KEYSIZE]; omega)]
  simp (disch := omega) only [loadInt_store_of_disjoint]

theorem keyValAt_storeKey (h : FitsField (.str w)) :
    keyValAt (store mem (i * SIZEOF_KEYVAL) (stringBytes w)) i = { keyValAt mem i with key := w } := by
  have hlen := length_stringBytes w
  have hfits : w.length < 50 := h.1
  simp only [keyValAt, SIZEOF_KEYVAL, VALUE_OFFSET, VNO_OFFSET, SOCK_OFFSET, KEYSIZE, sockAt] at *
  rw [loadString_store h, loadString_store_of_disjoint (by rw [KEYSIZE]; omega)]
  simp (disch := omega) only [loadInt_store_of_disjoint]

theorem keyValAt_storeValue (h : FitsField (.str w)) :
    keyValAt (store mem (i * SIZEOF_KEYVAL + VALUE_OFFSET) (stringBytes w)) i =
      { keyValAt mem i with value := w } := by
  have hlen := length_stringBytes w
  have hfits : w.length < 50 := h.1
  simp only [keyValAt, SIZEOF_KEYVAL, VALUE_OFFSET, VNO_OFFSET, SOCK_OFFSET, KEYSIZE, sockAt] at *
  rw [loadString_store h, loadString_store_of_disjoint (by rw [KEYSIZE]; omega)]
  simp (disch := omega) only [loadInt_store_of_disjoint]

/-- The conversions of a vote end with the first one that fails. -/
theorem readVote_cases (recv_data : List Char) :
    readVote recv_data = [] ∨ (∃ n, readVote recv_data = [.int n]) ∨
      (∃ n key, readVote recv_data = [.int n, .str key]) ∨
      ∃ n key val, readVote recv_data = [.int n, .str key, .str val] := by
  unfold readVote
  simp only [scan, emit]
  split
  · exact Or.inl rfl
  · refine Or.inr ?_
    split
    · exact Or.inl ⟨_, rfl⟩
    · refine Or.inr ?_
      simp only [if_true]
      split
      · exact Or.inl ⟨_, _, rfl⟩
      · exact Or.inr ⟨_, _, _, rfl⟩

/-- The vote of an entry whose fields fit. -/
theorem fitsEntry_voteMsg {key val : List Char} {vno : ℤ} (hkey : IsWord key) (hval : IsWord val)
    (hfits : FitsField (.str key) ∧ FitsField (.str val)) :
    FitsEntry (voteMsg vno key val) := by
  intro arg harg
  rw [readVote_voteMsg hkey hval] at harg
  rcases List.mem_cons.mp harg with rfl | harg
  · exact trivial
  · rcases List.mem_cons.mp harg with rfl | harg
    · exact hfits.1
    · rw [List.mem_singleton.mp harg]
      exact hfits.2

/-- A reply that fits fills the entry of its server. -/
theorem keyValAt_storeVote_self (h : FitsEntry recv_data) :
    keyValAt (storeVote mem i recv_data) i = scanned (keyValAt mem i) recv_data := by
  unfold storeVote scanned
  rcases readVote_cases recv_data with hargs | ⟨n, hargs⟩ | ⟨n, key, hargs⟩ | ⟨n, key, val, hargs⟩
  · simp only [hargs, argInt, argStr, List.getElem?_nil, storeArg, Option.elim_none]
  · simp only [hargs, argInt, argStr, List.getElem?_cons_zero, List.getElem?_cons_succ,
      List.getElem?_nil, storeArg, Option.elim_some, Option.elim_none, argBytes]
    rw [keyValAt_storeVno]
  · have hkey := h (.str key) (by simp [hargs])
    simp only [hargs, argInt, argStr, List.getElem?_cons_zero, List.getElem?_cons_succ,
      List.getElem?_nil, storeArg, Option.elim_some, Option.elim_none, argBytes]
    rw [keyValAt_storeKey hkey, keyValAt_storeVno]
  · have hkey := h (.str key) (by simp [hargs])
    have hval := h (.str val) (by simp [hargs])
    simp only [hargs, argInt, argStr, List.getElem?_cons_zero, List.getElem?_cons_succ, storeArg,
      Option.elim_some, argBytes]
    rw [keyValAt_storeValue hval, keyValAt_storeKey hkey, keyValAt_storeVno]

end Load

/-! ## The entries during the round -/

/-- The entry of server `i` when its thread is at a place. -/
def ConnectPc.slot {N : ℕ} (r : Round N) (old : Bytes) (i : Fin N) : ConnectPc → KeyVal
  | .exited => { keyValAt old i with sock := -1 }
  | .markReply => scanned (keyValAt old i) ((r.outcome i).received.getD [])
  | .returned => { scanned (keyValAt old i) ((r.outcome i).received.getD []) with sock := r.sockfd i }
  | _ => keyValAt old i

/-- The responses are counted, and each entry is what its thread has made of it. -/
structure Filling {N : ℕ} (r : Round N) (old : Bytes) (s : Threads (Fin N) ClientMem ConnectPc) :
    Prop where
  counting : Counting r s
  slots : ∀ i : Fin N, keyValAt s.shared.keyVals_c i = (s.place i).slot r old i

section Round

variable {N : ℕ} {r : Round N} {old : Bytes} {s s' : Threads (Fin N) ClientMem ConnectPc} {i : Fin N}

theorem filling_start (r : Round N) (old : Bytes) : Filling r old (roundStart N old) where
  counting := counting_start r old
  slots _ := rfl

/-- A reply that fits ends before the next entry. -/
theorem FitsEntry.endsBefore {recv_data : List Char} (h : FitsEntry recv_data) (i : ℕ) :
    EndsBefore i recv_data (i * SIZEOF_KEYVAL + SIZEOF_KEYVAL) := by
  have hvno : ∀ arg ∈ (readVote recv_data)[0]?, (argBytes arg).length = 4 := by
    intro arg harg
    rcases readVote_cases recv_data with hargs | ⟨n, hargs⟩ | ⟨n, key, hargs⟩ | ⟨n, key, val, hargs⟩
    · simp [hargs] at harg
    all_goals
      obtain rfl : Arg.int n = arg := by simpa [hargs] using harg
      rfl
  have hbytes : ∀ arg ∈ readVote recv_data, (argBytes arg).length ≤ KEYSIZE := by
    intro arg harg
    cases arg with
    | int n => exact (by decide : 4 ≤ KEYSIZE)
    | str w =>
      rw [argBytes, length_stringBytes]
      exact (h _ harg).1
  refine ⟨fun arg harg => ?_, fun arg harg => ?_, fun arg harg => ?_⟩
  · rw [hvno arg harg, SIZEOF_KEYVAL, VNO_OFFSET]
    omega
  · have hlen := hbytes arg (List.mem_of_getElem? harg)
    rw [SIZEOF_KEYVAL, SOCK_OFFSET]
    omega
  · have hlen := hbytes arg (List.mem_of_getElem? harg)
    rw [SIZEOF_KEYVAL, SOCK_OFFSET, VALUE_OFFSET]
    omega

theorem keyValAt_storeVote_of_ne {mem : Bytes} {i j : ℕ} {recv_data : List Char}
    (h : FitsEntry recv_data) (hne : j ≠ i) :
    keyValAt (storeVote mem i recv_data) j = keyValAt mem j := by
  refine keyValAt_congr fun x hx hx' => ?_
  rcases Nat.lt_or_gt_of_ne hne with hlt | hgt
  · refine storeVote_of_notMem (a := x) (Or.inl (lt_of_lt_of_le hx' ?_))
    exact Nat.mul_le_mul_right _ hlt
  · refine storeVote_of_notMem (Or.inr ⟨h.endsBefore i, le_trans ?_ hx⟩)
    rw [← Nat.succ_mul]
    exact Nat.mul_le_mul_right _ hgt

/-- A step that changes the entry of its own thread only. -/
theorem Filling.move {p : ConnectPc} {m : ClientMem} (h : Filling r old s)
    (hcounting : Counting r ⟨m, Function.update s.place i p⟩)
    (hself : keyValAt m.keyVals_c i = p.slot r old i)
    (hother : ∀ j : Fin N, j ≠ i → keyValAt m.keyVals_c j = keyValAt s.shared.keyVals_c j) :
    Filling r old ⟨m, Function.update s.place i p⟩ where
  counting := hcounting
  slots := forall_update_place
    (Q := fun (j : Fin N) q => keyValAt m.keyVals_c j = ConnectPc.slot r old j q) hself
    fun j hj => (hother j hj).trans (h.slots j)

theorem Filling.step (h : Filling r old s)
    (hfits : ∀ i, ∀ recv_data ∈ (r.outcome i).received, FitsEntry recv_data)
    (hstep : threadStep (connectToStep r) s i = some s') : Filling r old s' := by
  have hspares : SparesMarks r s i := by
    intro _ recv_data hrec j hij _
    have hends := (hfits i recv_data hrec).endsBefore i
    have hle : (i : ℕ) * SIZEOF_KEYVAL + SIZEOF_KEYVAL ≤ j * SIZEOF_KEYVAL + SOCK_OFFSET := by
      rw [← Nat.succ_mul]
      exact (Nat.mul_le_mul_right _ hij).trans (Nat.le_add_right _ _)
    exact ⟨fun arg harg => (hends.vno arg harg).trans hle, fun arg harg => (hends.key arg harg).trans hle,
      fun arg harg => (hends.value arg harg).trans hle⟩
  have hcounting := h.counting.step hspares hstep
  have hknows := h.counting.knows i
  have hslot := h.slots i
  obtain ⟨m, p, hcode, rfl⟩ := threadStep_eq_some.mp hstep
  cases hp : s.place i with
  | connect =>
    rw [hp] at hcode hslot
    obtain ⟨rfl, rfl⟩ := Prod.mk.inj (Option.some.inj hcode)
    refine h.move hcounting ?_ fun _ _ => rfl
    split <;> exact hslot
  | giveUp =>
    rw [hp] at hcode hslot
    obtain ⟨rfl, rfl⟩ := Prod.mk.inj (Option.some.inj hcode)
    refine h.move hcounting ?_ fun j hj => ?_
    · exact (keyValAt_setSock_self (by omega) (by decide)).trans (by rw [hslot]; rfl)
    · exact keyValAt_setSock_of_ne (Fin.val_ne_of_ne hj)
  | readCounter =>
    rw [hp] at hcode hslot
    obtain ⟨rfl, rfl⟩ := Prod.mk.inj (Option.some.inj hcode)
    exact h.move hcounting hslot fun _ _ => rfl
  | swapCounter resO =>
    rw [hp] at hcode hslot
    obtain ⟨rfl, rfl⟩ := Prod.mk.inj (Option.some.inj hcode)
    refine h.move hcounting ?_ fun _ _ => rfl
    split <;> exact hslot
  | scanReply =>
    rw [hp] at hcode hslot hknows
    obtain ⟨rfl, rfl⟩ := Prod.mk.inj (Option.some.inj hcode)
    obtain ⟨recv_data, hrec⟩ := Option.ne_none_iff_exists'.mp hknows
    have hfit := hfits i recv_data hrec
    refine h.move hcounting ?_ fun j hj => ?_
    · simp only [ConnectPc.slot, hrec, Option.getD_some]
      rw [keyValAt_storeVote_self hfit, hslot]
      rfl
    · simp only [hrec, Option.getD_some]
      exact keyValAt_storeVote_of_ne hfit (Fin.val_ne_of_ne hj)
  | markReply =>
    rw [hp] at hcode hslot
    obtain ⟨rfl, rfl⟩ := Prod.mk.inj (Option.some.inj hcode)
    have hfd := r.isDescriptor i
    refine h.move hcounting ?_ fun j hj => ?_
    · exact (keyValAt_setSock_self (by omega) (by rw [INT_MAX]; omega)).trans (by rw [hslot]; rfl)
    · exact keyValAt_setSock_of_ne (Fin.val_ne_of_ne hj)
  | exited =>
    rw [hp] at hcode
    cases hcode
  | returned =>
    rw [hp] at hcode
    cases hcode

/-! ## Joining the threads -/

/-- The thread may still advance `responsesG`. -/
def ConnectPc.Pending : ConnectPc → Prop
  | .connect => True
  | .readCounter => True
  | .swapCounter _ => True
  | _ => False

instance : DecidablePred ConnectPc.Pending
  | .connect => isTrue trivial
  | .giveUp => isFalse id
  | .readCounter => isTrue trivial
  | .swapCounter _ => isTrue trivial
  | .scanReply => isFalse id
  | .markReply => isFalse id
  | .exited => isFalse id
  | .returned => isFalse id

/-- The steps that a thread takes at most while `pending` threads may still advance the counter: each of
the others can make it read the counter again once. -/
def ConnectPc.remaining (pending : ℕ) (responsesG : ℤ) : ConnectPc → ℕ
  | .connect => 2 * pending + 3
  | .giveUp => 1
  | .readCounter => 2 * pending + 2
  | .swapCounter resO => if responsesG = resO then 2 * pending + 1 else 2 * pending + 3
  | .scanReply => 2
  | .markReply => 1
  | .exited => 0
  | .returned => 0

/-- The steps that the threads take at most. -/
def remaining (s : Threads (Fin N) ClientMem ConnectPc) : ℕ :=
  ∑ i, (s.place i).remaining (number ConnectPc.Pending s.place) s.shared.responsesG

/-- When another thread has advanced the counter, a swap that would have succeeded fails, and there is one
thread less to do so again. -/
theorem ConnectPc.remaining_mono {p : ConnectPc} {pending pending' : ℕ} {c c' : ℤ}
    (h : pending' < pending) : p.remaining pending' c' ≤ p.remaining pending c := by
  cases p with
  | swapCounter resO =>
    simp only [ConnectPc.remaining]
    split <;> split <;> omega
  | connect => simp only [ConnectPc.remaining]; omega
  | readCounter => simp only [ConnectPc.remaining]; omega
  | _ => exact le_rfl

/-- Thread `i` moves on, and the others have no more steps left than before. -/
theorem remaining_lt_of {m : ClientMem} {p : ConnectPc}
    (hself : p.remaining (number ConnectPc.Pending (Function.update s.place i p)) m.responsesG <
      (s.place i).remaining (number ConnectPc.Pending s.place) s.shared.responsesG)
    (hother : number ConnectPc.Pending (Function.update s.place i p) < number ConnectPc.Pending s.place ∨
      number ConnectPc.Pending (Function.update s.place i p) = number ConnectPc.Pending s.place ∧
        m.responsesG = s.shared.responsesG) :
    remaining ⟨m, Function.update s.place i p⟩ < remaining s := by
  refine Finset.sum_lt_sum (fun j _ => ?_) ⟨i, Finset.mem_univ i, ?_⟩
  · dsimp only
    by_cases hj : j = i
    · rw [hj, Function.update_self]
      exact hself.le
    · rw [Function.update_of_ne hj]
      rcases hother with hlt | ⟨hsame, hcount⟩
      · exact ConnectPc.remaining_mono hlt
      · rw [hsame, hcount]
  · dsimp only
    rw [Function.update_self]
    exact hself

theorem remaining_step (hstep : threadStep (connectToStep r) s i = some s') :
    remaining s' < remaining s := by
  obtain ⟨m, p, hcode, rfl⟩ := threadStep_eq_some.mp hstep
  cases hp : s.place i with
  | connect =>
    rw [hp] at hcode
    obtain ⟨rfl, rfl⟩ := Prod.mk.inj (Option.some.inj hcode)
    have hpending : (s.place i).Pending := by rw [hp]; exact trivial
    split
    · have hsame : number ConnectPc.Pending (Function.update s.place i .readCounter) = _ :=
        number_move (iff_of_true trivial hpending)
      refine remaining_lt_of ?_ (Or.inr ⟨hsame, rfl⟩)
      rw [hsame, hp]
      simp only [ConnectPc.remaining]
      omega
    · have hless := number_leave (p := .giveUp) (fun h : ConnectPc.giveUp.Pending => h) hpending
      refine remaining_lt_of ?_ (Or.inl (by omega))
      rw [hp]
      simp only [ConnectPc.remaining]
      omega
  | giveUp =>
    rw [hp] at hcode
    obtain ⟨rfl, rfl⟩ := Prod.mk.inj (Option.some.inj hcode)
    refine remaining_lt_of ?_ (Or.inr ⟨number_move (by rw [hp]; exact Iff.rfl), rfl⟩)
    rw [hp]
    exact Nat.zero_lt_one
  | readCounter =>
    rw [hp] at hcode
    obtain ⟨rfl, rfl⟩ := Prod.mk.inj (Option.some.inj hcode)
    have hsame : number ConnectPc.Pending
        (Function.update s.place i (.swapCounter s.shared.responsesG)) = _ :=
      number_move (by rw [hp]; exact Iff.rfl)
    refine remaining_lt_of ?_ (Or.inr ⟨hsame, rfl⟩)
    rw [hsame, hp]
    simp only [ConnectPc.remaining, if_true]
    omega
  | swapCounter resO =>
    rw [hp] at hcode
    obtain ⟨rfl, rfl⟩ := Prod.mk.inj (Option.some.inj hcode)
    have hpending : (s.place i).Pending := by rw [hp]; exact trivial
    by_cases hsame : s.shared.responsesG = resO
    · have hplace : (if (compareAndSwap s.shared.responsesG (resO + 1) resO).1 ≠ resO then
          ConnectPc.readCounter else .scanReply) = .scanReply := if_neg (not_not.mpr hsame)
      have hless := number_leave (p := .scanReply) (fun h : ConnectPc.scanReply.Pending => h) hpending
      rw [hplace]
      refine remaining_lt_of ?_ (Or.inl (by omega))
      rw [hp]
      simp only [ConnectPc.remaining, if_pos hsame]
      omega
    · have hword : (compareAndSwap s.shared.responsesG (resO + 1) resO).2 = s.shared.responsesG :=
        if_neg hsame
      have hplace : (if (compareAndSwap s.shared.responsesG (resO + 1) resO).1 ≠ resO then
          ConnectPc.readCounter else .scanReply) = .readCounter := if_pos hsame
      have hmove : number ConnectPc.Pending (Function.update s.place i .readCounter) = _ :=
        number_move (iff_of_true trivial hpending)
      rw [hplace]
      refine remaining_lt_of ?_ (Or.inr ⟨hmove, hword⟩)
      rw [hmove, hp]
      simp only [ConnectPc.remaining, if_neg hsame]
      omega
  | scanReply =>
    rw [hp] at hcode
    obtain ⟨rfl, rfl⟩ := Prod.mk.inj (Option.some.inj hcode)
    refine remaining_lt_of ?_ (Or.inr ⟨number_move (by rw [hp]; exact Iff.rfl), rfl⟩)
    rw [hp]
    exact Nat.one_lt_two
  | markReply =>
    rw [hp] at hcode
    obtain ⟨rfl, rfl⟩ := Prod.mk.inj (Option.some.inj hcode)
    refine remaining_lt_of ?_ (Or.inr ⟨number_move (by rw [hp]; exact Iff.rfl), rfl⟩)
    rw [hp]
    exact Nat.zero_lt_one
  | exited =>
    rw [hp] at hcode
    cases hcode
  | returned =>
    rw [hp] at hcode
    cases hcode

/-- A thread that has no step has finished. -/
theorem finished_of_stuck (h : threadStep (connectToStep r) s i = none) : (s.place i).Finished := by
  have hcode := Option.map_eq_none_iff.mp h
  cases hp : s.place i with
  | exited => exact Or.inl rfl
  | returned => exact Or.inr rfl
  | _ =>
    rw [hp] at hcode
    cases hcode

/-- Once its thread has finished, an entry is the one of `keyVals_c`. -/
theorem Filling.entry (h : Filling r old s) (hdone : (s.place i).Finished) :
    keyValAt s.shared.keyVals_c i = keyVals_c (r.env old) r.replies i := by
  have hreplies : r.replies i = (r.outcome i).received := dif_pos i.isLt
  have hfd : (r.env old).fd i = r.sockfd i := dif_pos i.isLt
  have hknows := h.counting.knows i
  rw [h.slots i, keyVals_c, hreplies, hfd]
  rcases hdone with hp | hp
  · rw [hp] at hknows ⊢
    rw [hknows.1]
    simp only [ConnectPc.slot, connectTo, Round.env]
  · rw [hp] at hknows ⊢
    obtain ⟨recv_data, hrec⟩ := Option.ne_none_iff_exists'.mp hknows.1
    simp only [ConnectPc.slot, hrec, Option.getD_some, scanned, connectTo, Round.env]

end Round

/-- However the threads of the first round interleave, they come to an end. When they have, and if every
reply fits the entry of its server, `connectThread` finds the number of responses and the entries that its
model has computed from the replies. -/
theorem first_round_refines {N : ℕ} (r : Round N) (old : Bytes)
    {schedule : List (Fin N)} {s : Threads (Fin N) ClientMem ConnectPc}
    (hrun : run (threadStep (connectToStep r)) (roundStart N old) schedule = some s) :
    schedule.length ≤ N * (2 * N + 3) ∧
      ((∀ i, ∀ recv_data ∈ (r.outcome i).received, FitsEntry recv_data) →
        (∀ i, threadStep (connectToStep r) s i = none) →
        s.shared.responsesG = responsesG N r.replies ∧
          ∀ i < N, keyValAt s.shared.keyVals_c i = keyVals_c (r.env old) r.replies i) := by
  constructor
  · have hlength := run_length_le (f := remaining) (fun _ _ _ => remaining_step) hrun
    have hstart : remaining (roundStart N old) ≤ N * (2 * N + 3) := by
      have hpending : number ConnectPc.Pending (roundStart N old).place ≤ N := by
        refine (Finset.card_le_univ _).trans_eq (Fintype.card_fin N)
      refine (Finset.sum_le_card_nsmul _ _ (2 * N + 3) fun i _ => ?_).trans_eq ?_
      · show 2 * _ + 3 ≤ _
        omega
      · rw [Finset.card_univ, Fintype.card_fin, smul_eq_mul]
    omega
  · intro hfits hstuck
    have hfilling : Filling r old s := run_invariant (filling_start r old)
      (fun _ _ _ h _ hstep => h.step hfits hstep) (each_true _ _) hrun
    have hdone : ∀ i, (s.place i).Finished := fun i => finished_of_stuck (hstuck i)
    obtain ⟨hcount, hcheck⟩ := hfilling.counting.countsVotes hdone
    exact ⟨by rw [hcount, hcheck], fun i hi => hfilling.entry (i := ⟨i, hi⟩) (hdone _)⟩

/-- Two servers answer. -/
def bothAnswer : Round 2 where
  outcome i := .reply (voteMsg 1 ['k'] [if i.val = 0 then 'v' else 'w'])
  sockfd i := 4 + i
  isDescriptor i := by omega

/-- The threads read the counter together, and the second one has to try again. -/
theorem first_round_refines_bothAnswer :
    ∃ s, run (threadStep (connectToStep bothAnswer)) (roundStart 2 fun _ => 0)
        [0, 1, 0, 1, 0, 1, 1, 0, 1, 1, 1, 0] = some s ∧
      s.shared.responsesG = 2 ∧
      ∀ i < 2, keyValAt s.shared.keyVals_c i =
        keyVals_c (bothAnswer.env fun _ => 0) bothAnswer.replies i := by
  have hstate : ∃ s ∈ run (threadStep (connectToStep bothAnswer)) (roundStart 2 fun _ => 0)
      [0, 1, 0, 1, 0, 1, 1, 0, 1, 1, 1, 0], ∀ i, threadStep (connectToStep bothAnswer) s i = none := by
    decide
  obtain ⟨s, hs, hstuck⟩ := hstate
  have hfits : ∀ i, ∀ recv_data ∈ (bothAnswer.outcome i).received, FitsEntry recv_data := by
    intro i recv_data hrec
    obtain rfl : voteMsg 1 ['k'] [if i.val = 0 then 'v' else 'w'] = recv_data := Option.some.inj hrec
    split
    · exact fitsEntry_voteMsg (by decide) (by decide) (by decide)
    · exact fitsEntry_voteMsg (by decide) (by decide) (by decide)
  have hround := (first_round_refines bothAnswer (fun _ => 0) hs).2 hfits hstuck
  exact ⟨s, hs, hround.1, hround.2⟩

end QuorumLogFs.Vote
