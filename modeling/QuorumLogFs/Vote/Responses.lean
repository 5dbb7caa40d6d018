import QuorumLogFs.Vote.Client
import QuorumLogFs.Vote.SpinLock

/-!
# Counting the responses

Reference: `connectTo` and `connectThread` in `Client.c`, `keyval_t` in `Vote.h`.

The threads of the first round share the counter `responsesG` and the array `keyVals_c`. Each of them
advances the counter by a loop around `compare_and_swap` and then marks its own entry with the socket;
one that hears nothing marks it with `-1`. The array is modelled by its bytes, because `sscanf` puts the
key and the value of a reply into arrays of 50 bytes without a bound: a longer word is written over the
fields behind, and a long one over the mark of the next server.
-/

namespace QuorumLogFs.Vote

open QuorumLogFs.Basis

/-! ## The array -/

/-- The bytes of `keyVals_c`, and what lies behind it. -/
abbrev Bytes := ℕ → ℕ

/-- The offsets in a `keyval_t`, and its size: two arrays of `KEYSIZE` bytes and five integers. -/
def VALUE_OFFSET : ℕ := KEYSIZE
def SOCK_OFFSET : ℕ := 2 * KEYSIZE
def VNO_OFFSET : ℕ := SOCK_OFFSET + 4
def SIZEOF_KEYVAL : ℕ := SOCK_OFFSET + 5 * 4

/-- Write bytes from an address on. -/
def store (mem : Bytes) (a : ℕ) (bytes : List ℕ) : Bytes :=
  fun x => if a ≤ x ∧ x < a + bytes.length then bytes.getD (x - a) 0 else mem x

/-- The bytes of an `int`, the lowest one first. -/
def intBytes (z : ℤ) : List ℕ :=
  let n := (z % 2 ^ 32).toNat
  [n % 256, n / 256 % 256, n / 65536 % 256, n / 16777216 % 256]

/-- The bytes of a string and its NUL. -/
def stringBytes (w : List Char) : List ℕ := w.map (fun c => c.toNat % 256) ++ [0]

/-- The `int` at an address. -/
def loadInt (mem : Bytes) (a : ℕ) : ℤ :=
  wrap32 (mem a + 256 * mem (a + 1) + 65536 * mem (a + 2) + 16777216 * mem (a + 3) : ℕ)

/-- `keyVals_c[i].sock` -/
def sockAt (mem : Bytes) (i : ℕ) : ℤ := loadInt mem (i * SIZEOF_KEYVAL + SOCK_OFFSET)

/-- `keyVals_c[i].sock = fd` -/
def setSock (mem : Bytes) (i : ℕ) (fd : ℤ) : Bytes :=
  store mem (i * SIZEOF_KEYVAL + SOCK_OFFSET) (intBytes fd)

/-- What a conversion of `sscanf` stores. -/
def argBytes : Arg → List ℕ
  | .int n => intBytes (storedInt n)
  | .str w => stringBytes w

/-- A conversion that fails stores nothing. -/
def storeArg (mem : Bytes) (a : ℕ) (arg : Option Arg) : Bytes :=
  arg.elim mem fun arg => store mem a (argBytes arg)

/-- `sscanf(recv_data,"%d %s %s",&(keyVals_c[i].vno),keyVals_c[i].key,keyVals_c[i].value)` -/
def storeVote (mem : Bytes) (i : ℕ) (recv_data : List Char) : Bytes :=
  let args := readVote recv_data
  let mem := storeArg mem (i * SIZEOF_KEYVAL + VNO_OFFSET) args[0]?
  let mem := storeArg mem (i * SIZEOF_KEYVAL) args[1]?
  storeArg mem (i * SIZEOF_KEYVAL + VALUE_OFFSET) args[2]?

/-! ## The threads -/

/-- What a thread meets in the first round. Of a reply, the string that `sscanf` finds in
`recv_data`. -/
inductive Outcome where
  | connectFails
  | timesOut
  | receiveFails
  | peerCloses
  | reply (recv_data : List Char)
deriving DecidableEq

def Outcome.received : Outcome → Option (List Char)
  | .reply recv_data => some recv_data
  | _ => none

/-- The first round: what each thread meets, and its socket. -/
structure Round (N : ℕ) where
  outcome : Fin N → Outcome
  sockfd : Fin N → ℕ
  isDescriptor : ∀ i, sockfd i < 2 ^ 31

/-- The replies that are received. -/
def Round.replies {N : ℕ} (r : Round N) (i : ℕ) : Option (List Char) :=
  if h : i < N then (r.outcome ⟨i, h⟩).received else none

/-- What the threads share. -/
structure ClientMem where
  responsesG : ℤ
  keyVals_c : Bytes

/-- The places in `connectTo`. -/
inductive ConnectPc where
  /-- In front of `connect`, `send` and `recvTimeout`. -/
  | connect
  /-- In front of `keyVals_c[myid].sock = -1`. -/
  | giveUp
  /-- In front of `resO = responsesG`. -/
  | readCounter
  /-- In front of `compare_and_swap(&responsesG,resN,resO)`. -/
  | swapCounter (resO : ℤ)
  /-- In front of `sscanf`. -/
  | scanReply
  /-- In front of `keyVals_c[myid].sock = sock.sockfd`. -/
  | markReply
  /-- After `pthread_exit`. -/
  | exited
  | returned
deriving DecidableEq

/-- One step of `connectTo` for server `i`. -/
def connectToStep {N : ℕ} (r : Round N) (i : Fin N) (m : ClientMem) :
    ConnectPc → Option (ClientMem × ConnectPc)
  | .connect => some (m, if (r.outcome i).received.isSome then .readCounter else .giveUp)
  | .giveUp => some ({ m with keyVals_c := setSock m.keyVals_c i (-1) }, .exited)
  | .readCounter => some (m, .swapCounter m.responsesG)
  | .swapCounter resO =>
    let c := compareAndSwap m.responsesG (resO + 1) resO
    some ({ m with responsesG := c.2 }, if c.1 ≠ resO then .readCounter else .scanReply)
  | .scanReply =>
    some ({ m with keyVals_c := storeVote m.keyVals_c i ((r.outcome i).received.getD []) },
      .markReply)
  | .markReply => some ({ m with keyVals_c := setSock m.keyVals_c i (r.sockfd i) }, .returned)
  | .exited => none
  | .returned => none

/-- `connectThread` has created the threads; `old` is what `malloc` left in the array. -/
def roundStart (N : ℕ) (old : Bytes) : Threads (Fin N) ClientMem ConnectPc :=
  ⟨⟨0, old⟩, fun _ => .connect⟩

/-- The thread can be joined. -/
def ConnectPc.Finished (p : ConnectPc) : Prop := p = .exited ∨ p = .returned

instance : DecidablePred ConnectPc.Finished := fun _ => inferInstanceAs (Decidable (_ ∨ _))

/-- `nrnwCheck` in `selectServer`: the entries that are not marked with `-1`. -/
def nrnwCheck (N : ℕ) (mem : Bytes) : ℕ := (List.range N).countP fun i => sockAt mem i ≠ -1

/-- When all threads are joined, the counter, the number of entries marked with a socket and the number
of replies received are the same. -/
def CountsVotes {N : ℕ} (r : Round N) (s : Threads (Fin N) ClientMem ConnectPc) : Prop :=
  (∀ i, (s.place i).Finished) →
    s.shared.responsesG = nrnwCheck N s.shared.keyVals_c ∧
      nrnwCheck N s.shared.keyVals_c = responsesG N r.replies

instance {N : ℕ} (r : Round N) : DecidablePred (CountsVotes r) :=
  fun _ => inferInstanceAs (Decidable (_ → _ ∧ _))

/-- What a reply stores into the entry of server `i` ends before an address. -/
structure EndsBefore (i : ℕ) (recv_data : List Char) (a : ℕ) : Prop where
  vno : ∀ arg ∈ (readVote recv_data)[0]?,
    i * SIZEOF_KEYVAL + VNO_OFFSET + (argBytes arg).length ≤ a
  key : ∀ arg ∈ (readVote recv_data)[1]?, i * SIZEOF_KEYVAL + (argBytes arg).length ≤ a
  value : ∀ arg ∈ (readVote recv_data)[2]?,
    i * SIZEOF_KEYVAL + VALUE_OFFSET + (argBytes arg).length ≤ a

instance (i : ℕ) (recv_data : List Char) (a : ℕ) : Decidable (EndsBefore i recv_data a) :=
  decidable_of_iff
    ((∀ arg ∈ (readVote recv_data)[0]?, i * SIZEOF_KEYVAL + VNO_OFFSET + (argBytes arg).length ≤ a) ∧
      (∀ arg ∈ (readVote recv_data)[1]?, i * SIZEOF_KEYVAL + (argBytes arg).length ≤ a) ∧
      ∀ arg ∈ (readVote recv_data)[2]?,
        i * SIZEOF_KEYVAL + VALUE_OFFSET + (argBytes arg).length ≤ a)
    ⟨fun h => ⟨h.1, h.2.1, h.2.2⟩, fun h => ⟨h.vno, h.key, h.value⟩⟩

/-- A thread about to store its reply does not reach the mark of a later server whose thread has
finished. -/
def SparesMarks {N : ℕ} (r : Round N) (s : Threads (Fin N) ClientMem ConnectPc) (i : Fin N) : Prop :=
  s.place i = .scanReply → ∀ recv_data ∈ (r.outcome i).received, ∀ j : Fin N, i < j →
    (s.place j).Finished → EndsBefore i recv_data (j * SIZEOF_KEYVAL + SOCK_OFFSET)

instance {N : ℕ} (r : Round N) (s : Threads (Fin N) ClientMem ConnectPc) :
    DecidablePred (SparesMarks r s) := fun _ => inferInstanceAs (Decidable (_ → _))

/-! ## Marks -/

theorem store_of_notMem {mem : Bytes} {a x : ℕ} {bytes : List ℕ} (h : x < a ∨ a + bytes.length ≤ x) :
    store mem a bytes x = mem x :=
  if_neg (by omega)

theorem store_at {mem : Bytes} {a : ℕ} {bytes : List ℕ} {k : ℕ} (h : k < bytes.length) :
    store mem a bytes (a + k) = bytes.getD k 0 := by
  have hin : a ≤ a + k ∧ a + k < a + bytes.length := by omega
  rw [store, if_pos hin, Nat.add_sub_cancel_left]

/-- An entry's mark is in four bytes. -/
theorem sockAt_congr {mem mem' : Bytes} {i : ℕ}
    (h : ∀ x, i * SIZEOF_KEYVAL + SOCK_OFFSET ≤ x → x < i * SIZEOF_KEYVAL + SOCK_OFFSET + 4 →
      mem x = mem' x) : sockAt mem i = sockAt mem' i := by
  unfold sockAt loadInt
  rw [h _ le_rfl (by omega), h _ (by omega) (by omega), h _ (by omega) (by omega),
    h _ (by omega) (by omega)]

/-- An integer is read back. -/
theorem loadInt_store (mem : Bytes) (a : ℕ) {z : ℤ} (hlo : -(2 ^ 31) ≤ z) (hhi : z ≤ INT_MAX) :
    loadInt (store mem a (intBytes z)) a = z := by
  have hlen : (intBytes z).length = 4 := rfl
  have hbyte : ∀ k, k < 4 → store mem a (intBytes z) (a + k) = (intBytes z).getD k 0 :=
    fun k hk => store_at (by omega)
  have hsum : ∀ n : ℕ, n < 2 ^ 32 → n % 256 + 256 * (n / 256 % 256) + 65536 * (n / 65536 % 256) +
      16777216 * (n / 16777216 % 256) = n := by
    intro n hn
    omega
  have hn : (z % 2 ^ 32).toNat < 2 ^ 32 := by omega
  unfold loadInt
  rw [show store mem a (intBytes z) a = _ from hbyte 0 (by omega), hbyte 1 (by omega),
    hbyte 2 (by omega), hbyte 3 (by omega)]
  simp only [intBytes, List.getD_cons_zero, List.getD_cons_succ]
  rw [hsum _ hn]
  conv_rhs => rw [← wrap32_of_range hlo hhi]
  unfold wrap32
  rw [Int.toNat_of_nonneg (by omega)]
  exact_mod_cast Int.emod_bmod z (2 ^ 32)

theorem sockAt_setSock_self (mem : Bytes) (i : ℕ) {fd : ℤ} (hlo : -(2 ^ 31) ≤ fd)
    (hhi : fd ≤ INT_MAX) : sockAt (setSock mem i fd) i = fd :=
  loadInt_store mem _ hlo hhi

theorem sockAt_setSock_of_ne (mem : Bytes) {i j : ℕ} (h : j ≠ i) (fd : ℤ) :
    sockAt (setSock mem i fd) j = sockAt mem j := by
  refine sockAt_congr fun x hlo hhi => store_of_notMem ?_
  have hlen : (intBytes fd).length = 4 := rfl
  simp only [SIZEOF_KEYVAL, SOCK_OFFSET, KEYSIZE] at *
  omega

theorem length_stringBytes (w : List Char) : (stringBytes w).length = w.length + 1 := by
  simp [stringBytes]

theorem storeArg_of_notMem {mem : Bytes} {a x : ℕ} {arg : Option Arg}
    (h : x < a ∨ ∀ arg' ∈ arg, a + (argBytes arg').length ≤ x) : storeArg mem a arg x = mem x := by
  cases arg with
  | none => rfl
  | some arg => exact store_of_notMem (h.imp_right fun h => h arg rfl)

/-- The fields of a reply are written into the entry and, when they are too long, behind it. -/
theorem storeVote_of_notMem {mem : Bytes} {i a x : ℕ} {recv_data : List Char}
    (h : x < i * SIZEOF_KEYVAL ∨ EndsBefore i recv_data a ∧ a ≤ x) :
    storeVote mem i recv_data x = mem x := by
  unfold storeVote
  rw [storeArg_of_notMem, storeArg_of_notMem, storeArg_of_notMem]
  · refine h.imp (fun hlt => by omega) fun hends arg harg => ?_
    have := hends.1.vno arg harg
    omega
  · refine h.imp_right fun hends arg harg => ?_
    have := hends.1.key arg harg
    omega
  · refine h.imp (fun hlt => by omega) fun hends arg harg => ?_
    have := hends.1.value arg harg
    omega

/-- A reply leaves the marks of the servers before and the marks behind its end alone. -/
theorem sockAt_storeVote_of_ne (mem : Bytes) {i j : ℕ} {recv_data : List Char} (hne : j ≠ i)
    (h : i < j → EndsBefore i recv_data (j * SIZEOF_KEYVAL + SOCK_OFFSET)) :
    sockAt (storeVote mem i recv_data) j = sockAt mem j := by
  refine sockAt_congr fun x hlo hhi => ?_
  rcases Nat.lt_or_gt_of_ne hne with hlt | hgt
  · refine storeVote_of_notMem (a := x) (Or.inl ?_)
    simp only [SIZEOF_KEYVAL, SOCK_OFFSET, KEYSIZE] at *
    omega
  · exact storeVote_of_notMem (Or.inr ⟨h hgt, hlo⟩)

/-! ## The invariant -/

/-- The threads that have advanced the counter. -/
def ConnectPc.Past : ConnectPc → Prop
  | .scanReply => True
  | .markReply => True
  | .returned => True
  | _ => False

instance : DecidablePred ConnectPc.Past
  | .connect => isFalse id
  | .giveUp => isFalse id
  | .readCounter => isFalse id
  | .swapCounter _ => isFalse id
  | .scanReply => isTrue trivial
  | .markReply => isTrue trivial
  | .exited => isFalse id
  | .returned => isTrue trivial

/-- What is known of server `i` from the place of its thread. -/
def ConnectPc.Knows {N : ℕ} (r : Round N) (mem : Bytes) (i : Fin N) : ConnectPc → Prop
  | .connect => True
  | .giveUp => (r.outcome i).received = none
  | .exited => (r.outcome i).received = none ∧ sockAt mem i = -1
  | .returned => (r.outcome i).received ≠ none ∧ sockAt mem i = r.sockfd i
  | _ => (r.outcome i).received ≠ none

/-- The counter counts the threads that have advanced it, and the marks are what the threads have
written. -/
structure Counting {N : ℕ} (r : Round N) (s : Threads (Fin N) ClientMem ConnectPc) : Prop where
  count : s.shared.responsesG = number ConnectPc.Past s.place
  knows : ∀ i, (s.place i).Knows r s.shared.keyVals_c i

variable {N : ℕ} {r : Round N} {s s' : Threads (Fin N) ClientMem ConnectPc} {i : Fin N}

theorem counting_start (r : Round N) (old : Bytes) : Counting r (roundStart N old) where
  count := by
    have hnone : number ConnectPc.Past (roundStart N old).place = 0 :=
      number_eq_zero.mpr fun _ h => h
    rw [hnone]
    rfl
  knows _ := trivial

/-- A thread's knowledge survives what does not touch its mark; before it has finished, anything. -/
theorem ConnectPc.Knows.congr {p : ConnectPc} {mem mem' : Bytes} (h : p.Knows r mem i)
    (hmem : p.Finished → sockAt mem' i = sockAt mem i) : p.Knows r mem' i := by
  cases p with
  | exited => exact ⟨h.1, (hmem (Or.inl rfl)).trans h.2⟩
  | returned => exact ⟨h.1, (hmem (Or.inr rfl)).trans h.2⟩
  | _ => exact h

/-- A step that neither advances the counter nor touches the mark of a finished thread. -/
theorem Counting.move {p : ConnectPc} {mem : Bytes} (h : Counting r s)
    (hpast : p.Past ↔ (s.place i).Past) (hself : p.Knows r mem i)
    (hother : ∀ j, j ≠ i → (s.place j).Finished → sockAt mem j = sockAt s.shared.keyVals_c j) :
    Counting r ⟨{ s.shared with keyVals_c := mem }, Function.update s.place i p⟩ where
  count := by
    rw [number_move hpast]
    exact h.count
  knows := forall_update_place (Q := fun j q => ConnectPc.Knows r mem j q) hself fun j hj =>
    (h.knows j).congr (hother j hj)

theorem Counting.step (h : Counting r s) (hok : SparesMarks r s i)
    (hstep : threadStep (connectToStep r) s i = some s') : Counting r s' := by
  obtain ⟨m, p, hcode, rfl⟩ := threadStep_eq_some.mp hstep
  have hknows := h.knows i
  cases hp : s.place i with
  | connect =>
    rw [hp] at hcode
    obtain ⟨rfl, rfl⟩ := Prod.mk.inj (Option.some.inj hcode)
    cases hout : (r.outcome i).received with
    | none => exact h.move (by rw [hp]; exact Iff.rfl) hout fun _ _ _ => rfl
    | some recv_data =>
      refine h.move (by rw [hp]; exact Iff.rfl) ?_ fun _ _ _ => rfl
      exact hout.trans_ne (Option.some_ne_none _)
  | giveUp =>
    rw [hp] at hcode hknows
    obtain ⟨rfl, rfl⟩ := Prod.mk.inj (Option.some.inj hcode)
    refine h.move (by rw [hp]; exact Iff.rfl) ⟨hknows, ?_⟩ fun j hj _ => ?_
    · exact sockAt_setSock_self _ _ (by omega) (by decide)
    · exact sockAt_setSock_of_ne _ (Fin.val_ne_of_ne hj) _
  | readCounter =>
    rw [hp] at hcode hknows
    obtain ⟨rfl, rfl⟩ := Prod.mk.inj (Option.some.inj hcode)
    exact h.move (by rw [hp]; exact Iff.rfl) hknows fun _ _ _ => rfl
  | swapCounter resO =>
    rw [hp] at hcode hknows
    obtain ⟨rfl, rfl⟩ := Prod.mk.inj (Option.some.inj hcode)
    by_cases hsame : s.shared.responsesG = resO
    · -- the swap succeeds: no thread has advanced the counter since it was read, or as many as not
      have hpast : ¬ (s.place i).Past := by
        rw [hp]
        exact id
      refine ⟨?_, forall_update_place
        (Q := fun j q => ConnectPc.Knows r s.shared.keyVals_c j q) ?_ fun j _ => h.knows j⟩
      · show (compareAndSwap s.shared.responsesG (resO + 1) resO).2 = (number ConnectPc.Past
          (Function.update s.place i (if s.shared.responsesG ≠ resO then _ else _)) : ℤ)
        rw [if_neg (not_not.mpr hsame), number_enter trivial hpast, compareAndSwap, if_pos hsame,
          ← hsame, h.count]
        push_cast
        rfl
      · show ConnectPc.Knows r _ i (if s.shared.responsesG ≠ resO then _ else _)
        rw [if_neg (not_not.mpr hsame)]
        exact hknows
    · have hword : (compareAndSwap s.shared.responsesG (resO + 1) resO).2 = s.shared.responsesG :=
        if_neg hsame
      have hplace : (if (compareAndSwap s.shared.responsesG (resO + 1) resO).1 ≠ resO then
          ConnectPc.readCounter else .scanReply) = .readCounter := if_pos hsame
      rw [hword, hplace]
      exact h.move (by rw [hp]; exact Iff.rfl) hknows fun _ _ _ => rfl
  | scanReply =>
    rw [hp] at hcode hknows
    obtain ⟨rfl, rfl⟩ := Prod.mk.inj (Option.some.inj hcode)
    obtain ⟨recv_data, hrec⟩ := Option.ne_none_iff_exists'.mp hknows
    refine h.move (by rw [hp]; exact Iff.rfl) hknows fun j hj hdone => ?_
    rw [hrec, Option.getD_some]
    exact sockAt_storeVote_of_ne _ (Fin.val_ne_of_ne hj) fun hij => hok hp recv_data hrec j hij hdone
  | markReply =>
    rw [hp] at hcode hknows
    obtain ⟨rfl, rfl⟩ := Prod.mk.inj (Option.some.inj hcode)
    have hfd := r.isDescriptor i
    refine h.move (by rw [hp]; exact Iff.rfl) ⟨hknows, ?_⟩ fun j hj _ => ?_
    · exact sockAt_setSock_self _ _ (by omega) (by rw [INT_MAX]; omega)
    · exact sockAt_setSock_of_ne _ (Fin.val_ne_of_ne hj) _
  | exited =>
    rw [hp] at hcode
    cases hcode
  | returned =>
    rw [hp] at hcode
    cases hcode

/-! ## All threads are joined -/

/-- Counting numbers below `N` and counting servers is the same. -/
theorem countP_range_eq_card {p : ℕ → Bool} {q : Fin N → Prop} [DecidablePred q]
    (h : ∀ i : Fin N, p i = true ↔ q i) :
    (List.range N).countP p = (Finset.univ.filter q).card := by
  have hmap : (Finset.range N).filter (fun i => p i = true) =
      (Finset.univ.filter q).map Fin.valEmbedding := by
    ext i
    simp only [Finset.mem_filter, Finset.mem_range, Finset.mem_map, Finset.mem_univ, true_and,
      Fin.valEmbedding_apply]
    constructor
    · rintro ⟨hi, hp⟩
      exact ⟨⟨i, hi⟩, (h ⟨i, hi⟩).mp hp, rfl⟩
    · rintro ⟨j, hq, rfl⟩
      exact ⟨j.isLt, (h j).mpr hq⟩
  calc (List.range N).countP p
      = (List.range N).countP (fun i => decide (p i = true)) :=
        List.countP_congr fun i _ => by rw [Bool.decide_eq_true]
    _ = (Finset.univ.filter q).card := by rw [countP_range, hmap, Finset.card_map]

theorem Counting.countsVotes (h : Counting r s) : CountsVotes r s := by
  intro hdone
  have hpast : ∀ i, (s.place i).Past ↔ (r.outcome i).received ≠ none := by
    intro i
    have hknows := h.knows i
    rcases hdone i with hp | hp <;> rw [hp] at hknows ⊢
    · exact ⟨False.elim, fun hne => hne hknows.1⟩
    · exact ⟨fun _ => hknows.1, fun _ => trivial⟩
  have hmark : ∀ i : Fin N, sockAt s.shared.keyVals_c i ≠ -1 ↔ (r.outcome i).received ≠ none := by
    intro i
    have hknows := h.knows i
    rcases hdone i with hp | hp <;> rw [hp] at hknows
    · exact ⟨fun hne => absurd hknows.2 hne, fun hne => absurd hknows.1 hne⟩
    · refine ⟨fun _ => hknows.1, fun _ => ?_⟩
      rw [hknows.2]
      omega
  have hreceived : responsesG N r.replies =
      (Finset.univ.filter fun i : Fin N => (r.outcome i).received ≠ none).card := by
    have hreplies : ∀ i : Fin N, r.replies i = (r.outcome i).received := fun i => dif_pos i.isLt
    refine countP_range_eq_card fun i => ?_
    rw [hreplies, Option.isSome_iff_ne_none]
  have hcheck : nrnwCheck N s.shared.keyVals_c = responsesG N r.replies := by
    rw [hreceived]
    refine countP_range_eq_card fun i => ?_
    rw [decide_eq_true_iff]
    exact hmark i
  refine ⟨?_, hcheck⟩
  rw [hcheck, hreceived, h.count, number]
  congr 2
  exact Finset.filter_congr fun i _ => hpast i

/-- In every interleaving of the threads of the first round, the votes are counted once each, as long as
no reply is written over the mark of a server whose thread has finished. -/
theorem votes_counted (r : Round N) (old : Bytes) (schedule : List (Fin N))
    (hok : Each (threadStep (connectToStep r)) (SparesMarks r) (roundStart N old) schedule) :
    Always (threadStep (connectToStep r)) (CountsVotes r) (roundStart N old) schedule :=
  (always_of_each (counting_start r old) (fun _ _ _ h hok => h.step hok) hok).imp
    fun _ h => h.countsVotes

/-- Of two servers the first one answers. -/
def firstAnswers (recv_data : List Char) : Round 2 where
  outcome i := if i.val = 0 then .reply recv_data else .connectFails
  sockfd i := 3 + i
  isDescriptor i := by omega

/-- The second thread runs before the first one. -/
def secondBeforeFirst : List (Fin 2) := [1, 1, 0, 0, 0, 0, 0].map (Fin.ofNat 2)

theorem votes_counted_firstAnswers :
    Always (threadStep (connectToStep (firstAnswers "1 k v".toList)))
      (CountsVotes (firstAnswers "1 k v".toList)) (roundStart 2 fun _ => 0) secondBeforeFirst :=
  votes_counted _ _ _ (by decide)

/-- A value of 174 characters is written over the mark of the server that could not be reached: one
reply is counted by `connectTo` and two by `selectServer`. -/
theorem not_votes_counted_longValue :
    ¬ Always (threadStep (connectToStep (firstAnswers ("1 k ".toList ++ List.replicate 174 'a'))))
      (CountsVotes (firstAnswers ("1 k ".toList ++ List.replicate 174 'a')))
      (roundStart 2 fun _ => 0) secondBeforeFirst := by
  decide +kernel

end QuorumLogFs.Vote
