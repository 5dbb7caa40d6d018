import QuorumLogFs.Basis.Scanf

/-!
# Messages of the voting protocol

Reference: `Vote.h`, `Client.c`, `Server.c`.

`Vote.h` lists the messages: `GET key`, `PUT key value`, the vote `vno key value`,
`update key value vno`, `updatedone key` and `releaselock key`. Both programs print them with
blanks between the fields and read them with `sscanf`; the lemmas here say that what one side
prints the other side reads, for words of the protocol.
-/

namespace QuorumLogFs.Vote

open QuorumLogFs.Basis

/-- `KEYSIZE`, the array length of a stored key -/
def KEYSIZE : ℕ := 50

/-- `VALSIZE`, the array length of a stored value -/
def VALSIZE : ℕ := 50

/-! The server reads the words of a message into arrays of these lengths. -/

def MAX_MSGTYPE_SIZE : ℕ := 20
def MAX_KEY_SIZE : ℕ := 100
def MAX_VAL_SIZE : ℕ := 100

/-- A key or a value as the protocol can carry it: one field of a message that fits its array. -/
@[ext] structure Word where
  chars : List Char
  isWord : IsWord chars
  noNul : nul ∉ chars
  fits : chars.length < KEYSIZE

/-! A word fits the arrays of an entry and those that a message is read into. -/

theorem Word.fits_value (w : Word) : w.chars.length < VALSIZE := w.fits
theorem Word.fits_key (w : Word) : w.chars.length < MAX_KEY_SIZE := w.fits.trans (by decide)
theorem Word.fits_val (w : Word) : w.chars.length < MAX_VAL_SIZE := w.fits.trans (by decide)

instance : DecidableEq Word := fun k l => decidable_of_iff (k.chars = l.chars) Word.ext_iff.symm

/-- A literal word. -/
def Word.ofString (s : String)
    (h : IsWord s.toList ∧ nul ∉ s.toList ∧ s.toList.length < KEYSIZE := by decide) : Word :=
  ⟨s.toList, h.1, h.2.1, h.2.2⟩

/-! ## Printing -/

/-- `GET key` -/
def getMsg (key : List Char) : List Char := "GET ".toList ++ key

/-- `PUT key value` -/
def putMsg (key val : List Char) : List Char := "PUT ".toList ++ (key ++ ' ' :: val)

/-- `update key value vno` -/
def updateMsg (key val : List Char) (vno : ℤ) : List Char :=
  "update ".toList ++ (key ++ ' ' :: (val ++ ' ' :: decimal vno))

/-- `updatedone key` -/
def updatedoneMsg (key : List Char) : List Char := "updatedone ".toList ++ key

/-- `releaselock key` -/
def releaselockMsg (key : List Char) : List Char := "releaselock ".toList ++ key

/-- The vote `vno key value`. -/
def voteMsg (vno : ℤ) (key val : List Char) : List Char :=
  decimal vno ++ ' ' :: (key ++ ' ' :: val)

/-! ## Reading -/

/-- `sscanf(msg,"%s ",msgType)` -/
def readMsgType (msg old : List Char) : List Char :=
  argStr (scan [.str true, .white] msg) 0 old

/-- `sscanf(msg,"%*s %s",key)` -/
def readKey (msg old : List Char) : List Char :=
  argStr (scan [.str false, .white, .str true] msg) 0 old

/-- `sscanf(msg,"%*s %*s %s",value)` -/
def readPutValue (msg old : List Char) : List Char :=
  argStr (scan [.str false, .white, .str false, .white, .str true] msg) 0 old

/-- `sscanf(msg,"%*s %s %s %d",key,val,&vno)` -/
def readUpdate (msg : List Char) : List Arg :=
  scan [.str false, .white, .str true, .white, .str true, .white, .int] msg

/-- `sscanf(msg,"%*s %*s %s %d",value,&vno)` -/
def readValueVno (msg : List Char) : List Arg :=
  scan [.str false, .white, .str false, .white, .str true, .white, .int] msg

/-- `sscanf(recv_data,"%d %s %s",&vno,key,value)` -/
def readVote (msg : List Char) : List Arg :=
  scan [.int, .white, .str true, .white, .str true] msg

/-! ## What is printed is read back -/

/-- The message type is the first word. -/
theorem readMsgType_word {w rest : List Char} (hw : IsWord w) (old : List Char) :
    readMsgType (w ++ ' ' :: rest) old = w := by
  rw [readMsgType, scan_str_word hw (endsWord_space _)]
  rfl

@[simp] theorem readMsgType_getMsg (key old : List Char) :
    readMsgType (getMsg key) old = "GET".toList :=
  readMsgType_word (w := "GET".toList) (by decide) old

@[simp] theorem readMsgType_putMsg (key val old : List Char) :
    readMsgType (putMsg key val) old = "PUT".toList :=
  readMsgType_word (w := "PUT".toList) (by decide) old

@[simp] theorem readMsgType_updateMsg (key val old : List Char) (vno : ℤ) :
    readMsgType (updateMsg key val vno) old = "update".toList :=
  readMsgType_word (w := "update".toList) (by decide) old

@[simp] theorem readMsgType_releaselockMsg (key old : List Char) :
    readMsgType (releaselockMsg key) old = "releaselock".toList :=
  readMsgType_word (w := "releaselock".toList) (by decide) old

/-- Skip the message type, then read on at the key. -/
private theorem scan_skip_type {w key : List Char} (hw : IsWord w) (hkey : IsWord key)
    (rest : List Char) (ds : List Directive) :
    scan (.str false :: .white :: ds) (w ++ ' ' :: (key ++ rest)) = scan ds (key ++ rest) := by
  rw [scan_str_word hw (endsWord_space _), emit, if_neg (by simp),
    scan_white_space_word hkey]

theorem readKey_getMsg {key : List Char} (hkey : IsWord key) (old : List Char) :
    readKey (getMsg key) old = key := by
  have h := scan_skip_type (w := "GET".toList) (by decide) hkey [] [.str true]
  rw [List.append_nil, scan_str_word_nil hkey] at h
  rw [readKey, show getMsg key = "GET".toList ++ ' ' :: key from rfl, h]
  rfl

theorem readKey_putMsg {key val : List Char} (hkey : IsWord key) (old : List Char) :
    readKey (putMsg key val) old = key := by
  have h := scan_skip_type (w := "PUT".toList) (by decide) hkey (' ' :: val) [.str true]
  rw [scan_str_word hkey (endsWord_space _)] at h
  rw [readKey, show putMsg key val = "PUT".toList ++ ' ' :: (key ++ ' ' :: val) from rfl, h]
  rfl

theorem readPutValue_putMsg {key val : List Char} (hkey : IsWord key) (hval : IsWord val)
    (old : List Char) : readPutValue (putMsg key val) old = val := by
  have h := scan_skip_type (w := "PUT".toList) (by decide) hkey (' ' :: val)
    [.str false, .white, .str true]
  rw [scan_str_word hkey (endsWord_space _), emit, if_neg (by simp), scan_white_space_word_nil hval,
    scan_str_word_nil hval] at h
  rw [readPutValue, show putMsg key val = "PUT".toList ++ ' ' :: (key ++ ' ' :: val) from rfl, h]
  rfl

theorem readUpdate_updateMsg {key val : List Char} (hkey : IsWord key) (hval : IsWord val)
    (vno : ℤ) : readUpdate (updateMsg key val vno) = [.str key, .str val, .int vno] := by
  have h := scan_skip_type (w := "update".toList) (by decide) hkey
    (' ' :: (val ++ ' ' :: decimal vno)) [.str true, .white, .str true, .white, .int]
  rw [scan_str_word hkey (endsWord_space _), scan_white_space_word hval,
    scan_str_word hval (endsWord_space _), scan_white_space_word_nil (isWord_decimal vno),
    scan_int_decimal_nil vno] at h
  exact h

theorem readVote_voteMsg {key val : List Char} (hkey : IsWord key) (hval : IsWord val)
    (vno : ℤ) : readVote (voteMsg vno key val) = [.int vno, .str key, .str val] := by
  rw [readVote, voteMsg, scan_int_decimal vno (endsWord_space _), scan_white_space_word hkey,
    scan_str_word hkey (endsWord_space _), scan_white_space_word_nil hval,
    scan_str_word_nil hval]
  rfl

/-- The vote for a key the server does not hold is the bare version `0`. -/
theorem readVote_zero : readVote (decimal 0) = [.int 0] := by
  decide

/-! ## What survives the wire -/

/-- The two words that `readUpdate` finds. -/
theorem isWord_of_readUpdate {msg key val : List Char} {vno : ℤ}
    (h : readUpdate msg = [.str key, .str val, .int vno]) : IsWord key ∧ IsWord val := by
  unfold readUpdate at h
  obtain ⟨w, rest, hskip⟩ := exists_scan_str (h.trans_ne (List.cons_ne_nil _ _))
  rw [hskip, emit, if_neg (by simp), scan] at h
  obtain ⟨k, rest', hkey⟩ := exists_scan_str (h.trans_ne (List.cons_ne_nil _ _))
  have hval := h
  rw [hkey, emit, if_pos rfl, scan] at hval
  exact ⟨isWord_of_scan h, isWord_of_scan (List.cons.inj hval).2⟩

/-- An argument of the client that fits an array of `n` bytes. The client looks at nothing else. -/
structure Argument (n : ℕ) where
  chars : List Char
  ne_nil : chars ≠ []
  noNul : nul ∉ chars
  fits : chars.length < n

/-- The key, the value and the version that the server stores when it is sent this update, unless a word
is as long as the array that it is stored in. -/
def storedUpdate (msg : List Char) : Option (List Char × List Char × ℤ) :=
  match readUpdate msg with
  | [.str key, .str val, .int vno] =>
    if key.length < KEYSIZE ∧ val.length < VALSIZE then some (key, val, storedInt vno) else none
  | _ => none

/-- What the client stores when it is sent this vote. -/
def storedVote (msg : List Char) : Option (ℤ × List Char × List Char) :=
  match readVote msg with
  | [.int vno, .str key, .str val] =>
    if key.length < KEYSIZE ∧ val.length < VALSIZE then some (storedInt vno, key, val) else none
  | _ => none

/-- The server decodes exactly what the client sends in its update, and the client exactly what an
honest server replies for the entry that it makes of it. -/
structure Survives (key val : List Char) (vno : ℤ) : Prop where
  update : storedUpdate (updateMsg key val vno) = some (key, val, vno)
  reply : storedVote (voteMsg vno key val) = some (vno, key, val)

instance (key val : List Char) (vno : ℤ) : Decidable (Survives key val vno) :=
  decidable_of_iff (_ ∧ _) ⟨fun h => ⟨h.1, h.2⟩, fun h => ⟨h.update, h.reply⟩⟩

theorem isWord_of_storedUpdate {msg key val : List Char} {vno : ℤ}
    (h : storedUpdate msg = some (key, val, vno)) : IsWord key ∧ IsWord val := by
  unfold storedUpdate at h
  split at h
  · rename_i hread
    split at h
    · obtain ⟨rfl, hrest⟩ := Prod.mk.inj (Option.some.inj h)
      obtain ⟨rfl, -⟩ := Prod.mk.inj hrest
      exact isWord_of_readUpdate hread
    · cases h
  · cases h

/-- Keys and values that fit their arrays survive exactly if they are free of white space: neither side
quotes a blank. -/
theorem survives_iff (key : Argument KEYSIZE) (val : Argument VALSIZE) {vno : ℤ} (hvno : IsInt vno) :
    Survives key.chars val.chars vno ↔
      (∀ c ∈ key.chars, isSpace c = false) ∧ ∀ c ∈ val.chars, isSpace c = false := by
  constructor
  · intro h
    obtain ⟨hkey, hval⟩ := isWord_of_storedUpdate h.update
    exact ⟨hkey.2, hval.2⟩
  · rintro ⟨hkey, hval⟩
    have hkey : IsWord key.chars := ⟨key.ne_nil, hkey⟩
    have hval : IsWord val.chars := ⟨val.ne_nil, hval⟩
    constructor
    · rw [storedUpdate, readUpdate_updateMsg hkey hval]
      simp only [if_pos (And.intro key.fits val.fits), storedInt_of_isInt hvno]
    · rw [storedVote, readVote_voteMsg hkey hval]
      simp only [if_pos (And.intro key.fits val.fits), storedInt_of_isInt hvno]

/-- A key and a value as long as their arrays allow, and the smallest version. -/
theorem survives_iff_longest : Survives (List.replicate 49 'k') (List.replicate 49 'v') (-2147483648) :=
  (survives_iff ⟨List.replicate 49 'k', by decide, by decide, by decide⟩
    ⟨List.replicate 49 'v', by decide, by decide, by decide⟩ (by decide)).mpr
      ⟨List.forall_mem_replicate.mpr (Or.inr rfl), List.forall_mem_replicate.mpr (Or.inr rfl)⟩

theorem not_survives_blank : ∃ key val : List Char, key ≠ [] ∧ key.length < KEYSIZE ∧ nul ∉ key ∧
    val ≠ [] ∧ val.length < VALSIZE ∧ nul ∉ val ∧ ¬ Survives key val 1 := by
  refine ⟨"k1".toList, "two words".toList, by decide, by decide, by decide, by decide, by decide,
    by decide, fun h => ?_⟩
  exact absurd h.update (by decide)

end QuorumLogFs.Vote
