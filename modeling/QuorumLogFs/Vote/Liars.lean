import QuorumLogFs.Vote.Client
import QuorumLogFs.Vote.Sessions

/-!
# Lying servers

A server started as a lier appends `lie` to the value it delivers. A `GET` compares values among the
servers with the highest version: when the honest ones are in the majority there, it prints their
value and reports exactly the others.
-/

namespace QuorumLogFs.Vote

open QuorumLogFs.Basis

/-- What a server answers to `GET key`. -/
def getReply (lier : ℤ) (loc : Locals) (key : List Char) (t : Table) : Option (List Char) :=
  (responseServer lier loc (getMsg key) t).bind fun r => r.2.1

/-- The replies of the servers in `R`. -/
def getReplies (lier : ℕ → ℤ) (loc : ℕ → Locals) (key : List Char) (tables : ℕ → Table)
    (R : Finset ℕ) (i : ℕ) : Option (List Char) :=
  if i ∈ R then getReply (lier i) (loc i) key (tables i) else none

/-- The entry a server holds for a key. -/
def held (key : List Char) (t : Table) : KeyVal :=
  match searchKey key t with
  | some i => entry t i
  | none => initKeyValStruct

/-- A server holds an unlocked entry for `key`, with a nonnegative version and a value that is a
word; `lie` still fits behind it. -/
structure Serves (key : List Char) (t : Table) : Prop where
  holds : (searchKey key t).isSome
  unlocked : (held key t).lock = 0
  vno_nonneg : 0 ≤ (held key t).vno
  vno_int : IsInt (held key t).vno
  isWord : IsWord (held key t).value
  fits : (held key t).value.length + 3 < KEYSIZE

/-- The value a server delivers. -/
def delivered (lier : ℤ) (kv : KeyVal) : List Char :=
  if lier = 0 then kv.value else kv.value ++ "lie".toList

theorem isWord_delivered {lier : ℤ} {kv : KeyVal} (h : IsWord kv.value) :
    IsWord (delivered lier kv) := by
  rw [delivered]
  split
  · exact h
  · have hlie : IsWord "lie".toList := by decide
    refine ⟨by simp, fun c hc => ?_⟩
    rcases List.mem_append.mp hc with hc | hc
    · exact h.2 c hc
    · exact hlie.2 c hc

/-- A lie is not the value. -/
theorem delivered_eq_value {lier : ℤ} {kv : KeyVal} :
    delivered lier kv = kv.value ↔ lier = 0 := by
  rw [delivered]
  split
  · simp [*]
  · simp [*]

/-- A server that serves a key answers with its version, the key, and the value it delivers. -/
theorem getReply_of_serves (key : Word) {t : Table} (h : Serves key.chars t) (lier : ℤ) (loc : Locals) :
    getReply lier loc key.chars t =
      some (voteMsg (held key.chars t).vno key.chars (delivered lier (held key.chars t))) := by
  obtain ⟨i, hi⟩ := Option.isSome_iff_exists.mp h.holds
  have hheld : held key.chars t = entry t i := by simp [held, hi]
  have hlock := h.unlocked
  have hentry := key_entry_of_searchKey hi
  rw [hheld] at hlock ⊢
  simp only [getReply, responseServer_getMsg lier loc key.isWord key.fits_key, getResponseSend, hi, hlock,
    if_true, hentry, delivered, Option.bind_some]

/-- In a `GET` of `key` that reaches its quorum, let `V` be the highest version among the servers
that answer, and let all that store it store `v`. When the honest ones of these outnumber the lying
ones, an answer with the value `v` is chosen and printed, and the servers reported are exactly the
lying ones among those that store `V`. -/
theorem get_tolerates_liars {N : ℕ} (hN : N ≤ MAX_CON) {Nr Nw : ℤ} (key : Word)
    (lier : ℕ → ℤ) (loc : ℕ → Locals) (env : Env) (tables : ℕ → Table) {R : Finset ℕ}
    (hR : R ⊆ Finset.range N) (hquorum : Nr ≤ R.card)
    (hserves : ∀ i ∈ R, Serves key.chars (tables i)) {V : ℤ} {v : List Char}
    (hV : ∃ i ∈ R, (held key.chars (tables i)).vno = V)
    (hmax : ∀ i ∈ R, (held key.chars (tables i)).vno ≤ V)
    (hv : ∀ i ∈ R, (held key.chars (tables i)).vno = V → (held key.chars (tables i)).value = v)
    (hmajority : (R.filter fun i => (held key.chars (tables i)).vno = V ∧ lier i ≠ 0).card <
      (R.filter fun i => (held key.chars (tables i)).vno = V ∧ lier i = 0).card) :
    ∃ i ∈ R, ∃ lied,
      getReplies lier loc key.chars tables R i = some (voteMsg V key.chars v) ∧
      connectThreadGet N Nr Nw env (getReplies lier loc key.chars tables R) =
        .reading i key.chars v lied ∧
      ∀ j, j ∈ lied ↔ j ∈ R ∧ lier j ≠ 0 ∧ (held key.chars (tables j)).vno = V := by
  set replies := getReplies lier loc key.chars tables R with hreplies
  set kvs := keyVals_c env replies with hkvs
  have hreply : ∀ i ∈ R, replies i = some (voteMsg (held key.chars (tables i)).vno key.chars
      (delivered (lier i) (held key.chars (tables i)))) := by
    intro i hi
    rw [hreplies, getReplies, if_pos hi]
    exact getReply_of_serves key (hserves i hi) _ _
  -- what `connectTo` has stored for each of them
  have hslot : ∀ i ∈ R, (kvs i).vno = (held key.chars (tables i)).vno ∧
      (kvs i).key = key.chars ∧
      (kvs i).value = delivered (lier i) (held key.chars (tables i)) := by
    intro i hi
    rw [hkvs, keyVals_c, hreply i hi, connectTo_voteMsg _ _ key.isWord
      (isWord_delivered (hserves i hi).isWord) (hserves i hi).vno_int]
    exact ⟨rfl, rfl, rfl⟩
  have hanswered : ∀ i, i ∈ answered kvs (List.range N) ↔ i ∈ R := by
    intro i
    rw [hkvs, answered_keyVals_c, List.mem_filter, List.mem_range]
    constructor
    · rintro ⟨-, hsome⟩
      by_contra hi
      simp [hreplies, getReplies, hi] at hsome
    · intro hi
      exact ⟨Finset.mem_range.mp (hR hi), by rw [hreply i hi]; rfl⟩
  set items := getItems kvs V (List.range N) with hitems
  have hmem : ∀ w i, (w, i) ∈ items ↔ i ∈ R ∧ (held key.chars (tables i)).vno = V ∧
      delivered (lier i) (held key.chars (tables i)) = w := by
    intro w i
    rw [hitems, mem_getItems, hanswered]
    refine and_congr_right fun hi => ?_
    rw [(hslot i hi).1, (hslot i hi).2.2]
  have hhonest : ∀ i ∈ R, (held key.chars (tables i)).vno = V →
      (delivered (lier i) (held key.chars (tables i)) = v ↔ lier i = 0) := by
    intro i hi hiV
    rw [← hv i hi hiV, delivered_eq_value]
  have hcount : ∀ w, tally (items.map Prod.fst) w = (R.filter fun i =>
      (held key.chars (tables i)).vno = V ∧
        delivered (lier i) (held key.chars (tables i)) = w).card := by
    intro w
    rw [hitems, tally_getItems]
    congr 1
    ext i
    have hiff := hmem w i
    rw [hitems, mem_getItems, answered] at hiff
    simpa [and_assoc] using hiff
  -- the honest servers deliver `v`, every other value comes from lying ones only
  have hcountv : tally (items.map Prod.fst) v =
      (R.filter fun i => (held key.chars (tables i)).vno = V ∧ lier i = 0).card := by
    rw [hcount]
    congr 1
    refine Finset.filter_congr fun i hi => and_congr_right fun hiV => hhonest i hi hiV
  have hcountw : ∀ w, w ≠ v → tally (items.map Prod.fst) w < tally (items.map Prod.fst) v := by
    intro w hw
    rw [hcountv, hcount]
    refine (Finset.card_le_card fun i hi => ?_).trans_lt hmajority
    obtain ⟨hiR, hiV, hiw⟩ := Finset.mem_filter.mp hi
    exact Finset.mem_filter.mpr ⟨hiR, hiV, fun h0 => hw (hiw ▸ (hhonest i hiR hiV).mpr h0)⟩
  have hplur : IsPlurality (items.map Prod.fst) v := by
    refine ⟨tally_pos_iff.mp ?_, fun w _ hw => Or.inl (hcountw w hw)⟩
    omega
  obtain ⟨i₀, hi₀, hi₀V⟩ := hV
  have hresponses : ((responsesG N replies : ℕ) : ℤ) = R.card := by
    rw [← length_answered env, ← hkvs, ← List.toFinset_card_of_nodup (nodup_answered kvs N)]
    congr 2
    ext j
    rw [List.mem_toFinset]
    exact hanswered j
  obtain ⟨i, hreading, hi, hiV, hiv⟩ := connectThreadGet_reading Nr Nw env hN
    (hresponses ▸ hquorum) (hi₀V ▸ (hserves i₀ hi₀).vno_nonneg)
    ⟨i₀, (hanswered i₀).mpr hi₀, by rw [← hkvs, (hslot i₀ hi₀).1, hi₀V]⟩
    (fun j hj => by
      have hjR := (hanswered j).mp hj
      rw [← hkvs, (hslot j hjR).1]
      exact hmax j hjR) hplur
  have hiR := (hanswered i).mp hi
  refine ⟨i, hiR, minority (group items), ?_, ?_, fun j => ?_⟩
  · rw [hreply i hiR, ← (hslot i hiR).1, ← (hslot i hiR).2.2, hiV, hiv]
  · rw [hreading, ← hkvs, (hslot i hiR).2.1]
  · rw [mem_minority_group hplur]
    constructor
    · rintro ⟨w, hw, hlt⟩
      obtain ⟨hjR, hjV, hjw⟩ := (hmem w j).mp hw
      refine ⟨hjR, fun h0 => ?_, hjV⟩
      rw [← hjw, (hhonest j hjR hjV).mpr h0] at hlt
      exact lt_irrefl _ hlt
    · rintro ⟨hjR, hj0, hjV⟩
      refine ⟨_, (hmem _ j).mpr ⟨hjR, hjV, rfl⟩, hcountw _ fun hjv => hj0 ?_⟩
      exact (hhonest j hjR hjV).mp hjv

/-- The initial table serves its key. -/
theorem serves_initTable : Serves "key1".toList initTable where
  holds := rfl
  unlocked := rfl
  vno_nonneg := by decide
  vno_int := by decide
  isWord := by decide
  fits := by decide

/-- Three servers, one of them lying. -/
theorem get_tolerates_one_liar :
    ∃ i ∈ ({0, 1, 2} : Finset ℕ), ∃ lied,
      getReplies (fun i => if i = 1 then 1 else 0) (fun _ => {}) "key1".toList (fun _ => initTable)
        {0, 1, 2} i = some (voteMsg 1 "key1".toList "value1".toList) ∧
      connectThreadGet 3 2 2 {} (getReplies (fun i => if i = 1 then 1 else 0) (fun _ => {})
        "key1".toList (fun _ => initTable) {0, 1, 2}) =
          .reading i "key1".toList "value1".toList lied ∧
      ∀ j, j ∈ lied ↔ j ∈ ({0, 1, 2} : Finset ℕ) ∧ (if j = 1 then (1 : ℤ) else 0) ≠ 0 ∧
        (held "key1".toList initTable).vno = 1 :=
  get_tolerates_liars (by decide) (Word.ofString "key1") _ _ {} _ (by decide) (by decide)
    (fun _ _ => serves_initTable) ⟨0, by decide, rfl⟩ (fun _ _ => le_rfl) (fun _ _ _ => rfl)
    (by decide)

/-- With more servers than `MAX_CON` the clearing loop leaves the table, even when a single honest
server answers. -/
theorem get_more_than_MAX_CON :
    Serves "key1".toList initTable ∧
      (({0} : Finset ℕ).filter fun _ => (held "key1".toList initTable).vno = 1 ∧
        (0 : ℤ) ≠ 0).card < (({0} : Finset ℕ).filter fun _ =>
        (held "key1".toList initTable).vno = 1 ∧ (0 : ℤ) = 0).card ∧
      connectThreadGet 1001 1 1001 {}
        (getReplies (fun _ => 0) (fun _ => {}) "key1".toList (fun _ => initTable) {0}) =
        .outOfTable := by
  refine ⟨serves_initTable, by decide, ?_⟩
  have hresponses : responsesG 1001
      (getReplies (fun _ => 0) (fun _ => {}) "key1".toList (fun _ => initTable) {0}) ≠ 0 := by
    rw [responsesG, ← Nat.pos_iff_ne_zero, List.countP_pos_iff]
    exact ⟨0, by simp, by decide⟩
  rw [connectThreadGet, if_neg (by omega)]
  simp [selectServer, MAX_CON]

end QuorumLogFs.Vote
