import QuorumLogFs.Vote.Client

/-!
# What the client selects

Reference: `Client.c`, `selectServer`.

The two branches of `selectServer` stated without the bucket table. A `GET` holds an election by
value among the servers that answered with the highest version, a `PUT` one by version among all
servers that answered; both return the first server of the winning side. `Elected` is that election.
-/

namespace QuorumLogFs.Vote

open QuorumLogFs.Basis

/-- The servers that answered. -/
def responders (kvs : ℕ → KeyVal) (N : ℕ) : Finset ℕ :=
  (Finset.range N).filter fun i => (kvs i).sock ≠ -1

/-- The servers that answered with version `M`. -/
def holders (kvs : ℕ → KeyVal) (N : ℕ) (M : ℤ) : Finset ℕ :=
  (responders kvs N).filter fun i => (kvs i).vno = M

/-- The slots left by servers that answered with these versions and values. -/
def votesOf (replies : List (ℤ × List Char)) (i : ℕ) : KeyVal :=
  match replies[i]? with
  | some (vno, value) => { initKeyValStruct with sock := 0, vno := vno, value := value }
  | none => initKeyValStruct

theorem mem_responders {kvs : ℕ → KeyVal} {N i : ℕ} :
    i ∈ responders kvs N ↔ i ∈ answered kvs (List.range N) := by
  simp [responders, answered]

theorem toFinset_answered (kvs : ℕ → KeyVal) (N : ℕ) :
    (answered kvs (List.range N)).toFinset = responders kvs N := by
  ext i
  rw [List.mem_toFinset, mem_responders]

theorem card_responders (kvs : ℕ → KeyVal) (N : ℕ) :
    (responders kvs N).card = (answered kvs (List.range N)).length := by
  rw [← toFinset_answered, List.toFinset_card_of_nodup (nodup_answered kvs N)]

theorem sorted_answered (kvs : ℕ → KeyVal) (N : ℕ) :
    (answered kvs (List.range N)).Pairwise (· < ·) :=
  List.pairwise_lt_range.filter _

/-- A `GET` whose answers reach the quorum, one of them with a version that counts, takes a server that
has answered with the highest version and with the plurality value of this version. -/
theorem selectServer_get_chosen (table : HashTable) (Nr Nw : ℤ) {N : ℕ} {kvs : ℕ → KeyVal}
    (hN : N ≤ MAX_CON) (hquorum : Nr ≤ (answered kvs (List.range N)).length)
    (hsome : ∃ i ∈ answered kvs (List.range N), 0 ≤ (kvs i).vno) :
    ∃ i ∈ answered kvs (List.range N),
      (∀ j ∈ answered kvs (List.range N), (kvs j).vno ≤ (kvs i).vno) ∧
      IsPlurality ((getItems kvs (kvs i).vno (List.range N)).map Prod.fst) (kvs i).value ∧
      selectServer table .get Nr Nw N kvs =
        .chosen i (minority (group (getItems kvs (kvs i).vno (List.range N)))) := by
  obtain ⟨i₀, hi₀, hpos₀⟩ := hsome
  obtain ⟨m, hm, hmax⟩ := Finset.exists_max_image (responders kvs N) (fun i => (kvs i).vno)
    ⟨i₀, mem_responders.mpr hi₀⟩
  have hupper : ∀ j ∈ answered kvs (List.range N), (kvs j).vno ≤ (kvs m).vno := fun j hj =>
    hmax j (mem_responders.mpr hj)
  have hmem : ((kvs m).value, m) ∈ getItems kvs (kvs m).vno (List.range N) :=
    mem_getItems.mpr ⟨mem_responders.mp hm, rfl, rfl⟩
  have hne : (getItems kvs (kvs m).vno (List.range N)).map Prod.fst ≠ [] :=
    List.ne_nil_of_mem (List.mem_map_of_mem hmem)
  obtain ⟨v, hv⟩ := exists_isPlurality hne
  obtain ⟨i, is, his⟩ := List.exists_cons_of_ne_nil (members_ne_nil_of_mem hv.1)
  obtain ⟨hi, hiV, hiv⟩ := mem_getItems.mp (mem_members.mp (his ▸ List.mem_cons_self))
  have hchosen := selectServer_get table Nr Nw hN hquorum (hpos₀.trans (hupper i₀ hi₀))
    ⟨m, mem_responders.mp hm, rfl⟩ hupper (plurality_group hv)
  rw [his, List.headD_cons] at hchosen
  rw [← hiV] at hv hchosen hupper
  exact ⟨i, hi, hupper, hiv ▸ hv, hchosen⟩

/-- A `GET` whose answers reach the quorum, one of them with a version that counts: the election by
value among the servers with the highest version is returned, and the servers reported are those of
the values with fewer votes. What the table held before does not matter. -/
theorem selectServer_get_elects (table : HashTable) (Nr Nw : ℤ) {N : ℕ} {kvs : ℕ → KeyVal}
    (hN : N ≤ MAX_CON) (hquorum : Nr ≤ (responders kvs N).card)
    (hsome : ∃ i ∈ responders kvs N, 0 ≤ (kvs i).vno) :
    ∃ M i lied, selectServer table .get Nr Nw N kvs = .chosen i lied ∧
      IsGreatest {v | 0 ≤ v ∧ (holders kvs N v).Nonempty} M ∧
      Elected (holders kvs N M) (fun j => (kvs j).value) i ∧
      ∀ j, j ∈ lied ↔ j ∈ holders kvs N M ∧
        votes (holders kvs N M) (fun j => (kvs j).value) (kvs j).value <
          votes (holders kvs N M) (fun j => (kvs j).value) (kvs i).value := by
  obtain ⟨i₀, hi₀, hpos₀⟩ := hsome
  obtain ⟨m, hm, hmax⟩ := Finset.exists_max_image (responders kvs N) (fun i => (kvs i).vno) ⟨i₀, hi₀⟩
  have hpos : 0 ≤ (kvs m).vno := hpos₀.trans (hmax i₀ hi₀)
  have hgreatest : IsGreatest {v | 0 ≤ v ∧ (holders kvs N v).Nonempty} (kvs m).vno := by
    refine ⟨⟨hpos, m, Finset.mem_filter.mpr ⟨hm, rfl⟩⟩, ?_⟩
    rintro v ⟨-, j, hj⟩
    obtain ⟨hjR, rfl⟩ := Finset.mem_filter.mp hj
    exact hmax j hjR
  -- what the loop files: the servers with this version, in ascending order
  set is := (answered kvs (List.range N)).filter fun i => (kvs i).vno = (kvs m).vno with his
  have hset : is.toFinset = holders kvs N (kvs m).vno := by
    ext j
    rw [his, List.mem_toFinset, List.mem_filter, holders, Finset.mem_filter, mem_responders,
      decide_eq_true_iff]
  have hitems : getItems kvs (kvs m).vno (List.range N) = is.map fun i => ((kvs i).value, i) := rfl
  have hne : is.map (fun i => (kvs i).value) ≠ [] := by
    intro hnil
    have hmem : m ∈ is := by
      rw [← List.mem_toFinset, hset]
      exact Finset.mem_filter.mpr ⟨hm, rfl⟩
    rw [List.map_eq_nil_iff.mp hnil] at hmem
    cases hmem
  obtain ⟨v, hv⟩ := exists_isPlurality hne
  have hsorted : is.Pairwise (· < ·) := (sorted_answered kvs N).filter _
  obtain ⟨i, rest, hmembers, hiv, helected⟩ := elected_of_isPlurality hsorted hv
  rw [hset] at helected
  have hv' : IsPlurality ((getItems kvs (kvs m).vno (List.range N)).map Prod.fst) v := by
    rw [hitems, List.map_map]
    exact hv
  have hchosen := selectServer_get table Nr Nw hN (by rwa [← card_responders]) hpos
    ⟨m, mem_responders.mp hm, rfl⟩ (fun j hj => hmax j (mem_responders.mpr hj))
    (plurality_group hv')
  rw [hitems, hmembers] at hchosen
  refine ⟨_, i, _, hchosen, hgreatest, helected, fun j => ?_⟩
  rw [← hitems, mem_minority_group hv', hitems, List.map_map]
  have htally := tally_map_label (hsorted.imp fun h => h.ne) fun j => (kvs j).value
  show (∃ k', (k', j) ∈ _ ∧ tally (is.map fun j => (kvs j).value) k' <
    tally (is.map fun j => (kvs j).value) v) ↔ _
  simp only [htally, hset, ← hiv]
  constructor
  · rintro ⟨w, hw, hlt⟩
    obtain ⟨j', hj', hpair⟩ := List.mem_map.mp hw
    obtain ⟨rfl, rfl⟩ := Prod.mk.inj hpair
    exact ⟨by rw [← hset]; exact List.mem_toFinset.mpr hj', hlt⟩
  · rintro ⟨hj, hlt⟩
    rw [← hset] at hj
    exact ⟨_, List.mem_map.mpr ⟨j, List.mem_toFinset.mp hj, rfl⟩, hlt⟩

/-- Four servers; the table still holds members of an earlier run. -/
theorem selectServer_get_elects_four :
    let kvs := votesOf [(1, ['a']), (3, ['b']), (3, ['c']), (3, ['c'])]
    ∃ M i lied, selectServer (fun _ => ⟨['c'], [7], 3⟩) .get 3 3 4 kvs = .chosen i lied ∧
      IsGreatest {v | 0 ≤ v ∧ (holders kvs 4 v).Nonempty} M ∧
      Elected (holders kvs 4 M) (fun j => (kvs j).value) i ∧
      ∀ j, j ∈ lied ↔ j ∈ holders kvs 4 M ∧
        votes (holders kvs 4 M) (fun j => (kvs j).value) (kvs j).value <
          votes (holders kvs 4 M) (fun j => (kvs j).value) (kvs i).value :=
  selectServer_get_elects _ 3 3 (by decide) (by decide) (by decide)

/-- What the loop for a `PUT` leaves, from the table a process starts with. -/
def putFiling (N : ℕ) (kvs : ℕ → KeyVal) : Filing :=
  (List.range N).foldl (filePut kvs) { table := hashTable.clear N, index := 0, max := -1 }

/-- Every server that answered stands once in the bucket of its version and in no other bucket. -/
theorem putFiling_buckets (N : ℕ) {kvs : ℕ → KeyVal} {j : ℕ} (hj : j ∈ responders kvs N) :
    ∃ b < (putFiling N kvs).index, ((putFiling N kvs).table b).verNo = (kvs j).vno ∧
      ((putFiling N kvs).table b).idx.count j = 1 ∧
      ∀ b' < (putFiling N kvs).index, b' ≠ b → j ∉ ((putFiling N kvs).table b').idx := by
  have hclear : ∀ j, ((hashTable.clear N) j).idx = [] := fun j => idx_clear (Or.inr rfl)
  have hbuckets := (putFiled_foldl kvs (List.range N) (-1) hclear).buckets
  rw [show (List.range N).foldl _ _ = putFiling N kvs from rfl] at hbuckets
  set s := putFiling N kvs
  have hitem : ((kvs j).vno, j) ∈ putItems kvs (List.range N) :=
    List.mem_map.mpr ⟨j, mem_responders.mp hj, rfl⟩
  -- entry `b` of the table is bucket `b`
  have hrow : ∀ b < s.index, (group (putItems kvs (List.range N)))[b]? =
      some ((s.table b).verNo, (s.table b).idx) := by
    intro b hb
    rw [← hbuckets, HashTable.buckets, List.getElem?_map, List.getElem?_range hb]
    rfl
  obtain ⟨b, hb, hother⟩ := exists_bucket hitem
  have hlt : b < s.index := by
    obtain ⟨hlen, -⟩ := List.getElem?_eq_some_iff.mp hb
    rwa [← hbuckets, HashTable.length_buckets] at hlen
  obtain ⟨hver, hidx⟩ := Prod.mk.inj (Option.some.inj ((hrow b hlt).symm.trans hb))
  refine ⟨b, hlt, hver, ?_, fun b' hb' hne hmem => ?_⟩
  · rw [hidx]
    refine List.count_eq_one_of_mem ?_ (mem_members.mpr hitem)
    rw [putItems, members_map_label]
    exact (nodup_answered kvs N).filter _
  · have hsnd : (s.table b').idx = members _ (s.table b').verNo :=
      snd_of_mem_group (List.mem_of_getElem? (hrow b' hb'))
    rw [hsnd] at hmem
    obtain ⟨j', -, hpair⟩ := List.mem_map.mp (mem_members.mp hmem)
    obtain ⟨hver', rfl⟩ := Prod.mk.inj hpair
    exact hother b' _ _ (hrow b' hb') hne hver'.symm

/-- A `PUT` whose answers reach the quorum: the election by version among all servers that answered
is returned, each of them was filed in exactly one bucket, and the servers reported are those with a
version above the elected one that has another number of votes. -/
theorem selectServer_put_elects (Nr Nw : ℤ) {N : ℕ} {kvs : ℕ → KeyVal} (hN : N < MAX_CON)
    (hquorum : Nw ≤ (responders kvs N).card) (hsome : (responders kvs N).Nonempty) :
    ∃ i lied, selectServer hashTable .put Nr Nw N kvs = .chosen i lied ∧
      Elected (responders kvs N) (fun j => (kvs j).vno) i ∧
      (∀ j ∈ responders kvs N, ∃ b < (putFiling N kvs).index,
        ((putFiling N kvs).table b).verNo = (kvs j).vno ∧
        ((putFiling N kvs).table b).idx.count j = 1 ∧
        ∀ b' < (putFiling N kvs).index, b' ≠ b → j ∉ ((putFiling N kvs).table b').idx) ∧
      ∀ j, j ∈ lied ↔ j ∈ responders kvs N ∧ (kvs i).vno < (kvs j).vno ∧
        votes (responders kvs N) (fun j => (kvs j).vno) (kvs j).vno ≠
          votes (responders kvs N) (fun j => (kvs j).vno) (kvs i).vno := by
  set is := answered kvs (List.range N) with his
  have hset : is.toFinset = responders kvs N := toFinset_answered kvs N
  have hitems : putItems kvs (List.range N) = is.map fun i => ((kvs i).vno, i) := rfl
  obtain ⟨i₀, hi₀⟩ := hsome
  have hne : is.map (fun i => (kvs i).vno) ≠ [] := by
    intro hnil
    have hmem := mem_responders.mp hi₀
    rw [← his, List.map_eq_nil_iff.mp hnil] at hmem
    cases hmem
  obtain ⟨m, hm⟩ := exists_isPlurality hne
  obtain ⟨i, rest, hmembers, rfl, helected⟩ := elected_of_isPlurality (sorted_answered kvs N) hm
  rw [← his] at hmembers helected
  rw [hset] at helected
  have hm' : IsPlurality ((putItems kvs (List.range N)).map Prod.fst) (kvs i).vno := by
    rw [hitems, List.map_map]
    exact hm
  have hindex : (group (putItems kvs (List.range N))).length < MAX_CON := by
    have hle := length_group_le (putItems kvs (List.range N))
    have hlen : is.length ≤ N := by
      rw [← card_responders]
      exact (Finset.card_filter_le _ _).trans (Finset.card_range N).le
    rw [length_putItems, ← his] at hle
    omega
  have hchosen := selectServer_put hashTable (fun _ => rfl) Nr Nw hN.le
    (by rwa [← card_responders]) hindex (plurality_group hm')
  have htally := tally_map_label (nodup_answered kvs N) fun j => (kvs j).vno
  rw [← his, hset] at htally
  have hsize : ∀ k, (members (putItems kvs (List.range N)) k).length =
      votes (responders kvs N) (fun j => (kvs j).vno) k := by
    intro k
    rw [length_members, hitems, List.map_map, ← htally]
    rfl
  rw [hsize, hitems, hmembers, ← hitems] at hchosen
  refine ⟨i, _, hchosen, helected, fun j hj => putFiling_buckets N hj, fun j => ?_⟩
  simp only [aheadOf, List.mem_flatMap, List.mem_filter, decide_eq_true_eq]
  constructor
  · rintro ⟨b, ⟨hb, hcount, hlt⟩, hj⟩
    have hmembers' := snd_of_mem_group hb
    rw [hmembers'] at hj hcount
    obtain ⟨j', hj', hpair⟩ := List.mem_map.mp (mem_members.mp hj)
    obtain ⟨hver, rfl⟩ := Prod.mk.inj hpair
    rw [hsize, ← hver] at hcount
    exact ⟨mem_responders.mpr hj', hver ▸ hlt, hcount⟩
  · rintro ⟨hj, hlt, hcount⟩
    have hitem : ((kvs j).vno, j) ∈ putItems kvs (List.range N) :=
      List.mem_map.mpr ⟨j, mem_responders.mp hj, rfl⟩
    refine ⟨((kvs j).vno, members _ (kvs j).vno),
      ⟨mem_group_iff.mpr ⟨List.mem_map.mpr ⟨_, hitem, rfl⟩, rfl⟩, ?_, hlt⟩,
      mem_members.mpr hitem⟩
    rwa [hsize]

/-- Four servers, two of them behind. -/
theorem selectServer_put_elects_four :
    let kvs := votesOf [(1, ['a']), (3, ['b']), (1, ['a']), (2, ['c'])]
    ∃ i lied, selectServer hashTable .put 3 3 4 kvs = .chosen i lied ∧
      Elected (responders kvs 4) (fun j => (kvs j).vno) i ∧
      (∀ j ∈ responders kvs 4, ∃ b < (putFiling 4 kvs).index,
        ((putFiling 4 kvs).table b).verNo = (kvs j).vno ∧
        ((putFiling 4 kvs).table b).idx.count j = 1 ∧
        ∀ b' < (putFiling 4 kvs).index, b' ≠ b → j ∉ ((putFiling 4 kvs).table b').idx) ∧
      ∀ j, j ∈ lied ↔ j ∈ responders kvs 4 ∧ (kvs i).vno < (kvs j).vno ∧
        votes (responders kvs 4) (fun j => (kvs j).vno) (kvs j).vno ≠
          votes (responders kvs 4) (fun j => (kvs j).vno) (kvs i).vno :=
  selectServer_put_elects 3 3 (by decide) (by decide) (by decide)

end QuorumLogFs.Vote
