import QuorumLogFs.Basis.Tally
import QuorumLogFs.Vote.Server

/-!
# The client's choice of a server

Reference: `Client.c`, `selectServer`.

`selectServer` files the servers that answered into the buckets of `hashTable`: for a `GET` by the
value they delivered, for a `PUT` by the version they voted. The buckets in use are the first
`index + 1` (`GET`) or `index` (`PUT`) entries of the table; entries behind them, and after a higher
version also entries among them, still hold what was filed earlier. `selectServer_get` and
`selectServer_put` say what the function returns without the table: the head of the plurality bucket.
-/

namespace QuorumLogFs.Vote

open QuorumLogFs.Basis

/-- `MAX_CON`, the length of `hashTable.hashMap` and of each `idx`. -/
def MAX_CON : ℕ := 1000

/-- `msgType`, for the two kinds of message that reach `selectServer`. -/
inductive MsgType where
  | get
  | put
deriving DecidableEq, Repr

/-- `HashMap`. `idx` holds the first `count` entries of the array; no other entry is read. -/
structure HashMap where
  keyValuePair : List Char
  idx : List ℕ
  verNo : ℤ
deriving DecidableEq, Repr

/-- `hashMap[i].count` -/
def HashMap.count (h : HashMap) : ℕ := h.idx.length

/-- `hashTable.hashMap` -/
abbrev HashTable := ℕ → HashMap

/-- The table a process starts with: it is static, so it is zeroed. -/
def hashTable : HashTable := fun _ => { keyValuePair := [], idx := [], verNo := 0 }

/-- `for (i = 0; i < N; i++) hashMap[i].count = 0` -/
def HashTable.clear (table : HashTable) (N : ℕ) : HashTable :=
  fun i => if i < N then { table i with idx := [] } else table i

/-- One pass over the first `n` entries that files server `i` with those that match. -/
def HashTable.bump (table : HashTable) (n : ℕ) (p : HashMap → Bool) (i : ℕ) : HashTable :=
  fun xy => if xy < n ∧ p (table xy) then { table xy with idx := (table xy).idx ++ [i] } else table xy

/-- The local variables of the two filing loops. -/
structure Filing where
  table : HashTable
  index : ℕ
  max : ℤ

/-- The body of the loop over the servers for a `GET`. -/
def fileGet (kvs : ℕ → KeyVal) (s : Filing) (i : ℕ) : Filing :=
  if (kvs i).sock ≠ -1 ∧ 0 ≤ (kvs i).vno then
    let tmp := (kvs i).value
    if s.max < (kvs i).vno then
      { table := Function.update s.table 0 { s.table 0 with keyValuePair := tmp, idx := [i] }
        index := 0
        max := (kvs i).vno }
    else if (kvs i).vno = s.max then
      let same := fun h : HashMap => decide (h.keyValuePair = tmp)
      if ∃ xy, xy < s.index + 1 ∧ same (s.table xy) then
        { s with table := s.table.bump (s.index + 1) same i }
      else
        { s with
          table := Function.update s.table (s.index + 1)
            { s.table (s.index + 1) with keyValuePair := tmp, idx := [i] }
          index := s.index + 1 }
    else s
  else s

/-- The body of the loop over the servers for a `PUT`. -/
def filePut (kvs : ℕ → KeyVal) (s : Filing) (i : ℕ) : Filing :=
  if (kvs i).sock ≠ -1 then
    let same := fun h : HashMap => decide (h.verNo = (kvs i).vno)
    if ∃ ij, ij < s.index ∧ same (s.table ij) then
      { s with table := s.table.bump s.index same i }
    else
      { s with
        table := Function.update s.table s.index
          { s.table s.index with idx := [i], verNo := (kvs i).vno }
        index := s.index + 1 }
  else s

/-- How `selectServer` ends. -/
inductive Selection where
  /-- `exit` with fewer answers than the quorum. -/
  | lesserQuorum
  /-- An access outside `hashTable`; what follows is not defined. -/
  | outOfTable
  /-- The index returned and the servers reported to have lied. -/
  | chosen (i : ℕ) (lied : List ℕ)
deriving DecidableEq, Repr

/-- The servers of the buckets that the last loop reports: for a `GET` the smaller ones, for a `PUT`
those of another size with a higher version. -/
def liedServers (msgType : MsgType) (table : HashTable) (index retVal : ℕ) (maxVno : ℤ) : List ℕ :=
  ((List.range (index + 1)).filter fun i => match msgType with
    | .get => (table i).count < retVal
    | .put => (table i).count ≠ retVal ∧ maxVno < (table i).verNo).flatMap fun i => (table i).idx

/-- `selectServer`. The clearing loop leaves the table when there are more than `MAX_CON` servers,
the last loops when `index` has reached `MAX_CON`; in between `index` is smaller than the number of
servers. `retIndex` is `-1` when no bucket has a member. -/
def selectServer (table : HashTable) (msgType : MsgType) (Nr Nw : ℤ) (N : ℕ) (kvs : ℕ → KeyVal) :
    Selection :=
  if MAX_CON < N then .outOfTable
  else
    let nrnwCheck := (List.range N).countP fun i => (kvs i).sock ≠ -1
    if (nrnwCheck : ℤ) < (match msgType with | .get => Nr | .put => Nw) then .lesserQuorum
    else
      let start : Filing := { table := table.clear N, index := 0, max := -1 }
      let s := (List.range N).foldl (match msgType with
        | .get => fileGet kvs
        | .put => filePut kvs) start
      if MAX_CON < s.index + 1 then .outOfTable
      else
        let best := firstMax ((List.range (s.index + 1)).map fun i => (s.table i).count)
        match best.2 with
        | none => .outOfTable
        | some retIndex =>
          .chosen ((s.table retIndex).idx.headD 0)
            (liedServers msgType s.table s.index best.1 (s.table retIndex).verNo)

/-! ## The table as buckets -/

/-- The first `n` entries of the table as buckets under `key`. -/
def HashTable.buckets {κ : Type*} (table : HashTable) (key : HashMap → κ) (n : ℕ) : Buckets κ ℕ :=
  (List.range n).map fun j => (key (table j), (table j).idx)

section Buckets

variable {κ : Type*} {key : HashMap → κ}

@[simp] theorem HashTable.length_buckets (table : HashTable) (n : ℕ) :
    (table.buckets key n).length = n := by
  simp [HashTable.buckets]

theorem HashTable.buckets_succ (table : HashTable) (n : ℕ) :
    table.buckets key (n + 1) = table.buckets key n ++ [(key (table n), (table n).idx)] := by
  simp [HashTable.buckets, List.range_succ]

theorem HashTable.mem_map_fst_buckets {table : HashTable} {n : ℕ} {k : κ} :
    k ∈ (table.buckets key n).map Prod.fst ↔ ∃ xy, xy < n ∧ key (table xy) = k := by
  simp [HashTable.buckets]

/-- A write behind the buckets in use is not seen. -/
theorem HashTable.buckets_update (table : HashTable) (n : ℕ) (h : HashMap) :
    HashTable.buckets (Function.update table n h) key n = table.buckets key n := by
  refine List.map_congr_left fun j hj => ?_
  rw [Function.update_of_ne (List.mem_range.mp hj).ne]

/-- What a bucket says about the entry it stands for. -/
theorem HashTable.row_of_bucket {table : HashTable} {n r : ℕ} {k : κ} {is : List ℕ}
    (h : (table.buckets key n)[r]? = some (k, is)) : key (table r) = k ∧ (table r).idx = is := by
  rw [HashTable.buckets, List.getElem?_map, Option.map_eq_some_iff] at h
  obtain ⟨r', hr', hpair⟩ := h
  obtain ⟨hlt, hget⟩ := List.getElem?_eq_some_iff.mp hr'
  obtain rfl : r = r' := by simpa using hget
  exact Prod.mk.inj hpair

variable [DecidableEq κ]

/-- Filing a server under a key that has a bucket. -/
theorem HashTable.buckets_bump (hkey : ∀ h idx, key { h with idx := idx } = key h)
    {table : HashTable} {n i : ℕ} {k : κ} {p : HashMap → Bool} (hp : ∀ h, p h ↔ key h = k)
    (hex : ∃ xy, xy < n ∧ p (table xy)) :
    (table.bump n p i).buckets key n = (table.buckets key n).add k i := by
  have hmem : k ∈ (table.buckets key n).map Prod.fst := by
    obtain ⟨xy, hxy, hpxy⟩ := hex
    exact mem_map_fst_buckets.mpr ⟨xy, hxy, (hp _).mp hpxy⟩
  rw [Buckets.add, if_pos hmem, buckets, buckets, List.map_map]
  refine List.map_congr_left fun j hj => ?_
  have hjn := List.mem_range.mp hj
  by_cases hk : key (table j) = k
  · simp [bump, hjn, (hp _).mpr hk, hk, hkey]
  · have hpj : p (table j) = false := by
      rw [Bool.eq_false_iff]
      exact fun h => hk ((hp _).mp h)
    simp [bump, hjn, hpj, hk]

/-- Filing a server under a new key, in the entry behind the buckets in use. -/
theorem HashTable.buckets_open {table : HashTable} {n i : ℕ} {k : κ} {p : HashMap → Bool}
    (hp : ∀ h, p h ↔ key h = k) (hnex : ¬ ∃ xy, xy < n ∧ p (table xy)) {h : HashMap}
    (hk : key h = k) (hidx : h.idx = [i]) :
    HashTable.buckets (Function.update table n h) key (n + 1) = (table.buckets key n).add k i := by
  have hmem : k ∉ (table.buckets key n).map Prod.fst := by
    intro hmem
    obtain ⟨xy, hxy, hkxy⟩ := mem_map_fst_buckets.mp hmem
    exact hnex ⟨xy, hxy, (hp _).mpr hkxy⟩
  rw [Buckets.add, if_neg hmem, buckets_succ, buckets_update, Function.update_self, hk, hidx]

end Buckets

/-! ## The filing loops -/

/-- The servers among `is` that answered. -/
def answered (kvs : ℕ → KeyVal) (is : List ℕ) : List ℕ := is.filter fun i => (kvs i).sock ≠ -1

/-- What a `GET` files when `V` is the highest version: the servers that answered with it, under
their values. -/
def getItems (kvs : ℕ → KeyVal) (V : ℤ) (is : List ℕ) : List (List Char × ℕ) :=
  ((answered kvs is).filter fun i => (kvs i).vno = V).map fun i => ((kvs i).value, i)

/-- What a `PUT` files: the servers that answered, under their versions. -/
def putItems (kvs : ℕ → KeyVal) (is : List ℕ) : List (ℤ × ℕ) :=
  (answered kvs is).map fun i => ((kvs i).vno, i)

/-- The loop invariant of the `GET` loop: nothing filed yet, or all of the highest version. -/
structure GetFiled (kvs : ℕ → KeyVal) (is : List ℕ) (s : Filing) : Prop where
  upper : ∀ i ∈ answered kvs is, 0 ≤ (kvs i).vno → (kvs i).vno ≤ s.max
  state : (s.max = -1 ∧ s.index = 0 ∧ (s.table 0).idx = []) ∨
    (0 ≤ s.max ∧ (∃ i ∈ answered kvs is, (kvs i).vno = s.max) ∧
      s.table.buckets HashMap.keyValuePair (s.index + 1) = group (getItems kvs s.max is))

theorem nodup_answered (kvs : ℕ → KeyVal) (N : ℕ) : (answered kvs (List.range N)).Nodup :=
  List.nodup_range.filter _

theorem answered_snoc (kvs : ℕ → KeyVal) (is : List ℕ) (i : ℕ) :
    answered kvs (is ++ [i]) =
      if (kvs i).sock ≠ -1 then answered kvs is ++ [i] else answered kvs is := by
  by_cases h : (kvs i).sock = -1 <;> simp [answered, h]

theorem getItems_snoc (kvs : ℕ → KeyVal) (V : ℤ) (is : List ℕ) (i : ℕ) :
    getItems kvs V (is ++ [i]) =
      if (kvs i).sock ≠ -1 ∧ (kvs i).vno = V then getItems kvs V is ++ [((kvs i).value, i)]
      else getItems kvs V is := by
  by_cases h : (kvs i).sock = -1 <;> by_cases hV : (kvs i).vno = V <;>
    simp [getItems, answered_snoc, h, hV]

theorem putItems_snoc (kvs : ℕ → KeyVal) (is : List ℕ) (i : ℕ) :
    putItems kvs (is ++ [i]) =
      if (kvs i).sock ≠ -1 then putItems kvs is ++ [((kvs i).vno, i)] else putItems kvs is := by
  by_cases h : (kvs i).sock = -1 <;> simp [putItems, answered_snoc, h]

/-- No server among `is` answered with a version above all of theirs. -/
theorem getItems_of_upper {kvs : ℕ → KeyVal} {V max : ℤ} {is : List ℕ} (hV : 0 ≤ V)
    (hmax : max < V) (hupper : ∀ i ∈ answered kvs is, 0 ≤ (kvs i).vno → (kvs i).vno ≤ max) :
    getItems kvs V is = [] := by
  rw [getItems, List.map_eq_nil_iff, List.filter_eq_nil_iff]
  intro i hi hVi
  have hVi : (kvs i).vno = V := of_decide_eq_true hVi
  have := hupper i hi (by omega)
  omega

/-- One server filed by the `GET` loop. -/
theorem GetFiled.step {kvs : ℕ → KeyVal} {is : List ℕ} {s : Filing} (h : GetFiled kvs is s)
    (i : ℕ) : GetFiled kvs (is ++ [i]) (fileGet kvs s i) := by
  have hkey : ∀ (hm : HashMap) idx,
      HashMap.keyValuePair { hm with idx := idx } = hm.keyValuePair := fun _ _ => rfl
  rw [fileGet]
  by_cases hans : (kvs i).sock ≠ -1
  swap
  · -- no answer: nothing changes
    rw [if_neg fun hc => hans hc.1]
    refine ⟨by rw [answered_snoc, if_neg hans]; exact h.upper, ?_⟩
    rw [answered_snoc, if_neg hans, getItems_snoc, if_neg fun hc => hans hc.1]
    exact h.state
  by_cases hvno : 0 ≤ (kvs i).vno
  swap
  · -- a negative version: not filed, and no version that is
    rw [if_neg fun hc => hvno hc.2]
    refine ⟨?_, ?_⟩
    · rw [answered_snoc, if_pos hans]
      intro j hj hj0
      rcases List.mem_append.mp hj with hj | hj
      · exact h.upper j hj hj0
      · obtain rfl : j = i := by simpa using hj
        exact absurd hj0 hvno
    · rcases h.state with hnone | ⟨hmax, ⟨j, hj, hjmax⟩, hbuckets⟩
      · exact Or.inl hnone
      · refine Or.inr ⟨hmax, ⟨j, ?_, hjmax⟩, ?_⟩
        · rw [answered_snoc, if_pos hans]
          exact List.mem_append_left _ hj
        · rw [getItems_snoc, if_neg fun hc => by omega]
          exact hbuckets
  rw [if_pos ⟨hans, hvno⟩]
  dsimp only
  have hmem : i ∈ answered kvs (is ++ [i]) := by
    rw [answered_snoc, if_pos hans]
    simp
  have hupper : ∀ m, s.max ≤ m → (kvs i).vno ≤ m →
      ∀ j ∈ answered kvs (is ++ [i]), 0 ≤ (kvs j).vno → (kvs j).vno ≤ m := by
    intro m hm him j hj hj0
    rw [answered_snoc, if_pos hans] at hj
    rcases List.mem_append.mp hj with hj | hj
    · exact (h.upper j hj hj0).trans hm
    · obtain rfl : j = i := by simpa using hj
      exact him
  by_cases hgt : s.max < (kvs i).vno
  · -- a higher version: the buckets in use shrink to one
    rw [if_pos hgt]
    refine ⟨hupper _ hgt.le le_rfl, Or.inr ⟨hvno, ⟨i, hmem, rfl⟩, ?_⟩⟩
    rw [getItems_snoc, if_pos ⟨hans, rfl⟩, getItems_of_upper hvno hgt h.upper]
    simp [HashTable.buckets, group, Buckets.add]
  rw [if_neg hgt]
  by_cases heq : (kvs i).vno = s.max
  · rw [if_pos heq]
    rcases h.state with ⟨hmax, -, -⟩ | ⟨hmax, -, hbuckets⟩
    · omega
    have hitems : getItems kvs s.max (is ++ [i]) = getItems kvs s.max is ++ [((kvs i).value, i)] := by
      rw [getItems_snoc, if_pos ⟨hans, heq⟩]
    have hp : ∀ hm : HashMap, decide (hm.keyValuePair = (kvs i).value) ↔
        hm.keyValuePair = (kvs i).value := fun _ => decide_eq_true_iff
    by_cases hex : ∃ xy, xy < s.index + 1 ∧
        decide ((s.table xy).keyValuePair = (kvs i).value)
    · rw [if_pos hex]
      refine ⟨hupper _ le_rfl heq.le, Or.inr ⟨hmax, ⟨i, hmem, heq⟩, ?_⟩⟩
      dsimp only
      rw [hitems, group_snoc, ← hbuckets]
      exact HashTable.buckets_bump hkey hp hex
    · rw [if_neg hex]
      refine ⟨hupper _ le_rfl heq.le, Or.inr ⟨hmax, ⟨i, hmem, heq⟩, ?_⟩⟩
      dsimp only
      rw [hitems, group_snoc, ← hbuckets]
      exact HashTable.buckets_open hp hex rfl rfl
  · -- a lower version: not filed
    rw [if_neg heq]
    refine ⟨hupper _ le_rfl (by omega), ?_⟩
    rcases h.state with hnone | ⟨hmax, ⟨j, hj, hjmax⟩, hbuckets⟩
    · exact Or.inl hnone
    · refine Or.inr ⟨hmax, ⟨j, ?_, hjmax⟩, ?_⟩
      · rw [answered_snoc, if_pos hans]
        exact List.mem_append_left _ hj
      · rw [getItems_snoc, if_neg fun hc => heq hc.2]
        exact hbuckets

/-- The `GET` loop. -/
theorem getFiled_foldl (kvs : ℕ → KeyVal) (is : List ℕ) {table : HashTable}
    (htable : (table 0).idx = []) :
    GetFiled kvs is (is.foldl (fileGet kvs) { table := table, index := 0, max := -1 }) := by
  induction is using List.reverseRecOn with
  | nil => exact ⟨by simp [answered], Or.inl ⟨rfl, rfl, htable⟩⟩
  | append_singleton is i ih =>
    rw [List.foldl_append]
    exact ih.step i

/-- The loop invariant of the `PUT` loop: all that answered are filed, and the entries behind the
buckets in use are empty. -/
structure PutFiled (kvs : ℕ → KeyVal) (is : List ℕ) (s : Filing) : Prop where
  buckets : s.table.buckets HashMap.verNo s.index = group (putItems kvs is)
  behind : ∀ j, s.index ≤ j → (s.table j).idx = []

theorem PutFiled.step {kvs : ℕ → KeyVal} {is : List ℕ} {s : Filing} (h : PutFiled kvs is s)
    (i : ℕ) : PutFiled kvs (is ++ [i]) (filePut kvs s i) := by
  rw [filePut]
  by_cases hans : (kvs i).sock ≠ -1
  · have hitems : putItems kvs (is ++ [i]) = putItems kvs is ++ [((kvs i).vno, i)] := by
      rw [putItems_snoc, if_pos hans]
    have hp : ∀ hm : HashMap, decide (hm.verNo = (kvs i).vno) ↔ hm.verNo = (kvs i).vno :=
      fun _ => decide_eq_true_iff
    rw [if_pos hans]
    dsimp only
    by_cases hex : ∃ ij, ij < s.index ∧ decide ((s.table ij).verNo = (kvs i).vno)
    · rw [if_pos hex]
      refine ⟨?_, fun j hj => ?_⟩
      · dsimp only
        rw [hitems, group_snoc, ← h.buckets]
        exact HashTable.buckets_bump (fun _ _ => rfl) hp hex
      · dsimp only at hj ⊢
        rw [HashTable.bump, if_neg fun hc => by omega]
        exact h.behind j hj
    · rw [if_neg hex]
      refine ⟨?_, fun j hj => ?_⟩
      · dsimp only
        rw [hitems, group_snoc, ← h.buckets]
        exact HashTable.buckets_open hp hex rfl rfl
      · dsimp only at hj ⊢
        rw [Function.update_of_ne (by omega)]
        exact h.behind j (by omega)
  · rw [if_neg hans]
    refine ⟨?_, h.behind⟩
    rw [putItems_snoc, if_neg hans]
    exact h.buckets

/-- The `PUT` loop. -/
theorem putFiled_foldl (kvs : ℕ → KeyVal) (is : List ℕ) {table : HashTable} (max : ℤ)
    (htable : ∀ j, (table j).idx = []) :
    PutFiled kvs is (is.foldl (filePut kvs) { table := table, index := 0, max := max }) := by
  induction is using List.reverseRecOn with
  | nil => exact ⟨rfl, fun j _ => htable j⟩
  | append_singleton is i ih =>
    rw [List.foldl_append]
    exact ih.step i

/-! ## What `selectServer` returns -/

theorem idx_clear {table : HashTable} {N j : ℕ} (h : j < N ∨ (table j).idx = []) :
    ((table.clear N) j).idx = [] := by
  rw [HashTable.clear]
  split
  · rfl
  · exact h.resolve_left ‹_›

theorem countP_answered (kvs : ℕ → KeyVal) (is : List ℕ) :
    is.countP (fun i => (kvs i).sock ≠ -1) = (answered kvs is).length := by
  rw [answered, List.countP_eq_length_filter]

theorem counts_buckets {κ : Type*} (table : HashTable) (key : HashMap → κ) (n : ℕ) :
    (List.range n).map (fun i => (table i).count) =
      (table.buckets key n).map fun b => b.2.length := by
  simp [HashTable.buckets, HashMap.count]

theorem length_putItems (kvs : ℕ → KeyVal) (is : List ℕ) :
    (putItems kvs is).length = (answered kvs is).length := by
  simp [putItems]

theorem length_getItems_le (kvs : ℕ → KeyVal) (V : ℤ) (is : List ℕ) :
    (getItems kvs V is).length ≤ is.length := by
  rw [getItems, List.length_map]
  exact (List.length_filter_le _ _).trans (List.length_filter_le _ _)

theorem mem_getItems {kvs : ℕ → KeyVal} {V : ℤ} {is : List ℕ} {w : List Char} {i : ℕ} :
    (w, i) ∈ getItems kvs V is ↔ i ∈ answered kvs is ∧ (kvs i).vno = V ∧ (kvs i).value = w := by
  simp only [getItems, List.mem_map, List.mem_filter, decide_eq_true_eq, Prod.mk.injEq]
  constructor
  · rintro ⟨j, ⟨hj, hV⟩, hw, rfl⟩
    exact ⟨hj, hV, hw⟩
  · rintro ⟨hi, hV, hw⟩
    exact ⟨i, ⟨hi, hV⟩, hw, rfl⟩

/-- How many servers delivered `w` with version `V`. -/
theorem tally_getItems (kvs : ℕ → KeyVal) (V : ℤ) (N : ℕ) (w : List Char) :
    tally ((getItems kvs V (List.range N)).map Prod.fst) w =
      ((Finset.range N).filter fun i =>
        (kvs i).sock ≠ -1 ∧ (kvs i).vno = V ∧ (kvs i).value = w).card := by
  rw [← countP_range, getItems, answered, List.map_map, tally, List.countP_map,
    List.countP_filter, List.countP_filter]
  refine List.countP_congr fun i _ => ?_
  simp [and_assoc, and_comm]

/-- `selectServer` for a `GET` with enough answers, `V` being the highest version among them: the
first server of the plurality value is returned, the servers with less frequent values are reported.
-/
theorem selectServer_get (table : HashTable) (Nr Nw : ℤ) {N : ℕ} {kvs : ℕ → KeyVal} {V : ℤ}
    (hN : N ≤ MAX_CON)
    (hquorum : Nr ≤ (answered kvs (List.range N)).length) (hV : 0 ≤ V)
    (hmem : ∃ i ∈ answered kvs (List.range N), (kvs i).vno = V)
    (hupper : ∀ i ∈ answered kvs (List.range N), (kvs i).vno ≤ V)
    {v : List Char} {is : List ℕ}
    (hplur : plurality (group (getItems kvs V (List.range N))) = some (v, is)) :
    selectServer table .get Nr Nw N kvs =
      .chosen (is.headD 0) (minority (group (getItems kvs V (List.range N)))) := by
  obtain ⟨i, hi, rfl⟩ := hmem
  have hN0 : 0 < N := by
    have := List.mem_range.mp (List.mem_of_mem_filter hi)
    omega
  have htable : ((table.clear N) 0).idx = [] := idx_clear (Or.inl hN0)
  have hfiled := getFiled_foldl kvs (List.range N) htable
  set s := (List.range N).foldl (fileGet kvs) { table := table.clear N, index := 0, max := -1 }
    with hs
  have hle := hfiled.upper i hi hV
  obtain ⟨hmax, -, -⟩ | ⟨-, ⟨j, hj, hjmax⟩, hbuckets⟩ := hfiled.state
  · omega
  obtain hmaxV : s.max = (kvs i).vno := by
    have := hupper j hj
    omega
  rw [hmaxV] at hbuckets
  have hindex : s.index + 1 ≤ N := by
    have hlen := length_group_le (getItems kvs (kvs i).vno (List.range N))
    rw [← hbuckets, HashTable.length_buckets] at hlen
    have := length_getItems_le kvs (kvs i).vno (List.range N)
    rw [List.length_range] at this
    omega
  have hcounts := counts_buckets s.table HashMap.keyValuePair (s.index + 1)
  rw [hbuckets] at hcounts
  rw [plurality, Option.bind_eq_some_iff] at hplur
  obtain ⟨r, hr, hbucket⟩ := hplur
  rw [selectServer, if_neg (by omega)]
  simp only [countP_answered, if_neg (by omega : ¬ ((answered kvs (List.range N)).length : ℤ) < Nr),
    ← hs, if_neg (by omega : ¬ MAX_CON < s.index + 1), hcounts, hr]
  rw [(HashTable.row_of_bucket (hbuckets ▸ hbucket)).2, liedServers, minority, ← hbuckets]
  simp only [HashTable.buckets, List.filter_map, List.flatMap_map, List.map_map]
  rfl

/-- The servers whose version is above the plurality version `m`, in buckets of another size. -/
def aheadOf (bs : Buckets ℤ ℕ) (m : ℤ) (size : ℕ) : List ℕ :=
  (bs.filter fun b => b.2.length ≠ size ∧ m < b.1).flatMap Prod.snd

/-- `selectServer` for a `PUT` with enough answers: the first server of the plurality version is
returned. -/
theorem selectServer_put (table : HashTable) (htable : ∀ j, (table j).idx = []) (Nr Nw : ℤ)
    {N : ℕ} {kvs : ℕ → KeyVal} (hN : N ≤ MAX_CON)
    (hquorum : Nw ≤ (answered kvs (List.range N)).length)
    (hindex : (group (putItems kvs (List.range N))).length < MAX_CON) {m : ℤ} {is : List ℕ}
    (hplur : plurality (group (putItems kvs (List.range N))) = some (m, is)) :
    selectServer table .put Nr Nw N kvs =
      .chosen (is.headD 0) (aheadOf (group (putItems kvs (List.range N))) m is.length) := by
  have hclear : ∀ j, ((table.clear N) j).idx = [] := fun j => idx_clear (Or.inr (htable j))
  have hfiled := putFiled_foldl kvs (List.range N) (-1) hclear
  set s := (List.range N).foldl (filePut kvs) { table := table.clear N, index := 0, max := -1 }
    with hs
  have hbuckets := hfiled.buckets
  rw [← hbuckets, HashTable.length_buckets] at hindex
  -- the last loops also read the entry behind the buckets, which is empty
  have hcounts : (List.range (s.index + 1)).map (fun i => (s.table i).count) =
      ((group (putItems kvs (List.range N))).map fun b => b.2.length) ++ [0] := by
    rw [counts_buckets s.table HashMap.verNo, HashTable.buckets_succ, hbuckets,
      hfiled.behind _ le_rfl]
    simp
  rw [plurality, Option.bind_eq_some_iff] at hplur
  obtain ⟨r, hr, hbucket⟩ := hplur
  obtain ⟨hver, hidx⟩ := HashTable.row_of_bucket (hbuckets ▸ hbucket)
  have hsize : (firstMax ((group (putItems kvs (List.range N))).map fun b => b.2.length)).1 =
      is.length := by
    have hval := (firstMax_some hr).1
    rw [List.getElem?_map, hbucket] at hval
    exact (Option.some.inj hval).symm
  rw [selectServer, if_neg (by omega)]
  simp only [countP_answered, if_neg (by omega : ¬ ((answered kvs (List.range N)).length : ℤ) < Nw),
    ← hs, if_neg (by omega : ¬ MAX_CON < s.index + 1), hcounts, firstMax_snoc_zero, hr, hsize]
  rw [hidx, hver, liedServers, aheadOf, ← hbuckets]
  simp only [HashTable.buckets, List.filter_map, List.flatMap_map, List.range_succ,
    List.filter_append, List.flatMap_append]
  have hbehind : ([s.index].filter fun i => decide ((s.table i).count ≠ is.length ∧
      m < (s.table i).verNo)).flatMap (fun i => (s.table i).idx) = [] := by
    rw [List.flatMap_eq_nil_iff]
    intro i hi
    obtain rfl : i = s.index := by simpa using List.mem_of_mem_filter hi
    exact hfiled.behind _ le_rfl
  rw [hbehind, List.append_nil]
  rfl

end QuorumLogFs.Vote
