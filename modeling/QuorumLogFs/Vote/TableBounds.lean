import QuorumLogFs.Vote.Selection

/-!
# The indices that `selectServer` uses

Reference: `Client.c`, `selectServer`; `HashMap` and `HashTable` in `Client.h`.

`hashTable.hashMap` and each `idx` have `MAX_CON` entries. `selectAccesses` lists the indices that a call
uses, loop by loop. For a `GET` the last bucket is `hashMap[index]`, and without an eligible entry
`retIndex` is still `-1` when `hashMap[retIndex]` is read. For a `PUT` the last bucket is
`hashMap[index-1]`, and the loops behind read one entry more.
-/

namespace QuorumLogFs.Vote

open QuorumLogFs.Basis

/-! ## Accesses -/

/-- An index into `hashMap`, or into `idx` of an entry. -/
inductive Access where
  | hashMap (i : ℤ)
  | idx (x : ℤ)
deriving DecidableEq

/-- The index is in `0..MAX_CON-1`. -/
def Access.Inside : Access → Prop
  | .hashMap i => 0 ≤ i ∧ i < MAX_CON
  | .idx x => 0 ≤ x ∧ x < MAX_CON

/-- A pass over the first `n` entries that files a server with those that match. -/
def bumpAccesses (table : HashTable) (n : ℕ) (p : HashMap → Bool) : List Access :=
  (List.range n).flatMap fun xy : ℕ =>
    .hashMap xy :: if p (table xy) then [.idx (table xy).count] else []

/-- The body of the loop for a `GET`. -/
def fileGetAccesses (kvs : ℕ → KeyVal) (s : Filing) (i : ℕ) : List Access :=
  if (kvs i).sock ≠ -1 ∧ 0 ≤ (kvs i).vno then
    if s.max < (kvs i).vno then [.hashMap 0, .idx 0]
    else if (kvs i).vno = s.max then
      let same := fun h : HashMap => decide (h.keyValuePair = (kvs i).value)
      bumpAccesses s.table (s.index + 1) same ++
        if ∃ xy, xy < s.index + 1 ∧ same (s.table xy) then []
        else [.hashMap (s.index + 1), .idx 0]
    else []
  else []

/-- The body of the loop for a `PUT`. -/
def filePutAccesses (kvs : ℕ → KeyVal) (s : Filing) (i : ℕ) : List Access :=
  if (kvs i).sock ≠ -1 then
    let same := fun h : HashMap => decide (h.verNo = (kvs i).vno)
    bumpAccesses s.table s.index same ++
      if ∃ ij, ij < s.index ∧ same (s.table ij) then []
      else [.hashMap s.index, .idx 0]
  else []

/-- What the iterations of a loop access, `file` being the loop's body. -/
def loopAccesses (file : Filing → ℕ → Filing) (acc : Filing → ℕ → List Access) :
    Filing → List ℕ → List Access
  | _, [] => []
  | s, i :: is => acc s i ++ loopAccesses file acc (file s i) is

/-- Whether the last loop reports the servers of a bucket. -/
def reports (msgType : MsgType) (h : HashMap) (retVal : ℕ) (maxVno : ℤ) : Bool :=
  match msgType with
  | .get => h.count < retVal
  | .put => h.count ≠ retVal ∧ maxVno < h.verNo

/-- The loops behind the filing: the count, the report, and the value returned. -/
def reportAccesses (msgType : MsgType) (s : Filing) : List Access :=
  let best := firstMax ((List.range (s.index + 1)).map fun i => (s.table i).count)
  let retIndex : ℤ := best.2.elim (-1) fun r => r
  let maxVno : ℤ := best.2.elim (-1) fun r => (s.table r).verNo
  (List.range (s.index + 1)).map (fun i : ℕ => .hashMap i) ++
    ((List.range (s.index + 1)).flatMap fun i : ℕ =>
      .hashMap i :: if reports msgType (s.table i) best.1 maxVno then
        (List.range (s.table i).count).map (fun x : ℕ => .idx x) else []) ++
    [.hashMap retIndex, .idx 0]

/-- The filing loop. -/
def selectFiling (msgType : MsgType) (table : HashTable) (N : ℕ) (kvs : ℕ → KeyVal) : Filing :=
  (List.range N).foldl (match msgType with
    | .get => fileGet kvs
    | .put => filePut kvs) { table := table.clear N, index := 0, max := -1 }

/-- The indices that `selectServer` uses when the quorum is reached. -/
def selectAccesses (msgType : MsgType) (table : HashTable) (N : ℕ) (kvs : ℕ → KeyVal) : List Access :=
  let start : Filing := { table := table.clear N, index := 0, max := -1 }
  (List.range N).map (fun i : ℕ => .hashMap i) ++
    (match msgType with
      | .get => loopAccesses (fileGet kvs) (fileGetAccesses kvs) start (List.range N)
      | .put => loopAccesses (filePut kvs) (filePutAccesses kvs) start (List.range N)) ++
    reportAccesses msgType (selectFiling msgType table N kvs)

/-! ## The property and its condition -/

/-- An entry that is filed. -/
def Eligible (msgType : MsgType) (kv : KeyVal) : Prop :=
  kv.sock ≠ -1 ∧ match msgType with
    | .get => 0 ≤ kv.vno
    | .put => True

/-- What the caller gets. -/
def Selection.returned : Selection → Option ℤ
  | .lesserQuorum => none
  | .outOfTable => none
  | .chosen i _ => some i

/-- `Nr` or `Nw`. -/
def Quorums.needed (q : Quorums) : MsgType → ℤ
  | .get => q.Nr
  | .put => q.Nw

/-- All indices are inside, and when no entry is eligible the callers are told so. -/
structure StaysInTable (q : Quorums) (msgType : MsgType) (kvs : ℕ → KeyVal) : Prop where
  inside : ∀ a ∈ selectAccesses msgType hashTable q.N kvs, a.Inside
  noneEligible : (∀ i < q.N, ¬ Eligible msgType (kvs i)) →
    (selectServer hashTable msgType q.Nr q.Nw q.N kvs).returned = some (-1)

/-- A `GET` has an answer with a version that is not negative, a `PUT` has answers with fewer than
`MAX_CON` versions. -/
def TableSuffices (N : ℕ) (kvs : ℕ → KeyVal) : MsgType → Prop
  | .get => ∃ i ∈ responders kvs N, 0 ≤ (kvs i).vno
  | .put => ((responders kvs N).image fun i => (kvs i).vno).card < MAX_CON

/-! ## The filing loops -/

variable {kvs : ℕ → KeyVal}

/-- What a loop accesses, an iteration accesses in the state that the iterations before have left. -/
theorem mem_loopAccesses {file : Filing → ℕ → Filing} {acc : Filing → ℕ → List Access} {a : Access}
    {s : Filing} {is : List ℕ} (h : a ∈ loopAccesses file acc s is) :
    ∃ before i after, is = before ++ i :: after ∧ a ∈ acc (before.foldl file s) i := by
  induction is generalizing s with
  | nil => cases h
  | cons i is ih =>
    rcases List.mem_append.mp h with hhere | hrest
    · exact ⟨[], i, is, rfl, hhere⟩
    · obtain ⟨before, j, after, rfl, ha⟩ := ih hrest
      exact ⟨i :: before, j, after, rfl, ha⟩

/-- A bucket has no more members than items were filed. -/
theorem count_le_of_buckets {κ : Type*} [DecidableEq κ] {table : HashTable} {key : HashMap → κ} {n : ℕ}
    {xs : List (κ × ℕ)} (h : table.buckets key n = group xs) {j : ℕ} (hj : j < n) :
    (table j).count ≤ xs.length := by
  have hmem : (key (table j), (table j).idx) ∈ group xs := by
    rw [← h, HashTable.buckets]
    exact List.mem_map.mpr ⟨j, List.mem_range.mpr hj, rfl⟩
  rw [HashMap.count, show (table j).idx = _ from snd_of_mem_group hmem]
  exact length_members_le xs _

theorem inside_natCast {i : ℕ} (h : i < MAX_CON) :
    (Access.hashMap i).Inside ∧ (Access.idx i).Inside :=
  ⟨⟨by omega, by omega⟩, by omega, by omega⟩

/-- A pass stays inside as long as no bucket in use is full. -/
theorem inside_bumpAccesses {table : HashTable} {n : ℕ} {p : HashMap → Bool} (hn : n ≤ MAX_CON)
    (hcount : ∀ xy < n, (table xy).count < MAX_CON) : ∀ a ∈ bumpAccesses table n p, a.Inside := by
  intro a ha
  obtain ⟨xy, hxy, ha⟩ := List.mem_flatMap.mp ha
  have hxy := List.mem_range.mp hxy
  rcases List.mem_cons.mp ha with rfl | ha
  · exact (inside_natCast (hxy.trans_le hn)).1
  · split at ha
    · rw [List.mem_singleton.mp ha]
      exact (inside_natCast (hcount xy hxy)).2
    · cases ha

theorem GetFiled.index_le {is : List ℕ} {s : Filing} (h : GetFiled kvs is s) :
    s.index + 1 ≤ is.length ∨ s.index = 0 := by
  obtain ⟨-, hindex, -⟩ | ⟨-, -, hbuckets⟩ := h.state
  · exact Or.inr hindex
  · refine Or.inl ?_
    have hlen := length_group_le (getItems kvs s.max is)
    rw [← hbuckets, HashTable.length_buckets] at hlen
    exact hlen.trans (length_getItems_le kvs s.max is)

theorem GetFiled.count_le {is : List ℕ} {s : Filing} (h : GetFiled kvs is s) {xy : ℕ}
    (hxy : xy < s.index + 1) : (s.table xy).count ≤ is.length := by
  obtain ⟨-, hindex, hidx⟩ | ⟨-, -, hbuckets⟩ := h.state
  · obtain rfl : xy = 0 := by omega
    rw [HashMap.count, hidx]
    exact Nat.zero_le _
  · exact (count_le_of_buckets hbuckets hxy).trans (length_getItems_le kvs s.max is)

theorem PutFiled.index_eq {is : List ℕ} {s : Filing} (h : PutFiled kvs is s) :
    s.index = (group (putItems kvs is)).length := by
  rw [← h.buckets, HashTable.length_buckets]

theorem length_putItems_le (is : List ℕ) : (putItems kvs is).length ≤ is.length := by
  rw [length_putItems]
  exact List.length_filter_le _ _

theorem PutFiled.index_le {is : List ℕ} {s : Filing} (h : PutFiled kvs is s) :
    s.index ≤ is.length := by
  rw [h.index_eq]
  exact (length_group_le _).trans (length_putItems_le is)

theorem PutFiled.count_le {is : List ℕ} {s : Filing} (h : PutFiled kvs is s) (ij : ℕ) :
    (s.table ij).count ≤ is.length := by
  rcases Nat.lt_or_ge ij s.index with hlt | hge
  · exact (count_le_of_buckets h.buckets hlt).trans (length_putItems_le is)
  · rw [HashMap.count, h.behind ij hge]
    exact Nat.zero_le _

/-- The iteration for a `GET` stays inside when fewer than `MAX_CON` servers came before. -/
theorem GetFiled.inside {is : List ℕ} {s : Filing} (h : GetFiled kvs is s) (his : is.length < MAX_CON)
    (i : ℕ) : ∀ a ∈ fileGetAccesses kvs s i, a.Inside := by
  intro a ha
  have hzero : (Access.hashMap 0).Inside ∧ (Access.idx 0).Inside := inside_natCast (by decide)
  have hindex := h.index_le
  rw [fileGetAccesses] at ha
  split at ha
  · split at ha
    · rcases List.mem_cons.mp ha with rfl | ha
      · exact hzero.1
      · rw [List.mem_singleton.mp ha]
        exact hzero.2
    · split at ha
      · rcases List.mem_append.mp ha with ha | ha
        · exact inside_bumpAccesses (by omega) (fun xy hxy => (h.count_le hxy).trans_lt his) a ha
        · split at ha
          · cases ha
          · rcases List.mem_cons.mp ha with rfl | ha
            · exact (inside_natCast (i := s.index + 1) (by have : 1 < MAX_CON := by decide
                                                           omega)).1
            · rw [List.mem_singleton.mp ha]
              exact hzero.2
      · cases ha
  · cases ha

theorem PutFiled.inside {is : List ℕ} {s : Filing} (h : PutFiled kvs is s) (his : is.length < MAX_CON)
    (i : ℕ) : ∀ a ∈ filePutAccesses kvs s i, a.Inside := by
  intro a ha
  have hindex := h.index_le
  rw [filePutAccesses] at ha
  split at ha
  · rcases List.mem_append.mp ha with ha | ha
    · exact inside_bumpAccesses (by omega) (fun ij _ => (h.count_le ij).trans_lt his) a ha
    · split at ha
      · cases ha
      · rcases List.mem_cons.mp ha with rfl | ha
        · exact (inside_natCast (by omega)).1
        · rw [List.mem_singleton.mp ha]
          exact (inside_natCast (by decide)).2
  · cases ha

/-! ## The loops behind -/

/-- `retVal` and `retIndex`: the largest count of the entries up to `index`, and where it stands. -/
def best (s : Filing) : ℕ × Option ℕ :=
  firstMax ((List.range (s.index + 1)).map fun i => (s.table i).count)

theorem best_some_lt {s : Filing} {r : ℕ} (h : (best s).2 = some r) : r < s.index + 1 := by
  obtain ⟨hlt, -⟩ := List.getElem?_eq_some_iff.mp (firstMax_some h).1
  simpa using hlt

/-- The loops behind the filing stay inside exactly if the entry `index` does and a bucket has a
member. -/
theorem inside_reportAccesses_iff (msgType : MsgType) {s : Filing}
    (hcount : ∀ i < s.index + 1, (s.table i).count ≤ MAX_CON) :
    (∀ a ∈ reportAccesses msgType s, a.Inside) ↔ s.index < MAX_CON ∧ (best s).2 ≠ none := by
  constructor
  · intro h
    refine ⟨?_, fun hnone => ?_⟩
    · have hlast : Access.hashMap s.index ∈ reportAccesses msgType s := by
        refine List.mem_append_left _ (List.mem_append_left _ ?_)
        exact List.mem_map.mpr ⟨s.index, List.mem_range.mpr (by omega), rfl⟩
      have := (h _ hlast).2
      omega
    · have hret : Access.hashMap (-1) ∈ reportAccesses msgType s := by
        refine List.mem_append_right _ ?_
        rw [show firstMax _ = best s from rfl, hnone]
        exact List.mem_cons_self
      have := (h _ hret).1
      omega
  · rintro ⟨hindex, hbest⟩ a ha
    obtain ⟨r, hr⟩ := Option.ne_none_iff_exists'.mp hbest
    rcases List.mem_append.mp ha with ha | ha
    · rcases List.mem_append.mp ha with ha | ha
      · obtain ⟨i, hi, rfl⟩ := List.mem_map.mp ha
        have := List.mem_range.mp hi
        exact (inside_natCast (by omega)).1
      · obtain ⟨i, hi, ha⟩ := List.mem_flatMap.mp ha
        have hi := List.mem_range.mp hi
        rcases List.mem_cons.mp ha with rfl | ha
        · exact (inside_natCast (by omega)).1
        · split at ha
          · obtain ⟨x, hx, rfl⟩ := List.mem_map.mp ha
            exact (inside_natCast ((List.mem_range.mp hx).trans_le (hcount i hi))).2
          · cases ha
    · rw [show firstMax _ = best s from rfl, hr] at ha
      rcases List.mem_cons.mp ha with rfl | ha
      · have := best_some_lt hr
        exact (inside_natCast (by omega)).1
      · rw [List.mem_singleton.mp ha]
        exact (inside_natCast (by decide)).2

/-- A bucket in use has a member as soon as something was filed. -/
theorem best_ne_none {κ : Type*} [DecidableEq κ] {key : HashMap → κ} {s : Filing} {n : ℕ}
    {xs : List (κ × ℕ)} (hn : n ≤ s.index + 1) (h : s.table.buckets key n = group xs) (hxs : xs ≠ []) :
    (best s).2 ≠ none := by
  obtain ⟨x, hx⟩ := List.exists_mem_of_ne_nil xs hxs
  obtain ⟨b, hb, -⟩ := exists_bucket (show (x.1, x.2) ∈ xs from hx)
  have hlt : b < n := by
    obtain ⟨hlen, -⟩ := List.getElem?_eq_some_iff.mp hb
    rwa [← h, HashTable.length_buckets] at hlen
  have hidx := (HashTable.row_of_bucket (h ▸ hb)).2
  have hpos : 0 < (s.table b).count := by
    rw [HashMap.count, hidx]
    exact List.length_pos_of_mem (mem_members.mpr hx)
  have hmem : (s.table b).count ∈ (List.range (s.index + 1)).map fun i => (s.table i).count :=
    List.mem_map.mpr ⟨b, List.mem_range.mpr (by omega), rfl⟩
  obtain ⟨r, hr⟩ := firstMax_isSome hmem hpos
  rw [best, hr]
  exact Option.some_ne_none r

/-- After the loop for a `GET` a bucket has a member exactly if an answer had a version that counts. -/
theorem GetFiled.best_iff {N : ℕ} {s : Filing} (h : GetFiled kvs (List.range N) s) :
    (best s).2 ≠ none ↔ ∃ i ∈ responders kvs N, 0 ≤ (kvs i).vno := by
  constructor
  · rintro hbest
    by_contra hnone
    have hneg : ∀ i ∈ answered kvs (List.range N), ¬ 0 ≤ (kvs i).vno :=
      fun i hi hpos => hnone ⟨i, mem_responders.mpr hi, hpos⟩
    obtain ⟨-, hindex, hidx⟩ | ⟨hmax, ⟨i, hi, hvno⟩, -⟩ := h.state
    · refine hbest ?_
      rw [best, hindex]
      simp [HashMap.count, hidx, firstMax]
    · exact hneg i hi (hvno ▸ hmax)
  · rintro ⟨i, hi, hpos⟩
    have hle := h.upper i (mem_responders.mp hi) hpos
    obtain ⟨hmax, -, -⟩ | ⟨-, ⟨j, hj, hvno⟩, hbuckets⟩ := h.state
    · omega
    · exact best_ne_none le_rfl hbuckets (List.ne_nil_of_mem (mem_getItems.mpr ⟨hj, hvno, rfl⟩))

/-- The buckets for a `PUT` are the versions received. -/
theorem length_group_putItems (kvs : ℕ → KeyVal) (N : ℕ) :
    (group (putItems kvs (List.range N))).length =
      ((responders kvs N).image fun i => (kvs i).vno).card := by
  have hkeys := nodup_map_fst_group (putItems kvs (List.range N))
  have hlen : (group (putItems kvs (List.range N))).length =
      ((group (putItems kvs (List.range N))).map Prod.fst).length := (List.length_map Prod.fst).symm
  rw [hlen, ← List.toFinset_card_of_nodup hkeys]
  congr 1
  ext v
  rw [List.mem_toFinset, mem_map_fst_group, Finset.mem_image, putItems, List.map_map, List.mem_map]
  simp only [mem_responders]
  rfl

/-! ## The main result -/

/-- The filing loops stay inside whatever the servers answered. -/
theorem inside_filing (msgType : MsgType) {N : ℕ} (hN : N ≤ MAX_CON) (kvs : ℕ → KeyVal) :
    ∀ a ∈ selectAccesses msgType hashTable N kvs,
      a ∈ reportAccesses msgType (selectFiling msgType hashTable N kvs) ∨ a.Inside := by
  intro a ha
  have hclear : ∀ j, ((hashTable.clear N) j).idx = [] := fun j => idx_clear (Or.inr rfl)
  have hlen : ∀ {before i after}, List.range N = before ++ i :: after → before.length < MAX_CON := by
    intro before i after heq
    have := congrArg List.length heq
    rw [List.length_range, List.length_append, List.length_cons] at this
    omega
  rcases List.mem_append.mp ha with ha | ha
  · refine Or.inr ?_
    rcases List.mem_append.mp ha with ha | ha
    · obtain ⟨i, hi, rfl⟩ := List.mem_map.mp ha
      exact (inside_natCast ((List.mem_range.mp hi).trans_le hN)).1
    · cases msgType with
      | get =>
        obtain ⟨before, i, after, heq, ha⟩ := mem_loopAccesses ha
        exact (getFiled_foldl kvs before (hclear 0)).inside (hlen heq) i a ha
      | put =>
        obtain ⟨before, i, after, heq, ha⟩ := mem_loopAccesses ha
        exact (putFiled_foldl kvs before (-1) hclear).inside (hlen heq) i a ha
  · exact Or.inl ha

/-- `selectServer` leaves its table exactly when the loops behind the filing do. -/
theorem selectServer_eq_outOfTable_iff {q : Quorums} {msgType : MsgType} (hN : q.N ≤ MAX_CON)
    (hquorum : q.needed msgType ≤ (responders kvs q.N).card) :
    selectServer hashTable msgType q.Nr q.Nw q.N kvs = .outOfTable ↔
      ¬ ((selectFiling msgType hashTable q.N kvs).index < MAX_CON ∧
        (best (selectFiling msgType hashTable q.N kvs)).2 ≠ none) := by
  have hcount : ¬ (((answered kvs (List.range q.N)).length : ℤ) < q.needed msgType) := by
    rw [← card_responders]
    omega
  cases msgType with
  | get =>
    have hcount : ¬ (((answered kvs (List.range q.N)).length : ℤ) < q.Nr) := hcount
    rw [selectServer, if_neg (by omega)]
    simp only [countP_answered, if_neg hcount]
    rw [show (List.range q.N).foldl (fileGet kvs) _ = selectFiling .get hashTable q.N kvs from rfl,
      show firstMax _ = best (selectFiling .get hashTable q.N kvs) from rfl]
    by_cases hindex : (selectFiling .get hashTable q.N kvs).index < MAX_CON
    · rw [if_neg (by omega)]
      cases (best (selectFiling .get hashTable q.N kvs)).2 with
      | none => exact iff_of_true rfl fun h => h.2 rfl
      | some r => exact iff_of_false Selection.noConfusion (not_not.mpr ⟨hindex, Option.some_ne_none r⟩)
    · rw [if_pos (by omega)]
      exact iff_of_true rfl fun h => hindex h.1
  | put =>
    have hcount : ¬ (((answered kvs (List.range q.N)).length : ℤ) < q.Nw) := hcount
    rw [selectServer, if_neg (by omega)]
    simp only [countP_answered, if_neg hcount]
    rw [show (List.range q.N).foldl (filePut kvs) _ = selectFiling .put hashTable q.N kvs from rfl,
      show firstMax _ = best (selectFiling .put hashTable q.N kvs) from rfl]
    by_cases hindex : (selectFiling .put hashTable q.N kvs).index < MAX_CON
    · rw [if_neg (by omega)]
      cases (best (selectFiling .put hashTable q.N kvs)).2 with
      | none => exact iff_of_true rfl fun h => h.2 rfl
      | some r => exact iff_of_false Selection.noConfusion (not_not.mpr ⟨hindex, Option.some_ne_none r⟩)
    · rw [if_pos (by omega)]
      exact iff_of_true rfl fun h => hindex h.1

/-- `selectServer` stays in its table, and returns `-1` when no entry is eligible, exactly if a `GET` has
an eligible answer and a `PUT` leaves an entry behind its buckets. -/
theorem selectServer_staysInTable_iff (q : Quorums) (msgType : MsgType) (kvs : ℕ → KeyVal)
    (hN : q.N ≤ MAX_CON)
    (hquorum : q.needed msgType ≤ (responders kvs q.N).card) :
    StaysInTable q msgType kvs ↔ TableSuffices q.N kvs msgType := by
  have hclear : ∀ j, ((hashTable.clear q.N) j).idx = [] := fun j => idx_clear (Or.inr rfl)
  have hfiling := inside_filing msgType hN kvs
  have hreport : ∀ a ∈ reportAccesses msgType (selectFiling msgType hashTable q.N kvs),
      a ∈ selectAccesses msgType hashTable q.N kvs := fun a ha => List.mem_append_right _ ha
  have hsuffix : (∀ a ∈ selectAccesses msgType hashTable q.N kvs, a.Inside) ↔
      ∀ a ∈ reportAccesses msgType (selectFiling msgType hashTable q.N kvs), a.Inside :=
    ⟨fun h a ha => h a (hreport a ha), fun h a ha => (hfiling a ha).elim (h a) id⟩
  have hmajority := q.majority
  have hlength : 0 < MAX_CON := by decide
  cases msgType with
  | get =>
    have hfiled : GetFiled kvs (List.range q.N) (selectFiling .get hashTable q.N kvs) :=
      getFiled_foldl kvs (List.range q.N) (hclear 0)
    have hindex := hfiled.index_le
    rw [List.length_range] at hindex
    have hcount : ∀ i < (selectFiling .get hashTable q.N kvs).index + 1,
        ((selectFiling .get hashTable q.N kvs).table i).count ≤ MAX_CON := by
      intro i hi
      have := hfiled.count_le hi
      rw [List.length_range] at this
      omega
    have hiff := inside_reportAccesses_iff .get hcount
    rw [hfiled.best_iff] at hiff
    constructor
    · exact fun h => (hiff.mp (hsuffix.mp h.inside)).2
    · intro hsome
      refine ⟨hsuffix.mpr (hiff.mpr ⟨by omega, hsome⟩), fun hnone => ?_⟩
      obtain ⟨i, hi, hpos⟩ := hsome
      obtain ⟨hiN, hsock⟩ := Finset.mem_filter.mp hi
      exact absurd ⟨hsock, hpos⟩ (hnone i (Finset.mem_range.mp hiN))
  | put =>
    have hfiled : PutFiled kvs (List.range q.N) (selectFiling .put hashTable q.N kvs) :=
      putFiled_foldl kvs (List.range q.N) (-1) hclear
    have hquorum : q.Nw ≤ (responders kvs q.N).card := hquorum
    have hcard : 0 < (responders kvs q.N).card := by omega
    obtain ⟨i, hi⟩ := Finset.card_pos.mp hcard
    have hcount : ∀ i < (selectFiling .put hashTable q.N kvs).index + 1,
        ((selectFiling .put hashTable q.N kvs).table i).count ≤ MAX_CON := by
      intro i _
      have := hfiled.count_le i
      rw [List.length_range] at this
      omega
    have hne : putItems kvs (List.range q.N) ≠ [] :=
      List.ne_nil_of_mem (List.mem_map.mpr ⟨i, mem_responders.mp hi, rfl⟩)
    have hbest := best_ne_none (Nat.le_succ _) hfiled.buckets hne
    have hiff := inside_reportAccesses_iff .put hcount
    rw [hfiled.index_eq, length_group_putItems] at hiff
    constructor
    · exact fun h => (hiff.mp (hsuffix.mp h.inside)).1
    · intro hroom
      refine ⟨hsuffix.mpr (hiff.mpr ⟨hroom, hbest⟩), fun hnone => ?_⟩
      obtain ⟨hiN, hsock⟩ := Finset.mem_filter.mp hi
      exact absurd ⟨hsock, trivial⟩ (hnone i (Finset.mem_range.mp hiN))

/-- Four servers and three versions. -/
theorem selectServer_staysInTable_iff_four :
    StaysInTable ⟨4, 3, 3, by decide, by decide⟩ .put
        (votesOf [(1, ['a']), (3, ['b']), (1, ['a']), (2, ['c'])]) ↔
      TableSuffices 4 (votesOf [(1, ['a']), (3, ['b']), (1, ['a']), (2, ['c'])]) .put :=
  selectServer_staysInTable_iff _ .put _ (by decide) (by decide)

/-- The only server answers with the version `-1`: `hashMap[-1]` is read. -/
theorem not_staysInTable_negative :
    ¬ StaysInTable ⟨1, 1, 1, by decide, by decide⟩ .get (votesOf [(-1, ['a'])]) := by
  intro h
  exact absurd (h.inside (.hashMap (-1)) (by decide)).1 (by decide)

end QuorumLogFs.Vote
