import QuorumLogFs.Basis.Register
import QuorumLogFs.Basis.Runs
import QuorumLogFs.Vote.Cluster

/-!
# Quorum reads

The tables of the servers are replicas of one register for each key. A `PUT` takes the version to
increment from a vote among its voters: the version most of them sent, on a tie the one sent first.
While this is the highest version sent, `PUT` writes a version above all others, reads return the
latest write, and versions only grow. `TopVersionWins` is this condition.
-/

namespace QuorumLogFs.Vote

open QuorumLogFs.Basis

/-! ## What is claimed of a run -/

/-- The value of the last `PUT` for `key` that reached its quorum. -/
def lastPut (key : List Char) (history : List Done) : Option (List Char) :=
  history.foldl (fun latest d => match d with
    | .put k val out => if k = key ∧ out ≠ .noQuorum then some val else latest
    | .get _ _ => latest) none

/-- Every `GET` that reached its quorum after such a `PUT` has printed the value of the last one. -/
def ReadsLatest (history : List Done) : Prop :=
  ∀ pre post key out, history = pre ++ .get key out :: post → out ≠ .noQuorum →
    ∀ val, lastPut key pre = some val → ∃ i lied, out = .reading i key val lied

/-- Two servers that hold the same version of a key hold the same value. -/
def OneValuePerVersion (q : Quorums) (s : Cluster) : Prop :=
  ∀ key : Word, ∀ i < q.N, ∀ j < q.N, ∀ vno val val',
    stored key.chars (s.tables i) = some (vno, val) →
    stored key.chars (s.tables j) = some (vno, val') → val = val'

/-- Server `i` applies an update of `key` in this run. -/
def Updates (q : Quorums) (s : Cluster) (r : ClientRun) (key : List Char) (i : ℕ) : Prop :=
  i ∈ r.answers ∧ (∃ k val, r.request = .put k val ∧ k.chars = key) ∧
    ∃ vno, connectThreadPut q.N q.Nr q.Nw r.env (r.replies s.tables) = .update vno

/-- A server's version of a key grows with every update and changes with nothing else. -/
def VersionsGrow (q : Quorums) (s : Cluster) (r : ClientRun) (s' : Cluster) : Prop :=
  ∀ key : Word, ∀ i < q.N, ∀ vno val, stored key.chars (s.tables i) = some (vno, val) →
    (Updates q s r key.chars i →
      ∃ vno' val', stored key.chars (s'.tables i) = some (vno', val') ∧ vno < vno') ∧
    (¬ Updates q s r key.chars i → stored key.chars (s'.tables i) = some (vno, val))

/-- The versions a `PUT` of `key` is sent, in the order of the servers; `0` for a missing key. -/
def votes (q : Quorums) (s : Cluster) (r : ClientRun) (key : List Char) : List ℤ :=
  ((List.range q.N).filter fun i => i ∈ r.answers).map fun i =>
    version (stored key (s.tables i))

/-- Among the voters of a `PUT` that reaches its quorum, the highest version is the plurality: no
smaller version is held by more of them, nor by as many with an earlier first one. It can also be
incremented. -/
def TopVersionWins (q : Quorums) (s : Cluster) (r : ClientRun) : Prop :=
  match r.request with
  | .get _ => True
  | .put key _ => q.Nw ≤ (votes q s r key.chars).length →
      ∃ m ∈ votes q s r key.chars, IsPlurality (votes q s r key.chars) m ∧
        (∀ x ∈ votes q s r key.chars, x ≤ m) ∧ m < INT_MAX

instance (q : Quorums) (s : Cluster) : (r : ClientRun) → Decidable (TopVersionWins q s r)
  | ⟨.get _, _, _, _⟩ => isTrue trivial
  | ⟨.put _ _, _, _, _⟩ => inferInstanceAs (Decidable (_ → _))

/-! ## History -/

theorem lastPut_snoc (key : List Char) (history : List Done) (d : Done) :
    lastPut key (history ++ [d]) = match d with
      | .put k val out => if k = key ∧ out ≠ .noQuorum then some val else lastPut key history
      | .get _ _ => lastPut key history := by
  rw [lastPut, List.foldl_append]
  rfl

theorem readsLatest_snoc_put {history : List Done} (h : ReadsLatest history)
    (key val : List Char) (out : PutOutcome) : ReadsLatest (history ++ [.put key val out]) := by
  intro pre post k o heq
  rcases List.eq_nil_or_concat post with rfl | ⟨post, d, rfl⟩
  · simp at heq
  · rw [List.concat_eq_append, ← List.cons_append, ← List.append_assoc] at heq
    exact h pre post k o (List.append_inj' heq rfl).1

theorem readsLatest_snoc_get {history : List Done} (h : ReadsLatest history) (key : List Char)
    {out : GetOutcome} (hout : out ≠ .noQuorum → ∀ val, lastPut key history = some val →
      ∃ i lied, out = .reading i key val lied) : ReadsLatest (history ++ [.get key out]) := by
  intro pre post k o heq
  rcases List.eq_nil_or_concat post with rfl | ⟨post, d, rfl⟩
  · obtain ⟨rfl, hlast⟩ := List.append_inj' heq rfl
    obtain ⟨rfl, rfl⟩ : key = k ∧ out = o := by simpa using hlast
    exact hout
  · rw [List.concat_eq_append, ← List.cons_append, ← List.append_assoc] at heq
    exact h pre post k o (List.append_inj' heq rfl).1

/-! ## The invariant -/

/-- The copies of a key. -/
def copies (s : Cluster) (key : List Char) (i : ℕ) : Option (ℤ × List Char) :=
  stored key (s.tables i)

/-- The copies of every key are consistent with the last `PUT` that reached its quorum. -/
structure ClusterInv (q : Quorums) (s : Cluster) : Prop where
  idle : ∀ i < q.N, Idle (s.tables i)
  consistent : ∀ key, IsWord key →
    Consistent q.N (min q.N q.Nw) (copies s key) (lastPut key s.history)
  quorum : ∀ key val, lastPut key s.history = some val → q.Nw ≤ q.N
  reads : ReadsLatest s.history

theorem ClusterInv.init (q : Quorums) : ClusterInv q .init where
  idle _ _ := idle_initTable
  consistent key _ := by
    refine Consistent.init (c := stored key initTable) (min_le_left _ _) fun m x hx => ?_
    rw [stored, Option.map_eq_some_iff] at hx
    obtain ⟨i, hi, hix⟩ := hx
    obtain rfl : i = 0 := by simpa [initTable] using searchKey_lt hi
    have hm : (1 : ℤ) = m := congrArg Prod.fst hix
    omega
  quorum key val h := by simp [lastPut, Cluster.init] at h
  reads pre post key out heq := by simp [Cluster.init] at heq

/-! ## What the client learns -/

section

variable {q : Quorums} {s : Cluster} {r : ClientRun}

/-- The client's quorum check counts the voters. -/
theorem responsesG_put (hidle : ∀ i < q.N, Idle (s.tables i)) {key val : Word}
    (hr : r.request = .put key val) (hroom : ∀ i < q.N, (r.first s.tables i).isSome) :
    responsesG q.N (r.replies s.tables) = (r.through q.N).card := by
  rw [responsesG, ClientRun.through, ← countP_range]
  refine List.countP_congr fun i hi => ?_
  have hiN := List.mem_range.mp hi
  by_cases hans : i ∈ r.answers
  · simp [(ClientRun.put_spec hr (hidle i hiN) hans (hroom i hiN)).1, hans]
  · simp [ClientRun.replies_of_notMem hans, hans]

theorem length_votes (key : List Char) :
    (votes q s r key).length = (r.through q.N).card := by
  rw [votes, List.length_map, ← List.countP_eq_length_filter, ClientRun.through, ← countP_range]

theorem mem_votes {key : List Char} {x : ℤ} :
    x ∈ votes q s r key ↔ ∃ i ∈ r.through q.N, version (copies s key i) = x := by
  simp [votes, ClientRun.mem_through, copies]

theorem tally_votes (key : List Char) (x : ℤ) :
    tally (votes q s r key) x =
      ((r.through q.N).filter fun i => version (copies s key i) = x).card := by
  rw [ClientRun.through, Finset.filter_filter, ← countP_range, votes, tally, List.countP_map,
    List.countP_filter]
  refine List.countP_congr fun i _ => ?_
  rw [decide_eq_true_iff]
  simp [copies, and_comm]

/-- What `selectServer` files in a `PUT` are the votes. -/
theorem map_fst_putItems (hidle : ∀ i < q.N, Idle (s.tables i)) {key val : Word}
    (hr : r.request = .put key val) (hroom : ∀ i < q.N, (r.first s.tables i).isSome) :
    (putItems (keyVals_c r.env (r.replies s.tables)) (List.range q.N)).map Prod.fst =
      votes q s r key.chars := by
  have hanswered : answered (keyVals_c r.env (r.replies s.tables)) (List.range q.N) =
      (List.range q.N).filter fun i => i ∈ r.answers := by
    rw [answered_keyVals_c]
    refine List.filter_congr fun i hi => ?_
    have hiN := List.mem_range.mp hi
    by_cases hans : i ∈ r.answers
    · simp [(ClientRun.put_spec hr (hidle i hiN) hans (hroom i hiN)).1, hans]
    · simp [ClientRun.replies_of_notMem hans, hans]
  rw [putItems, hanswered, votes, List.map_map]
  refine List.map_congr_left fun i hi => ?_
  obtain ⟨hi, hans⟩ := List.mem_filter.mp hi
  have hiN := List.mem_range.mp hi
  have hreply := (ClientRun.put_spec hr (hidle i hiN) (by simpa using hans) (hroom i hiN)).1
  simp only [Function.comp, keyVals_c, hreply, voteReply]
  cases hstored : stored key.chars (s.tables i) with
  | none => simp [connectTo_zero]
  | some e =>
    obtain ⟨j, hj, rfl⟩ := Option.map_eq_some_iff.mp hstored
    have hentry := hidle i hiN _ j key.isWord hj
    simp [connectTo_voteMsg _ _ key.isWord hentry.value hentry.vno]

/-- So many voters of a `PUT` share a version that the buckets stay inside the table. -/
theorem length_group_putItems_lt (hN : q.N ≤ MAX_CON) (h : ClusterInv q s) {key val : Word}
    (hr : r.request = .put key val) (hroom : ∀ i < q.N, (r.first s.tables i).isSome)
    (hquorum : q.Nw ≤ (r.through q.N).card) :
    (group (putItems (keyVals_c r.env (r.replies s.tables)) (List.range q.N))).length < MAX_CON := by
  have hcard : (r.through q.N).card ≤ q.N := by
    simpa using Finset.card_le_card (r.through_subset q.N)
  have hmin : min (q.N : ℤ) q.Nw = q.Nw := min_eq_right (by omega)
  obtain ⟨n, hn⟩ := (h.consistent key.chars key.isWord).exists_common_version
    (min_le_left _ _) (r.through_subset q.N)
  have hgroup := length_group_add_tally_le
    (putItems (keyVals_c r.env (r.replies s.tables)) (List.range q.N)) n
  rw [map_fst_putItems h.idle hr hroom, tally_votes, length_putItems, length_answered,
    responsesG_put h.idle hr hroom] at hgroup
  have := q.majority
  rw [MAX_CON] at hN ⊢
  omega

/-- A `PUT` that reaches its quorum writes the version after the highest one. -/
theorem connectThreadPut_top (hN : q.N ≤ MAX_CON) (h : ClusterInv q s) {key val : Word}
    (hr : r.request = .put key val) (hroom : ∀ i < q.N, (r.first s.tables i).isSome)
    (hquorum : q.Nw ≤ (r.through q.N).card) {m : ℤ}
    (hplur : IsPlurality (votes q s r key.chars) m) (hm : 0 ≤ m) (hmax : m < INT_MAX) :
    connectThreadPut q.N q.Nr q.Nw r.env (r.replies s.tables) = .update (m + 1) := by
  have hupdate := connectThreadPut_update q.Nr q.Nw r.env hN
    (by rw [responsesG_put h.idle hr hroom]; exact hquorum)
    (length_group_putItems_lt hN h hr hroom hquorum)
    (by rw [map_fst_putItems h.idle hr hroom]; exact hplur)
  rw [hupdate, wrap32_of_range (by omega) (by omega)]

/-- A `PUT` run, seen from the copies: below its quorum it changes none, otherwise its voters hold
the version after the highest one of theirs. -/
theorem put_step (hN : q.N ≤ MAX_CON) (h : ClusterInv q s) {key val : Word}
    (hr : r.request = .put key val) (hok : TopVersionWins q s r) {s' : Cluster}
    (hstep : clusterStep q s r = some s') :
    (connectThreadPut q.N q.Nr q.Nw r.env (r.replies s.tables) = .noQuorum ∧
      s'.history = s.history ++ [.put key.chars val.chars .noQuorum] ∧
      (∀ i < q.N, Idle (s'.tables i)) ∧
      ∀ k, IsWord k → ∀ i < q.N, copies s' k i = copies s k i) ∨
    ∃ m, q.Nw ≤ (r.through q.N).card ∧
      connectThreadPut q.N q.Nr q.Nw r.env (r.replies s.tables) = .update (m + 1) ∧
      s'.history = s.history ++ [.put key.chars val.chars (.update (m + 1))] ∧
      (∀ i < q.N, Idle (s'.tables i)) ∧
      (∃ i ∈ r.through q.N, version (copies s key.chars i) = m) ∧
      (∀ i ∈ r.through q.N, version (copies s key.chars i) ≤ m) ∧
      (∀ i ∈ r.through q.N, copies s' key.chars i = some (m + 1, val.chars)) ∧
      (∀ i < q.N, i ∉ r.through q.N → copies s' key.chars i = copies s key.chars i) ∧
      ∀ k, IsWord k → k ≠ key.chars → ∀ i < q.N, copies s' k i = copies s k i := by
  simp only [clusterStep, hr] at hstep
  split at hstep
  swap
  · exact absurd hstep (by simp)
  rename_i hends
  rw [Option.some.injEq] at hstep
  have hroom : ∀ i < q.N, (r.first s.tables i).isSome := fun i hi => ClientRun.first_isSome (hends i hi)
  have hresponses := responsesG_put h.idle hr hroom
  by_cases hquorum : q.Nw ≤ (r.through q.N).card
  · -- the quorum is reached
    rw [TopVersionWins, hr] at hok
    obtain ⟨m, hmem, hplur, hle, hmax⟩ := hok (by rwa [length_votes])
    obtain ⟨i₀, hi₀, hi₀m⟩ := mem_votes.mp hmem
    have hm : 0 ≤ m := hi₀m ▸ (h.consistent key.chars key.isWord).version_nonneg
      (ClientRun.mem_through.mp hi₀).1
    have hout := connectThreadPut_top hN h hr hroom hquorum hplur hm hmax
    simp only [hout] at hstep
    subst hstep
    have hint : IsInt (m + 1) := connectThreadPut_isInt hout
    have hspec := fun i (hi : i ∈ r.through q.N) =>
      (ClientRun.put_spec hr (h.idle i (ClientRun.mem_through.mp hi).1)
        (ClientRun.mem_through.mp hi).2 (hroom i (ClientRun.mem_through.mp hi).1)).2.2 (m + 1) hint
    have hkeep : ∀ i < q.N, i ∉ r.through q.N → ∀ update,
        r.finish update s.tables i = s.tables i := fun i hi hnot update =>
      ClientRun.finish_of_notMem (fun hans => hnot (ClientRun.mem_through.mpr ⟨hi, hans⟩)) update
    refine Or.inr ⟨m, hquorum, hout, rfl, fun i hi => ?_, ⟨i₀, hi₀, hi₀m⟩, fun i hi => ?_,
      fun i hi => (hspec i hi).2.1, fun i hi hnot => ?_, fun k hk hne i hi => ?_⟩
    · by_cases hthrough : i ∈ r.through q.N
      · exact (hspec i hthrough).2.2
      · dsimp only
        rw [hkeep i hi hthrough]
        exact h.idle i hi
    · exact hle _ (mem_votes.mpr ⟨i, hi, rfl⟩)
    · exact congrArg (stored key.chars) (hkeep i hi hnot _)
    · by_cases hthrough : i ∈ r.through q.N
      · exact (hspec i hthrough).1.stored_eq hk hne
      · exact congrArg (stored k) (hkeep i hi hthrough _)
  · -- the client exits
    have hout : connectThreadPut q.N q.Nr q.Nw r.env (r.replies s.tables) = .noQuorum := by
      rw [connectThreadPut, hresponses, if_pos (by omega)]
    simp only [hout] at hstep
    subst hstep
    have hsame : ∀ i < q.N, SameFor (fun _ => True) (s.tables i) (r.finish none s.tables i) := by
      intro i hi
      by_cases hans : i ∈ r.answers
      · exact (ClientRun.put_spec hr (h.idle i hi) hans (hroom i hi)).2.1
      · rw [ClientRun.finish_of_notMem hans]
        exact fun _ _ _ => ⟨rfl, fun _ _ => rfl⟩
    exact Or.inl ⟨hout, rfl, fun i hi => (hsame i hi).idle (h.idle i hi),
      fun k hk i hi => (hsame i hi).stored_eq hk trivial⟩

/-- A `GET` run changes no table. -/
theorem get_step (h : ClusterInv q s) {key : Word} (hr : r.request = .get key) {s' : Cluster}
    (hstep : clusterStep q s r = some s') :
    s'.history = s.history ++
        [.get key.chars (connectThreadGet q.N q.Nr q.Nw r.env (r.replies s.tables))] ∧
      ∀ i < q.N, s'.tables i = s.tables i := by
  simp only [clusterStep, hr] at hstep
  split at hstep
  swap
  · exact absurd hstep (by simp)
  rw [Option.some.injEq] at hstep
  subst hstep
  exact ⟨rfl, fun i hi => (ClientRun.get_spec hr (h.idle i hi)).1⟩

/-- In a `GET` the servers that answer are those that let it through and hold the key. -/
theorem mem_answered_get (hidle : ∀ i < q.N, Idle (s.tables i)) {key : Word}
    (hr : r.request = .get key) (i : ℕ) :
    i ∈ answered (keyVals_c r.env (r.replies s.tables)) (List.range q.N) ↔
      i ∈ r.through q.N ∧ ∃ e, copies s key.chars i = some e := by
  rw [answered_keyVals_c, List.mem_filter, List.mem_range, ClientRun.mem_through]
  constructor
  · rintro ⟨hi, hsome⟩
    by_cases hans : i ∈ r.answers
    · rw [(ClientRun.get_spec hr (hidle i hi)).2 hans, Option.isSome_map] at hsome
      exact ⟨⟨hi, hans⟩, Option.isSome_iff_exists.mp hsome⟩
    · simp [ClientRun.replies_of_notMem hans] at hsome
  · rintro ⟨⟨hi, hans⟩, e, he⟩
    refine ⟨hi, ?_⟩
    rw [(ClientRun.get_spec hr (hidle i hi)).2 hans, show stored _ _ = some e from he]
    rfl

/-- What the client stores of such an answer is the copy. -/
theorem keyVals_c_get (hidle : ∀ i < q.N, Idle (s.tables i)) {key : Word}
    (hr : r.request = .get key) {i : ℕ} (hi : i ∈ r.through q.N) {m : ℤ} {x : List Char}
    (hix : copies s key.chars i = some (m, x)) :
    (keyVals_c r.env (r.replies s.tables) i).vno = m ∧
      (keyVals_c r.env (r.replies s.tables) i).key = key.chars ∧
      (keyVals_c r.env (r.replies s.tables) i).value = x := by
  obtain ⟨hiN, hans⟩ := ClientRun.mem_through.mp hi
  obtain ⟨j, hj, hjx⟩ := Option.map_eq_some_iff.mp hix
  obtain ⟨rfl, rfl⟩ := Prod.mk.inj hjx
  rw [keyVals_c, (ClientRun.get_spec hr (hidle i hiN)).2 hans, show stored _ _ = _ from hix,
    Option.map_some, connectTo_voteMsg _ _ key.isWord (hidle i hiN _ j key.isWord hj).value
      (hidle i hiN _ j key.isWord hj).vno]
  exact ⟨rfl, rfl, rfl⟩

/-- A `GET` that reaches its quorum prints the value of the last `PUT` that reached its own. -/
theorem get_reads_latest (hN : q.N ≤ MAX_CON) (h : ClusterInv q s) {key : Word}
    (hr : r.request = .get key)
    (hout : connectThreadGet q.N q.Nr q.Nw r.env (r.replies s.tables) ≠ .noQuorum)
    {val : List Char} (hlast : lastPut key.chars s.history = some val) :
    ∃ i lied, connectThreadGet q.N q.Nr q.Nw r.env (r.replies s.tables) =
      .reading i key.chars val lied := by
  have hanswered := mem_answered_get h.idle hr
  have hslot := fun i hi m x => keyVals_c_get h.idle hr (m := m) (x := x) (i := i) hi
  set kvs := keyVals_c r.env (r.replies s.tables) with hkvs
  set R := (answered kvs (List.range q.N)).toFinset with hR
  have hcardR : (R.card : ℤ) = responsesG q.N (r.replies s.tables) := by
    rw [hR, List.toFinset_card_of_nodup (nodup_answered kvs q.N), hkvs, length_answered]
  have hquorum : q.Nr ≤ responsesG q.N (r.replies s.tables) := by
    by_contra hlt
    exact hout (by rw [connectThreadGet, if_pos (not_le.mp hlt)])
  have hNw := h.quorum _ _ hlast
  have hcons := h.consistent key.chars key.isWord
  rw [hlast] at hcons
  have hsub : R ⊆ Finset.range q.N := fun i hi => by
    have hi' := (hanswered i).mp (List.mem_toFinset.mp hi)
    exact r.through_subset q.N hi'.1
  have hover : (q.N : ℤ) < R.card + min (q.N : ℤ) q.Nw := by
    have := q.overlap
    rw [min_eq_right hNw]
    omega
  obtain ⟨n, ⟨i₀, hi₀, hi₀n⟩, htop⟩ := hcons.read hsub hover
  have hi₀' := List.mem_toFinset.mp hi₀
  have hthrough₀ := ((hanswered i₀).mp hi₀').1
  have hn0 : 1 ≤ n := hcons.pos i₀ (Finset.mem_range.mp (hsub hi₀)) n val hi₀n
  -- every answer has a version of at most `n`, and the value `val` when it has version `n`
  have hall : ∀ i ∈ answered kvs (List.range q.N),
      (kvs i).vno ≤ n ∧ ((kvs i).vno = n → (kvs i).value = val) := by
    intro i hi
    obtain ⟨hthrough, ⟨m, x⟩, hix⟩ := (hanswered i).mp hi
    obtain ⟨hvno, -, hvalue⟩ := hslot i hthrough m x hix
    rw [hvno, hvalue]
    exact htop i (ClientRun.mem_through.mp hthrough).1 m x hix
  have hplur : IsPlurality ((getItems kvs n (List.range q.N)).map Prod.fst) val := by
    refine isPlurality_of_forall_eq ?_ fun w hw => ?_
    · refine List.mem_map.mpr ⟨(val, i₀), mem_getItems.mpr ⟨hi₀', ?_⟩, rfl⟩
      obtain ⟨hvno, -, hvalue⟩ := hslot i₀ hthrough₀ n val hi₀n
      exact ⟨hvno, hvalue⟩
    · obtain ⟨⟨w', i⟩, hi, rfl⟩ := List.mem_map.mp hw
      obtain ⟨hians, hin, rfl⟩ := mem_getItems.mp hi
      exact (hall i hians).2 hin
  obtain ⟨i, hreading, hi, -, -⟩ := connectThreadGet_reading q.Nr q.Nw r.env hN hquorum
    (by omega) ⟨i₀, hi₀', (hslot i₀ hthrough₀ n val hi₀n).1⟩ (fun i hi => (hall i hi).1) hplur
  obtain ⟨hthrough, ⟨m, x⟩, hix⟩ := (hanswered i).mp hi
  rw [← hkvs, (hslot i hthrough m x hix).2.1] at hreading
  exact ⟨i, _, hreading⟩

/-! ## Runs -/

theorem ClusterInv.step (hN : q.N ≤ MAX_CON) (s : Cluster) (r : ClientRun) (s' : Cluster)
    (h : ClusterInv q s) (hok : TopVersionWins q s r) (hstep : clusterStep q s r = some s') :
    ClusterInv q s' := by
  cases hr : r.request with
  | get key =>
    obtain ⟨hhistory, htables⟩ := get_step h hr hstep
    have hlast : ∀ k, lastPut k s'.history = lastPut k s.history := fun k => by
      rw [hhistory, lastPut_snoc]
    refine ⟨fun i hi => by rw [htables i hi]; exact h.idle i hi, fun k hk => ?_, fun k v hv => ?_, ?_⟩
    · rw [hlast]
      exact (h.consistent k hk).congr fun i hi => by rw [copies, copies, htables i hi]
    · exact h.quorum k v (hlast k ▸ hv)
    · rw [hhistory]
      exact readsLatest_snoc_get h.reads _ fun hout val hval =>
        get_reads_latest hN h hr hout hval
  | put key val =>
    rcases put_step hN h hr hok hstep with ⟨-, hhistory, hidle, hcopies⟩ |
      ⟨m, hquorum, -, hhistory, hidle, htop, hmax, hin, hout, hother⟩
    · have hlast : ∀ k, lastPut k s'.history = lastPut k s.history := fun k => by
        rw [hhistory, lastPut_snoc]
        exact if_neg fun hc => hc.2 rfl
      refine ⟨hidle, fun k hk => ?_, fun k v hv => h.quorum k v (hlast k ▸ hv), ?_⟩
      · rw [hlast]
        exact (h.consistent k hk).congr (hcopies k hk)
      · rw [hhistory]
        exact readsLatest_snoc_put h.reads _ _ _
    · have hcard : (r.through q.N).card ≤ q.N := by
        simpa using Finset.card_le_card (r.through_subset q.N)
      have hmajority := q.majority
      have hself : lastPut key.chars s'.history = some val.chars := by
        rw [hhistory, lastPut_snoc]
        exact if_pos ⟨rfl, by simp⟩
      have hlast : ∀ k, k ≠ key.chars → lastPut k s'.history = lastPut k s.history := fun k hk => by
        rw [hhistory, lastPut_snoc]
        exact if_neg fun hc => hk hc.1.symm
      refine ⟨hidle, fun k hk => ?_, fun k v hv => by omega, ?_⟩
      · by_cases hkey : k = key.chars
        · subst hkey
          rw [hself]
          refine (h.consistent _ hk).write (r.through_subset q.N) ?_ ?_ htop hmax hin hout
          · rw [min_eq_right (by omega)]
            omega
          · rw [min_eq_right (by omega)]
            exact hquorum
        · rw [hlast k hkey]
          exact (h.consistent k hk).congr (hother k hk hkey)
      · rw [hhistory]
        exact readsLatest_snoc_put h.reads _ _ _

/-- In every sequence of client runs in which the highest version wins every `PUT` vote, a `GET` that
reaches its read quorum prints the value of the last `PUT` of the key that reached its write quorum.
-/
theorem reads_latest (q : Quorums) (hN : q.N ≤ MAX_CON) (rs : List ClientRun)
    (hok : Each (clusterStep q) (TopVersionWins q) .init rs) :
    Always (clusterStep q) (fun s => ReadsLatest s.history) .init rs :=
  (always_of_each (ClusterInv.init q) (ClusterInv.step hN) hok).imp fun _ h => h.reads

/-- Three servers, two of them a quorum. -/
def threeServers : Quorums := ⟨3, 2, 2, by decide, by decide⟩

/-- `GET k` and `PUT k v` answered by the given servers. -/
def getK (answers : Finset ℕ) : ClientRun := ⟨.get (.ofString "k"), answers, {}, fun _ => {}⟩
def putK (v : Word) (answers : Finset ℕ) : ClientRun :=
  ⟨.put (.ofString "k") v, answers, {}, fun _ => {}⟩

/-- Two writes whose quorums share one server, and a read. -/
def lagging : List ClientRun :=
  [putK (.ofString "v1") {0, 1}, putK (.ofString "v2") {1, 2}, getK {0, 2}]

theorem reads_latest_lagging :
    Always (clusterStep threeServers) (fun s => ReadsLatest s.history) .init lagging :=
  reads_latest threeServers (by decide) lagging (by decide)

/-- Five servers, three of them a quorum. -/
def fiveServers : Quorums := ⟨5, 3, 3, by decide, by decide⟩

/-- Two writes whose quorums share one server: the second is outvoted by the two that lag. -/
def outvoted : List ClientRun :=
  [putK (.ofString "v1") {0, 1, 2}, putK (.ofString "v2") {2, 3, 4}, getK {0, 1, 2}]

/-- The read prints the value of the first write. -/
theorem not_reads_latest_outvoted :
    ∃ s, run (clusterStep fiveServers) .init outvoted = some s ∧
      s.history = [.put "k".toList "v1".toList (.update 1), .put "k".toList "v2".toList (.update 1),
        .get "k".toList (.reading 0 "k".toList "v1".toList [2])] ∧ ¬ ReadsLatest s.history := by
  have hhistory : (run (clusterStep fiveServers) .init outvoted).map Cluster.history =
      some [.put "k".toList "v1".toList (.update 1), .put "k".toList "v2".toList (.update 1),
        .get "k".toList (.reading 0 "k".toList "v1".toList [2])] := by decide
  obtain ⟨s, hs, hhist⟩ := Option.map_eq_some_iff.mp hhistory
  refine ⟨s, hs, hhist, fun h => ?_⟩
  rw [hhist] at h
  obtain ⟨i, lied, hread⟩ := h [_, _] [] _ _ rfl (by decide) "v2".toList (by decide)
  simp at hread

/-- In such a sequence servers that hold the same version of a key hold the same value. -/
theorem one_value_per_version (q : Quorums) (hN : q.N ≤ MAX_CON) (rs : List ClientRun)
    (hok : Each (clusterStep q) (TopVersionWins q) .init rs) :
    Always (clusterStep q) (OneValuePerVersion q) .init rs :=
  (always_of_each (ClusterInv.init q) (ClusterInv.step hN) hok).imp fun _ h key i hi j hj vno val val'
    hval hval' => (h.consistent key.chars key.isWord).agree i hi j hj vno val val' hval hval'

theorem one_value_per_version_lagging :
    Always (clusterStep threeServers) (OneValuePerVersion threeServers) .init lagging :=
  one_value_per_version threeServers (by decide) lagging (by decide)

/-- The two writes leave one version with two values. -/
theorem not_one_value_per_version_outvoted :
    ∃ s, run (clusterStep fiveServers) .init (outvoted.take 2) = some s ∧
      stored "k".toList (s.tables 0) = some (1, "v1".toList) ∧
      stored "k".toList (s.tables 2) = some (1, "v2".toList) ∧
      ¬ OneValuePerVersion fiveServers s := by
  have hstored : (run (clusterStep fiveServers) .init (outvoted.take 2)).map (fun s =>
      (stored "k".toList (s.tables 0), stored "k".toList (s.tables 2))) =
      some (some (1, "v1".toList), some (1, "v2".toList)) := by decide
  obtain ⟨s, hs, hpair⟩ := Option.map_eq_some_iff.mp hstored
  obtain ⟨h0, h2⟩ := Prod.mk.inj hpair
  refine ⟨s, hs, h0, h2, fun h => ?_⟩
  have := h (.ofString "k") 0 (by decide) 2 (by decide) 1 _ _ h0 h2
  simp at this

theorem versionsGrow_step (hN : q.N ≤ MAX_CON) (h : ClusterInv q s) (hok : TopVersionWins q s r)
    {s' : Cluster} (hstep : clusterStep q s r = some s') : VersionsGrow q s r s' := by
  intro k i hi vno w hstored
  cases hr : r.request with
  | get key =>
    refine ⟨?_, fun _ => ?_⟩
    · rintro ⟨-, ⟨k', v', hput, -⟩, -⟩
      simp [hr] at hput
    · rw [(get_step h hr hstep).2 i hi]
      exact hstored
  | put key val =>
    rcases put_step hN h hr hok hstep with ⟨hout, -, -, hcopies⟩ |
      ⟨m, -, hout, -, -, -, hmax, hin, hkeep, hother⟩
    · refine ⟨?_, fun _ => (hcopies k.chars k.isWord i hi).trans hstored⟩
      rintro ⟨-, -, n, hupdate⟩
      simp [hout] at hupdate
    · by_cases hthrough : i ∈ r.through q.N
      · have hans := (ClientRun.mem_through.mp hthrough).2
        refine ⟨?_, fun hnot => ?_⟩
        · rintro ⟨-, ⟨k', v', hput, hk'⟩, -⟩
          obtain ⟨rfl, rfl⟩ : key = k' ∧ val = v' := by simpa [hr] using hput
          refine ⟨m + 1, val.chars, ?_, ?_⟩
          · rw [← hk']
            exact hin i hthrough
          · have hle := hmax i hthrough
            rw [hk', copies, hstored, version_some] at hle
            omega
        · have hne : k.chars ≠ key.chars := fun hk =>
            hnot ⟨hans, ⟨key, val, hr, hk.symm⟩, m + 1, hout⟩
          exact (hother k.chars k.isWord hne i hi).trans hstored
      · refine ⟨?_, fun _ => ?_⟩
        · rintro ⟨hans, -⟩
          exact absurd (ClientRun.mem_through.mpr ⟨hi, hans⟩) hthrough
        · by_cases hk : k.chars = key.chars
          · have hsame := hkeep i hi hthrough
            rw [← hk] at hsame
            exact hsame.trans hstored
          · exact (hother k.chars k.isWord hk i hi).trans hstored

/-- In such a sequence every update a server applies to a key it holds raises its version, and no
version changes otherwise. -/
theorem versions_grow (q : Quorums) (hN : q.N ≤ MAX_CON) (rs : List ClientRun)
    (hok : Each (clusterStep q) (TopVersionWins q) .init rs) :
    Steps (clusterStep q) (VersionsGrow q) .init rs :=
  steps_of_each (ClusterInv.init q) (ClusterInv.step hN)
    (fun _ _ _ h hok hstep => versionsGrow_step hN h hok hstep) hok

theorem versions_grow_lagging :
    Steps (clusterStep threeServers) (VersionsGrow threeServers) .init lagging :=
  versions_grow threeServers (by decide) lagging (by decide)

/-- The second write is applied by a server that holds its version already. -/
theorem not_versions_grow_outvoted :
    ∃ s s', run (clusterStep fiveServers) .init [putK (.ofString "v1") {0, 1, 2}] = some s ∧
      clusterStep fiveServers s (putK (.ofString "v2") {2, 3, 4}) = some s' ∧
      Updates fiveServers s (putK (.ofString "v2") {2, 3, 4}) "k".toList 2 ∧
      stored "k".toList (s.tables 2) = some (1, "v1".toList) ∧
      stored "k".toList (s'.tables 2) = some (1, "v2".toList) ∧
      ¬ VersionsGrow fiveServers s (putK (.ofString "v2") {2, 3, 4}) s' := by
  have hrun : ((run (clusterStep fiveServers) .init [putK (.ofString "v1") {0, 1, 2}]).bind fun s =>
      (clusterStep fiveServers s (putK (.ofString "v2") {2, 3, 4})).map fun s' =>
        (stored "k".toList (s.tables 2), stored "k".toList (s'.tables 2),
          connectThreadPut 5 3 3 {} ((putK (.ofString "v2") {2, 3, 4}).replies s.tables))) =
      some (some (1, "v1".toList), some (1, "v2".toList), .update 1) := by decide
  obtain ⟨s, hs, hrun⟩ := Option.bind_eq_some_iff.mp hrun
  obtain ⟨s', hs', htriple⟩ := Option.map_eq_some_iff.mp hrun
  simp only [Prod.mk.injEq] at htriple
  obtain ⟨hbefore, hafter, hout⟩ := htriple
  have hupdates : Updates fiveServers s (putK (.ofString "v2") {2, 3, 4}) "k".toList 2 :=
    ⟨by decide, ⟨_, _, rfl, rfl⟩, 1, hout⟩
  refine ⟨s, s', hs, hs', hupdates, hbefore, hafter, fun h => ?_⟩
  obtain ⟨vno', val', hval', hlt⟩ := (h (.ofString "k") 2 (by decide) 1 _ hbefore).1 hupdates
  have heq := hafter.symm.trans hval'
  simp only [Option.some.injEq, Prod.mk.injEq] at heq
  omega

end

end QuorumLogFs.Vote
