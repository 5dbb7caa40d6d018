import QuorumLogFs.Vote.QuorumRead
import QuorumLogFs.Vote.Selection

/-!
# Accusations

`selectServer` reports servers as having lied: in a `GET` those that delivered the highest version with
a value fewer servers have, in a `PUT` those that voted a version above the plurality version. Among
honest servers the first cannot happen while servers with the same version hold the same value, the
second while the plurality version is the highest: a server that has seen a write the plurality
missed is accused.
-/

namespace QuorumLogFs.Vote

open QuorumLogFs.Basis

/-- `msgType` -/
def Request.msgType : Request → MsgType
  | .get _ => .get
  | .put _ _ => .put

/-- The answers a run of the client needs. -/
def MsgType.quorum (q : Quorums) : MsgType → ℤ
  | .get => q.Nr
  | .put => q.Nw

/-- The servers that a run of the client prints as having lied. -/
def reported (q : Quorums) (s : Cluster) (r : ClientRun) : List ℕ :=
  if (responsesG q.N (r.replies s.tables) : ℤ) < r.request.msgType.quorum q then []
  else
    match selectServer hashTable r.request.msgType q.Nr q.Nw q.N
        (keyVals_c r.env (r.replies s.tables)) with
    | .chosen _ lied => lied
    | _ => []

/-- When nobody answered, no bucket has a member. -/
theorem selectServer_get_nobody {N : ℕ} {kvs : ℕ → KeyVal} (Nr Nw : ℤ)
    (h : answered kvs (List.range N) = []) :
    ∀ i lied, selectServer hashTable .get Nr Nw N kvs ≠ .chosen i lied := by
  have htable : ((hashTable.clear N) 0).idx = [] := idx_clear (Or.inr rfl)
  have hfiled := getFiled_foldl kvs (List.range N) htable
  obtain ⟨-, hindex, hidx⟩ := hfiled.state.resolve_right fun hc => by
    obtain ⟨-, ⟨i, hi, -⟩, -⟩ := hc
    rw [h] at hi
    cases hi
  intro i lied heq
  unfold selectServer at heq
  split at heq
  · cases heq
  · dsimp only at heq
    split at heq
    · cases heq
    · rw [hindex] at heq
      have hcount : ∀ s : Filing, s.index = 0 → (s.table 0).idx = [] →
          (firstMax ((List.range (0 + 1)).map fun i => (s.table i).count)).2 = none := by
        intro s _ hs
        simp [HashMap.count, hs, firstMax]
      rw [if_neg (by simp [MAX_CON]), hcount _ hindex hidx] at heq
      cases heq

section

variable {q : Quorums} {s : Cluster} {r : ClientRun}

/-- A run reports nobody when every choice it can make at its quorum reports nobody. -/
theorem reported_eq_nil {msgType : MsgType} (ht : r.request.msgType = msgType)
    (h : msgType.quorum q ≤ responsesG q.N (r.replies s.tables) → ∀ i lied,
      selectServer hashTable msgType q.Nr q.Nw q.N (keyVals_c r.env (r.replies s.tables)) =
        .chosen i lied → lied = []) :
    reported q s r = [] := by
  unfold reported
  rw [ht]
  split
  · rfl
  · rename_i hreached
    split
    · rename_i i lied hchosen
      exact h (not_lt.mp hreached) i lied hchosen
    · rfl

/-- When servers with the same version hold the same value, a `GET` reports nobody. -/
theorem reported_get (hN : q.N ≤ MAX_CON) (h : ClusterInv q s) {key : Word}
    (hr : r.request = .get key) : reported q s r = [] := by
  have hanswered := mem_answered_get h.idle hr
  have hslot := fun i hi m x => keyVals_c_get h.idle hr (m := m) (x := x) (i := i) hi
  refine reported_eq_nil (show _ = MsgType.get by rw [hr]; rfl) fun hquorum i lied heq => ?_
  have hlen : (answered (keyVals_c r.env (r.replies s.tables)) (List.range q.N)).length =
    responsesG q.N (r.replies s.tables) := length_answered _ _ _
  set kvs := keyVals_c r.env (r.replies s.tables)
  rcases (responders kvs q.N).eq_empty_or_nonempty with hnone | ⟨i₀, hi₀⟩
  · have hnil : answered kvs (List.range q.N) = [] := by
      rw [← List.toFinset_eq_empty_iff, toFinset_answered, hnone]
    exact absurd heq (selectServer_get_nobody q.Nr q.Nw hnil i lied)
  · -- every answer is the copy of its server
    have hcopy : ∀ i ∈ responders kvs q.N, i < q.N ∧
        copies s key.chars i = some ((kvs i).vno, (kvs i).value) := by
      intro i hi
      obtain ⟨hthrough, ⟨m, x⟩, hix⟩ := (hanswered i).mp (mem_responders.mp hi)
      obtain ⟨hvno, -, hvalue⟩ := hslot i hthrough m x hix
      exact ⟨(ClientRun.mem_through.mp hthrough).1, by rw [hix, hvno, hvalue]⟩
    have hcons := h.consistent key.chars key.isWord
    have hpos : 0 ≤ (kvs i₀).vno := by
      obtain ⟨hiN, hix⟩ := hcopy i₀ hi₀
      have := hcons.pos i₀ hiN _ _ hix
      omega
    obtain ⟨i', hi', -, hplur, hchosen⟩ := selectServer_get_chosen hashTable q.Nr q.Nw hN
      (by rw [hlen]; exact hquorum) ⟨i₀, mem_responders.mp hi₀, hpos⟩
    rw [hchosen] at heq
    injection heq with _ hlied
    rw [← hlied]
    refine List.eq_nil_iff_forall_not_mem.mpr fun j hj => ?_
    -- a server with the highest version has its only value
    obtain ⟨w, hw, hlt⟩ := (mem_minority_group hplur).mp hj
    obtain ⟨hjR, hjv, rfl⟩ := mem_getItems.mp hw
    obtain ⟨hjN, hjx⟩ := hcopy j (mem_responders.mpr hjR)
    obtain ⟨hiN, hix⟩ := hcopy i' (mem_responders.mpr hi')
    rw [hjv] at hjx
    rw [hcons.agree j hjN i' hiN _ _ _ hjx hix] at hlt
    exact lt_irrefl _ hlt

/-- When the plurality version is the highest, a `PUT` reports nobody. -/
theorem reported_put (hN : q.N ≤ MAX_CON) (h : ClusterInv q s) {key val : Word}
    (hr : r.request = .put key val) (hroom : ∀ i < q.N, (r.first s.tables i).isSome)
    (hok : TopVersionWins q s r) : reported q s r = [] := by
  have hresponses := responsesG_put h.idle hr hroom
  have hfst := map_fst_putItems h.idle hr hroom
  have hindex := length_group_putItems_lt hN h hr hroom
  rw [TopVersionWins, hr] at hok
  refine reported_eq_nil (show _ = MsgType.put by rw [hr]; rfl) fun hquorum i lied heq => ?_
  have hquorum : q.Nw ≤ ((r.through q.N).card : ℤ) := hresponses ▸ hquorum
  obtain ⟨m, -, hplur, hle, -⟩ := hok (by rwa [length_votes])
  have hlen : (answered (keyVals_c r.env (r.replies s.tables)) (List.range q.N)).length =
    (r.through q.N).card := (length_answered _ _ _).trans hresponses
  set kvs := keyVals_c r.env (r.replies s.tables)
  have hchosen := selectServer_put hashTable (fun _ => rfl) q.Nr q.Nw hN (by rwa [hlen])
    (hindex hquorum) (plurality_group (hfst ▸ hplur))
  rw [hchosen] at heq
  injection heq with _ hlied
  rw [← hlied]
  refine List.flatMap_eq_nil_iff.mpr fun b hb => ?_
  obtain ⟨hb, hahead⟩ := List.mem_filter.mp hb
  have hvote := hle b.1 (hfst ▸ (mem_group_iff.mp hb).1)
  have hahead := (of_decide_eq_true hahead).2
  omega

/-- In every sequence of client runs against honest servers in which the highest version wins every
`PUT` vote, no run reports a server. -/
theorem no_false_accusation (q : Quorums) (hN : q.N ≤ MAX_CON) (rs : List ClientRun)
    (hok : Each (clusterStep q) (TopVersionWins q) .init rs) :
    Steps (clusterStep q) (fun s r _ => reported q s r = []) .init rs := by
  refine steps_of_each (ClusterInv.init q) (ClusterInv.step hN) (fun s r s' h hok hstep => ?_) hok
  cases hr : r.request with
  | get key => exact reported_get hN h hr
  | put key val =>
    refine reported_put hN h hr (fun i hi => ?_) hok
    simp only [clusterStep, hr] at hstep
    split at hstep
    · rename_i hends
      exact ClientRun.first_isSome (hends i hi)
    · exact absurd hstep (by simp)

theorem no_false_accusation_lagging :
    Steps (clusterStep threeServers) (fun s r _ => reported threeServers s r = []) .init lagging :=
  no_false_accusation threeServers (by decide) lagging (by decide)

/-- Three of five servers have the first write; the second `PUT` hears one of them and two that have
not, and accuses it. -/
theorem not_no_false_accusation_outvoted :
    ∃ s, run (clusterStep fiveServers) .init [putK (.ofString "v1") {0, 1, 2}] = some s ∧
      reported fiveServers s (putK (.ofString "v2") {2, 3, 4}) = [2] ∧
      ∃ s', clusterStep fiveServers s (putK (.ofString "v2") {2, 3, 4}) = some s' := by
  have hrun : ((run (clusterStep fiveServers) .init [putK (.ofString "v1") {0, 1, 2}]).bind fun s =>
      (clusterStep fiveServers s (putK (.ofString "v2") {2, 3, 4})).map fun _ =>
        reported fiveServers s (putK (.ofString "v2") {2, 3, 4})) = some [2] := by decide
  obtain ⟨s, hs, hrun⟩ := Option.bind_eq_some_iff.mp hrun
  obtain ⟨s', hs', hlied⟩ := Option.map_eq_some_iff.mp hrun
  exact ⟨s, hs, hlied, s', hs'⟩

end

end QuorumLogFs.Vote
