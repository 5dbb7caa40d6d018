import QuorumLogFs.Basis.Linearize
import QuorumLogFs.Vote.Accusations
import QuorumLogFs.Vote.Versions

/-!
# Atomicity

A key is a linearizable register: the `PUT`s that decided and the `GET`s that printed a value can be put
in one order in which each `GET` prints what the `PUT` before it wrote, and in which no client stands
behind one that started after it had decided. The order is that of the versions.
-/

namespace QuorumLogFs.Vote

open QuorumLogFs.Basis

/-- What client `c` has written or read under `key`. -/
def effect (callers : ℕ → Caller) (s : Network) (key : Word) (c : ℕ) : Option (RegOp (List Char)) :=
  match (callers c).request, (s.clients c).phase with
  | .put k val, .updating _ => if k = key then some (.write val.chars) else none
  | .get k, .read (.reading _ _ val _) => if k = key then some (.read val) else none
  | _, _ => none

/-- The version that client `c` has written or read. -/
def stampOf (callers : ℕ → Caller) (s : Network) (c : ℕ) : ℤ :=
  match (s.clients c).phase with
  | .updating new_vno => new_vno
  | .read (.reading HVNO _ _ _) => (keyVals_c (callers c).env (s.clients c).replies HVNO).vno
  | _ => 0

/-- Client `d` has reached no server yet. -/
def Untouched (s : Network) (d : ℕ) : Prop :=
  (s.clients d).phase = .collecting ∧ ∀ i, (s.clients d).conn i = none

/-- At some point of the run client `c` had decided, and client `d` had reached no server. -/
def Precedes (q : Quorums) (callers : ℕ → Caller) (es : List NetEvent) (c d : ℕ) : Prop :=
  ∃ es' s, es' <+: es ∧ run (netStep q honest callers) .init es' = some s ∧
    (s.clients c).phase ≠ .collecting ∧ Untouched s d

/-- A reply with a version that is not below `v`. -/
def AtLeast (callers : ℕ → Caller) (s : Network) (key : Word) (v : ℤ) (m : List Char) : Prop :=
  ∃ w x, m = voteMsg w key.chars x ∧ Written callers s key w x ∧ v ≤ w

variable {q : Quorums} {callers : ℕ → Caller} {s s' s₁ : Network} {e : NetEvent} {es : List NetEvent}
  {c d i j : ℕ} {key val : Word} {v w : ℤ} {m x k : List Char} {lied : List ℕ}

/-! ## What a `GET` prints -/

/-- A reply is read in one way. -/
theorem voteMsg_inj {k y : List Char} (hk : IsWord k) (hx : IsWord x) (hy : IsWord y)
    (h : voteMsg v k x = voteMsg w k y) : v = w ∧ x = y := by
  have hread := congrArg readVote h
  rw [readVote_voteMsg hk hx, readVote_voteMsg hk hy] at hread
  simpa using hread

/-- A `GET` prints the reply with the highest version. -/
theorem connectThreadGet_of_replies {N HVNO : ℕ} {Nr Nw : ℤ} {env : Env}
    {replies : ℕ → Option (List Char)} (hN : N ≤ MAX_CON)
    (hreplies : ∀ i m, replies i = some m →
      ∃ w x, m = voteMsg w key.chars x ∧ IsWord x ∧ 0 ≤ w ∧ IsInt w)
    (hout : connectThreadGet N Nr Nw env replies = .reading HVNO k x lied) :
    Nr ≤ responsesG N replies ∧ HVNO < N ∧
      replies HVNO = some (voteMsg (keyVals_c env replies HVNO).vno key.chars x) ∧ IsWord x ∧
      ∀ j < N, ∀ w y, replies j = some (voteMsg w key.chars y) → IsWord y →
        w ≤ (keyVals_c env replies HVNO).vno := by
  have hquorum : Nr ≤ responsesG N replies := by
    by_contra hlt
    rw [connectThreadGet, if_pos (not_le.mp hlt)] at hout
    cases hout
  have hslot : ∀ {j w y}, replies j = some (voteMsg w key.chars y) → IsWord y →
      (keyVals_c env replies j).vno = w ∧ (keyVals_c env replies j).value = y := by
    intro j w y hj hy
    obtain ⟨w', y', heq, hy', -, hint⟩ := hreplies j _ hj
    obtain ⟨rfl, rfl⟩ := voteMsg_inj key.isWord hy hy' heq
    rw [keyVals_c, hj, connectTo_voteMsg _ _ key.isWord hy hint]
    exact ⟨rfl, rfl⟩
  have hanswered : ∀ {j}, j ∈ answered (keyVals_c env replies) (List.range N) ↔
      j < N ∧ (replies j).isSome := by
    intro j
    rw [answered_keyVals_c, List.mem_filter, List.mem_range]
  rw [connectThreadGet, if_neg (not_lt.mpr hquorum)] at hout
  rcases List.eq_nil_or_concat (answered (keyVals_c env replies) (List.range N)) with hnil | ⟨is, i₀, h₀⟩
  · exfalso
    split at hout
    · cases hout
    · cases hout
    · rename_i hchosen
      exact selectServer_get_nobody Nr Nw hnil _ _ hchosen
  · have hi₀ : i₀ ∈ answered (keyVals_c env replies) (List.range N) := by
      rw [h₀]
      simp
    obtain ⟨m₀, hm₀⟩ := Option.isSome_iff_exists.mp (hanswered.mp hi₀).2
    obtain ⟨w₀, x₀, rfl, hx₀, hw₀, -⟩ := hreplies i₀ m₀ hm₀
    obtain ⟨i', hi', hmax, -, hchosen⟩ := selectServer_get_chosen hashTable Nr Nw hN
      (by rwa [length_answered]) ⟨i₀, hi₀, by rwa [(hslot hm₀ hx₀).1]⟩
    rw [hchosen] at hout
    obtain ⟨rfl, -, rfl, -⟩ := GetOutcome.reading.inj hout
    obtain ⟨hiN, hsome⟩ := hanswered.mp hi'
    obtain ⟨m', hm'⟩ := Option.isSome_iff_exists.mp hsome
    obtain ⟨w', x', rfl, hx', -, -⟩ := hreplies i' m' hm'
    refine ⟨hquorum, hiN, ?_, ?_, fun j hj w y hjy hy => ?_⟩
    · rw [(hslot hm' hx').1, (hslot hm' hx').2]
      exact hm'
    · rwa [(hslot hm' hx').2]
    · have := hmax j (hanswered.mpr ⟨hj, by rw [hjy]; rfl⟩)
      rwa [(hslot hjy hy).1] at this

theorem Sound.base_le (h : Sound q callers s) (hw : Written callers s key v x) : baseVersion key ≤ v := by
  rcases hw with hinit | ⟨c, val, hw, -⟩
  · rw [baseVersion, hinit, version_some]
  · exact (h.above hw).le

/-- What a `GET` has read: a copy that was written, and no older than any of its replies. -/
theorem Sound.read_spec (hN : q.N ≤ MAX_CON) (h : Sound q callers s)
    (hr : (callers c).request = .get key) (hphase : (s.clients c).phase = .read (.reading i k x lied)) :
    Written callers s key (stampOf callers s c) x ∧
      q.Nr ≤ responsesG q.N (s.clients c).replies ∧
      ∀ j < q.N, ∀ m v, (s.clients c).replies j = some m → AtLeast callers s key v m →
        v ≤ stampOf callers s c := by
  have hstamp : stampOf callers s c = (keyVals_c (callers c).env (s.clients c).replies i).vno := by
    rw [stampOf, hphase]
  have hreplies : ∀ i m, (s.clients c).replies i = some m →
      ∃ w x, m = voteMsg w key.chars x ∧ IsWord x ∧ 0 ≤ w ∧ IsInt w := by
    intro i m hm
    obtain ⟨w, y, rfl, hw⟩ := h.reads hr (Or.inr hm)
    exact ⟨w, y, rfl, hw.isWord, (baseVersion_nonneg key).trans (h.base_le hw),
      h.linked.isInt_of_written hw⟩
  obtain ⟨hquorum, hi, hread, hx, hmax⟩ := connectThreadGet_of_replies hN hreplies (h.outcome hphase).2
  rw [hstamp]
  refine ⟨?_, hquorum, fun j hj m v hm hle => ?_⟩
  · obtain ⟨w, y, heq, hw⟩ := h.reads hr (Or.inr hread)
    obtain ⟨rfl, rfl⟩ := voteMsg_inj key.isWord hx hw.isWord heq
    exact hw
  · obtain ⟨w, y, rfl, hw, hvw⟩ := hle
    exact hvw.trans (hmax j hj w y hm hw.isWord)

/-! ## From a state on -/

/-- What holds in state `s` of the clients that had decided in an earlier state `s₁`: they stand, and
whoever had not decided by then and writes, writes a larger version; whoever had not started and reads,
gets no older reply where they were heard. -/
structure Since (q : Quorums) (callers : ℕ → Caller) (s₁ s : Network) : Prop where
  sound : Sound q callers s
  phase : ∀ {c}, (s₁.clients c).phase ≠ .collecting →
    (s.clients c).phase = (s₁.clients c).phase ∧ (s.clients c).replies = (s₁.clients c).replies
  writes : ∀ {d key val w v x}, Writes callers s d key val w → (s₁.clients d).phase = .collecting →
    Written callers s₁ key v x → v < w
  reads : ∀ {c d i key val v m}, Writes callers s₁ c key val v → Heard s₁ c i →
    (callers d).request = .get key → Untouched s₁ d →
    (s.clients d).inbox i = some m ∨ (s.clients d).replies i = some m → AtLeast callers s key v m

theorem Since.init (h : Sound q callers s) : Since q callers s s where
  sound := h
  phase _ := ⟨rfl, rfl⟩
  writes hw hphase _ := by cases hphase.symm.trans hw.2
  reads _ _ _ hd hm := by
    rw [(h.new (hd.2 _)).1, (h.new (hd.2 _)).2] at hm
    rcases hm with hm | hm <;> cases hm

theorem Since.kept (h : Since q callers s₁ s) (hw : Writes callers s₁ c key val v) :
    Writes callers s c key val v := by
  have hne : (s₁.clients c).phase ≠ .collecting := by
    rw [hw.2]
    simp
  exact ⟨hw.1, (h.phase hne).1.trans hw.2⟩

theorem writes_of_netStep (hstep : netStep q honest callers s e = some s')
    (hw : Writes callers s c key val v) : Writes callers s' c key val v := by
  have hne : (s.clients c).phase ≠ .collecting := by
    rw [hw.2]
    simp
  exact ⟨hw.1, (phase_of_netStep hstep hne).1.trans hw.2⟩

theorem written_of_netStep (hstep : netStep q honest callers s e = some s')
    (hw : Written callers s key v x) : Written callers s' key v x := by
  rcases hw with hinit | ⟨c, val, hw, rfl⟩
  · exact Or.inl hinit
  · exact Or.inr ⟨c, val, writes_of_netStep hstep hw, rfl⟩

/-- A client that decides in this step writes a version above all that are written. -/
theorem Sound.lt_of_decides (hN : q.N ≤ MAX_CON) (h : Sound q callers s) (hguard : Guarded q callers s e)
    (hstep : netStep q honest callers s e = some s') (hphase : (s.clients d).phase = .collecting)
    (hw : Writes callers s' d key val w) (hold : Written callers s key v x) : v < w := by
  rcases netStep_cases hstep with ⟨c, i, sess, ev, -, hserve⟩ | ⟨c, i, m, -, -, -, rfl⟩ |
    ⟨c, p, rfl, -, hdecide, rfl⟩
  · have hsame := (served_of_serve hserve).writes.mp hw
    cases hphase.symm.trans hsame.2
  · have hsame := (writes_setClient (by rfl)).mp hw
    cases hphase.symm.trans hsame.2
  · have hcd : d = c := by
      by_contra hne
      have hsame := (writes_setClient_of_ne hne).mp hw
      cases hphase.symm.trans hsame.2
    subst hcd
    obtain ⟨hr, hp⟩ := hw
    rw [clients_setClient_self] at hp
    obtain rfl : p = .updating w := hp
    have hvotes := hguard.votes
    rw [VotesStay, hr] at hvotes
    obtain ⟨-, -, hbase, hlt⟩ :=
      h.updating hr hphase hvotes hN hguard.top (Caller.decide_updating hdecide)
    rcases hold with hinit | ⟨c', val', hw', -⟩
    · rwa [baseVersion, hinit, version_some] at hbase
    · exact hlt hw'

/-- What a server sends to a `GET` is its copy, while nobody holds the key there. -/
theorem Sound.answered (h : Sound q callers s) (hguard : Guarded q callers s e)
    (hstep : netStep q honest callers s e = some s') (hr : (callers d).request = .get key)
    (hm : (s'.clients d).inbox i = some m ∨ (s'.clients d).replies i = some m) :
    ((s.clients d).inbox i = some m ∨ (s.clients d).replies i = some m) ∨
      (∀ c, ¬ HoldsAt s c i key.chars) ∧
        ∃ w x, copyAt s key i = some (w, x) ∧ m = voteMsg w key.chars x := by
  rcases netStep_cases hstep with ⟨c, j, sess, ev, hmeets, hserve⟩ | ⟨c, j, m', -, -, hin, rfl⟩ |
    ⟨c, p, -, -, -, rfl⟩
  · have hs := served_of_serve hserve
    rw [hs.replies, hs.inbox] at hm
    split at hm
    · rename_i hdc
      obtain ⟨rfl, rfl⟩ := hdc
      have ho := handled_of_served h.linked hmeets (hmeets.absentKeyIsFree hguard.absent) hs
      rw [show honest i = 0 from rfl] at hm
      cases ho with
      | quiet hcopies hnot hdrop hsends =>
        rw [hsends] at hm
        exact Or.inl hm
      | answer hr' hcopies hnot hconn hfree hcopy hsends =>
        obtain rfl := Request.get.inj (hr.symm.trans hr')
        rw [hsends] at hm
        rcases hm with hm | hm
        · exact Or.inr ⟨hfree, _, _, hcopy, (Option.some.inj hm).symm⟩
        · exact Or.inl (Or.inr hm)
      | vote hr' => cases hr.symm.trans hr'
      | update hw => cases hr.symm.trans hw.1
    · exact Or.inl hm
  · refine Or.inl ?_
    by_cases hd : d = c
    · subst hd
      rw [clients_setClient_self] at hm
      by_cases hi : i = j
      · subst hi
        simp only [Function.update_self] at hm
        rcases hm with hm | hm
        · cases hm
        · exact Or.inl (hm ▸ hin)
      · simpa only [Function.update_of_ne hi] using hm
    · rwa [clients_setClient_of_ne _ _ hd] at hm
  · refine Or.inl ?_
    by_cases hd : d = c
    · subst hd
      rwa [clients_setClient_self] at hm
    · rwa [clients_setClient_of_ne _ _ hd] at hm

theorem Since.step (hN : q.N ≤ MAX_CON) (s : Network) (e : NetEvent) (s' : Network)
    (h : Since q callers s₁ s) (hguard : Guarded q callers s e)
    (hstep : netStep q honest callers s e = some s') : Since q callers s₁ s' where
  sound := h.sound.step hN s e s' hguard hstep
  phase hne := by
    obtain ⟨hphase, hreplies⟩ := h.phase hne
    obtain ⟨hphase', hreplies'⟩ := phase_of_netStep hstep (hphase ▸ hne)
    exact ⟨hphase'.trans hphase, hreplies'.trans hreplies⟩
  writes {d key val w v x} hw hphase hold := by
    by_cases hd : (s.clients d).phase = .collecting
    · refine h.sound.lt_of_decides hN hguard hstep hd hw (x := x) ?_
      rcases hold with hinit | ⟨c, val', hw', rfl⟩
      · exact Or.inl hinit
      · exact Or.inr ⟨c, val', h.kept hw', rfl⟩
    · exact h.writes ⟨hw.1, (phase_of_netStep hstep hd).1.symm.trans hw.2⟩ hphase hold
  reads {c d i key val v m} hw hheard hr hd hm := by
    have hne : (s₁.clients c).phase ≠ .collecting := by
      rw [hw.2]
      simp
    rcases h.sound.answered hguard hstep hr hm with hold | ⟨hfree, w, x, hcopy, rfl⟩
    · obtain ⟨w, x, rfl, hx, hle⟩ := h.reads hw hheard hr hd hold
      exact ⟨w, x, rfl, written_of_netStep hstep hx, hle⟩
    · -- the server does not wait for the update of `c`
      have hheard' : Heard s c i := by
        rw [Heard, (h.phase hne).2]
        exact hheard
      have hkept := h.kept hw
      have happlied := h.sound.applied hkept hheard' fun hvoted =>
        hfree c (h.sound.linked.holdsAt hvoted hkept.1)
      rw [hcopy, version_some] at happlied
      exact ⟨w, x, rfl, written_of_netStep hstep (h.sound.copies hcopy), happlied⟩

/-- Whoever starts after the version `v` was written reads no older one. -/
theorem Since.le_of_read (hN : q.N ≤ MAX_CON) (h : Since q callers s₁ s) (h₁ : Sound q callers s₁)
    (hold : Written callers s₁ key v x) (hr : (callers d).request = .get key) (hd : Untouched s₁ d)
    {y : List Char} (hphase : (s.clients d).phase = .read (.reading i k y lied)) :
    v ≤ stampOf callers s d := by
  obtain ⟨hwritten, hquorum, hmax⟩ := h.sound.read_spec hN hr hphase
  rcases hold with hinit | ⟨c, val, hw, -⟩
  · have hbase := h.sound.base_le hwritten
    rwa [baseVersion, hinit, version_some] at hbase
  · have hoverlap := q.overlap
    have hquorum' := h₁.quorum hw
    obtain ⟨j, hj, hcj, hdj⟩ := exists_reply_both (N := q.N) (f := (s₁.clients c).replies)
      (g := (s.clients d).replies) (by omega)
    obtain ⟨m, hm⟩ := Option.isSome_iff_exists.mp hdj
    exact hmax j hj m v hm (h.reads hw hcj hr hd (Or.inr hm))

/-! ## Effects -/

theorem effect_write : effect callers s key c = some (.write x) ↔
    ∃ val, (callers c).request = .put key val ∧ x = val.chars ∧
      (s.clients c).phase = .updating (stampOf callers s c) := by
  unfold effect stampOf
  constructor
  · intro h
    split at h
    · rename_i k val v hr hphase
      split at h
      · rename_i hk
        refine ⟨val, hk ▸ hr, ?_, by rw [hphase]⟩
        simpa using (Option.some.inj h).symm
      · cases h
    · split at h <;> cases h
    · cases h
  · rintro ⟨val, hr, rfl, hphase⟩
    rw [hr, hphase]
    simp

theorem effect_read : effect callers s key c = some (.read x) ↔
    (callers c).request = .get key ∧ ∃ i k lied, (s.clients c).phase = .read (.reading i k x lied) := by
  unfold effect
  constructor
  · intro h
    split at h
    · split at h <;> cases h
    · rename_i k i k' val lied hr hphase
      split at h
      · rename_i hk
        obtain rfl := RegOp.read.inj (Option.some.inj h)
        exact ⟨hk ▸ hr, i, k', lied, hphase⟩
      · cases h
    · cases h
  · rintro ⟨hr, i, k, lied, hphase⟩
    rw [hr, hphase]
    simp

/-- Whatever a client writes or reads has been written under its stamp. -/
theorem Sound.written_of_effect (hN : q.N ≤ MAX_CON) (h : Sound q callers s)
    (he : effect callers s key c = some (.write x) ∨ effect callers s key c = some (.read x)) :
    Written callers s key (stampOf callers s c) x := by
  rcases he with he | he
  · obtain ⟨val, hr, rfl, hphase⟩ := effect_write.mp he
    exact Or.inr ⟨c, val, ⟨hr, hphase⟩, rfl⟩
  · obtain ⟨hr, i, k, lied, hphase⟩ := effect_read.mp he
    exact (h.read_spec hN hr hphase).1

theorem decided_of_effect (he : (effect callers s key c).isSome) :
    (s.clients c).phase ≠ .collecting := by
  intro hphase
  unfold effect at he
  rw [hphase] at he
  split at he
  · rename_i h
    cases h
  · rename_i h
    cases h
  · cases he

theorem exists_effect {o : RegOp (List Char)} (he : effect callers s key c = some o) :
    ∃ x, effect callers s key c = some (.write x) ∨ effect callers s key c = some (.read x) := by
  cases o with
  | write x => exact ⟨x, Or.inl he⟩
  | read x => exact ⟨x, Or.inr he⟩

/-- Effects and stamps stand. -/
theorem Since.effect (h : Since q callers s₁ s) (hne : (s₁.clients c).phase ≠ .collecting)
    (key : Word) :
    effect callers s key c = effect callers s₁ key c ∧ stampOf callers s c = stampOf callers s₁ c := by
  obtain ⟨hphase, hreplies⟩ := h.phase hne
  unfold Vote.effect stampOf
  rw [hphase, hreplies]
  exact ⟨rfl, rfl⟩

/-- Whoever starts after `c` has decided reads no older version than the one of `c`. -/
theorem Since.stamp_le (hN : q.N ≤ MAX_CON) (h : Since q callers s₁ s) (h₁ : Sound q callers s₁)
    (hne : (s₁.clients c).phase ≠ .collecting) (hc : (Vote.effect callers s key c).isSome)
    (hd : Untouched s₁ d) (hread : Vote.effect callers s key d = some (.read x)) :
    stampOf callers s c ≤ stampOf callers s d := by
  obtain ⟨he, hstamp⟩ := h.effect hne key
  obtain ⟨o, ho⟩ := Option.isSome_iff_exists.mp hc
  obtain ⟨y, hy⟩ := exists_effect ho
  rw [he] at hy
  obtain ⟨hr, i, k, lied, hphase⟩ := effect_read.mp hread
  rw [hstamp]
  exact h.le_of_read hN h₁ (h₁.written_of_effect hN hy) hr hd hphase

/-- Whoever starts after `c` has decided writes a larger version than the one of `c`. -/
theorem Since.stamp_lt (hN : q.N ≤ MAX_CON) (h : Since q callers s₁ s) (h₁ : Sound q callers s₁)
    (hne : (s₁.clients c).phase ≠ .collecting) (hc : (Vote.effect callers s key c).isSome)
    (hd : Untouched s₁ d) (hwrite : Vote.effect callers s key d = some (.write x)) :
    stampOf callers s c < stampOf callers s d := by
  obtain ⟨he, hstamp⟩ := h.effect hne key
  obtain ⟨o, ho⟩ := Option.isSome_iff_exists.mp hc
  obtain ⟨y, hy⟩ := exists_effect ho
  rw [he] at hy
  obtain ⟨val, hr, -, hphase⟩ := effect_write.mp hwrite
  rw [hstamp]
  exact h.writes ⟨hr, hphase⟩ hd.1 (h₁.written_of_effect hN hy)

/-! ## Runs -/

/-- The event in which client `c` decides. -/
def NetEvent.isDecide (c : ℕ) : NetEvent → Bool
  | .decide d => d == c
  | _ => false

/-- The place of a client's decision in the run. -/
def decidedAt (es : List NetEvent) (c : ℕ) : ℕ := es.findIdx (NetEvent.isDecide c)

/-- A client that is not collecting any more has decided. -/
theorem mem_of_decided (hrun : run (netStep q honest callers) .init es = some s)
    (hne : (s.clients c).phase ≠ .collecting) : .decide c ∈ es := by
  induction es using List.reverseRecOn generalizing s with
  | nil =>
    obtain rfl := Option.some.inj hrun
    exact absurd rfl hne
  | append_singleton es e ih =>
    rw [run_snoc] at hrun
    obtain ⟨t, ht, hstep⟩ := Option.bind_eq_some_iff.mp hrun
    rw [List.mem_append, List.mem_singleton]
    by_cases hold : (t.clients c).phase = .collecting
    · rcases netStep_cases hstep with ⟨d, i, sess, ev, -, hserve⟩ | ⟨d, i, m, -, -, -, rfl⟩ |
        ⟨d, p, rfl, -, -, rfl⟩
      · rw [(served_of_serve hserve).phase] at hne
        exact absurd hold hne
      · rw [field_setClient ClientState.phase (by rfl)] at hne
        exact absurd hold hne
      · by_cases hd : c = d
        · exact Or.inr (hd ▸ rfl)
        · rw [clients_setClient_of_ne _ _ hd] at hne
          exact absurd hold hne
    · exact Or.inl (ih ht hold)

/-- A client that is collecting has not decided. -/
theorem not_mem_of_collecting (hrun : run (netStep q honest callers) .init es = some s)
    (hphase : (s.clients c).phase = .collecting) : .decide c ∉ es := by
  induction es using List.reverseRecOn generalizing s with
  | nil => exact List.not_mem_nil
  | append_singleton es e ih =>
    rw [run_snoc] at hrun
    obtain ⟨t, ht, hstep⟩ := Option.bind_eq_some_iff.mp hrun
    have hbefore : (t.clients c).phase = .collecting := by
      by_contra hne
      exact hne ((phase_of_netStep hstep hne).1.symm.trans hphase)
    rw [List.mem_append, List.mem_singleton, not_or]
    refine ⟨ih ht hbefore, ?_⟩
    rintro rfl
    simp only [netStep, if_pos hbefore] at hstep
    obtain ⟨p, hp, rfl⟩ := Option.map_eq_some_iff.mp hstep
    rw [clients_setClient_self] at hphase
    obtain rfl : p = .collecting := hphase
    unfold Caller.decide at hp
    split at hp <;> split at hp <;> cases hp

theorem decidedAt_lt (hc : NetEvent.decide c ∈ es) {es' : List NetEvent} (hp : es <+: es')
    (hd : NetEvent.decide d ∉ es) : decidedAt es' c < decidedAt es' d := by
  obtain ⟨rest, rfl⟩ := hp
  have hlt : es.findIdx (NetEvent.isDecide c) < es.length :=
    List.findIdx_lt_length_of_exists ⟨_, hc, by simp [NetEvent.isDecide]⟩
  have hnot : es.findIdx (NetEvent.isDecide d) = es.length := by
    refine List.findIdx_eq_length_of_false fun e he => ?_
    unfold NetEvent.isDecide
    split
    · rename_i d'
      refine beq_eq_false_iff_ne.mpr fun heq => hd (heq ▸ he)
    · rfl
  unfold decidedAt
  rw [List.findIdx_append, if_pos hlt, List.findIdx_append, if_neg hnot.not_lt]
  omega

/-- However clients and servers interleave between the blocking calls, wherever a session times out that
does not wait for an update: while no `PUT` finds its key absent at a server with another session for this
key, the voters of a `PUT` wait for it, and the highest version is the plurality of its votes, every key
is a linearizable register. -/
theorem keys_linearizable (q : Quorums) (hN : q.N ≤ MAX_CON) (callers : ℕ → Caller) {es : List NetEvent}
    {s : Network} (hguard : Each (netStep q honest callers) (Guarded q callers) .init es)
    (hrun : run (netStep q honest callers) .init es = some s) (key : Word) :
    Linearizable ((stored key.chars initTable).map Prod.snd) (effect callers s key)
      (Precedes q callers es) := by
  have hsound : Sound q callers s := run_invariant sound_init (Sound.step hN) hguard hrun
  -- the state in which `c` had decided, seen from the end of the run
  have hsince : ∀ {c d}, Precedes q callers es c d → ∃ es' s₁, es' <+: es ∧
      run (netStep q honest callers) .init es' = some s₁ ∧ (s₁.clients c).phase ≠ .collecting ∧
      Untouched s₁ d ∧ Sound q callers s₁ ∧ Since q callers s₁ s := by
    rintro c d ⟨es', s₁, hp, hrun₁, hne, hd⟩
    have h₁ : Sound q callers s₁ :=
      run_invariant sound_init (Sound.step hN) (hguard.initial hp) hrun₁
    obtain ⟨rest, rfl⟩ := hp
    rw [run_append, hrun₁] at hrun
    exact ⟨es', s₁, List.prefix_append _ _, hrun₁, hne, hd, h₁,
      run_invariant (Since.init h₁) (Since.step hN) (hguard.rest hrun₁) hrun⟩
  have hstamped : Stamped ((stored key.chars initTable).map Prod.snd) (baseVersion key)
      (effect callers s key) (Precedes q callers es) (stampOf callers s) (decidedAt es) := by
    refine ⟨?_, fun he => ?_, fun he he' heq => ?_, fun {c x} he => ?_, fun hcd hc hd => ?_,
      fun hcd hc hd => ?_⟩
    · refine Set.Finite.subset ((List.finite_toSet es).preimage (f := NetEvent.decide) ?_) ?_
      · exact fun c _ d _ h => NetEvent.decide.inj h
      · intro c hc
        exact mem_of_decided hrun (decided_of_effect hc)
    · obtain ⟨val, hr, -, hphase⟩ := effect_write.mp he
      exact hsound.above ⟨hr, hphase⟩
    · obtain ⟨val, hr, -, hphase⟩ := effect_write.mp he
      obtain ⟨val', hr', -, hphase'⟩ := effect_write.mp he'
      exact hsound.unique ⟨hr, hphase⟩ ⟨hr', heq ▸ hphase'⟩
    · rcases hsound.written_of_effect hN (Or.inr he) with hinit | ⟨d, val, ⟨hr, hphase⟩, rfl⟩
      · exact Or.inl ⟨by rw [baseVersion, hinit, version_some], by rw [hinit]; rfl⟩
      · have hstamp : stampOf callers s d = stampOf callers s c := by
          rw [stampOf, hphase]
        exact Or.inr ⟨d, effect_write.mpr ⟨val, hr, rfl, hstamp ▸ hphase⟩, hstamp⟩
    · obtain ⟨es', s₁, hp, hrun₁, hne, huntouched, h₁, h⟩ := hsince hcd
      refine ⟨?_, decidedAt_lt (mem_of_decided hrun₁ hne) hp
        (not_mem_of_collecting hrun₁ huntouched.1)⟩
      obtain ⟨o, ho⟩ := Option.isSome_iff_exists.mp hd
      obtain ⟨x, hx | hx⟩ := exists_effect ho
      · exact (h.stamp_lt hN h₁ hne hc huntouched hx).le
      · exact h.stamp_le hN h₁ hne hc huntouched hx
    · obtain ⟨es', s₁, -, -, hne, huntouched, h₁, h⟩ := hsince hcd
      exact h.stamp_lt hN h₁ hne hc huntouched hd
  exact hstamped.linearizable

/-- The `GET` prints what the first `PUT` writes, from the server that has its update already. -/
theorem keys_linearizable_overlapping :
    ∃ s, run (netStep threeServers honest putGetPut) .init overlapping = some s ∧
      effect putGetPut s presentKey 0 = some (.write firstValue.chars) ∧
      effect putGetPut s presentKey 1 = some (.read firstValue.chars) ∧
      effect putGetPut s presentKey 2 = some (.write secondValue.chars) ∧
      Linearizable ((stored presentKey.chars initTable).map Prod.snd)
        (effect putGetPut s presentKey) (Precedes threeServers putGetPut overlapping) := by
  have heffects : (run (netStep threeServers honest putGetPut) .init overlapping).map (fun s =>
      (effect putGetPut s presentKey 0, effect putGetPut s presentKey 1,
        effect putGetPut s presentKey 2)) =
      some (some (.write firstValue.chars), some (.read firstValue.chars),
        some (.write secondValue.chars)) := by
    decide
  obtain ⟨s, hs, heffects⟩ := Option.map_eq_some_iff.mp heffects
  simp only [Prod.mk.injEq] at heffects
  obtain ⟨h0, h1, h2⟩ := heffects
  exact ⟨s, hs, h0, h1, h2,
    keys_linearizable threeServers (by decide) putGetPut (by decide) hs presentKey⟩

end QuorumLogFs.Vote
