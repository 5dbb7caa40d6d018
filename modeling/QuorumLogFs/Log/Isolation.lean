import QuorumLogFs.Log.Owners
import QuorumLogFs.Log.Private

/-!
# Files are isolated

What `lfs_read` returns for a file is what a file system would return that knows this file alone and
has seen nothing but the writes to it. Two things can break this: a flush that appends to the chunk
file of another file, and a write buffer that is given to another file while the flush before has
left a line in it. `KeepsApart` excludes both; the second happens in every run that uses more files
than there are write buffers.
-/

namespace QuorumLogFs.Log

open QuorumLogFs.Basis

/-- The flush of a buffer of `n` bytes leaves nothing in it: there is no line to read at its start,
or the byte that is looked up lies behind the block and is a newline. -/
def LeavesNothing (junk : Junk) (n : ℕ) (buf : List Char) : Prop :=
  (stringAt buf 0).bind readLine = none ∨
    n ≤ (scanned junk buf).1 + (scanned junk buf).2.length ∧
      junk.behind ((scanned junk buf).1 + (scanned junk buf).2.length) = '\n'

instance (junk : Junk) (n : ℕ) (buf : List Char) : Decidable (LeavesNothing junk n buf) :=
  inferInstanceAs (Decidable (_ ∨ _ ∧ _))

instance (s : Fs) (j : ℕ) (junk : Junk) : Decidable (OwnsTargets s j junk) :=
  inferInstanceAs (Decidable (∀ i ∈ (s.bufferCache.cblocks j).mdata,
    ∀ writes ∈ chunkWrites junk CHUNK_PATH (s.records i).fileName (s.bufferCache.cblocks j)
      s.bufferCache.cacheBlockSize, ∀ w ∈ writes, s.chunkFiles w.1 = none ∨ w.1 ∈ (s.records i).paths))

/-- Files are created under new names while a metadata block is free. A flush appends only to chunk
files that are new or the file's own, and a buffer that changes hands is left empty. -/
def KeepsApart (s : Fs) : Op → Prop
  | .mknod f => s.mdataFiles (recordName f.chars) = none ∧
      ∃ i, i < s.metaDataCache.numBlocks ∧ (s.metaDataCache.cblocks i).freeFlag = true
  | .write f buf junk =>
    match findMetaDataBlock s.records s.bufferCache f.chars with
    | some j =>
      s.bufferCache.cacheBlockSize < (s.bufferCache.cblocks j).offset + (cstr buf).length →
        OwnsTargets s j junk.full
    | none =>
      ∀ j ∈ victim (fun j => (s.bufferCache.cblocks j).lruCounter) s.bufferCache.numBlocks,
        (s.bufferCache.cblocks j).freeFlag = false →
          OwnsTargets s j junk.evict ∧
            LeavesNothing junk.evict s.bufferCache.cacheBlockSize (s.bufferCache.cblocks j).buf
  | _ => True

instance decidableKeepsApart (s : Fs) : ∀ op, Decidable (KeepsApart s op)
  | .mknod f => inferInstanceAs (Decidable (s.mdataFiles (recordName f.chars) = none ∧
      ∃ i, i < s.metaDataCache.numBlocks ∧ (s.metaDataCache.cblocks i).freeFlag = true))
  | .open _ => isTrue trivial
  | .getattr _ _ => isTrue trivial
  | .read _ _ _ => isTrue trivial
  | .write f buf junk =>
    match h : findMetaDataBlock s.records s.bufferCache f.chars with
    | some j => decidable_of_iff
        (s.bufferCache.cacheBlockSize < (s.bufferCache.cblocks j).offset + (cstr buf).length →
          OwnsTargets s j junk.full) (by simp only [KeepsApart, h])
    | none => decidable_of_iff
        (∀ j ∈ victim (fun j => (s.bufferCache.cblocks j).lruCounter) s.bufferCache.numBlocks,
          (s.bufferCache.cblocks j).freeFlag = false → OwnsTargets s j junk.evict ∧
            LeavesNothing junk.evict s.bufferCache.cacheBlockSize (s.bufferCache.cblocks j).buf)
        (by simp only [KeepsApart, h])

/-- The text that a call writes to a file. -/
def Op.textTo (name : List Char) : Op → Option (List Char)
  | .write f buf _ => if f.chars = name then some (cstr buf) else none
  | _ => none

/-- The texts written to a file, in order. -/
def textsTo (name : List Char) (ops : List Op) : List (List Char) := ops.filterMap (Op.textTo name)

/-- The text that is written to the file. -/
def FileOp.text : FileOp → Option (List Char)
  | .write text _ => some text
  | .evict _ => none

/-- What `lfs_read` returns for the file is the output of the file on its own, after writes of these
texts. Every byte of it is in one of them, a separator, a terminator or in the caller's buffer. -/
def Isolated (s : Fs) (f : Name) (texts : List (List Char)) : Prop :=
  ∀ buf size offset stack s' out, lfsRead s f.path buf size offset stack = some (s', out) →
    ∃ ops v, ops.filterMap FileOp.text = texts ∧
      run FileView.step (.fresh f.chars) ops = some v ∧ v.output buf = some out ∧
        ∀ c ∈ out, c = '\n' ∨ c = nul ∨ c ∈ buf ∨ ∃ text ∈ texts, c ∈ text

/-! ## What remains -/

variable {k i j n : ℕ} {s s' t : Fs} {f : Name} {stack buf : List Char} {junk : Junk}

theorem LeavesNothing.remaining (h : LeavesNothing junk n buf) : remaining junk n buf = [] := by
  rcases h with hnone | ⟨hbehind, hnewline⟩
  · have hline : (scanned junk buf).2 = [] := by rw [scanned, hnone]
    unfold Log.remaining
    rw [hline, ite_self]
  · unfold Log.remaining
    rw [byteAt_zeros_behind hbehind, if_pos hnewline]

/-! ## One call -/

theorem Tidy.load (h : Tidy k s) (path : List Char) : Tidy k { s with loadPath := path } :=
  { h with blockSize := h.blockSize }

theorem Shows.load {v : FileView} (h : Shows s i v) (path : List Char) :
    Shows { s with loadPath := path } i v :=
  ⟨h.mdata, h.text, h.noText, h.chunks⟩

/-- The counters of the write buffers do not matter. -/
theorem Tidy.recount (h : Tidy k s) (j : ℕ) :
    Tidy k { s with bufferCache := updateLru s.bufferCache j } := by
  have huses : ∀ m i, (updateLru s.bufferCache j).Uses m i → s.bufferCache.Uses m i :=
    fun m i hm => ⟨hm.lt, hm.allocated, hm.mdata⟩
  refine { h with target := h.target, distinct := ?_, holds := ?_, free := ?_ }
  · exact fun i m m' hm hm' => h.distinct i m m' (huses m i hm) (huses m' i hm')
  · intro m hm
    obtain ⟨text, hholds⟩ := h.holds m hm
    exact ⟨text, hholds.noNul, hholds.fits, hholds.buf, hholds.offset⟩
  · intro m hm hfree
    have hholds := h.free m hm hfree
    exact ⟨hholds.noNul, hholds.fits, hholds.buf, hholds.offset⟩

theorem Shows.recount {v : FileView} (h : Shows s i v) (j : ℕ) :
    Shows { s with bufferCache := updateLru s.bufferCache j } i v := by
  refine ⟨h.mdata, fun m hm => ?_, fun hm => h.noText fun m hm' => hm m ⟨hm'.lt, hm'.allocated,
    hm'.mdata⟩, h.chunks⟩
  have hholds := h.text m ⟨hm.lt, hm.allocated, hm.mdata⟩
  exact ⟨hholds.noNul, hholds.fits, hholds.buf, hholds.offset⟩

/-- What a call does to file `i`: some of the things that can happen to a file, and it writes these
texts. -/
def Moves (s s' : Fs) (i : ℕ) (text : Option (List Char)) : Prop :=
  ∀ v, Shows s i v → ∃ ops v', ops.filterMap FileOp.text = text.toList ∧
    run FileView.step v ops = some v' ∧ Shows s' i v'

theorem Moves.stays (h : ∀ v, Shows s i v → Shows s' i v) : Moves s s' i none :=
  fun v hv => ⟨[], v, rfl, rfl, h v hv⟩

theorem Moves.one (op : FileOp) (h : ∀ v, Shows s i v → ∃ v', v.step op = some v' ∧ Shows s' i v') :
    Moves s s' i op.text := by
  intro v hv
  obtain ⟨v', hv', hshows⟩ := h v hv
  refine ⟨[op], v', ?_, by rw [run_cons, hv']; rfl, hshows⟩
  cases op <;> rfl

/-- An allocated write buffer is taken from its file and given to a file that has none. -/
theorem Tidy.takeOver (h : Tidy k s) {i₀ : ℕ} (hi : i < k) (hi₀ : i₀ < k)
    (hj : s.bufferCache.Uses j i₀) (hnone : ∀ m, ¬ s.bufferCache.Uses m i)
    (hown : OwnsTargets s j junk)
    (hempty : remaining junk BLOCK_SIZE (s.bufferCache.cblocks j).buf = [])
    (hop : flushBlock s j junk = some t) :
    Tidy k (t.give j i) ∧ (t.give j i).bufferCache.Uses j i ∧
      ((t.give j i).bufferCache.cblocks j).Holds [] ∧ Moves s (t.give j i) i₀ none ∧
      ∀ i', i' < k → i' ≠ i₀ → ∀ v, Shows s i' v → Shows (t.give j i) i' v := by
  have hframe := flushBlock_framed hop
  obtain ⟨htidy, huses, hrest, hself, hother⟩ := h.flush hi₀ hj hown hop hempty
  obtain ⟨hgiven, husesi, hshows⟩ := htidy.give hi huses.lt hrest
    fun m hm => hnone m ((hframe.uses m i).mp hm)
  refine ⟨hgiven, husesi, holds_give hrest i, Moves.one (.evict junk) fun v hv => ?_,
    fun i' hi' hne v hv => hshows i' v (hother i' hi' hne v hv)⟩
  obtain ⟨v', hv', htext, hv's⟩ := hself v hv
  refine ⟨v', ?_, hshows i₀ v' hv's⟩
  have hsame : { v' with text := [] } = v' := by rw [← htext]
  show (v.flush junk).map _ = some v'
  rw [hv', Option.map_some, hsame]

/-- The write buffer of a file, with what happens to the file that had it. -/
theorem Tidy.wbufDataBlock (h : Tidy k s) (hi : i < k) (hname : (s.records i).fileName = f.chars)
    (hok : Log.findMetaDataBlock s.records s.bufferCache f.chars = none →
      ∀ j ∈ victim (fun j => (s.bufferCache.cblocks j).lruCounter) s.bufferCache.numBlocks,
        (s.bufferCache.cblocks j).freeFlag = false →
          OwnsTargets s j junk ∧
            LeavesNothing junk s.bufferCache.cacheBlockSize (s.bufferCache.cblocks j).buf)
    (hop : wbufDataBlock s f.path (some i) junk = some (s', j)) :
    Tidy k s' ∧ s'.bufferCache.Uses j i ∧
      (Log.findMetaDataBlock s.records s.bufferCache f.chars = none →
        (s'.bufferCache.cblocks j).Holds []) ∧
      (∀ m, (s'.records m).fileName = (s.records m).fileName) ∧
      (∀ v, Shows s i v → Shows s' i v) ∧ ∀ i', i' < k → i' ≠ i → Moves s s' i' none := by
  cases hfind : Log.findMetaDataBlock s.records s.bufferCache f.chars with
  | some m =>
    rw [wbufDataBlock_found hfind] at hop
    obtain ⟨rfl, rfl⟩ := Prod.mk.inj (Option.some.inj hop)
    exact ⟨h, h.uses_of_findBuffer hi (hname ▸ hfind), nofun, fun _ => rfl,
      fun _ => id,
      fun _ _ _ => Moves.stays fun _ => id⟩
  | none =>
    have hnone : ∀ m, ¬ s.bufferCache.Uses m i :=
      fun m => h.not_uses_of_findBuffer hi (hname ▸ hfind)
    obtain ⟨hvictim, t, ht, rfl⟩ := wbufDataBlock_eq_some hfind hop
    have hj : j < s.bufferCache.numBlocks := victim_lt hvictim
    unfold evictBlock at ht
    by_cases hfree : (s.bufferCache.cblocks j).freeFlag = false
    · -- the block is in use: its file is flushed
      obtain ⟨i₀, hi₀, hmdata⟩ := h.target j hj hfree
      have huses : s.bufferCache.Uses j i₀ := ⟨hj, hfree, hmdata⟩
      rw [if_pos hfree, if_pos rfl, take_eq_self hfree] at ht
      obtain ⟨hown, hleaves⟩ := hok hfind j hvictim hfree
      have hframe := flushBlock_framed ht
      obtain ⟨htidy, husesi, hholds, hmoves, hothers⟩ :=
        h.takeOver hi hi₀ huses hnone hown (h.blockSize ▸ hleaves).remaining ht
      rw [assign_eq_give (by rw [hframe.freeFlag, hfree])]
      refine ⟨htidy, husesi, fun _ => hholds, hframe.fileName, hothers i hi ?_, fun i' hi' hne => ?_⟩
      · rintro rfl
        exact hnone j huses
      · by_cases hi'₀ : i' = i₀
        · exact hi'₀ ▸ hmoves
        · exact Moves.stays (hothers i' hi' hi'₀)
    · rw [if_neg hfree, if_neg (show NORMAL ≠ WRITE_BACK by decide)] at ht
      obtain rfl := Option.some.inj ht
      rw [assign_take]
      have hempty := h.free j hj (by simpa using hfree)
      obtain ⟨htidy, husesi, hshows⟩ := h.give hi hj hempty hnone
      exact ⟨htidy, husesi, fun _ => holds_give hempty i, fun _ => rfl, hshows i,
        fun i' _ _ => Moves.stays (hshows i')⟩

theorem Tidy.write {junk : WriteJunk} (h : Tidy k s) (hok : KeepsApart s (.write f buf junk))
    (hop : lfsWrite s f.path buf 0 0 junk = some (s', n)) :
    Tidy k s' ∧ (∀ m, (s'.records m).fileName = (s.records m).fileName) ∧
      ∃ i, i < k ∧ (s.records i).fileName = f.chars ∧
        (∀ v, Shows s i v →
          ∃ v', v.step (.write (cstr buf) junk.full) = some v' ∧ Shows s' i v') ∧
        ∀ i', i' < k → i' ≠ i → Moves s s' i' none := by
  obtain ⟨text, s₁, i, s₂, j, s₃, htext, h₁, h₂, h₃, h₄, -⟩ := lfsWrite_eq_some hop
  obtain rfl : text = cstr buf := stringAt_eq_some htext
  obtain ⟨hi, hname, rfl⟩ := (h.load _).metaDataBlock h₁
  have htidy₁ := (h.load (s.loadPath ++ f.path)).touch hi
  rw [htidy₁.owns i] at h₂
  -- where a block has to be found or taken, the condition is about the same blocks
  have hevict : Log.findMetaDataBlock s.records s.bufferCache f.chars = none → _ := fun hfind => by
    have hok' := hok
    simp only [KeepsApart, hfind] at hok'
    exact hok'
  obtain ⟨htidy₂, huses, hempty, hnames₂, hself₂, hmoves₂⟩ := htidy₁.wbufDataBlock hi hname hevict h₂
  have hover : s₂.bufferCache.cacheBlockSize <
      (s₂.bufferCache.cblocks j).offset + (cstr buf).length → OwnsTargets s₂ j junk.full := by
    intro hover
    cases hfind : Log.findMetaDataBlock s.records s.bufferCache f.chars with
    | some m =>
      obtain ⟨rfl, rfl⟩ := Prod.mk.inj (Option.some.inj ((wbufDataBlock_found hfind).symm.trans h₂))
      have hok' := hok
      simp only [KeepsApart, hfind] at hok'
      exact hok' hover
    | none =>
      -- the text would not fit an empty block
      have hlen := appendText_length h₄
      unfold makeRoom at h₃
      rw [if_pos hover] at h₃
      rw [flushBlock_length h₃] at hlen
      rw [(hempty hfind).offset, List.length_nil, Nat.zero_add] at hover
      omega
  obtain ⟨htidy, hself, hother⟩ := htidy₂.fill hi huses (nul_notMem_cstr buf) hover h₃ h₄
  have hnames : ∀ m, (s'.records m).fileName = (s.records m).fileName := fun m =>
    ((appendText_framed h₄).fileName m).trans (((makeRoom_framed h₃).fileName m).trans (hnames₂ m))
  refine ⟨htidy, hnames, i, hi, hname, fun v hv => hself v (hself₂ v ((hv.load _).touch)), ?_⟩
  intro i' hi' hne v hv
  obtain ⟨ops, v', htexts, hrun, hv'⟩ := hmoves₂ i' hi' hne v ((hv.load _).touch)
  exact ⟨ops, v', htexts, hrun, hother i' hi' hne v' hv'⟩

/-- Reading a record, or its size, changes nothing. -/
theorem Tidy.lookup (h : Tidy k s) (hop : QuorumLogFs.Log.metaDataBlock s f.path stack = some (s', i)) :
    Tidy k s' ∧ s'.records = s.records ∧ ∀ m v, Shows s m v → Shows s' m v := by
  obtain ⟨hi, -, rfl⟩ := h.metaDataBlock hop
  exact ⟨h.touch hi, rfl, fun _ _ hv => hv.touch⟩

/-- The calls that look at a file. -/
def Op.Looks : Op → Prop
  | .mknod _ => False
  | .write _ _ _ => False
  | _ => True

/-- Looking at a file changes none. -/
theorem Tidy.looks {op : Op} (h : Tidy k s) (hlooks : op.Looks) (hop : step s op = some s') :
    Tidy k s' ∧ s'.records = s.records ∧ ∀ i v, Shows s i v → Shows s' i v := by
  cases op with
  | mknod f => exact hlooks.elim
  | write f buf junk => exact hlooks.elim
  | «open» f =>
    obtain ⟨⟨t, code⟩, ht, rfl⟩ := Option.map_eq_some_iff.mp hop
    unfold lfsOpen at ht
    split at ht
    · obtain ⟨rfl, -⟩ := Prod.mk.inj (Option.some.inj ht)
      exact ⟨h.load _, rfl, fun i v hv => hv.load _⟩
    · cases ht
  | getattr f stack =>
    obtain ⟨⟨t, attr⟩, ht, rfl⟩ := Option.map_eq_some_iff.mp hop
    obtain ⟨-, rfl | ⟨-, s₁, i, h₁, hs'⟩⟩ := lfsGetattr_eq_some ht
    · exact ⟨h, rfl, fun _ _ => id⟩
    · obtain ⟨htidy, hrecords, hshows⟩ := h.lookup h₁
      rcases hs' with rfl | ⟨j, rfl⟩
      · exact ⟨htidy, hrecords, hshows⟩
      · exact ⟨htidy.recount j, hrecords, fun i v hv => (hshows i v hv).recount j⟩
  | read f buf stack =>
    obtain ⟨⟨t, out⟩, ht, rfl⟩ := Option.map_eq_some_iff.mp hop
    obtain ⟨i, hi⟩ := lfsRead_metaDataBlock ht
    exact h.lookup hi

/-- What a call does when it creates no file. -/
structure Tidy.Kept (k : ℕ) (s s' : Fs) (op : Op) : Prop where
  tidy : Tidy k s'
  names : ∀ i, (s'.records i).fileName = (s.records i).fileName
  known : ∀ name text, op.textTo name = some text → ∃ i, i < k ∧ (s.records i).fileName = name
  moves : ∀ i, i < k → Moves s s' i (op.textTo (s.records i).fileName)

theorem Tidy.Kept.looks {op : Op} (h : Tidy k s) (hlooks : op.Looks) (hop : step s op = some s') :
    Kept k s s' op := by
  have hquiet : ∀ name, op.textTo name = none := fun name => by
    cases op <;> first | rfl | exact hlooks.elim
  obtain ⟨htidy, hrecords, hshows⟩ := h.looks hlooks hop
  refine ⟨htidy, fun i => by rw [hrecords], fun name text htext => ?_, fun i _ => ?_⟩
  · rw [hquiet] at htext
    cases htext
  · rw [hquiet]
    exact Moves.stays (hshows i)

/-- A write moves its file by the text, and at most the file whose buffer it takes. -/
theorem Tidy.Kept.write {junk : WriteJunk} (h : Tidy k s) (hok : KeepsApart s (.write f buf junk))
    (hop : lfsWrite s f.path buf 0 0 junk = some (s', n)) : Kept k s s' (.write f buf junk) := by
  obtain ⟨htidy, hnames, i, hi, hname, hself, hmoves⟩ := h.write hok hop
  refine ⟨htidy, hnames, fun name text htext => ⟨i, hi, ?_⟩, fun i' hi' => ?_⟩
  · change (if f.chars = name then some (cstr buf) else none) = some text at htext
    split at htext
    · rename_i heq
      exact hname.trans heq
    · cases htext
  · by_cases hne : i' = i
    · subst hne
      rw [Op.textTo, if_pos hname.symm]
      exact Moves.one (.write (cstr buf) junk.full) hself
    · rw [Op.textTo, if_neg fun heq => hne (h.names i' hi' i hi (heq.symm.trans hname.symm))]
      exact hmoves i' hi' hne

/-- Each call moves every file on its own, or adds one. -/
theorem Tidy.step {op : Op} (h : Tidy k s) (hok : KeepsApart s op) (hop : step s op = some s') :
    Kept k s s' op ∨ ∃ f, op = .mknod f ∧ Tidy (k + 1) s' ∧
      (∀ i, i < k → (s'.records i).fileName = (s.records i).fileName) ∧
      (∀ i, i < k → (s.records i).fileName ≠ recordName f.chars) ∧
      Shows s' k (.fresh (recordName f.chars)) ∧
      ∀ i, i < k → ∀ v, Shows s i v → Shows s' i v := by
  cases op with
  | mknod f =>
    obtain ⟨⟨t, code⟩, ht, rfl⟩ := Option.map_eq_some_iff.mp hop
    obtain ⟨hfresh, i, hi, hfree⟩ := hok
    have hroom : k < s.metaDataCache.numBlocks := by
      refine lt_of_le_of_lt (not_lt.mp fun hik => ?_) hi
      rw [(h.inUse i hi).mpr hik] at hfree
      cases hfree
    obtain ⟨htidy, hshows, hothers⟩ := h.mknod hfresh hroom ht
    refine Or.inr ⟨f, rfl, htidy, fun m hm => ?_, fun m hm hname => ?_, hshows, hothers⟩
    · obtain ⟨i, files, hvictim, -, rfl⟩ := lfsMknod_eq_some ht
      obtain rfl : k = i := by simpa [h.ranked.victim_unused hroom] using hvictim
      exact congrArg Mdata.fileName (Function.update_of_ne hm.ne ..)
    · exact (h.onDisk (recordName f.chars)).mpr ⟨m, hm, hname⟩ hfresh
  | «open» f => exact Or.inl (Kept.looks h trivial hop)
  | getattr f stack => exact Or.inl (Kept.looks h trivial hop)
  | read f buf stack => exact Or.inl (Kept.looks h trivial hop)
  | write f buf junk =>
    obtain ⟨⟨t, n⟩, ht, rfl⟩ := Option.map_eq_some_iff.mp hop
    exact Or.inl (Kept.write h hok ht)

/-! ## Runs -/

theorem textsTo_append (name : List Char) (ops ops' : List Op) :
    textsTo name (ops ++ ops') = textsTo name ops ++ textsTo name ops' := List.filterMap_append

/-- After these calls the file system is `k` files side by side, each one a run of its own. -/
structure SideBySide (ops : List Op) (k : ℕ) (s : Fs) : Prop where
  tidy : Tidy k s
  unknown : ∀ name, (∀ i, i < k → (s.records i).fileName ≠ name) → textsTo name ops = []
  views : ∀ i, i < k → ∃ fops v,
    fops.filterMap FileOp.text = textsTo (s.records i).fileName ops ∧
      run FileView.step (.fresh (s.records i).fileName) fops = some v ∧ Shows s i v

theorem SideBySide.step {ops : List Op} {op : Op} (h : SideBySide ops k s) (hok : KeepsApart s op)
    (hop : step s op = some s') : ∃ k', SideBySide (ops ++ [op]) k' s' := by
  have htexts : ∀ name, textsTo name (ops ++ [op]) = textsTo name ops ++ (op.textTo name).toList := by
    intro name
    rw [textsTo_append, textsTo, textsTo]
    cases hop : op.textTo name <;> simp [hop]
  rcases h.tidy.step hok hop with hkept | ⟨f, rfl, htidy, hnames, hnew, hfresh, hothers⟩
  · refine ⟨k, hkept.tidy, fun name hname => ?_, fun i hi => ?_⟩
    · simp only [hkept.names] at hname
      rw [htexts, h.unknown name hname, List.nil_append, Option.toList_eq_nil_iff,
        Option.eq_none_iff_forall_ne_some]
      intro text htext
      obtain ⟨i, hi, heq⟩ := hkept.known name text htext
      exact hname i hi heq
    · obtain ⟨fops, v, hfops, hrun, hv⟩ := h.views i hi
      obtain ⟨fops', v', hfops', hrun', hv'⟩ := hkept.moves i hi v hv
      refine ⟨fops ++ fops', v', ?_, ?_, hv'⟩
      · rw [List.filterMap_append, hfops, hfops', hkept.names, htexts]
      · rw [hkept.names, run_append, hrun, Option.bind_some, hrun']
  · have hnone : ∀ name, textsTo name (ops ++ [.mknod f]) = textsTo name ops := fun name => by
      rw [htexts]
      exact List.append_nil _
    have hself : (s'.records k).fileName = recordName f.chars := congrArg Mdata.fileName hfresh.mdata
    refine ⟨k + 1, htidy, fun name hname => ?_, fun i hi => ?_⟩
    · rw [hnone]
      exact h.unknown name fun i hi => hnames i hi ▸ hname i (by omega)
    · rw [hnone]
      rcases Nat.lt_succ_iff_lt_or_eq.mp hi with hi | rfl
      · obtain ⟨fops, v, hfops, hrun, hv⟩ := h.views i hi
        rw [hnames i hi]
        exact ⟨fops, v, hfops, hrun, hothers i hi v hv⟩
      · rw [hself]
        refine ⟨[], _, ?_, rfl, hfresh⟩
        exact (h.unknown (recordName f.chars) hnew).symm

/-- A run whose calls keep the files apart. -/
theorem sideBySide_run {ops : List Op} (hok : Each step KeepsApart Fs.init ops) {s : Fs}
    (hrun : run step Fs.init ops = some s) : ∃ k, SideBySide ops k s := by
  induction ops using List.reverseRecOn generalizing s with
  | nil =>
    obtain rfl := Option.some.inj hrun
    exact ⟨0, tidy_init, fun _ _ => rfl, fun i hi => absurd hi (Nat.not_lt_zero i)⟩
  | append_singleton ops op ih =>
    rw [run_snoc] at hrun
    obtain ⟨t, ht, hte⟩ := Option.bind_eq_some_iff.mp hrun
    obtain ⟨k, hk⟩ := ih (hok.initial (List.prefix_append _ _)) ht
    exact hk.step (hok.last ht) hte

/-! ## Reading -/

/-- The write buffer of a file, if it has one, holds the text of its view. -/
theorem Tidy.bufferedText {v : FileView} (h : Tidy k s) (hi : i < k)
    (hname : (s.records i).fileName = f.chars) (hv : Shows s i v) :
    bufferedText s f.path = some v.text ∧ v.text.length < BLOCK_SIZE := by
  cases hfind : Log.findMetaDataBlock s.records s.bufferCache (s.records i).fileName with
  | none =>
    rw [hv.noText fun m => h.not_uses_of_findBuffer hi hfind]
    rw [hname] at hfind
    exact ⟨bufferedText_of_none hfind, BLOCK_SIZE_pos⟩
  | some j =>
    have hholds := hv.text j (h.uses_of_findBuffer hi hfind)
    refine ⟨?_, hholds.fits⟩
    unfold Log.bufferedText
    rw [Name.tail_path, ← hname, hfind]
    exact hholds.stringAt

/-- Reading a file delivers the output of its view. -/
theorem Tidy.reads {v : FileView} {size offset : ℕ} {out : List Char} (h : Tidy k s) (hi : i < k)
    (hname : (s.records i).fileName = f.chars) (hv : Shows s i v) (hout : v.output buf = some out) :
    lfsRead s f.path buf size offset stack =
      some ({ s with metaDataCache := updateLru s.metaDataCache i }, out) := by
  obtain ⟨chunks, hchunks, hout⟩ := Option.bind_eq_some_iff.mp hout
  rw [hv.chunks, readChunks_chunks, ← hv.mdata] at hchunks
  refine lfsRead_eq_some_iff.mpr ⟨i, chunks, v.text, ?_, hchunks, ?_, hout⟩
  · have hfind := h.findMetaDataBlock hi
    rw [hname] at hfind
    exact metaDataBlock_found hfind
  · exact (h.bufferedText hi hname hv).1

/-- What is read of a file is the output of its view. -/
theorem Tidy.read {size offset : ℕ} {out : List Char} (h : Tidy k s)
    (hop : lfsRead s f.path buf size offset stack = some (s', out)) :
    ∃ i, i < k ∧ (s.records i).fileName = f.chars ∧
      ∀ v, Shows s i v → v.output buf = some out := by
  obtain ⟨i, chunks, text, hblock, hchunks, htext, hout⟩ := lfsRead_eq_some_iff.mp hop
  obtain ⟨hi, hname, rfl⟩ := h.metaDataBlock hblock
  refine ⟨i, hi, hname, fun v hv => ?_⟩
  obtain rfl : v.text = text := Option.some.inj ((h.bufferedText hi hname hv).1.symm.trans htext)
  unfold FileView.output
  rw [hv.chunks, readChunks_chunks, ← hv.mdata]
  exact Option.bind_eq_some_iff.mpr ⟨chunks, hchunks, hout⟩

/-! ## Where the bytes come from -/

/-- All bytes that the file holds are among these. -/
structure FileView.Within (src : Char → Prop) (v : FileView) : Prop where
  text : ∀ c ∈ v.text, src c
  chunks : ∀ p bytes, v.chunkFiles p = some bytes → ∀ c ∈ bytes, src c

section Within

variable {src : Char → Prop} {v v' : FileView} {d d' : Mdata × ChunkFiles}

theorem appendAll_within {writes : List (List Char × List Char)}
    (h : appendAll appendChunk writes d = some d') (hw : ∀ w ∈ writes, ∀ c ∈ w.2, src c)
    (hd : ∀ p bytes, d.2 p = some bytes → ∀ c ∈ bytes, src c) :
    ∀ p bytes, d'.2 p = some bytes → ∀ c ∈ bytes, src c := by
  refine appendAll_keeps (P := fun d => ∀ p bytes, d.2 p = some bytes → ∀ c ∈ bytes, src c)
    (fun w hmem d e he hd p bytes hbytes c hc => ?_) h hd
  rw [(appendChunk_eq_some he).1] at hbytes
  by_cases hp : p = w.1
  · subst hp
    rw [Function.update_self, Option.some.injEq] at hbytes
    rw [← hbytes] at hc
    rcases List.mem_append.mp hc with hc | hc
    · cases hold : d.2 w.1 with
      | none => simp [hold] at hc
      | some old =>
        rw [hold, Option.getD_some] at hc
        exact hd w.1 old hold c hc
    · exact hw w hmem c hc
  · rw [Function.update_of_ne hp] at hbytes
    exact hd p bytes hbytes c hc

theorem FileView.Within.flush (h : v.Within src) (hnul : src nul) (hop : v.flush junk = some v') :
    v'.Within src := by
  have hbuf : ∀ c ∈ padded BLOCK_SIZE v.text, src c := fun c hc =>
    (List.mem_append.mp hc).elim (h.text c) fun hc => List.eq_of_mem_replicate hc ▸ hnul
  rw [FileView.flush_eq] at hop
  obtain ⟨writes, hwrites, hop⟩ := Option.bind_eq_some_iff.mp hop
  obtain ⟨d, hd, rfl⟩ := Option.map_eq_some_iff.mp hop
  refine ⟨fun c hc => hbuf c (remaining_subset _ _ _ c hc).1, appendAll_within hd ?_ h.chunks⟩
  exact fun w hw c hc => hbuf c ((chunkWrites_of_buffer hwrites w hw).subset hc)

theorem FileView.Within.step {op : FileOp} (h : v.Within src) (hnul : src nul)
    (htext : ∀ text ∈ op.text, ∀ c ∈ text, src c) (hop : v.step op = some v') : v'.Within src := by
  cases op with
  | write text junk =>
    obtain ⟨w, hw, hop⟩ := Option.bind_eq_some_iff.mp hop
    have hw : w.Within src := by
      unfold FileView.room at hw
      split at hw
      · exact h.flush hnul hw
      · exact Option.some.inj hw ▸ h
    split at hop
    · obtain rfl := Option.some.inj hop
      exact ⟨fun c hc => (List.mem_append.mp hc).elim (hw.text c) (htext text rfl c), hw.chunks⟩
    · cases hop
  | evict junk =>
    obtain ⟨w, hw, rfl⟩ := Option.map_eq_some_iff.mp hop
    exact ⟨fun c hc => absurd hc List.not_mem_nil, (h.flush hnul hw).chunks⟩

theorem FileView.within_run {name : List Char} {ops : List FileOp}
    (hrun : run FileView.step (.fresh name) ops = some v) :
    v.Within fun c => c = nul ∨ ∃ text ∈ ops.filterMap FileOp.text, c ∈ text := by
  have hfresh : (FileView.fresh name).Within fun c =>
      c = nul ∨ ∃ text ∈ ops.filterMap FileOp.text, c ∈ text :=
    ⟨List.forall_mem_nil _, fun p bytes hbytes => by cases hbytes⟩
  have hmem : Each FileView.step (fun _ op => op ∈ ops) (.fresh name) ops :=
    fun ops' op hp _ _ => hp.subset (by simp)
  refine run_invariant hfresh (fun v op v' hv hop hstep => ?_) hmem hrun
  refine hv.step (Or.inl rfl) (fun text htext c hc => Or.inr ⟨text, ?_, hc⟩) hstep
  exact List.mem_filterMap.mpr ⟨op, hop, htext⟩

theorem readChunks_within {size : ℤ} {chunkFiles : ChunkFiles} {paths : List (List Char)}
    {out : List Char} (h : ∀ p bytes, chunkFiles p = some bytes → ∀ c ∈ bytes, src c)
    (hop : readChunks size chunkFiles paths = some out) : ∀ c ∈ out, src c ∨ c = '\n' := by
  induction paths generalizing out with
  | nil =>
    obtain rfl := Option.some.inj hop
    exact List.forall_mem_nil _
  | cons p paths ih =>
    unfold readChunks at hop
    simp only [Option.bind_eq_bind, Option.bind_eq_some_iff] at hop
    obtain ⟨bytes, hbytes, rest, hrest, hout⟩ := hop
    obtain rfl := Option.some.inj hout
    intro c hc
    rcases List.mem_append.mp hc with hc | hc
    · refine Or.inl (h p bytes hbytes c ?_)
      unfold fread at hc
      split at hc
      · exact hc
      · exact List.mem_of_mem_take hc
    · exact (List.mem_cons.mp hc).elim Or.inr (ih hrest c)

theorem FileView.Within.output {out : List Char} (h : v.Within src) (hop : v.output buf = some out) :
    ∀ c ∈ out, src c ∨ c = '\n' ∨ c = nul ∨ c ∈ buf := by
  obtain ⟨chunks, hchunks, hfill⟩ := Option.bind_eq_some_iff.mp hop
  have hread := readChunks_within h.chunks hchunks
  unfold fillBuffer at hfill
  split at hfill
  · obtain ⟨mem, hmem, rfl⟩ := Option.map_eq_some_iff.mp hfill
    intro c hc
    have hc : c ∈ mem := List.mem_of_mem_take hc
    unfold strcat at hmem
    split at hmem
    · obtain rfl := Option.some.inj hmem
      have hold : ∀ c ∈ chunks ++ nul :: buf.drop (chunks.length + 1),
          src c ∨ c = '\n' ∨ c = nul ∨ c ∈ buf := by
        intro c hc
        rcases List.mem_append.mp hc with hc | hc
        · exact (hread c hc).imp_right Or.inl
        · rcases List.mem_cons.mp hc with rfl | hc
          · exact Or.inr (Or.inr (Or.inl rfl))
          · exact Or.inr (Or.inr (Or.inr (List.mem_of_mem_drop hc)))
      rcases List.mem_append.mp hc with hc | hc
      · rcases List.mem_append.mp hc with hc | hc
        · exact hold c ((List.takeWhile_sublist _).subset hc)
        · exact Or.inl (h.text c hc)
      · rcases List.mem_cons.mp hc with rfl | hc
        · exact Or.inr (Or.inr (Or.inl rfl))
        · exact hold c (List.mem_of_mem_drop hc)
    · cases hmem
  · cases hfill

end Within

/-- In every run that keeps the files apart, `lfs_read` returns of a file what the file on its own
would return after the writes to it, and every byte of it was written to it, is a separator, or was
in the caller's buffer. -/
theorem isolated {ops : List Op} (hok : Each step KeepsApart Fs.init ops) {s : Fs}
    (hrun : run step Fs.init ops = some s) (f : Name) : Isolated s f (textsTo f.chars ops) := by
  intro buf size offset stack s' out hop
  obtain ⟨k, h⟩ := sideBySide_run hok hrun
  obtain ⟨i, hi, hname, hout⟩ := h.tidy.read hop
  obtain ⟨fops, v, htexts, hv, hshows⟩ := h.views i hi
  rw [hname] at htexts hv
  refine ⟨fops, v, htexts, hv, hout v hshows, fun c hc => ?_⟩
  have hwithin := (FileView.within_run hv).output (hout v hshows) c hc
  rw [htexts] at hwithin
  tauto

/-- Eleven files are created and written to. The text of the first one is `text`; the last one takes
its write buffer. -/
def elevenTexts (text : List Char) : List Op :=
  .mknod firstFile :: .write firstFile (text ++ [nul]) {} ::
    ((List.finRange 101).take 11).tail.flatMap fun i =>
      [.mknod (fileNo i), .write (fileNo i) oneLine {}]

/-- The last of them. -/
def eleventhFile : Name := fileNo ⟨10, by decide⟩

/-- The first file holds an empty line, of which nothing is left behind. -/
theorem isolated_emptyLine : (run step Fs.init (elevenTexts ['\n'])).isSome ∧
    ∀ s, run step Fs.init (elevenTexts ['\n']) = some s →
      Isolated s eleventhFile (textsTo eleventhFile.chars (elevenTexts ['\n'])) := by
  have hchecked : (runChecked step KeepsApart Fs.init (elevenTexts ['\n'])).isSome := by decide +kernel
  obtain ⟨hruns, hok⟩ := of_runChecked hchecked
  exact ⟨hruns, fun s hrun => isolated hok hrun eleventhFile⟩

/-- The line of the first file is left in its write buffer and becomes content of the last one. -/
theorem not_isolated_secret : ∃ text s, run step Fs.init (elevenTexts text) = some s ∧
    ¬ Isolated s eleventhFile (textsTo eleventhFile.chars (elevenTexts text)) := by
  have hread : (run step Fs.init (elevenTexts "E|Sat Mar 17 20:33:43 EDT 2012|secret\n".toList)).bind
      (fun s => (lfsRead s eleventhFile.path (zeros 100) 0 0 []).map Prod.snd) =
      some ("E|Sat Mar 17 20:33:43 EDT 2012|secretE|Sat Mar 17 20:33:43 EDT 2012|x\n".toList) := by
    decide +kernel
  obtain ⟨s, hrun, hread⟩ := Option.bind_eq_some_iff.mp hread
  obtain ⟨⟨s', out⟩, hop, hout⟩ := Option.map_eq_some_iff.mp hread
  obtain rfl : out = _ := hout
  refine ⟨_, s, hrun, fun h => ?_⟩
  obtain ⟨_, _, -, -, -, hbytes⟩ := h _ _ _ _ _ _ hop
  -- the `s` of `secret` was not written to the last file
  have hsecret := hbytes 's' (by decide)
  revert hsecret
  decide

end QuorumLogFs.Log
