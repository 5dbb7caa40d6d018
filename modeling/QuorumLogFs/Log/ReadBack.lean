import QuorumLogFs.Log.Bounds
import QuorumLogFs.Log.Isolation
import QuorumLogFs.Log.Metadata
import QuorumLogFs.Log.Stored

/-!
# What is written is read back

The lines of one file, in any run of calls on it: `lfs_read` returns the lines written, in order.
This fails at the first flush that leaves its last line in the buffer: the line is then on disk and
in the buffer, where the next text is joined to it. `FlushesEmpty` excludes that. `FlushesInOrder`
excludes that a flush appends to a chunk file other than the last one; it holds by itself as long as
no two instants carry the same month, day, time and year.
-/

namespace QuorumLogFs.Log

open QuorumLogFs.Basis

/-- A write carries these lines; other calls carry none. -/
def Op.Carries (ls : List Line) : Op → Prop
  | .write _ buf _ => cstr buf = bytesOf ls
  | _ => ls = []

/-- The file is created under a new name, which its record holds whole, and a write that flushes its
buffer leaves nothing behind in it. -/
def FlushesEmpty (s : Fs) : Op → Prop
  | .mknod f => s.mdataFiles f.chars = none ∧ f.chars.length < MAX_FILE_NAME_SIZE
  | .write f buf junk =>
    ∀ j ∈ findMetaDataBlock s.records s.bufferCache f.chars,
      s.bufferCache.cacheBlockSize < (s.bufferCache.cblocks j).offset + (cstr buf).length →
        LeavesNothing junk.full s.bufferCache.cacheBlockSize (s.bufferCache.cblocks j).buf
  | _ => True

/-- A write that flushes its buffer creates chunk files or appends to the last one. -/
def FlushesInOrder (s : Fs) : Op → Prop
  | .write f buf junk =>
    ∀ j ∈ findMetaDataBlock s.records s.bufferCache f.chars,
      s.bufferCache.cacheBlockSize < (s.bufferCache.cblocks j).offset + (cstr buf).length →
        ∀ i ∈ (s.bufferCache.cblocks j).mdata,
          ∀ writes ∈ chunkWrites junk.full CHUNK_PATH (s.records i).fileName
            (s.bufferCache.cblocks j) s.bufferCache.cacheBlockSize, InOrder (s.records i).paths writes
  | _ => True

instance decidableInOrder : ∀ paths writes, Decidable (InOrder paths writes)
  | _, [] => isTrue trivial
  | paths, w :: writes =>
    have := decidableInOrder (if w.1 ∈ paths then paths else paths ++ [w.1]) writes
    inferInstanceAs (Decidable (_ ∧ _))

instance decidableFlushesEmpty (s : Fs) : ∀ op, Decidable (FlushesEmpty s op)
  | .mknod f => inferInstanceAs
      (Decidable (s.mdataFiles f.chars = none ∧ f.chars.length < MAX_FILE_NAME_SIZE))
  | .open _ => isTrue trivial
  | .getattr _ _ => isTrue trivial
  | .read _ _ _ => isTrue trivial
  | .write f buf junk => inferInstanceAs (Decidable
      (∀ j ∈ findMetaDataBlock s.records s.bufferCache f.chars,
        s.bufferCache.cacheBlockSize < (s.bufferCache.cblocks j).offset + (cstr buf).length →
          LeavesNothing junk.full s.bufferCache.cacheBlockSize (s.bufferCache.cblocks j).buf))

instance decidableFlushesInOrder (s : Fs) : ∀ op, Decidable (FlushesInOrder s op)
  | .mknod _ => isTrue trivial
  | .open _ => isTrue trivial
  | .getattr _ _ => isTrue trivial
  | .read _ _ _ => isTrue trivial
  | .write f buf junk => inferInstanceAs (Decidable
      (∀ j ∈ findMetaDataBlock s.records s.bufferCache f.chars,
        s.bufferCache.cacheBlockSize < (s.bufferCache.cblocks j).offset + (cstr buf).length →
          ∀ i ∈ (s.bufferCache.cblocks j).mdata,
            ∀ writes ∈ chunkWrites junk.full CHUNK_PATH (s.records i).fileName
              (s.bufferCache.cblocks j) s.bufferCache.cacheBlockSize,
              InOrder (s.records i).paths writes))

/-- What `lfs_read` returns for the file has these lines, and given a large enough buffer it returns. -/
structure ReadsBack (s : Fs) (f : Name) (ls : List Line) : Prop where
  lines : ∀ buf size offset stack s' out, lfsRead s f.path buf size offset stack = some (s', out) →
    nonEmptyLines out = ls.map Line.render
  returns : ∃ n, ∀ buf size offset stack, n < buf.length → nul ∈ stack →
    (lfsRead s f.path buf size offset stack).isSome

/-- The only file, if it has been created, stores these lines. -/
structure OnlyFile (f : Name) (ls : List Line) (k : ℕ) (s : Fs) : Prop where
  one : k ≤ 1
  tidy : Tidy k s
  name : ∀ i, i < k → (s.records i).fileName = f.chars ∧ f.chars.length < MAX_FILE_NAME_SIZE
  nothing : k = 0 → ls = []
  stores : ∀ i, i < k → ∃ v, Shows s i v ∧ v.Stores ls

variable {clock : Stamp → ℕ} {k n : ℕ} {s s' : Fs} {f : Name} {l : Line} {ls ls' : List Line} {op : Op}
  {buf : List Char} {junk : WriteJunk}

/-! ## One call -/

/-- A single file owns every chunk file. -/
theorem Tidy.ownsTargets_one {j : ℕ} {junk : Junk} (h : Tidy 1 s) (hj : j < s.bufferCache.numBlocks)
    (hfree : (s.bufferCache.cblocks j).freeFlag = false) : OwnsTargets s j junk := by
  intro i hi writes _ w _
  obtain ⟨i₀, hi₀, hmdata⟩ := h.target j hj hfree
  rw [hmdata, Option.mem_some_iff] at hi
  by_cases hnone : s.chunkFiles w.1 = none
  · exact Or.inl hnone
  · obtain ⟨m, hm, hmem⟩ := h.owned w.1 hnone
    obtain rfl : m = i := by omega
    exact Or.inr hmem

/-- No other file's chunk files are in the way, and no buffer changes hands. -/
theorem Tidy.keepsApart_one (h : Tidy 1 s) (hname : (s.records 0).fileName = f.chars) :
    KeepsApart s (.write f buf junk) := by
  cases hfind : Log.findMetaDataBlock s.records s.bufferCache f.chars with
  | some j =>
    simp only [KeepsApart, hfind]
    obtain ⟨hj, hfor⟩ := findMetaDataBlock_some hfind
    exact fun _ => h.ownsTargets_one hj (CBlock.isFor_iff.mp hfor).1
  | none =>
    simp only [KeepsApart, hfind]
    intro j hvictim hfree
    obtain ⟨i, hi, hmdata⟩ := h.target j (victim_lt hvictim) hfree
    obtain rfl : i = 0 := by omega
    rw [← hname, h.findBuffer hi ⟨victim_lt hvictim, hfree, hmdata⟩] at hfind
    cases hfind

/-- The conditions on the write buffer, in terms of the text that it holds. -/
theorem OnlyFile.clean {v : FileView} (h : OnlyFile f ls 1 s) (hk : 0 < 1) (hv : Shows s 0 v)
    (hempty : FlushesEmpty s (.write f buf junk)) (horder : FlushesInOrder s (.write f buf junk)) :
    v.text.length < BLOCK_SIZE ∧
      (v.text ≠ [] → BLOCK_SIZE < v.text.length + (cstr buf).length →
        remaining junk.full BLOCK_SIZE (padded BLOCK_SIZE v.text) = [] ∧
          ∀ writes ∈ chunkWrites junk.full CHUNK_PATH v.mdata.fileName (blockOf v.text) BLOCK_SIZE,
            InOrder v.mdata.paths writes) := by
  have hname := (h.name 0 hk).1
  by_cases hused : ∃ j, s.bufferCache.Uses j 0
  · obtain ⟨j, hj⟩ := hused
    have hholds := hv.text j hj
    have hfind := hname ▸ h.tidy.findBuffer hk hj
    refine ⟨hholds.fits, fun _ hover => ?_⟩
    rw [← hholds.offset, ← h.tidy.blockSize] at hover
    have hempty := hempty j hfind hover
    have horder := horder j hfind hover 0 hj.mdata
    rw [h.tidy.blockSize] at hempty horder
    have hbuf : (blockOf v.text).buf = (s.bufferCache.cblocks j).buf := hholds.buf.symm
    rw [← hv.mdata, chunkWrites_congr hbuf]
    rw [hholds.buf] at hempty
    exact ⟨hempty.remaining, horder⟩
  · have hnone := hv.noText fun j hj => hused ⟨j, hj⟩
    exact ⟨hnone ▸ BLOCK_SIZE_pos, fun hne => absurd hnone hne⟩

theorem OnlyFile.write (h : OnlyFile f ls k s) (hcarries : cstr buf = bytesOf ls')
    (hempty : FlushesEmpty s (.write f buf junk)) (horder : FlushesInOrder s (.write f buf junk))
    (hop : lfsWrite s f.path buf 0 0 junk = some (s', n)) : OnlyFile f (ls ++ ls') k s' := by
  -- the file exists
  obtain ⟨_, _, i, _, _, _, -, h₁, -⟩ := lfsWrite_eq_some hop
  obtain ⟨hi, -, -⟩ := (h.tidy.load _).metaDataBlock h₁
  obtain rfl : k = 1 := by have := h.one; omega
  obtain rfl : i = 0 := by omega
  have hname := (h.name 0 hi).1
  obtain ⟨htidy, hnames, m, hm, -, hself, -⟩ := h.tidy.write (h.tidy.keepsApart_one hname) hop
  obtain rfl : m = 0 := by omega
  obtain ⟨v, hv, hstores⟩ := h.stores 0 hm
  obtain ⟨v', hv', hshows⟩ := hself v hv
  obtain ⟨hlen, hclean⟩ := h.clean hm hv hempty horder
  have hstores' := hstores.write hcarries hlen hclean hv'
  refine ⟨h.one, htidy, fun i hi => (hnames i).symm ▸ h.name i hi, nofun, fun i hi => ?_⟩
  obtain rfl : i = 0 := by omega
  exact ⟨v', hshows, hstores'⟩

/-- Looking at the file changes nothing. -/
theorem OnlyFile.looks (h : OnlyFile f ls k s) (hlooks : op.Looks) (hop : step s op = some s') :
    OnlyFile f ls k s' := by
  obtain ⟨htidy, hrecords, hshows⟩ := h.tidy.looks hlooks hop
  refine ⟨h.one, htidy, fun i hi => by rw [hrecords]; exact h.name i hi, h.nothing, fun i hi => ?_⟩
  obtain ⟨v, hv, hstores⟩ := h.stores i hi
  exact ⟨v, hshows i v hv, hstores⟩

theorem OnlyFile.step (h : OnlyFile f ls k s) (hfile : op.file = f) (hcarries : op.Carries ls')
    (hempty : FlushesEmpty s op) (horder : FlushesInOrder s op) (hop : step s op = some s') :
    ∃ k', OnlyFile f (ls ++ ls') k' s' ∧ (k' = 0 → k = 0 ∧ op ≠ .mknod f) := by
  have hlooks : op.Looks → ls' = [] →
      ∃ k', OnlyFile f (ls ++ ls') k' s' ∧ (k' = 0 → k = 0 ∧ op ≠ .mknod f) := by
    rintro hlooks rfl
    rw [List.append_nil]
    exact ⟨k, h.looks hlooks hop, fun hk => ⟨hk, fun heq => by subst heq; exact hlooks.elim⟩⟩
  cases op with
  | mknod g =>
    obtain rfl : g = f := hfile
    obtain rfl : ls' = [] := hcarries
    obtain ⟨⟨t, code⟩, ht, rfl⟩ := Option.map_eq_some_iff.mp hop
    obtain ⟨hnew, hshort⟩ := hempty
    have hrecord : recordName g.chars = g.chars := recordName_eq_self.mpr hshort.le
    have hk : k = 0 := by
      by_contra hk
      exact (h.tidy.onDisk g.chars).mpr ⟨0, by omega, (h.name 0 (by omega)).1⟩ hnew
    subst hk
    obtain ⟨i, _, hvictim, -⟩ := lfsMknod_eq_some ht
    have hroom : 0 < s.metaDataCache.numBlocks := (Nat.zero_le i).trans_lt (victim_lt hvictim)
    obtain ⟨htidy, hshows, -⟩ := h.tidy.mknod (hrecord.symm ▸ hnew) hroom ht
    rw [List.append_nil, h.nothing rfl]
    rw [hrecord] at hshows
    refine ⟨1, ⟨le_rfl, htidy, fun i hi => ?_, fun _ => rfl, fun i hi => ?_⟩, fun hone => ?_⟩
    · obtain rfl : i = 0 := by omega
      exact ⟨congrArg Mdata.fileName hshows.mdata, hshort⟩
    · obtain rfl : i = 0 := by omega
      exact ⟨_, hshows, FileView.stores_fresh g.chars⟩
    · cases hone
  | «open» g => exact hlooks trivial hcarries
  | getattr g stack => exact hlooks trivial hcarries
  | read g buf stack => exact hlooks trivial hcarries
  | write g buf junk =>
    obtain rfl : g = f := hfile
    obtain ⟨⟨t, n⟩, ht, rfl⟩ := Option.map_eq_some_iff.mp hop
    exact ⟨k, h.write hcarries hempty horder ht, fun hk => ⟨hk, nofun⟩⟩

/-! ## A write that flushes lines -/

theorem Line.isLine (l : Line) : IsLine l.render :=
  ⟨l.newline_notMem, l.nul_notMem, by rw [Timestamped, scanTimestamp_render]; rfl⟩

theorem joinLines_render (ls : List Line) : joinLines (ls.map Line.render) = bytesOf ls := by
  induction ls with
  | nil => rfl
  | cons l ls ih => rw [List.map_cons, joinLines_cons, ih, bytesOf_cons, Line.bytes]; simp

/-- A flush of complete lines stops behind the last one. -/
theorem scanned_lines (junk : Junk) (hlen : (bytesOf (l :: ls)).length < n) :
    scanned junk (padded n (bytesOf (l :: ls))) = ((bytesOf (l :: ls)).length, lastLine l ls) := by
  have hbytes : bytesOf (l :: ls) = l.render ++ '\n' :: bytesOf ls := by simp [Line.bytes]
  have hread : readLine (bytesOf (l :: ls)) = some l.render := by
    rw [hbytes]
    exact readLine_bytes l (bytesOf ls)
  have hdrop : (padded n (bytesOf (l :: ls))).drop (l.render.length + 1) =
      joinLines (ls.map Line.render) ++ nul :: zeros (n - ((bytesOf (l :: ls)).length + 1)) := by
    rw [joinLines_render, ← append_nul_zeros _ hlen, bytesOf_cons, List.append_assoc]
    exact List.drop_left' (by simp [Line.bytes])
  have hlines : ∀ k ∈ ls.map Line.render, IsLine k :=
    List.forall_mem_map.mpr fun m _ => m.isLine
  rw [(scanned_first junk (stringAt_padded_zero (nul_notMem_bytesOf _) hlen) hread hdrop hlines).1,
    joinLines_render, hbytes, lastLine, List.length_append, List.length_cons]
  congr 1
  omega

theorem leavesNothing_lines {junk : Junk} (hlen : (bytesOf (l :: ls)).length < n)
    (hdrained : Drained junk n l ls) : LeavesNothing junk n (padded n (bytesOf (l :: ls))) := by
  rw [LeavesNothing, scanned_lines junk hlen]
  exact Or.inr hdrained

/-- A flush of complete lines that leaves nothing. -/
theorem flushBlock_lines {i j : ℕ} {junk : Junk} {disk : Mdata × ChunkFiles}
    {files : List Char → Option (List Char)} (hsize : s.bufferCache.cacheBlockSize = BLOCK_SIZE)
    (hmdata : (s.bufferCache.cblocks j).mdata = some i)
    (hholds : (s.bufferCache.cblocks j).Holds (bytesOf (l :: ls)))
    (hdrained : Drained junk BLOCK_SIZE l ls)
    (hdisk : flushLines CHUNK_PATH l.stamp l.bytes ls (s.records i, s.chunkFiles) = some disk)
    (hfiles : writeMetadataToDisk disk.1 s.mdataFiles = some files) :
    ∃ s', flushBlock s j junk = some s' ∧ (s'.bufferCache.cblocks j).buf = zeros BLOCK_SIZE ∧
      s'.metaDataCache = s.metaDataCache ∧ s'.loadPath = s.loadPath ∧
      s'.records = Function.update s.records i disk.1 := by
  have hflush := writeBufferToDisk_lines junk length_CHUNK_PATH_le hholds.buf hholds.fits
    (s.records i, s.chunkFiles)
  rw [hdisk, Option.map_some, CBlock.flushed, if_pos hdrained] at hflush
  unfold flushBlock
  simp only [hmdata, hsize, hflush, hfiles, Option.bind_eq_bind, Option.bind_some]
  exact ⟨_, rfl, congrArg CBlock.buf (Cache.cblocks_set_self _ j _), rfl, rfl, rfl⟩

/-- A text that fits is appended to an empty buffer. -/
theorem appendText_zeros {j : ℕ} {text : List Char}
    (hbuf : (s.bufferCache.cblocks j).buf = zeros BLOCK_SIZE) (hfits : text.length < BLOCK_SIZE) :
    ∃ s', appendText s j text = some s' ∧ s'.metaDataCache = s.metaDataCache ∧
      s'.loadPath = s.loadPath ∧ s'.records = s.records := by
  have happend := strcat_padded (n := BLOCK_SIZE) List.not_mem_nil (Nat.zero_le _) text
  rw [if_pos (by simpa using hfits)] at happend
  unfold appendText
  rw [hbuf]
  exact ⟨_, congrArg (Option.map _) happend, rfl, rfl, rfl⟩

/-- A write to a file whose buffer holds lines and has no room for the text. -/
theorem lfsWrite_flush {i j : ℕ} {text : List Char} {disk : Mdata × ChunkFiles}
    {files : List Char → Option (List Char)}
    (hload : (s.loadPath ++ f.path).length < LOAD_PATH_SIZE) (htext : stringAt buf 0 = some text)
    (hblock : findMetaDataBlock s.records s.metaDataCache f.chars = some i)
    (hbuffer : findMetaDataBlock s.records s.bufferCache f.chars = some j)
    (hsize : s.bufferCache.cacheBlockSize = BLOCK_SIZE)
    (hmdata : (s.bufferCache.cblocks j).mdata = some i)
    (hholds : (s.bufferCache.cblocks j).Holds (bytesOf (l :: ls)))
    (hover : BLOCK_SIZE < (bytesOf (l :: ls)).length + text.length)
    (hdrained : Drained junk.full BLOCK_SIZE l ls) (hfits : text.length < BLOCK_SIZE)
    (hdisk : flushLines CHUNK_PATH l.stamp l.bytes ls (s.records i, s.chunkFiles) = some disk)
    (hfiles : writeMetadataToDisk disk.1 s.mdataFiles = some files) :
    ∃ s', lfsWrite s f.path buf 0 0 junk = some (s', text.length) ∧
      s'.metaDataCache.numBlocks = s.metaDataCache.numBlocks ∧ s'.loadPath = s.loadPath ++ f.path ∧
      s'.records = Function.update s.records i disk.1 := by
  let t : Fs := { s with
    loadPath := s.loadPath ++ f.path, metaDataCache := updateLru s.metaDataCache i }
  have hroom : makeRoom t j text junk.full = flushBlock t j junk.full :=
    if_pos (by rw [hsize, hholds.offset]; exact hover)
  obtain ⟨t', hflush, hempty, hcache, hpath, hrecords⟩ : ∃ t', flushBlock t j junk.full = some t' ∧ _ :=
    flushBlock_lines hsize hmdata hholds hdrained hdisk hfiles
  obtain ⟨s', happend, hcache', hpath', hrecords'⟩ := appendText_zeros hempty hfits
  refine ⟨s', ?_, ?_, hpath'.trans hpath, hrecords'.trans hrecords⟩
  · exact lfsWrite_of_parts hload htext (metaDataBlock_found hblock) (wbufDataBlock_found hbuffer)
      (hroom.trans hflush) happend
  · rw [hcache', hcache]
    rfl

/-- The file's buffer holds these lines, and flushing them would append in order. -/
structure FlushesClean (f : Name) (l : Line) (ls : List Line) (s : Fs) : Prop where
  load : (s.loadPath ++ f.path).length < LOAD_PATH_SIZE
  block : findMetaDataBlock s.records s.metaDataCache f.chars = some 0
  buffer : findMetaDataBlock s.records s.bufferCache f.chars = some 0
  size : s.bufferCache.cacheBlockSize = BLOCK_SIZE
  mdata : (s.bufferCache.cblocks 0).mdata = some 0
  offset : (s.bufferCache.cblocks 0).offset = (bytesOf (l :: ls)).length
  buf : (s.bufferCache.cblocks 0).buf = padded BLOCK_SIZE (bytesOf (l :: ls))
  order : InOrder (s.records 0).paths
    (pieces CHUNK_PATH (s.records 0).fileName l.stamp l.bytes ls)
  disk : ∃ disk ∈ flushLines CHUNK_PATH l.stamp l.bytes ls (s.records 0, s.chunkFiles),
    (∀ p ∈ disk.1.paths, CleanPath p) ∧ (writeMetadataToDisk disk.1 s.mdataFiles).isSome

instance (f : Name) (l : Line) (ls : List Line) (s : Fs) : Decidable (FlushesClean f l ls s) :=
  decidable_of_iff (_ ∧ _ ∧ _ ∧ _ ∧ _ ∧ _ ∧
    ((s.bufferCache.cblocks 0).buf == padded BLOCK_SIZE (bytesOf (l :: ls))) = true ∧ _ ∧ _)
    ⟨fun ⟨h₁, h₂, h₃, h₄, h₅, h₆, h₇, h₈, h₉⟩ => ⟨h₁, h₂, h₃, h₄, h₅, h₆, beq_iff_eq.mp h₇, h₈, h₉⟩,
      fun ⟨h₁, h₂, h₃, h₄, h₅, h₆, h₇, h₈, h₉⟩ => ⟨h₁, h₂, h₃, h₄, h₅, h₆, beq_iff_eq.mpr h₇, h₈, h₉⟩⟩

/-- Then a write that flushes them leaves nothing, appends in order and has a result, in which the paths
are clean. -/
theorem FlushesClean.write {text : List Char} (h : FlushesClean f l ls s)
    (hlen : (bytesOf (l :: ls)).length < BLOCK_SIZE) (htext : stringAt buf 0 = some text)
    (hover : BLOCK_SIZE < (bytesOf (l :: ls)).length + text.length) (hfits : text.length < BLOCK_SIZE)
    (hdrained : Drained junk.full BLOCK_SIZE l ls) (hpaths : PathsClean s) :
    (FlushesEmpty s (.write f buf junk) ∧ FlushesInOrder s (.write f buf junk)) ∧
      ∃ s', Log.step s (.write f buf junk) = some s' ∧ PathsClean s' := by
  have hholds : (s.bufferCache.cblocks 0).Holds (bytesOf (l :: ls)) :=
    ⟨nul_notMem_bytesOf _, hlen, h.buf, h.offset⟩
  refine ⟨⟨fun j hj _ => ?_, fun j hj _ i hi writes hwrites => ?_⟩, ?_⟩
  · obtain rfl : 0 = j := Option.some.inj (h.buffer.symm.trans hj)
    rw [h.size, h.buf]
    exact leavesNothing_lines hlen hdrained
  · obtain rfl : 0 = j := Option.some.inj (h.buffer.symm.trans hj)
    obtain rfl : 0 = i := Option.some.inj (h.mdata.symm.trans hi)
    rw [h.size, chunkWrites_lines junk.full _ h.buf hlen] at hwrites
    obtain rfl := Option.some.inj hwrites
    exact h.order
  · obtain ⟨disk, hdisk, hclean, hsome⟩ := h.disk
    obtain ⟨files, hfiles⟩ := Option.isSome_iff_exists.mp hsome
    obtain ⟨s', hs', hblocks, -, hrecords⟩ := lfsWrite_flush h.load htext h.block h.buffer h.size h.mdata
      hholds hover hdrained hfits hdisk hfiles
    refine ⟨s', congrArg (Option.map Prod.fst) hs', fun i hi => ?_⟩
    rw [hrecords, Function.update_apply]
    split
    · exact hclean
    · exact hpaths i (hblocks ▸ hi)

/-! ## Runs -/

theorem onlyFile_run {ops : List Op} {linesOf : Op → List Line} (hfile : ∀ op ∈ ops, op.file = f)
    (hcarries : ∀ op ∈ ops, op.Carries (linesOf op))
    (hclean : Each Log.step (fun s op => FlushesEmpty s op ∧ FlushesInOrder s op) Fs.init ops)
    (hrun : run Log.step Fs.init ops = some s) :
    ∃ k, OnlyFile f (ops.flatMap linesOf) k s ∧ (k = 0 → .mknod f ∉ ops) := by
  induction ops using List.reverseRecOn generalizing s with
  | nil =>
    obtain rfl := Option.some.inj hrun
    refine ⟨0, ⟨by omega, tidy_init, fun i hi => ?_, fun _ => rfl, fun i hi => ?_⟩, fun _ => ?_⟩
    · exact absurd hi (Nat.not_lt_zero i)
    · exact absurd hi (Nat.not_lt_zero i)
    · exact List.not_mem_nil
  | append_singleton ops op ih =>
    rw [run_snoc] at hrun
    obtain ⟨t, ht, hte⟩ := Option.bind_eq_some_iff.mp hrun
    rw [List.flatMap_append, List.flatMap_singleton]
    obtain ⟨k, hk, hmade⟩ := ih (fun o ho => hfile o (List.mem_append_left _ ho))
      (fun o ho => hcarries o (List.mem_append_left _ ho)) (hclean.initial (List.prefix_append _ _)) ht
    obtain ⟨hempty, horder⟩ := hclean.last ht
    obtain ⟨k', hk', hmade'⟩ :=
      hk.step (hfile op (by simp)) (hcarries op (by simp)) hempty horder hte
    refine ⟨k', hk', fun hzero hmem => ?_⟩
    obtain ⟨hzero, hne⟩ := hmade' hzero
    rcases List.mem_append.mp hmem with hmem | hmem
    · exact hmade hzero hmem
    · exact hne (List.mem_singleton.mp hmem).symm

/-- In every run of calls on one file that carry lines, whose flushes leave nothing behind and append
in order, the lines written are read back. -/
theorem read_back {f : Name} {ops : List Op} (hmade : .mknod f ∈ ops)
    (hfile : ∀ op ∈ ops, op.file = f) {linesOf : Op → List Line}
    (hcarries : ∀ op ∈ ops, op.Carries (linesOf op))
    (hsize : ((bytesOf (ops.flatMap linesOf)).length + (ops.flatMap linesOf).length : ℤ) ≤ INT_MAX)
    (hclean : Each step (fun s op => FlushesEmpty s op ∧ FlushesInOrder s op) Fs.init ops) {s : Fs}
    (hrun : run step Fs.init ops = some s) : ReadsBack s f (ops.flatMap linesOf) := by
  obtain ⟨k, hk, hnone⟩ := onlyFile_run hfile hcarries hclean hrun
  have hpos : 0 < k := Nat.pos_of_ne_zero fun hzero => hnone hzero hmade
  obtain ⟨v, hv, hstores⟩ := hk.stores 0 hpos
  obtain ⟨text, hlines, hsame, hout⟩ := hstores.output hsize
  have hname := (hk.name 0 hpos).1
  refine ⟨fun buf size offset stack s' out hop => ?_, text.length, fun buf size offset stack hbuf _ => ?_⟩
  · obtain ⟨i, hi, -, hread⟩ := hk.tidy.read hop
    obtain rfl : i = 0 := by have := hk.one; omega
    rw [hsame buf out (hread v hv), hlines]
  · rw [hk.tidy.reads hpos hname hv (hout buf hbuf)]
    rfl

/-- A line of 97 bytes. -/
def longLine : Line :=
  marchLine march17.stamp "File Not Found File Not Found File Not Found File Not Found Fi"

/-- A line of the next day, as long as lines can be. -/
def fullLine : Line where
  level := march18.level
  stamp := march18.stamp
  text := List.replicate 163 'x'
  level_ne := march18.level_ne
  level_noBar := march18.level_noBar
  level_clean := march18.level_clean
  text_clean := by decide
  stamp_fits := march18.stamp_fits
  fits := by
    rw [List.length_replicate]
    decide

/-- As many of them as a buffer has room for behind another line. -/
def fullLines : List Line := List.replicate 20 fullLine

/-- The file is created, and lines are written to it. -/
def writesOf (writes : List (List Line × Junk)) : List Op :=
  .mknod firstFile ::
    writes.map fun w => .write firstFile (bytesOf w.1 ++ [nul]) { full := w.2 }

/-- Lines of two days are written, then more than there is room for. The byte behind the block is a
newline, so the flush leaves nothing behind. -/
def flushedClean : List Op :=
  writesOf [(march17 :: fullLines, {}), ([march18, march18], { behind := fun _ => '\n' })]

/-- The lines of these writes. -/
def cleanLines : Op → List Line
  | .write _ buf _ =>
    if buf.length < BLOCK_SIZE / 2 then [march18, march18] else march17 :: fullLines
  | _ => []

theorem length_fullLine : fullLine.render.length = 198 := by
  rw [Line.render, fullLine, List.length_append, List.length_cons, List.length_append, List.length_cons,
    List.length_replicate]
  rfl

theorem length_bytesOf_fullLines : (bytesOf (march17 :: fullLines)).length = 4030 := by
  have hfirst : march17.bytes.length = 50 := by decide
  have hline : fullLine.bytes.length = 199 := by
    rw [Line.bytes, List.length_append, length_fullLine]
    rfl
  rw [bytesOf_cons, List.length_append, hfirst, fullLines, bytesOf, List.length_flatMap,
    List.map_replicate, hline, List.sum_replicate, smul_eq_mul]

theorem length_bytesOf_march18 : (bytesOf [march18, march18]).length = 100 := by
  decide

theorem lines_flushedClean :
    flushedClean.map cleanLines = [[], march17 :: fullLines, [march18, march18]] := by
  have hlong : ¬(bytesOf (march17 :: fullLines) ++ [nul]).length < BLOCK_SIZE / 2 := by
    rw [List.length_append, length_bytesOf_fullLines]
    decide
  have hshort : (bytesOf [march18, march18] ++ [nul]).length < BLOCK_SIZE / 2 := by
    rw [List.length_append, length_bytesOf_march18]
    decide
  simp only [flushedClean, writesOf, List.map_cons, List.map_nil, cleanLines]
  rw [if_neg hlong, if_pos hshort]

theorem carries_cleanLines : ∀ op ∈ flushedClean, op.Carries (cleanLines op) := by
  have hbytes : ∀ ls : List Line, cstr (bytesOf ls ++ [nul]) = bytesOf ls :=
    fun ls => cstr_append_nul (nul_notMem_bytesOf ls) []
  have hlines := lines_flushedClean
  simp only [flushedClean, writesOf, List.map_cons, List.map_nil, List.cons.injEq] at hlines
  obtain ⟨hnone, hlong, hshort, -⟩ := hlines
  simp only [flushedClean, writesOf, List.map_cons, List.map_nil, List.forall_mem_cons]
  refine ⟨hnone, ?_, ?_, List.forall_mem_nil _⟩
  · rw [Op.Carries, hlong, hbytes]
  · rw [Op.Carries, hshort, hbytes]

theorem file_flushedClean : ∀ op ∈ flushedClean, op.file = firstFile := by
  simp only [flushedClean, writesOf, List.map_cons, List.map_nil, List.forall_mem_cons]
  exact ⟨rfl, rfl, rfl, List.forall_mem_nil _⟩

/-- The condition on one of these calls. -/
abbrev CleanCall (s : Fs) (op : Op) : Prop :=
  (FlushesEmpty s op ∧ FlushesInOrder s op) ∧ ∀ t ∈ step s op, PathsClean t

theorem full_flushedClean : ∃ s ∈ runChecked step CleanCall Fs.init
    (writesOf [(march17 :: fullLines, {})]),
      FlushesClean firstFile march17 fullLines s ∧ PathsClean s := by
  decide +kernel

theorem flushes_flushedClean : (run step Fs.init flushedClean).isSome ∧
    Each step CleanCall Fs.init flushedClean := by
  obtain ⟨s, hs, hfull, hpaths⟩ := full_flushedClean
  obtain ⟨hrun, heach⟩ := runChecked_eq_some hs
  have hlen := length_bytesOf_fullLines
  have hlast : (lastLine march17 fullLines).length = 198 := by
    rw [show lastLine march17 fullLines = fullLine.render from rfl, length_fullLine]
  have hlen' := length_bytesOf_march18
  have htext : stringAt (bytesOf [march18, march18] ++ [nul]) 0 = some (bytesOf [march18, march18]) :=
    stringAt_append_nul (nul_notMem_bytesOf _) []
  let op : Op :=
    .write firstFile (bytesOf [march18, march18] ++ [nul]) { full := { behind := fun _ => '\n' } }
  obtain ⟨hflush, s', hs', hpaths'⟩ : (FlushesEmpty s op ∧ FlushesInOrder s op) ∧
      ∃ s', step s op = some s' ∧ PathsClean s' := by
    refine hfull.write ?_ htext ?_ ?_ ⟨?_, rfl⟩ hpaths
    · rw [hlen]; decide
    · rw [hlen, hlen']; decide
    · rw [hlen']; decide
    · rw [hlen, hlast]; decide
  have hops : flushedClean = writesOf [(march17 :: fullLines, {})] ++ [op] := rfl
  rw [hops]
  constructor
  · rw [run_snoc, hrun, Option.bind_some, hs']
    rfl
  · refine heach.snoc fun t ht => ?_
    obtain rfl : s = t := Option.some.inj (hrun.symm.trans ht)
    refine ⟨hflush, fun t ht => ?_⟩
    obtain rfl : s' = t := Option.some.inj (hs'.symm.trans ht)
    exact hpaths'

theorem size_flushedClean : ((bytesOf (flushedClean.flatMap cleanLines)).length +
    (flushedClean.flatMap cleanLines).length : ℤ) ≤ INT_MAX := by
  have hlines : (march17 :: fullLines).length = 21 := by
    rw [List.length_cons, fullLines, List.length_replicate]
  rw [List.flatMap_def, lines_flushedClean, List.flatten_cons, List.flatten_cons, List.flatten_cons,
    List.flatten_nil, List.append_nil, List.nil_append, bytesOf_append, List.length_append,
    List.length_append, length_bytesOf_fullLines, length_bytesOf_march18, hlines]
  decide

theorem read_back_flushedClean : (run step Fs.init flushedClean).isSome ∧
    ∀ s, run step Fs.init flushedClean = some s →
      ReadsBack s firstFile (flushedClean.flatMap cleanLines) := by
  obtain ⟨hruns, hclean⟩ := flushes_flushedClean
  refine ⟨hruns, fun s hrun => ?_⟩
  exact read_back List.mem_cons_self file_flushedClean carries_cleanLines size_flushedClean
    (hclean.imp fun _ _ h => h.1) hrun

/-- Two lines are written, then as many as fit in the buffer without the first of them. -/
def overfull : List Op :=
  writesOf [(List.replicate 2 longLine, {}),
    (List.replicate 40 longLine, {})]

/-- The flush leaves the second line in the buffer, and the third is joined to it. -/
theorem not_read_back_overfull : ∃ s, run step Fs.init overfull = some s ∧
    ¬ ReadsBack s firstFile (List.replicate 42 longLine) := by
  have hread : (run step Fs.init overfull).bind (fun s =>
      (lfsRead s firstFile.path (zeros 4220) 0 0 []).map fun r => (nonEmptyLines r.2)[2]?) =
      some (some (longLine.render ++ longLine.render)) := by decide +kernel
  obtain ⟨s, hrun, hread⟩ := Option.bind_eq_some_iff.mp hread
  obtain ⟨⟨s', out⟩, hop, hout⟩ := Option.map_eq_some_iff.mp hread
  refine ⟨s, hrun, fun h => ?_⟩
  rw [h.lines _ _ _ _ _ _ hop, List.map_replicate, List.getElem?_replicate, if_pos (by decide)] at hout
  exact absurd (List.self_eq_append_right.mp (Option.some.inj hout)) (by decide)

/-! ## Ordered timestamps -/

/-- While timestamps are ordered, a flush appends in order. -/
theorem OnlyFile.inOrder (h : OnlyFile f ls k s) (htimed : Timed clock f.chars ls)
    (hfile : op.file = f) (hop : Log.step s op = some s') : FlushesInOrder s op := by
  cases op with
  | write g buf junk =>
    obtain rfl : g = f := hfile
    obtain ⟨⟨t, n⟩, ht, rfl⟩ := Option.map_eq_some_iff.mp hop
    intro j hj hover i hi writes hwrites
    obtain ⟨hlt, hfor⟩ := findMetaDataBlock_some hj
    obtain ⟨i₀, hi₀, hmdata⟩ := h.tidy.target j hlt (CBlock.isFor_iff.mp hfor).1
    rw [hmdata, Option.mem_some_iff] at hi
    subst hi
    obtain rfl : k = 1 := by have := h.one; omega
    obtain rfl : i₀ = 0 := by omega
    have hname := (h.name 0 hi₀).1
    obtain ⟨v, hv, cs, buffered, hstored, htext, hall⟩ := h.stores 0 hi₀
    have hholds := hv.text j ⟨hlt, (CBlock.isFor_iff.mp hfor).1, hmdata⟩
    have hbuf : (s.bufferCache.cblocks j).buf = (blockOf v.text).buf := hholds.buf
    rw [h.tidy.blockSize, chunkWrites_congr hbuf] at hwrites
    cases buffered with
    | nil =>
      -- a text that overfills an empty buffer is not written
      obtain ⟨-, -, m, hm, -, hself, -⟩ := h.tidy.write (h.tidy.keepsApart_one hname) ht
      obtain rfl : m = 0 := by omega
      obtain ⟨v', hv', -⟩ := hself v hv
      obtain ⟨w, -, hv'⟩ := Option.bind_eq_some_iff.mp hv'
      rw [h.tidy.blockSize, hholds.offset, htext] at hover
      simp only [bytesOf_nil, List.length_nil, Nat.zero_add] at hover
      rw [if_neg (by omega)] at hv'
      cases hv'
    | cons l bs =>
      have hlen := hholds.fits
      rw [htext] at hlen hwrites
      rw [chunkWrites_lines junk.full _ rfl hlen, Option.mem_some_iff] at hwrites
      rw [← hwrites, hv.mdata]
      have htimed' : Timed clock v.mdata.fileName (linesIn cs ++ l :: bs) := by
        rwa [hall, ← hv.mdata, hname]
      exact htimed'.inOrder_stored hstored _
  | _ => trivial

/-- In a run of calls on one file that carry lines with ordered timestamps, flushes append in
order. -/
theorem flushesInOrder_of_timed {ops : List Op} {linesOf : Op → List Line}
    (hfile : ∀ op ∈ ops, op.file = f) (hcarries : ∀ op ∈ ops, op.Carries (linesOf op))
    (htimed : Timed clock f.chars (ops.flatMap linesOf))
    (hempty : Each Log.step FlushesEmpty Fs.init ops) (hrun : run Log.step Fs.init ops = some s) :
    Each Log.step FlushesInOrder Fs.init ops := by
  induction ops using List.reverseRecOn generalizing s with
  | nil => exact each_nil
  | append_singleton ops op ih =>
    rw [run_snoc] at hrun
    obtain ⟨t, ht, hte⟩ := Option.bind_eq_some_iff.mp hrun
    rw [List.flatMap_append] at htimed
    have htimed' := htimed.sublist (List.sublist_append_left _ _)
    have hfile' : ∀ o ∈ ops, o.file = f := fun o ho => hfile o (List.mem_append_left _ ho)
    have hcarries' : ∀ o ∈ ops, o.Carries (linesOf o) := fun o ho =>
      hcarries o (List.mem_append_left _ ho)
    have hempty' := hempty.initial (List.prefix_append ops [op])
    have horder := ih hfile' hcarries' htimed' hempty' ht
    obtain ⟨k, hk, -⟩ := onlyFile_run hfile' hcarries' (hempty'.and horder) ht
    refine horder.snoc fun u hu => ?_
    obtain rfl : t = u := by simpa [ht] using hu
    exact hk.inOrder htimed' (hfile op (by simp)) hte

end QuorumLogFs.Log
