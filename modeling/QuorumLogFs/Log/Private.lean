import QuorumLogFs.Log.FileView

/-!
# The file system, file by file

As long as every file's record stays in the metadata cache, the file system is nothing but its files
side by side: what happens to one of them is a run of `FileView.step`, whose writes are the writes to
that file and whose evictions are caused by writes to others. `Tidy` is the invariant of the shared
state and `Shows` relates it to the view of one file; each operation preserves both.

A flush may append only to chunk files that are new or its record's own (`OwnsTargets`); otherwise
two files would share a chunk file.
-/

namespace QuorumLogFs.Log

open QuorumLogFs.Basis

/-- The write buffer holds this text and zeros behind it. -/
structure CBlock.Holds (b : CBlock) (text : List Char) : Prop where
  noNul : nul ∉ text
  fits : text.length < BLOCK_SIZE
  buf : b.buf = padded BLOCK_SIZE text
  offset : b.offset = text.length

/-- Block `j` is allocated and points to record `i`. -/
structure Cache.Uses (c : Cache) (j i : ℕ) : Prop where
  lt : j < c.numBlocks
  allocated : (c.cblocks j).freeFlag = false
  mdata : (c.cblocks j).mdata = some i

/-- The shared state when `k` files exist and all their records are in the metadata cache. -/
structure Tidy (k : ℕ) (s : Fs) : Prop where
  blockSize : s.bufferCache.cacheBlockSize = BLOCK_SIZE
  ranked : Ranked s.metaDataCache.numBlocks k fun i => (s.metaDataCache.cblocks i).lruCounter
  owns : ∀ i, (s.metaDataCache.cblocks i).mdata = some i
  inUse : ∀ i, i < s.metaDataCache.numBlocks →
    ((s.metaDataCache.cblocks i).freeFlag = false ↔ i < k)
  names : ∀ i, i < k → ∀ j, j < k → (s.records i).fileName = (s.records j).fileName → i = j
  unused : ∀ i, k ≤ i → s.records i = Mdata.empty
  onDisk : ∀ name, s.mdataFiles name ≠ none ↔ ∃ i, i < k ∧ (s.records i).fileName = name
  target : ∀ j, j < s.bufferCache.numBlocks → (s.bufferCache.cblocks j).freeFlag = false →
    ∃ i, i < k ∧ (s.bufferCache.cblocks j).mdata = some i
  distinct : ∀ i j j', s.bufferCache.Uses j i → s.bufferCache.Uses j' i → j = j'
  holds : ∀ j, j < s.bufferCache.numBlocks → ∃ text, (s.bufferCache.cblocks j).Holds text
  free : ∀ j, j < s.bufferCache.numBlocks → (s.bufferCache.cblocks j).freeFlag = true →
    (s.bufferCache.cblocks j).Holds []
  listed : ∀ i, i < k → Listed (s.records i, s.chunkFiles)
  disjoint : ∀ i, i < k → ∀ j, j < k → ∀ p ∈ (s.records i).paths, p ∈ (s.records j).paths → i = j
  owned : ∀ p, s.chunkFiles p ≠ none → ∃ i, i < k ∧ p ∈ (s.records i).paths

/-- The state shows file `i` as `v`. -/
structure Shows (s : Fs) (i : ℕ) (v : FileView) : Prop where
  mdata : s.records i = v.mdata
  text : ∀ j, s.bufferCache.Uses j i → (s.bufferCache.cblocks j).Holds v.text
  noText : (∀ j, ¬ s.bufferCache.Uses j i) → v.text = []
  chunks : v.chunkFiles = v.mdata.chunks s.chunkFiles

theorem CBlock.Holds.unique {b : CBlock} {text text' : List Char} (h : b.Holds text)
    (h' : b.Holds text') : text = text' := by
  rw [← cstr_padded h.noNul BLOCK_SIZE, ← h.buf, h'.buf, cstr_padded h'.noNul]

theorem CBlock.Holds.stringAt {b : CBlock} {text : List Char} (h : b.Holds text) :
    stringAt b.buf 0 = some text := by
  rw [h.buf]
  exact stringAt_padded_zero h.noNul h.fits

section

variable {k i j : ℕ} {s s' t : Fs} {v : FileView} {f : Name}
  {stack text : List Char}

theorem tidy_init : Tidy 0 Fs.init where
  blockSize := rfl
  ranked := ranked_zero _
  owns _ := rfl
  inUse i _ := by simp [Fs.init, createCache, initCacheBlock]
  names i hi := absurd hi (Nat.not_lt_zero i)
  unused _ _ := rfl
  onDisk name := by simp [Fs.init]
  target j _ hfree := by cases hfree
  distinct i j j' h := by cases h.allocated
  holds j _ := ⟨[], List.not_mem_nil, by decide, (padded_nil _).symm, rfl⟩
  free j _ _ := ⟨List.not_mem_nil, by decide, (padded_nil _).symm, rfl⟩
  listed i hi := absurd hi (Nat.not_lt_zero i)
  disjoint i hi := absurd hi (Nat.not_lt_zero i)
  owned p hp := absurd rfl hp

/-- The record of a file that exists is found. -/
theorem Tidy.findMetaDataBlock (h : Tidy k s) (hi : i < k) :
    findMetaDataBlock s.records s.metaDataCache (s.records i).fileName = some i := by
  have hin : i < s.metaDataCache.numBlocks := hi.trans_le h.ranked.le
  refine findMetaDataBlock_eq hin ?_ fun m hm hfor => ?_
  · exact CBlock.isFor_iff.mpr ⟨(h.inUse i hin).mpr hi, i, h.owns i, rfl⟩
  · obtain ⟨hfree, m', hm', hname⟩ := CBlock.isFor_iff.mp hfor
    rw [h.owns, Option.mem_some_iff] at hm'
    exact h.names m ((h.inUse m hm).mp hfree) i hi (hm' ▸ hname)

/-- The write buffer of a file is found. -/
theorem Tidy.findBuffer (h : Tidy k s) (hi : i < k) (hj : s.bufferCache.Uses j i) :
    Log.findMetaDataBlock s.records s.bufferCache (s.records i).fileName = some j := by
  refine findMetaDataBlock_eq hj.lt ?_ fun m hm hfor => ?_
  · exact CBlock.isFor_iff.mpr ⟨hj.allocated, i, hj.mdata, rfl⟩
  · obtain ⟨hfree, i', hi', hname⟩ := CBlock.isFor_iff.mp hfor
    obtain ⟨i'', hi'', hmdata⟩ := h.target m hm hfree
    obtain rfl : i'' = i' := by simpa [hmdata] using hi'
    obtain rfl := h.names i'' hi'' i hi hname
    exact h.distinct i'' m j ⟨hm, hfree, hmdata⟩ hj

/-- What is found is the write buffer of the file. -/
theorem Tidy.uses_of_findBuffer (h : Tidy k s) (hi : i < k)
    (hfind : Log.findMetaDataBlock s.records s.bufferCache (s.records i).fileName = some j) :
    s.bufferCache.Uses j i := by
  obtain ⟨hj, hfor⟩ := findMetaDataBlock_some hfind
  obtain ⟨hfree, i', hi', hname⟩ := CBlock.isFor_iff.mp hfor
  obtain ⟨i'', hi'', hmdata⟩ := h.target j hj hfree
  obtain rfl : i'' = i' := by simpa [hmdata] using hi'
  obtain rfl := h.names i'' hi'' i hi hname
  exact ⟨hj, hfree, hmdata⟩

theorem Tidy.not_uses_of_findBuffer (h : Tidy k s) (hi : i < k)
    (hfind : Log.findMetaDataBlock s.records s.bufferCache (s.records i).fileName = none) :
    ¬ s.bufferCache.Uses j i := by
  intro hj
  rw [h.findBuffer hi hj] at hfind
  cases hfind

/-! ## Counters -/

/-- Using a record again changes nothing that matters. -/
theorem Tidy.touch (h : Tidy k s) (hi : i < k) :
    Tidy k { s with metaDataCache := updateLru s.metaDataCache i } :=
  { h with ranked := h.ranked.touch_used hi }

theorem Shows.touch (h : Shows s j v) :
    Shows { s with metaDataCache := updateLru s.metaDataCache i } j v :=
  ⟨h.mdata, h.text, h.noText, h.chunks⟩

/-- While all records are in the cache, the record of a file is found there. -/
theorem Tidy.metaDataBlock (h : Tidy k s)
    (hop : metaDataBlock s f.path stack = some (s', i)) :
    i < k ∧ (s.records i).fileName = f.chars ∧
      s' = { s with metaDataCache := updateLru s.metaDataCache i } := by
  have hknown : ∀ m, m < k → (s.records m).fileName = f.chars →
      Log.findMetaDataBlock s.records s.metaDataCache f.chars = some m :=
    fun m hm hname => hname ▸ h.findMetaDataBlock hm
  have hdisk : s.mdataFiles f.chars ≠ none →
      Log.findMetaDataBlock s.records s.metaDataCache f.chars ≠ none := by
    intro hne
    obtain ⟨m, hm, hname⟩ := (h.onDisk f.chars).mp hne
    simp [hknown m hm hname]
  cases hfind : Log.findMetaDataBlock s.records s.metaDataCache f.chars with
  | some m =>
    rw [metaDataBlock_found hfind] at hop
    obtain ⟨rfl, rfl⟩ := Prod.mk.inj (Option.some.inj hop)
    obtain ⟨hm, hfor⟩ := findMetaDataBlock_some hfind
    obtain ⟨hfree, m', hm', hname⟩ := CBlock.isFor_iff.mp hfor
    rw [h.owns, Option.mem_some_iff] at hm'
    exact ⟨(h.inUse m hm).mp hfree, hm' ▸ hname, rfl⟩
  | none =>
    -- otherwise its metadata file would have to be on disk
    rw [metaDataBlock_reload hfind] at hop
    obtain ⟨files, bytes, buf, mdata, -, -, hfiles, hbytes, -⟩ := mdataFromDiskToMemory_eq_some hop
    rw [Name.tail_path] at hbytes
    rcases hfiles with rfl | ⟨-, hwrite⟩
    · exact absurd hfind (hdisk (by simp [hbytes]))
    · have hne : files f.chars ≠ none := by simp [hbytes]
      rcases (writeMetadataToDisk_ne_none hwrite).mp hne with hname | hne
      · by_cases hik : i < k
        · simp [hknown i hik hname.symm] at hfind
        · rw [h.unused i (not_lt.mp hik)] at hname
          exact absurd hname f.ne_nil
      · exact absurd hfind (hdisk hne)

/-! ## A new file -/

theorem Tidy.mknod (h : Tidy k s) {code : ℤ}
    (hfresh : s.mdataFiles (recordName f.chars) = none) (hroom : k < s.metaDataCache.numBlocks)
    (hop : lfsMknod s f.path = some (s', code)) :
    Tidy (k + 1) s' ∧ Shows s' k (.fresh (recordName f.chars)) ∧
      ∀ i, i < k → ∀ v, Shows s i v → Shows s' i v := by
  obtain ⟨i, files, hvictim, hfiles, rfl⟩ := lfsMknod_eq_some hop
  obtain rfl : k = i := by simpa [h.ranked.victim_unused hroom] using hvictim
  have hnew : ∀ i, i < k → (s.records i).fileName ≠ recordName f.chars := fun i hi hname =>
    (h.onDisk (recordName f.chars)).mpr ⟨i, hi, hname⟩ hfresh
  -- the new record, and the old ones
  generalize hm : (s.records k).named f.path.tail = m at hfiles ⊢
  have hm' : m = (FileView.fresh (recordName f.chars)).mdata := by
    rw [← hm, h.unused k le_rfl]
    rfl
  have hself : Function.update s.records k m k = m := Function.update_self ..
  have hold : ∀ i, i ≠ k → Function.update s.records k m i = s.records i :=
    fun i hi => Function.update_of_ne hi ..
  have hname : m.fileName = recordName f.chars := by rw [hm']; rfl
  refine ⟨{ h with ranked := ?_, owns := ?_, inUse := ?_, names := ?_, unused := ?_, onDisk := ?_
                   target := ?_, listed := ?_, disjoint := ?_, owned := ?_ },
    ⟨hself.trans hm', ?_, fun _ => rfl, rfl⟩,
    fun i hi v hv => ⟨(hold i hi.ne).trans hv.mdata, hv.text, hv.noText, hv.chunks⟩⟩
  · have htouch := h.ranked.touch_unused hroom
    simpa only [updateLru, take_lruCounter, take_numBlocks] using htouch
  · exact fun i => by simpa using h.owns i
  · intro i hi
    rw [updateLru_freeFlag, take_freeFlag, h.inUse i hi]
    omega
  · intro i hi j hj hij
    change (Function.update s.records k m i).fileName = (Function.update s.records k m j).fileName
      at hij
    by_cases hik : i = k <;> by_cases hjk : j = k
    · omega
    · rw [hik, hself, hold j hjk, hname] at hij
      exact absurd hij.symm (hnew j (by omega))
    · rw [hjk, hself, hold i hik, hname] at hij
      exact absurd hij (hnew i (by omega))
    · rw [hold i hik, hold j hjk] at hij
      exact h.names i (by omega) j (by omega) hij
  · exact fun i hi => (hold i (by omega)).trans (h.unused i (by omega))
  · intro name
    rw [writeMetadataToDisk_ne_none hfiles, h.onDisk, hname]
    constructor
    · rintro (rfl | ⟨i, hi, rfl⟩)
      · exact ⟨k, by omega, (congrArg Mdata.fileName hself).trans hname⟩
      · exact ⟨i, by omega, congrArg Mdata.fileName (hold i hi.ne)⟩
    · rintro ⟨i, hi, rfl⟩
      by_cases hik : i = k
      · exact Or.inl (by rw [hik]; exact (congrArg Mdata.fileName hself).trans hname)
      · exact Or.inr ⟨i, by omega, congrArg Mdata.fileName (hold i hik).symm⟩
  · intro j hj hfree
    obtain ⟨i, hi, hmdata⟩ := h.target j hj hfree
    exact ⟨i, by omega, hmdata⟩
  · intro i hi p hp
    change p ∈ (Function.update s.records k m i).paths at hp
    by_cases hik : i = k
    · rw [hik, hself, hm'] at hp
      cases hp
    · rw [hold i hik] at hp
      exact h.listed i (by omega) p hp
  · intro i hi j hj p hpi hpj
    change p ∈ (Function.update s.records k m i).paths at hpi
    change p ∈ (Function.update s.records k m j).paths at hpj
    by_cases hik : i = k
    · rw [hik, hself, hm'] at hpi
      cases hpi
    · by_cases hjk : j = k
      · rw [hjk, hself, hm'] at hpj
        cases hpj
      · rw [hold i hik] at hpi
        rw [hold j hjk] at hpj
        exact h.disjoint i (by omega) j (by omega) p hpi hpj
  · intro p hp
    obtain ⟨i, hi, hpi⟩ := h.owned p hp
    exact ⟨i, by omega, by show p ∈ (Function.update s.records k m i).paths; rwa [hold i hi.ne]⟩
  · intro j hj
    obtain ⟨i, hi, hmdata⟩ := h.target j hj.lt hj.allocated
    rw [hj.mdata, Option.some.injEq] at hmdata
    omega

/-! ## A flush -/

/-- The flush of write buffer `j` appends only to chunk files that are new or its record's own. -/
def OwnsTargets (s : Fs) (j : ℕ) (junk : Junk) : Prop :=
  ∀ i ∈ (s.bufferCache.cblocks j).mdata,
    ∀ writes ∈ chunkWrites junk CHUNK_PATH (s.records i).fileName (s.bufferCache.cblocks j)
      s.bufferCache.cacheBlockSize, OwnChunks (s.records i, s.chunkFiles) writes

/-- A flush of any buffer: the appends that it notes, and what remains. -/
theorem flushBlock_writes {junk : Junk} (hsize : s.bufferCache.cacheBlockSize = BLOCK_SIZE)
    (hj : (s.bufferCache.cblocks j).mdata = some i) (hop : flushBlock s j junk = some s') :
    ∃ writes d files,
      chunkWrites junk CHUNK_PATH (s.records i).fileName (s.bufferCache.cblocks j) BLOCK_SIZE =
        some writes ∧
      (remaining junk BLOCK_SIZE (s.bufferCache.cblocks j).buf).length < BLOCK_SIZE ∧
      appendAll appendChunk writes (s.records i, s.chunkFiles) = some d ∧
      writeMetadataToDisk d.1 s.mdataFiles = some files ∧
      s' = { s with
        bufferCache := s.bufferCache.set j { s.bufferCache.cblocks j with
          buf := padded BLOCK_SIZE (remaining junk BLOCK_SIZE (s.bufferCache.cblocks j).buf)
          offset := (remaining junk BLOCK_SIZE (s.bufferCache.cblocks j).buf).length }
        records := Function.update s.records i d.1
        chunkFiles := d.2
        mdataFiles := files } := by
  obtain ⟨i', block, mdata, chunks, files, hi', hflush, hfiles, rfl⟩ := flushBlock_eq_some hop
  obtain rfl : i = i' := by simpa [hj] using hi'
  rw [hsize] at hflush
  have hlen := (flushBuffer_remaining BLOCK_SIZE_pos hflush).1
  rw [writeBufferToDisk_eq junk CHUNK_PATH _ BLOCK_SIZE_pos] at hflush
  obtain ⟨writes, hwrites, hflush⟩ := Option.bind_eq_some_iff.mp hflush
  obtain ⟨d, hd, heq⟩ := Option.map_eq_some_iff.mp hflush
  obtain ⟨rfl, rfl⟩ := Prod.mk.inj heq
  exact ⟨writes, (mdata, chunks), files, hwrites, hlen, hd, hfiles, rfl⟩

theorem Fs.Framed.uses (h : s.Framed s') (j i : ℕ) :
    s'.bufferCache.Uses j i ↔ s.bufferCache.Uses j i := by
  constructor
  · rintro ⟨hlt, hal, hm⟩
    exact ⟨h.numBlocks ▸ hlt, h.freeFlag j ▸ hal, h.mdata j ▸ hm⟩
  · rintro ⟨hlt, hal, hm⟩
    exact ⟨h.numBlocks ▸ hlt, by rw [h.freeFlag, hal], by rw [h.mdata, hm]⟩

/-- A flush: tidy, and the file moves as on its own while the others stay. -/
theorem Tidy.flush (h : Tidy k s) {junk : Junk} (hi : i < k) (hj : s.bufferCache.Uses j i)
    (hown : OwnsTargets s j junk) (hop : flushBlock s j junk = some s') {rest : List Char}
    (hrest : remaining junk BLOCK_SIZE (s.bufferCache.cblocks j).buf = rest) :
    Tidy k s' ∧ s'.bufferCache.Uses j i ∧ (s'.bufferCache.cblocks j).Holds rest ∧
      (∀ v, Shows s i v → ∃ v', v.flush junk = some v' ∧ v'.text = rest ∧ Shows s' i v') ∧
      ∀ i', i' < k → i' ≠ i → ∀ v, Shows s i' v → Shows s' i' v := by
  have hs := flushBlock_framed hop
  obtain ⟨writes, d, files, hwrites, hlen, hd, hfiles, rfl⟩ := flushBlock_writes h.blockSize hj.mdata hop
  rw [hrest] at hs hlen ⊢
  have hlisted := h.listed i hi
  obtain ⟨happ, hprivate⟩ := appendAll_own hd hlisted (hown i hj.mdata writes (h.blockSize ▸ hwrites))
  have hself : Function.update s.records i d.1 i = d.1 := Function.update_self ..
  have hold : ∀ m, m ≠ i → Function.update s.records i d.1 m = s.records m :=
    fun m hm => Function.update_of_ne hm ..
  have hnames : ∀ m, (Function.update s.records i d.1 m).fileName = (s.records m).fileName :=
    hs.fileName
  have hblock : ∀ m, m ≠ j → (s.bufferCache.set j { s.bufferCache.cblocks j with
      buf := padded BLOCK_SIZE rest, offset := rest.length }).cblocks m = s.bufferCache.cblocks m :=
    fun m hm => Cache.cblocks_set_of_ne _ hm _
  have hkept : ((s.bufferCache.set j { s.bufferCache.cblocks j with
      buf := padded BLOCK_SIZE rest, offset := rest.length }).cblocks j).Holds rest := by
    rw [Cache.cblocks_set_self]
    exact ⟨hrest ▸ nul_notMem_remaining _ _ _, hlen, rfl, rfl⟩
  -- the chunk files of another file are not touched
  have hother : ∀ m, m < k → m ≠ i → ∀ p ∈ (s.records m).paths, p ∉ d.1.paths := by
    intro m hm hmi p hp hpd
    rcases happ.fresh p hpd with hpi | hnone
    · exact hmi (h.disjoint m hm i hi p hp hpi)
    · exact h.listed m hm p hp hnone
  refine ⟨{ h with names := ?_, unused := ?_, onDisk := ?_, target := ?_, distinct := ?_
                   holds := ?_, free := ?_, listed := ?_, disjoint := ?_, owned := ?_ },
    (hs.uses j i).mpr hj, hkept, ?_, ?_⟩
  · intro m hm m' hm' heq
    rw [hs.fileName, hs.fileName] at heq
    exact h.names m hm m' hm' heq
  · exact fun m hm => (hold m (by omega)).trans (h.unused m hm)
  · intro name
    rw [writeMetadataToDisk_ne_none hfiles, h.onDisk, happ.fileName]
    simp only [hnames]
    exact or_iff_right_of_imp fun hn : name = _ => ⟨i, hi, hn.symm⟩
  · intro m hm hfree
    rw [hs.freeFlag] at hfree
    rw [hs.mdata]
    exact h.target m hm hfree
  · exact fun m j₁ j₂ h₁ h₂ => h.distinct m j₁ j₂ ((hs.uses _ _).mp h₁) ((hs.uses _ _).mp h₂)
  · intro m hm
    by_cases hmj : m = j
    · exact ⟨rest, hmj ▸ hkept⟩
    · rw [hblock m hmj]
      exact h.holds m hm
  · intro m hm hfree
    have hmj : m ≠ j := by
      rintro rfl
      rw [hs.freeFlag, hj.allocated] at hfree
      cases hfree
    rw [hblock m hmj] at hfree ⊢
    exact h.free m hm hfree
  · intro m hm
    show Listed (Function.update s.records i d.1 m, d.2)
    by_cases hmi : m = i
    · rw [hmi, hself]
      exact happ.listed
    · rw [hold m hmi]
      intro p hp
      show d.2 p ≠ none
      rw [happ.others p (hother m hm hmi p hp)]
      exact h.listed m hm p hp
  · intro m hm m' hm' p hp hp'
    change p ∈ (Function.update s.records i d.1 m).paths at hp
    change p ∈ (Function.update s.records i d.1 m').paths at hp'
    by_cases hmi : m = i <;> by_cases hmi' : m' = i
    · rw [hmi, hmi']
    · rw [hmi, hself] at hp
      rw [hold m' hmi'] at hp'
      exact absurd hp (hother m' hm' hmi' p hp')
    · rw [hmi', hself] at hp'
      rw [hold m hmi] at hp
      exact absurd hp' (hother m hm hmi p hp)
    · rw [hold m hmi] at hp
      rw [hold m' hmi'] at hp'
      exact h.disjoint m hm m' hm' p hp hp'
  · intro p hp
    change d.2 p ≠ none at hp
    by_cases hpd : p ∈ d.1.paths
    · exact ⟨i, hi, by show p ∈ (Function.update s.records i d.1 i).paths; rwa [hself]⟩
    · rw [happ.others p hpd] at hp
      obtain ⟨m, hm, hpm⟩ := h.owned p hp
      by_cases hmi : m = i
      · exact absurd (happ.kept p (hmi ▸ hpm)) hpd
      · exact ⟨m, hm, by show p ∈ (Function.update s.records i d.1 m).paths; rwa [hold m hmi]⟩
  · -- the file itself: its own chunk files are all that the appends read
    intro v hv
    obtain ⟨text, hholds⟩ := h.holds j hj.lt
    have htext : v.text = text := (hv.text j hj).unique hholds
    have hbuf : (blockOf v.text).buf = (s.bufferCache.cblocks j).buf := by
      rw [hholds.buf, htext]
      rfl
    refine ⟨⟨d.1, rest, d.1.chunks d.2⟩, ?_, rfl, hself, fun m hm => ?_, fun hm => ?_, rfl⟩
    · rw [FileView.flush_eq, hv.chunks, ← hv.mdata, chunkWrites_congr hbuf, hwrites,
        Option.bind_some, hprivate, Option.map_some, ← hrest, ← hbuf]
      rfl
    · obtain rfl := h.distinct i m j ((hs.uses m i).mp hm) hj
      exact hkept
    · exact absurd ((hs.uses j i).mpr hj) (hm j)
  · -- another file: neither its buffer nor its chunk files are touched
    intro i' hi' hne v hv
    refine ⟨(hold i' hne).trans hv.mdata, fun m hm => ?_, fun hm => ?_, ?_⟩
    · have hm' := (hs.uses m i').mp hm
      have hmj : m ≠ j := by
        rintro rfl
        exact hne (Option.some.inj (hm'.mdata.symm.trans hj.mdata))
      rw [hblock m hmj]
      exact hv.text m hm'
    · exact hv.noText fun m hm' => hm m ((hs.uses m i').mpr hm')
    · rw [hv.chunks]
      funext p
      show (if p ∈ v.mdata.paths then s.chunkFiles p else none) =
        if p ∈ v.mdata.paths then d.2 p else none
      by_cases hp : p ∈ v.mdata.paths
      · rw [if_pos hp, if_pos hp, happ.others p (hother i' hi' hne p (hv.mdata ▸ hp))]
      · rw [if_neg hp, if_neg hp]

/-! ## A write buffer changes hands -/

/-- Allocate write buffer `j` for record `i`. -/
def Fs.give (s : Fs) (j i : ℕ) : Fs :=
  { s with
    bufferCache := s.bufferCache.set j
      { s.bufferCache.cblocks j with freeFlag := false, mdata := some i } }

theorem assign_take (s : Fs) (j i : ℕ) :
    ({ s with bufferCache := s.bufferCache.take j } : Fs).assign j (some i) = s.give j i := by
  unfold Fs.assign Fs.give Cache.take Cache.set
  simp only [Function.update_self, Function.update_idem]

theorem take_eq_self {c : Cache} (h : (c.cblocks j).freeFlag = false) : c.take j = c := by
  have hblock : { c.cblocks j with freeFlag := false } = c.cblocks j := by rw [← h]
  unfold Cache.take Cache.set
  rw [hblock, Function.update_eq_self]

theorem assign_eq_give (h : (s.bufferCache.cblocks j).freeFlag = false) :
    s.assign j (some i) = s.give j i := by
  rw [← assign_take, take_eq_self h]

theorem uses_give (hj : j < s.bufferCache.numBlocks) (m i' : ℕ) :
    (s.give j i).bufferCache.Uses m i' ↔ m = j ∧ i' = i ∨ m ≠ j ∧ s.bufferCache.Uses m i' := by
  by_cases hm : m = j
  · subst hm
    simp only [true_and, ne_eq, not_true_eq_false, false_and, or_false]
    constructor
    · rintro ⟨-, -, hmdata⟩
      rw [Fs.give, Cache.cblocks_set_self] at hmdata
      exact (Option.some.inj hmdata).symm
    · rintro rfl
      exact ⟨hj, by rw [Fs.give, Cache.cblocks_set_self], by rw [Fs.give, Cache.cblocks_set_self]⟩
  · have hblock : (s.give j i).bufferCache.cblocks m = s.bufferCache.cblocks m :=
      Cache.cblocks_set_of_ne _ hm _
    simp only [hm, false_and, ne_eq, not_false_eq_true, true_and, false_or]
    constructor
    · rintro ⟨hlt, hal, hmdata⟩
      exact ⟨hlt, hblock ▸ hal, hblock ▸ hmdata⟩
    · rintro ⟨hlt, hal, hmdata⟩
      exact ⟨hlt, by rw [hblock, hal], by rw [hblock, hmdata]⟩

theorem holds_give {text : List Char} (h : (s.bufferCache.cblocks j).Holds text) (i : ℕ) :
    ((s.give j i).bufferCache.cblocks j).Holds text := by
  rw [Fs.give, Cache.cblocks_set_self]
  exact ⟨h.noNul, h.fits, h.buf, h.offset⟩

/-- An empty write buffer can be given to a file that has none. -/
theorem Tidy.give (h : Tidy k s) (hi : i < k) (hj : j < s.bufferCache.numBlocks)
    (hempty : (s.bufferCache.cblocks j).Holds []) (hnone : ∀ m, ¬ s.bufferCache.Uses m i) :
    Tidy k (s.give j i) ∧ (s.give j i).bufferCache.Uses j i ∧
      ∀ i' v, Shows s i' v → Shows (s.give j i) i' v := by
  have hself := holds_give hempty i
  have hold : ∀ m, m ≠ j → (s.give j i).bufferCache.cblocks m = s.bufferCache.cblocks m :=
    fun m hm => Cache.cblocks_set_of_ne _ hm _
  refine ⟨{ h with target := ?_, distinct := ?_, holds := ?_, free := ?_ },
    (uses_give hj j i).mpr (Or.inl ⟨rfl, rfl⟩), fun i' v hv => ⟨hv.mdata, ?_, ?_, hv.chunks⟩⟩
  · intro m hm hfree
    by_cases hmj : m = j
    · rw [hmj]
      exact ⟨i, hi, by rw [Fs.give, Cache.cblocks_set_self]⟩
    · rw [hold m hmj] at hfree ⊢
      exact h.target m hm hfree
  · intro i' m m' hm hm'
    rcases (uses_give hj m i').mp hm with ⟨rfl, rfl⟩ | ⟨-, hmi⟩ <;>
      rcases (uses_give hj m' _).mp hm' with ⟨rfl, hi'⟩ | ⟨-, hmi'⟩
    · rfl
    · exact absurd hmi' (hnone m')
    · exact absurd (hi' ▸ hmi) (hnone m)
    · exact h.distinct i' m m' hmi hmi'
  · intro m hm
    by_cases hmj : m = j
    · exact ⟨[], hmj ▸ hself⟩
    · rw [hold m hmj]
      exact h.holds m hm
  · intro m hm hfree
    by_cases hmj : m = j
    · exact hmj ▸ hself
    · rw [hold m hmj] at hfree ⊢
      exact h.free m hm hfree
  · -- the text of a file that gets the buffer, or that had it, is empty
    intro m hm
    rcases (uses_give hj m i').mp hm with ⟨rfl, rfl⟩ | ⟨hmj, hmi⟩
    · rw [hv.noText hnone]
      exact hself
    · rw [hold m hmj]
      exact hv.text m hmi
  · intro hnot
    by_cases hused : s.bufferCache.Uses j i'
    · exact (hv.text j hused).unique hempty
    · refine hv.noText fun m hm => ?_
      by_cases hmj : m = j
      · exact hused (hmj ▸ hm)
      · exact hnot m ((uses_give hj m i').mpr (Or.inr ⟨hmj, hm⟩))

/-! ## Appending a text -/

/-- Appending to a block that holds a text lengthens it and leaves the other blocks as they are. -/
theorem appendText_holds {old : List Char} (hold : (s.bufferCache.cblocks j).Holds old)
    (hnul : nul ∉ text) (hop : appendText s j text = some s') :
    old.length + text.length < BLOCK_SIZE ∧ (s'.bufferCache.cblocks j).Holds (old ++ text) ∧
      ∀ m, m ≠ j → ∀ text', (s.bufferCache.cblocks m).Holds text' →
        (s'.bufferCache.cblocks m).Holds text' := by
  obtain ⟨buf, hbuf, rfl⟩ := Option.map_eq_some_iff.mp hop
  rw [hold.buf, strcat_padded hold.noNul hold.fits.le] at hbuf
  split at hbuf
  · rename_i hfits
    obtain rfl := Option.some.inj hbuf
    refine ⟨hfits, ?_, fun m hm text' hholds => ?_⟩
    · rw [Cache.cblocks_set_self]
      refine ⟨fun hmem => (List.mem_append.mp hmem).elim hold.noNul hnul, ?_, rfl, ?_⟩
      · rwa [List.length_append]
      · rw [List.length_append, ← hold.offset]
    · rw [Cache.cblocks_set_of_ne _ hm]
      exact ⟨hholds.noNul, hholds.fits, hholds.buf, hholds.offset⟩
  · cases hbuf

theorem Tidy.appendText (h : Tidy k s) (hj : s.bufferCache.Uses j i) {old : List Char}
    (hold : (s.bufferCache.cblocks j).Holds old) (hnul : nul ∉ text)
    (hop : appendText s j text = some s') :
    old.length + text.length < BLOCK_SIZE ∧ Tidy k s' ∧
      (∀ v, Shows s i v → v.text = old ∧ Shows s' i { v with text := old ++ text }) ∧
      ∀ i', i' ≠ i → ∀ v, Shows s i' v → Shows s' i' v := by
  have hs := appendText_framed hop
  -- block `j` holds the longer text, the other blocks what they held
  obtain ⟨hfits, hself, hother⟩ := appendText_holds hold hnul hop
  obtain ⟨buf, -, rfl⟩ := Option.map_eq_some_iff.mp hop
  refine ⟨hfits, { h with target := ?_, distinct := ?_, holds := ?_, free := ?_ }, ?_, ?_⟩
  · intro m hm hfree
    rw [hs.freeFlag] at hfree
    rw [hs.mdata]
    exact h.target m hm hfree
  · exact fun m j₁ j₂ h₁ h₂ => h.distinct m j₁ j₂ ((hs.uses _ _).mp h₁) ((hs.uses _ _).mp h₂)
  · intro m hm
    by_cases hmj : m = j
    · exact ⟨old ++ text, hmj ▸ hself⟩
    · obtain ⟨text', hholds⟩ := h.holds m hm
      exact ⟨text', hother m hmj text' hholds⟩
  · intro m hm hfree
    have hmj : m ≠ j := by
      rintro rfl
      rw [hs.freeFlag, hj.allocated] at hfree
      cases hfree
    rw [hs.freeFlag] at hfree
    exact hother m hmj [] (h.free m hm hfree)
  · intro v hv
    refine ⟨(hv.text j hj).unique hold, hv.mdata, fun m hm => ?_, fun hm => ?_, hv.chunks⟩
    · obtain rfl := h.distinct i m j ((hs.uses m i).mp hm) hj
      exact hself
    · exact absurd ((hs.uses j i).mpr hj) (hm j)
  · intro i' hne v hv
    refine ⟨hv.mdata, fun m hm => ?_, fun hm => ?_, hv.chunks⟩
    · have hm' := (hs.uses m i').mp hm
      have hmj : m ≠ j := by
        rintro rfl
        exact hne (Option.some.inj (hm'.mdata.symm.trans hj.mdata))
      exact hother m hmj _ (hv.text m hm')
    · exact hv.noText fun m hm' => hm m ((hs.uses m i').mpr hm')

theorem appendText_length (hop : appendText s j text = some s') :
    text.length < (s.bufferCache.cblocks j).buf.length := by
  obtain ⟨buf, hbuf, -⟩ := Option.map_eq_some_iff.mp hop
  unfold strcat at hbuf
  split at hbuf
  · omega
  · cases hbuf

theorem flushBlock_length {junk : Junk} (hop : flushBlock s j junk = some s') :
    (s'.bufferCache.cblocks j).buf.length = s.bufferCache.cacheBlockSize := by
  obtain ⟨_, _, _, _, _, _, hflush, -, rfl⟩ := flushBlock_eq_some hop
  rw [Cache.cblocks_set_self]
  exact (writeBufferToDisk_frame hflush).2.2.2.1

/-- Making room for a text and appending it is a write to the file on its own. -/
theorem Tidy.fill (h : Tidy k s) {junk : Junk} (hi : i < k) (hj : s.bufferCache.Uses j i)
    (hnul : nul ∉ text)
    (hown : s.bufferCache.cacheBlockSize < (s.bufferCache.cblocks j).offset + text.length →
      OwnsTargets s j junk)
    (hroom : makeRoom s j text junk = some t) (happend : Log.appendText t j text = some s') :
    Tidy k s' ∧
      (∀ v, Shows s i v → ∃ v', v.step (.write text junk) = some v' ∧ Shows s' i v') ∧
      ∀ i', i' < k → i' ≠ i → ∀ v, Shows s i' v → Shows s' i' v := by
  obtain ⟨old, hold⟩ := h.holds j hj.lt
  -- the state after making room, in terms of what the block then holds
  obtain ⟨rest, htidy, huses, hrest, hself, hother⟩ : ∃ rest, Tidy k t ∧ t.bufferCache.Uses j i ∧
      (t.bufferCache.cblocks j).Holds rest ∧
      (∀ v, Shows s i v → ∃ v', v.room text junk = some v' ∧ v'.text = rest ∧ Shows t i v') ∧
      ∀ i', i' < k → i' ≠ i → ∀ v, Shows s i' v → Shows t i' v := by
    have hfull : ∀ v, Shows s i v →
        (BLOCK_SIZE < v.text.length + text.length ↔
          s.bufferCache.cacheBlockSize < (s.bufferCache.cblocks j).offset + text.length) := by
      intro v hv
      rw [(hv.text j hj).offset, h.blockSize]
    unfold makeRoom at hroom
    split at hroom
    · rename_i hover
      obtain ⟨htidy, huses, hrest, hself, hother⟩ := h.flush hi hj (hown hover) hroom rfl
      refine ⟨_, htidy, huses, hrest, fun v hv => ?_, hother⟩
      rw [FileView.room, if_pos ((hfull v hv).mpr hover)]
      exact hself v hv
    · rename_i hover
      obtain rfl := Option.some.inj hroom
      refine ⟨old, h, hj, hold, fun v hv => ⟨v, ?_, (hv.text j hj).unique hold, hv⟩,
        fun _ _ _ _ hv => hv⟩
      rw [FileView.room, if_neg (mt (hfull v hv).mp hover)]
  obtain ⟨hfits, htidy', hself', hother'⟩ := htidy.appendText huses hrest hnul happend
  refine ⟨htidy', fun v hv => ?_, fun i' hi' hne v hv => hother' i' hne v (hother i' hi' hne v hv)⟩
  obtain ⟨v', hv', htext, hshows⟩ := hself v hv
  refine ⟨_, ?_, (hself' v' hshows).2⟩
  show (v.room text junk).bind _ = _
  rw [hv', Option.bind_some, if_pos (htext ▸ hfits), htext]

end

end QuorumLogFs.Log
