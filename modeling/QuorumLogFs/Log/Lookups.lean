import QuorumLogFs.Log.Bounds
import QuorumLogFs.Log.Namespace
import QuorumLogFs.Log.WriteThrough

/-!
# Lookups by name

Reference: `find_meta_data_block` in `Cache.c`, `mdata_from_disk_to_memory`, `lfs_mknod` and `lfs_write` in
`lfs_fuse.c`.

`find_meta_data_block` returns the first block of a cache whose record has the name. In the metadata
cache there is at most one, since a name comes in by `lfs_mknod` when it is not on disk, or by a reload
when it is not in the cache. A write buffer finds its name through the record it points to. That may be
renamed under it; but no two write buffers point to one record, whatever its name is.
-/

namespace QuorumLogFs.Log

open QuorumLogFs.Basis

/-- At most one allocated block of the cache is found under a name. -/
def OneBlockPerName (records : ℕ → Mdata) (c : Cache) : Prop :=
  ∀ name j k, j < c.numBlocks → k < c.numBlocks → (c.cblocks j).isFor records name = true →
    (c.cblocks k).isFor records name = true → j = k

/-- Lookups are unambiguous, in both caches. -/
structure Unambiguous (s : Fs) : Prop where
  metaDataCache : OneBlockPerName s.records s.metaDataCache
  bufferCache : OneBlockPerName s.records s.bufferCache

/-- The file has a name without white space, and `lfs_mknod` is called when no metadata file has the name
that its record gets. -/
def NamesWord (s : Fs) (op : Op) : Prop := IsWord op.file.chars ∧ FreshName s op

instance (s : Fs) (op : Op) : Decidable (NamesWord s op) := inferInstanceAs (Decidable (_ ∧ _))

/-- Names in use are different, and so are the records that write buffers point to. -/
structure Distinct (s : Fs) : Prop extends Recorded s where
  bound : ∀ i, s.Cached i → i < s.metaDataCache.numBlocks
  names : ∀ i k, s.Cached i → s.Cached k → (s.records i).fileName = (s.records k).fileName → i = k
  pointed : ∀ j, ∀ i ∈ (s.bufferCache.cblocks j).mdata,
    s.Cached i ∧ (s.bufferCache.cblocks j).freeFlag = false ∧ j < s.bufferCache.numBlocks
  pointers : ∀ j k, ∀ i ∈ (s.bufferCache.cblocks j).mdata, i ∈ (s.bufferCache.cblocks k).mdata → j = k

variable {s s' t : Fs} {f : Name} {i j : ℕ} {stack text : List Char} {junk : Junk}

theorem distinct_init (fresh : ℕ → List Char) : Distinct (Fs.init fresh) where
  toRecorded := recorded_init fresh
  bound i h := by cases h
  names i k h := by cases h
  pointed j i h := by cases h
  pointers j k i h := by cases h

theorem Distinct.unambiguous (h : Distinct s) : Unambiguous s where
  metaDataCache name j k _ _ hj hk := by
    obtain ⟨hjfree, i, hi, hname⟩ := CBlock.isFor_iff.mp hj
    obtain ⟨hkfree, l, hl, hname'⟩ := CBlock.isFor_iff.mp hk
    rw [h.owns, Option.mem_some_iff] at hi hl
    subst hi hl
    exact h.names _ _ hjfree hkfree (hname.trans hname'.symm)
  bufferCache name j k _ _ hj hk := by
    obtain ⟨-, i, hi, hname⟩ := CBlock.isFor_iff.mp hj
    obtain ⟨-, l, hl, hname'⟩ := CBlock.isFor_iff.mp hk
    -- one name, one record, one write buffer
    obtain rfl := h.names i l (h.pointed j i hi).1 (h.pointed k l hl).1 (hname.trans hname'.symm)
    exact h.pointers j k i hi hl

/-! ## The operations -/

/-- Only what is in the blocks has changed. -/
theorem Distinct.framed (h : Distinct s) (hs : s.Framed s') (hrecorded : Recorded s') :
    Distinct s' where
  toRecorded := hrecorded
  bound i hi := by
    rw [Fs.Cached, hs.metaDataCache] at hi
    rw [hs.metaDataCache]
    exact h.bound i hi
  names i k hi hk hname := by
    rw [Fs.Cached, hs.metaDataCache] at hi hk
    rw [hs.fileName, hs.fileName] at hname
    exact h.names i k hi hk hname
  pointed j i hi := by
    rw [hs.mdata] at hi
    rw [Fs.Cached, hs.metaDataCache, hs.freeFlag, hs.numBlocks]
    exact h.pointed j i hi
  pointers j k i hi hk := by
    rw [hs.mdata] at hi hk
    exact h.pointers j k i hi hk

/-- A block takes over a record whose name no other block has. -/
theorem Distinct.update_record {files : List Char → Option (List Char)} {m : Mdata} (h : Distinct s)
    (hi : i < s.metaDataCache.numBlocks)
    (hname : ∀ k, k ≠ i → s.Cached k → (s.records k).fileName ≠ m.fileName)
    {load : List Char → Bool} {path : List Char}
    (hrecorded : Recorded ⟨updateLru (s.metaDataCache.take i) i, s.bufferCache,
      Function.update s.records i m, files, s.chunkFiles, load, path⟩) :
    Distinct ⟨updateLru (s.metaDataCache.take i) i, s.bufferCache,
      Function.update s.records i m, files, s.chunkFiles, load, path⟩ where
  toRecorded := hrecorded
  bound k hk := by
    rcases (take_updateLru_freeFlag s.metaDataCache i k).mp hk with rfl | hk
    · exact hi
    · exact h.bound k hk
  names := fileName_update_inj h.names
    (fun k hki hk => ((take_updateLru_freeFlag s.metaDataCache i k).mp hk).resolve_left hki) hname
  pointed j k hk := by
    obtain ⟨hcached, hfree, hlt⟩ := h.pointed j k hk
    exact ⟨(take_updateLru_freeFlag s.metaDataCache i k).mpr (Or.inr hcached), hfree, hlt⟩
  pointers := h.pointers

theorem Distinct.mknod {code : ℤ} (h : Distinct s) (hfresh : s.mdataFiles (recordName f.chars) = none)
    (hop : lfsMknod s f.path = some (s', code)) : Distinct s' := by
  have hrecorded := (h.toRecorded.mknod hop).1
  obtain ⟨i, files, hvictim, -, rfl⟩ := lfsMknod_eq_some hop
  refine h.update_record (victim_lt hvictim) (fun k _ hk hname => ?_) hrecorded
  exact h.cached k hk (hname ▸ hfresh)

/-- The record of a file is in the cache, once. -/
theorem Distinct.metaDataBlock (h : Distinct s) (hword : IsWord f.chars)
    (hop : metaDataBlock s f.path stack = some (s', i)) :
    Distinct s' ∧ s'.Cached i ∧ (s'.records i).fileName = f.chars := by
  have hrecorded := (h.toRecorded.metaDataBlock (fun _ => hword) hop).1
  cases hfind : findMetaDataBlock s.records s.metaDataCache f.chars with
  | some k =>
    rw [metaDataBlock_found hfind] at hop
    obtain ⟨rfl, rfl⟩ := Prod.mk.inj (Option.some.inj hop)
    obtain ⟨hcached, hname⟩ := findMetaDataBlock_own h.owns hfind
    exact ⟨⟨hrecorded, h.bound, h.names, h.pointed, h.pointers⟩, hcached, hname⟩
  | none =>
    rw [metaDataBlock_reload hfind] at hop
    have hname := reload_fileName h.named hword hop
    obtain ⟨files, bytes, buf, m, -, hvictim, -, -, -, -, rfl⟩ := mdataFromDiskToMemory_eq_some hop
    have hfile : m.fileName = f.chars := by
      change (Function.update s.records i m i).fileName = f.chars at hname
      rwa [Function.update_self] at hname
    refine ⟨h.update_record (victim_lt hvictim) (fun k _ hk hkf => ?_) hrecorded,
      (take_updateLru_freeFlag s.metaDataCache i i).mpr (Or.inl rfl), hname⟩
    -- another block with the name would have been found
    exact findMetaDataBlock_gone h.owns h.bound hfind k hk (hkf.trans hfile)

/-- A write buffer is given a record that no write buffer points to. -/
theorem Distinct.assign (h : Distinct s) (hi : s.Cached i)
    (hj : (s.bufferCache.cblocks j).freeFlag = false) (hlt : j < s.bufferCache.numBlocks)
    (hnone : ∀ k, i ∉ (s.bufferCache.cblocks k).mdata) (hrecorded : Recorded (s.assign j (some i))) :
    Distinct (s.assign j (some i)) := by
  have hself : ((s.assign j (some i)).bufferCache.cblocks j) =
      { s.bufferCache.cblocks j with mdata := some i } := s.bufferCache.cblocks_set_self j _
  have hother : ∀ k, k ≠ j → (s.assign j (some i)).bufferCache.cblocks k = s.bufferCache.cblocks k :=
    fun k hk => s.bufferCache.cblocks_set_of_ne hk _
  refine ⟨hrecorded, h.bound, h.names, fun k m hm => ?_, fun k l m hm hl => ?_⟩
  · by_cases hk : k = j
    · subst hk
      rw [hself, Option.mem_some_iff] at hm
      rw [hself]
      exact ⟨hm ▸ hi, hj, hlt⟩
    · rw [hother k hk] at hm ⊢
      exact h.pointed k m hm
  · by_cases hk : k = j <;> by_cases hlj : l = j
    · rw [hk, hlj]
    · rw [hk, hself, Option.mem_some_iff] at hm
      rw [hother l hlj, ← hm] at hl
      exact absurd hl (hnone l)
    · rw [hlj, hself, Option.mem_some_iff] at hl
      rw [hother k hk, ← hl] at hm
      exact absurd hm (hnone k)
    · rw [hother k hk] at hm
      rw [hother l hlj] at hl
      exact h.pointers k l m hm hl

/-- A flush changes neither names nor pointers. -/
theorem Distinct.flushBlock (h : Distinct s) (hop : flushBlock s j junk = some s') : Distinct s' :=
  h.framed (flushBlock_framed hop) (h.toRecorded.flushBlock hop).1

/-- A file without a write buffer gets one; no other points to its record. -/
theorem Distinct.wbufDataBlock (h : Distinct s) (hi : s.Cached i)
    (hname : (s.records i).fileName = f.chars)
    (hop : wbufDataBlock s f.path (some i) junk = some (s', j)) : Distinct s' := by
  have hrecorded := (h.toRecorded.wbufDataBlock (h.cached i hi) hop).1
  cases hfind : findMetaDataBlock s.records s.bufferCache f.chars with
  | some k =>
    rw [wbufDataBlock_found hfind] at hop
    obtain ⟨rfl, rfl⟩ := Prod.mk.inj (Option.some.inj hop)
    exact h
  | none =>
    obtain ⟨hvictim, t, ht, rfl⟩ := wbufDataBlock_eq_some hfind hop
    have hframe := evictBlock_framed ht
    -- a write buffer that points to the record would have been found
    have hnone : ∀ k, i ∉ (s.bufferCache.cblocks k).mdata := by
      intro k hk
      obtain ⟨-, hkfree, hklt⟩ := h.pointed k i hk
      have hfor := CBlock.isFor_iff.mpr ⟨hkfree, i, hk, hname⟩
      rw [findMetaDataBlock_none hfind hklt] at hfor
      cases hfor
    have htaken : Distinct { s with bufferCache := s.bufferCache.take j } := by
      refine ⟨⟨h.named, h.owns, h.cached, fun k m hm => h.buffered k m (by simpa using hm)⟩, h.bound,
        h.names, fun k m hm => ?_, fun k l m hm hl => ?_⟩
      · obtain ⟨hcached, hfree, hlt⟩ := h.pointed k m (by simpa using hm)
        exact ⟨hcached, (take_freeFlag s.bufferCache j k).mpr (Or.inr hfree), hlt⟩
      · exact h.pointers k l m (by simpa using hm) (by simpa using hl)
    have hevicted : Distinct t := by
      unfold evictBlock at ht
      split at ht
      · exact htaken.flushBlock ht
      · exact Option.some.inj ht ▸ htaken
    refine hevicted.assign ?_ ?_ ?_ (fun k => ?_) hrecorded
    · rw [Fs.Cached, hframe.metaDataCache]
      exact hi
    · rw [hframe.freeFlag]
      exact (take_freeFlag s.bufferCache j j).mpr (Or.inl rfl)
    · rw [hframe.numBlocks]
      exact victim_lt hvictim
    · rw [hframe.mdata, take_mdata]
      exact hnone k

theorem Distinct.makeRoom (h : Distinct s) (hop : makeRoom s j text junk = some s') : Distinct s' :=
  h.framed (makeRoom_framed hop) (h.toRecorded.makeRoom hop).1

theorem Distinct.appendText (h : Distinct s) (hop : appendText s j text = some s') : Distinct s' :=
  h.framed (appendText_framed hop) (h.toRecorded.appendText hop).1

theorem Distinct.write {buf : List Char} {junk : WriteJunk} {n : ℕ} (h : Distinct s)
    (hword : IsWord f.chars) (hop : lfsWrite s f.path buf 0 0 junk = some (s', n)) : Distinct s' := by
  obtain ⟨text, s₁, i, s₂, j, s₃, -, h₁, h₂, h₃, h₄, -⟩ := lfsWrite_eq_some hop
  have hload : Distinct { s with loadPath := s.loadPath ++ f.path } :=
    ⟨⟨h.named, h.owns, h.cached, h.buffered⟩, h.bound, h.names, h.pointed, h.pointers⟩
  obtain ⟨hinv₁, hi, hname⟩ := hload.metaDataBlock hword h₁
  rw [hinv₁.owns] at h₂
  exact ((hinv₁.wbufDataBlock hi hname h₂).makeRoom h₃).appendText h₄

/-- Each call keeps names and pointers different. -/
theorem Distinct.step {op : Op} (h : Distinct s) (hok : NamesWord s op) (hop : step s op = some s') :
    Distinct s' := by
  obtain ⟨hword, hfresh⟩ := hok
  cases op with
  | mknod f =>
    obtain ⟨⟨t, code⟩, ht, rfl⟩ := Option.map_eq_some_iff.mp hop
    exact h.mknod hfresh ht
  | «open» f =>
    obtain ⟨⟨t, code⟩, ht, rfl⟩ := Option.map_eq_some_iff.mp hop
    unfold lfsOpen at ht
    split at ht
    · obtain ⟨rfl, -⟩ := Prod.mk.inj (Option.some.inj ht)
      exact ⟨⟨h.named, h.owns, h.cached, h.buffered⟩, h.bound, h.names, h.pointed, h.pointers⟩
    · cases ht
  | getattr f stack =>
    obtain ⟨⟨t, attr⟩, ht, rfl⟩ := Option.map_eq_some_iff.mp hop
    obtain ⟨-, rfl | ⟨-, s₁, i, h₁, hs'⟩⟩ := lfsGetattr_eq_some ht
    · exact h
    · have hinv₁ := (h.metaDataBlock hword h₁).1
      rcases hs' with rfl | ⟨j, rfl⟩
      · exact hinv₁
      · exact ⟨⟨hinv₁.named, hinv₁.owns, hinv₁.cached, hinv₁.buffered⟩, hinv₁.bound, hinv₁.names,
          hinv₁.pointed, hinv₁.pointers⟩
  | read f buf stack =>
    obtain ⟨⟨t, out⟩, ht, rfl⟩ := Option.map_eq_some_iff.mp hop
    obtain ⟨i, hi⟩ := lfsRead_metaDataBlock ht
    exact (h.metaDataBlock hword hi).1
  | write f buf junk =>
    obtain ⟨⟨t, n⟩, ht, rfl⟩ := Option.map_eq_some_iff.mp hop
    exact h.write hword ht

/-! ## Runs -/

/-- In every run over files with names without white space that creates no two files whose records get the
same name, at most one block of either cache is found under a name, whatever has been evicted and whatever
the memory of the write buffers holds at first. -/
theorem lookups_unambiguous (fresh : ℕ → List Char) {ops : List Op}
    (hok : Each step NamesWord (Fs.init fresh) ops) : Always step Unambiguous (Fs.init fresh) ops :=
  (always_of_each (distinct_init fresh) (fun _ _ _ h hok hop => h.step hok hop) hok).imp
    fun _ h => h.unambiguous

/-- A file is flushed, its record is evicted while its buffer still points to it, and then it is read back
and written to again. -/
def recordEvicted : List Op :=
  .mknod firstFile :: writeLines firstFile 160 2 :: writeLines firstFile 160 20 ::
    (List.finRange 101).tail.map (fun i => .mknod (fileNo i)) ++
      [.getattr firstFile [nul], .write firstFile oneLine {}]

theorem lookups_unambiguous_recordEvicted : (run step Fs.init recordEvicted).isSome ∧
    Always step Unambiguous Fs.init recordEvicted := by
  have hchecked : (runChecked step NamesWord Fs.init recordEvicted).isSome := by decide +kernel
  obtain ⟨hruns, hok⟩ := of_runChecked hchecked
  exact ⟨hruns, lookups_unambiguous _ hok⟩

/-- A name that is one character longer than its record holds. -/
def cutName (c : Char) (h : IsWord [c] ∧ c ≠ '/' ∧ c ≠ nul) : Name where
  chars := List.replicate MAX_FILE_NAME_SIZE 'A' ++ [c]
  ne_nil := by simp
  noSlash hmem := by
    rcases List.mem_append.mp hmem with hmem | hmem
    · exact absurd (List.eq_of_mem_replicate hmem) (by decide)
    · exact h.2.1 (List.mem_singleton.mp hmem).symm
  noNul hmem := by
    rcases List.mem_append.mp hmem with hmem | hmem
    · exact absurd (List.eq_of_mem_replicate hmem) (by decide)
    · exact h.2.2 (List.mem_singleton.mp hmem).symm

/-- Two such names, which differ in the last character. -/
def cutNames : List Op := [.mknod (cutName '1' (by decide)), .mknod (cutName '2' (by decide))]

/-- Each file is created when it has no metadata file, and then two blocks have the same name. -/
theorem not_lookups_unambiguous_cutNames :
    Each step (fun s op => IsWord op.file.chars ∧ FreshWords s op) Fs.init cutNames ∧
      ¬ Always step Unambiguous Fs.init cutNames := by
  have hrun : ((run step Fs.init cutNames).map fun s =>
      (List.range s.metaDataCache.numBlocks).filter fun i =>
        (s.metaDataCache.cblocks i).isFor s.records (List.replicate MAX_FILE_NAME_SIZE 'A')) =
      some [0, 1] := by decide +kernel
  refine ⟨by decide +kernel, fun hall => ?_⟩
  obtain ⟨s, hs, hblocks⟩ := Option.map_eq_some_iff.mp hrun
  have hfor : ∀ i ∈ [0, 1], i < s.metaDataCache.numBlocks ∧ (s.metaDataCache.cblocks i).isFor s.records
      (List.replicate MAX_FILE_NAME_SIZE 'A') = true := by
    intro i hi
    rw [← hblocks] at hi
    obtain ⟨hlt, hname⟩ := List.mem_filter.mp hi
    exact ⟨List.mem_range.mp hlt, hname⟩
  obtain ⟨hlt₀, hfor₀⟩ := hfor 0 (by simp)
  obtain ⟨hlt₁, hfor₁⟩ := hfor 1 (by simp)
  have heq := (hall cutNames (List.prefix_refl _) s hs).metaDataCache _ 0 1 hlt₀ hlt₁ hfor₀ hfor₁
  exact absurd heq (by decide)

end QuorumLogFs.Log
