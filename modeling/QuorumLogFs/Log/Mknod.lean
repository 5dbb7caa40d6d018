import QuorumLogFs.Log.Owners

/-!
# A failed `mknod`

Reference: `lfs_mknod` in `lfs_fuse.c`.

`lfs_mknod` opens the file under `LOAD_PATH` exclusively and looks at the outcome only at its end, when
a metadata block has been taken, its record reset and written. So a call that reports a failure has
changed as much as one that succeeds.
-/

namespace QuorumLogFs.Log

open QuorumLogFs.Basis

/-- `lfs_mknod` of a regular file, where `opened` is the `errno` that `open` of the file under
`LOAD_PATH` fails with, `none` when it succeeds. -/
def lfsMknodOpen (s : Fs) (path : List Char) (opened : Option ℤ) : Option (Fs × ℤ) :=
  if (LOAD_PATH ++ path).length < LOAD_PATH_SIZE ∧ (MDATA_PATH ++ path).length < 500 then do
    let (i, _, cache) ← getFreeCacheBlock s.metaDataCache
    let mdata := (s.records i).named path.tail
    let files ← writeMetadataToDisk mdata s.mdataFiles
    some ({ s with
      metaDataCache := updateLru cache i
      records := Function.update s.records i mdata
      mdataFiles := files
      loadFiles := if opened = none then Function.update s.loadFiles path.tail true else s.loadFiles
      loadPath := LOAD_PATH ++ path }, match opened with
        | some errno => -errno
        | none => 0)
  else none

/-- The metadata cache, its records and the metadata files are as before. -/
structure Unchanged (s s' : Fs) : Prop where
  metaDataCache : s'.metaDataCache = s.metaDataCache
  records : s'.records = s.records
  mdataFiles : s'.mdataFiles = s.mdataFiles

/-- There is nothing that `lfs_mknod` could change: the cache has a single block, which was used last
and holds the record of this very file, empty, and so does the metadata file. -/
structure NothingToChange (s : Fs) (file_name : List Char) : Prop where
  single : s.metaDataCache.numBlocks = 1
  allocated : (s.metaDataCache.cblocks 0).freeFlag = false
  counter : (s.metaDataCache.cblocks 0).lruCounter = 0
  record : (s.records 0).named file_name = s.records 0
  onDisk : ∃ rest, s.mdataFiles (recordName file_name) =
    some (encodeMdata (s.records 0) ++ rest)

variable {s s' : Fs} {path : List Char} {errno code : ℤ}

/-- Where the only failure is that the file exists, this is `lfs_mknod`. -/
theorem lfsMknod_eq (s : Fs) (path : List Char) :
    lfsMknod s path = lfsMknodOpen s path (if s.loadFiles path.tail then some EEXIST else none) := by
  unfold lfsMknod lfsMknodOpen
  by_cases h : s.loadFiles path.tail = true
  · have hsame : Function.update s.loadFiles path.tail true = s.loadFiles :=
      Function.update_eq_self_iff.mpr h.symm
    simp only [h, hsame, if_true, reduceCtorEq, if_false]
  · simp only [h, if_true, if_false, Bool.false_eq_true]

theorem lfsMknodOpen_eq_some {opened : Option ℤ} (h : lfsMknodOpen s path opened = some (s', code)) :
    ∃ i files,
      victim (fun i => (s.metaDataCache.cblocks i).lruCounter) s.metaDataCache.numBlocks = some i ∧
      writeMetadataToDisk ((s.records i).named path.tail) s.mdataFiles = some files ∧
      s'.metaDataCache = updateLru (s.metaDataCache.take i) i ∧
      s'.records = Function.update s.records i ((s.records i).named path.tail) ∧
      s'.mdataFiles = files := by
  unfold lfsMknodOpen getFreeCacheBlock at h
  split at h
  · simp only [Option.bind_eq_bind, Option.bind_eq_some_iff, Option.map_eq_some_iff] at h
    obtain ⟨⟨i', result, cache⟩, ⟨v, hv, heq⟩, files, hfiles, hs⟩ := h
    obtain ⟨rfl, -, rfl⟩ := by simpa using heq
    obtain ⟨rfl, -⟩ := Prod.mk.inj (Option.some.inj hs)
    exact ⟨_, files, hv, hfiles, rfl, rfl, rfl⟩
  · cases h

/-- A block that is taken is used last, and all the others have grown older. -/
theorem take_updateLru_eq_iff {c : Cache} {i : ℕ}
    (hi : victim (fun i => (c.cblocks i).lruCounter) c.numBlocks = some i) :
    updateLru (c.take i) i = c ↔
      c.numBlocks = 1 ∧ (c.cblocks i).freeFlag = false ∧ (c.cblocks i).lruCounter = 0 := by
  have hlt := victim_lt hi
  obtain ⟨v, hv, -, hmax, -⟩ : ∃ v,
      victim (fun i => (c.cblocks i).lruCounter) c.numBlocks = some v ∧ v < c.numBlocks ∧
        (∀ i, i < c.numBlocks → (c.cblocks i).lruCounter ≤ (c.cblocks v).lruCounter) ∧ _ :=
    victim_spec (Nat.zero_lt_of_lt hlt)
  obtain rfl : i = v := Option.some.inj (hi.symm.trans hv)
  have hcounter : ∀ k, ((updateLru (c.take i) i).cblocks k).lruCounter =
      touch c.numBlocks (fun j => (c.cblocks j).lruCounter) i k := by
    intro k
    simp only [updateLru, take_lruCounter, take_numBlocks]
  constructor
  · intro h
    have hsame : ∀ k, touch c.numBlocks (fun j => (c.cblocks j).lruCounter) i k =
        (c.cblocks k).lruCounter := fun k => by rw [← hcounter, h]
    refine ⟨?_, ?_, ?_⟩
    · -- another block would have got another counter
      by_contra hone
      obtain ⟨k, hk, hki⟩ : ∃ k, k < c.numBlocks ∧ k ≠ i := by
        rcases Nat.eq_zero_or_pos i with rfl | hpos
        · exact ⟨1, by omega, one_ne_zero⟩
        · exact ⟨0, by omega, by omega⟩
      have hnext := hsame k
      rw [touch, if_neg hki, if_pos ⟨hk, hmax k hk⟩] at hnext
      have hmod := Nat.mod_lt ((c.cblocks k).lruCounter + 1) (Nat.zero_lt_of_lt hlt)
      rw [hnext] at hmod
      rcases Nat.lt_or_ge ((c.cblocks k).lruCounter + 1) c.numBlocks with hlow | hhigh
      · rw [Nat.mod_eq_of_lt hlow] at hnext
        omega
      · have hlast : (c.cblocks k).lruCounter + 1 = c.numBlocks := by omega
        rw [hlast, Nat.mod_self] at hnext
        omega
    · rw [← h, updateLru_freeFlag, take_cblocks_self]
    · rw [← hsame i, touch, if_pos rfl]
  · rintro ⟨hone, hfree, hzero⟩
    have hcblocks : (updateLru (c.take i) i).cblocks = c.cblocks := by
      funext k
      have htouch : touch c.numBlocks (fun j => (c.cblocks j).lruCounter) i k =
          (c.cblocks k).lruCounter := by
        by_cases hki : k = i
        · rw [touch, if_pos hki, hki, hzero]
        · rw [touch, if_neg hki, if_neg fun h => hki (by omega)]
      have htake : (c.take i).cblocks k = c.cblocks k := by
        by_cases hki : k = i
        · rw [hki, take_cblocks_self, ← hfree]
        · exact take_cblocks_of_ne hki
      have hblock : (updateLru (c.take i) i).cblocks k = { (c.take i).cblocks k with
          lruCounter := ((updateLru (c.take i) i).cblocks k).lruCounter } := rfl
      rw [hblock, hcounter, htouch, htake]
    exact congrArg (Cache.mk · c.numBlocks c.cacheBlockSize) hcblocks

/-- A failed `mknod` reports the failure and leaves things unchanged only where there is nothing to
change. -/
theorem failed_mknod_iff (h : lfsMknodOpen s path (some errno) = some (s', code)) :
    code = -errno ∧ (Unchanged s s' ↔ NothingToChange s path.tail) := by
  have hcode : code = -errno := by
    unfold lfsMknodOpen at h
    split at h
    · simp only [Option.bind_eq_bind, Option.bind_eq_some_iff] at h
      obtain ⟨_, -, _, -, hs⟩ := h
      exact (Prod.mk.inj (Option.some.inj hs)).2.symm
    · cases h
  obtain ⟨i, files, hvictim, hfiles, hcache, hrecords, rfl⟩ := lfsMknodOpen_eq_some h
  have hlt := victim_lt hvictim
  refine ⟨hcode, fun hsame => ?_, fun hnothing => ?_⟩
  · obtain ⟨hone, hfree, hzero⟩ := (take_updateLru_eq_iff hvictim).mp (hcache.symm.trans
      hsame.metaDataCache)
    obtain rfl : i = 0 := by omega
    have hrecord := Function.update_eq_self_iff.mp (hrecords.symm.trans hsame.records)
    have hname : (s.records 0).fileName = recordName path.tail :=
      (congrArg Mdata.fileName hrecord).symm
    rw [hrecord] at hfiles
    refine ⟨hone, hfree, hzero, hrecord, ?_⟩
    rw [← hsame.mdataFiles, writeMetadataToDisk_eq_some hfiles, ← hname, Function.update_self]
    exact ⟨_, rfl⟩
  · have hone := hnothing.single
    obtain rfl : i = 0 := by omega
    obtain ⟨rest, hrest⟩ := hnothing.onDisk
    have hrecord := hnothing.record
    have hname : (s.records 0).fileName = recordName path.tail :=
      (congrArg Mdata.fileName hrecord).symm
    refine ⟨?_, ?_, ?_⟩
    · rw [hcache, (take_updateLru_eq_iff hvictim).mpr ⟨hone, hnothing.allocated, hnothing.counter⟩]
    · rw [hrecords, hrecord, Function.update_eq_self]
    · rw [hrecord] at hfiles
      rw [← hname] at hrest
      rw [writeMetadataToDisk_eq_some hfiles, hrest, Option.getD_some, overwrite, List.drop_left]
      exact Function.update_eq_self_iff.mpr hrest.symm

/-- The metadata file of an existing file then describes an empty one. -/
theorem failed_mknod_resets (h : lfsMknodOpen s path (some errno) = some (s', code)) :
    ∃ m bytes, s'.mdataFiles (recordName path.tail) = some bytes ∧ encodeMdata m <+: bytes ∧
      m.fileName = recordName path.tail ∧ m.paths = [] ∧ m.size = 0 := by
  obtain ⟨i, files, -, hfiles, -, -, rfl⟩ := lfsMknodOpen_eq_some h
  have hbytes := writeMetadataToDisk_eq_some hfiles
  exact ⟨(s.records i).named path.tail, _, (congrFun hbytes _).trans (Function.update_self ..),
    List.prefix_append _ _, rfl, rfl, rfl⟩

theorem failed_mknod_iff_exists : ∃ s, run step Fs.init [.mknod firstFile] = some s ∧
    ∃ s', lfsMknodOpen s firstFile.path (some EEXIST) = some (s', -EEXIST) ∧
      (Unchanged s s' ↔ NothingToChange s firstFile.chars) := by
  have hcall : ((run step Fs.init [.mknod firstFile]).bind fun s =>
      (lfsMknodOpen s firstFile.path (some EEXIST)).map Prod.snd) = some (-EEXIST) := by
    decide
  obtain ⟨s, hrun, hcall⟩ := Option.bind_eq_some_iff.mp hcall
  obtain ⟨⟨s', code⟩, hop, hcode⟩ := Option.map_eq_some_iff.mp hcall
  obtain rfl : code = -EEXIST := hcode
  exact ⟨s, hrun, s', hop, (failed_mknod_iff hop).2⟩

/-- Creating a file again takes a second block for its name. -/
theorem not_unchanged_exists : ∃ s, run step Fs.init [.mknod firstFile] = some s ∧
    ∃ s', lfsMknodOpen s firstFile.path (some EEXIST) = some (s', -EEXIST) ∧ ¬ Unchanged s s' := by
  have hcall : ((run step Fs.init [.mknod firstFile]).bind fun s =>
      (lfsMknodOpen s firstFile.path (some EEXIST)).map fun r =>
        (r.2, (s.metaDataCache.cblocks 1).freeFlag, (r.1.metaDataCache.cblocks 1).freeFlag)) =
      some (-EEXIST, true, false) := by decide
  obtain ⟨s, hrun, hcall⟩ := Option.bind_eq_some_iff.mp hcall
  obtain ⟨⟨s', code⟩, hop, hfields⟩ := Option.map_eq_some_iff.mp hcall
  obtain ⟨rfl, hflags⟩ := Prod.mk.inj hfields
  obtain ⟨hold, hnew⟩ := Prod.mk.inj hflags
  refine ⟨s, hrun, s', hop, fun h => ?_⟩
  rw [h.metaDataCache, hold] at hnew
  cases hnew

end QuorumLogFs.Log
