import QuorumLogFs.Log.Metadata
import QuorumLogFs.Log.Owners

/-!
# Metadata is written through

Every record in the metadata cache is on disk, in the file its name says: whoever changes a record
writes it before the next operation. So a block can be taken without writing it back, as `lfs_mknod`
does, and what is read back later is the record that was there. A file is overwritten without
truncation, but what is left of a longer old content lies behind the encoding.
-/

namespace QuorumLogFs.Log

open QuorumLogFs.Basis

/-- Metadata block `i` is in use. -/
def Fs.Cached (s : Fs) (i : ℕ) : Prop := (s.metaDataCache.cblocks i).freeFlag = false

/-- File names are new when a file is created, and words. -/
def FreshWords (s : Fs) : Op → Prop
  | .mknod f => s.mdataFiles f.chars = none ∧ IsWord f.chars
  | _ => True

instance decidableFreshWords (s : Fs) : ∀ op, Decidable (FreshWords s op)
  | .mknod f => inferInstanceAs (Decidable (s.mdataFiles f.chars = none ∧ IsWord f.chars))
  | .open _ => isTrue trivial
  | .getattr _ _ => isTrue trivial
  | .read _ _ _ => isTrue trivial
  | .write _ _ _ => isTrue trivial

/-- The name that the record of a new file gets is new. -/
def FreshName (s : Fs) : Op → Prop
  | .mknod f => s.mdataFiles (recordName f.chars) = none
  | _ => True

instance decidableFreshName (s : Fs) : ∀ op, Decidable (FreshName s op)
  | .mknod f => inferInstanceAs (Decidable (s.mdataFiles (recordName f.chars) = none))
  | .open _ => isTrue trivial
  | .getattr _ _ => isTrue trivial
  | .read _ _ _ => isTrue trivial
  | .write _ _ _ => isTrue trivial

/-- The metadata file of every block in use begins with the encoding of the block's record, and
whatever is read back from it is that record. -/
structure NeverBehind (s : Fs) : Prop where
  encoded : ∀ i, i < s.metaDataCache.numBlocks → (s.metaDataCache.cblocks i).freeFlag = false →
    ∀ r ∈ (s.metaDataCache.cblocks i).mdata,
      ∃ bytes, s.mdataFiles (s.records r).fileName = some bytes ∧
        encodeMdata (s.records r) <+: bytes
  readBack : ∀ i, i < s.metaDataCache.numBlocks → (s.metaDataCache.cblocks i).freeFlag = false →
    ∀ r ∈ (s.metaDataCache.cblocks i).mdata,
      ∀ bytes stack buf old m, s.mdataFiles (s.records r).fileName = some bytes →
        stringAt (bytes.take MAX_MDATA_FILE_SIZE ++ stack) 0 = some buf →
          parseMdata old buf = some (some m) → m.Same (s.records r)

/-- The record in a block that the call takes, for a new file or for another record that it reads
back, is on disk afterwards. -/
def LosesNothing (s : Fs) (op : Op) (s' : Fs) : Prop :=
  ∀ i ∈ takenBlock s op, s.Cached i →
    ∃ bytes, s'.mdataFiles (s.records i).fileName = some bytes ∧ encodeMdata (s.records i) <+: bytes

/-- A name that fills its array has been cut, perhaps. Nothing can be flushed under it, so the record
stays as `lfs_mknod` makes it. -/
def Mdata.BlankIfCut (m : Mdata) : Prop :=
  MAX_FILE_NAME_SIZE ≤ m.fileName.length → m.numPaths = 0 ∧ m.size = 0

/-- What the operations preserve. Only files whose names are cut can share a name. -/
structure WrittenThrough (s : Fs) : Prop where
  owns : ∀ i, (s.metaDataCache.cblocks i).mdata = some i
  bound : ∀ i, s.Cached i → i < s.metaDataCache.numBlocks
  names : ∀ i j, s.Cached i ∧ (s.records i).fileName.length < MAX_FILE_NAME_SIZE →
    s.Cached j ∧ (s.records j).fileName.length < MAX_FILE_NAME_SIZE →
      (s.records i).fileName = (s.records j).fileName → i = j
  clean : ∀ i, s.Cached i → (s.records i).Clean
  blank : ∀ i, s.Cached i → (s.records i).BlankIfCut
  onDisk : ∀ i, s.Cached i →
    ∃ bytes, s.mdataFiles (s.records i).fileName = some bytes ∧ Describes bytes (s.records i)
  files : ∀ name bytes, s.mdataFiles name = some bytes →
    ∃ m : Mdata, m.fileName = name ∧ m.Clean ∧ m.BlankIfCut ∧ Describes bytes m
  buffers : ∀ j, ∀ i ∈ (s.bufferCache.cblocks j).mdata, s.Cached i

variable {s s' t : Fs} {f : Name} {i j k : ℕ} {stack text : List Char}

theorem writtenThrough_init (fresh : ℕ → List Char) : WrittenThrough (Fs.init fresh) where
  owns _ := rfl
  bound i h := by cases h
  names i j h := by cases h.1
  clean i h := by cases h
  blank i h := by cases h
  onDisk i h := by cases h
  files name bytes h := by cases h
  buffers j i h := by cases h

theorem WrittenThrough.neverBehind (h : WrittenThrough s) : NeverBehind s := by
  refine ⟨fun i _ hfree r hr => ?_, fun i _ hfree r hr bytes stack buf old m hbytes hbuf hm => ?_⟩
  · obtain rfl : i = r := by simpa [h.owns] using hr
    obtain ⟨bytes, hbytes, hdesc⟩ := h.onDisk i hfree
    exact ⟨bytes, hbytes, hdesc.encoded⟩
  · obtain rfl : i = r := by simpa [h.owns] using hr
    obtain ⟨bytes', hbytes', hdesc⟩ := h.onDisk i hfree
    obtain rfl : bytes = bytes' := Option.some.inj (hbytes.symm.trans hbytes')
    exact hdesc.parse (h.clean i hfree) hbuf hm

/-! ## Writing a record -/

theorem writeMetadataToDisk_describes {m : Mdata} {files files' : List Char → Option (List Char)}
    (h : writeMetadataToDisk m files = some files') :
    (∃ bytes, files' m.fileName = some bytes ∧ Describes bytes m) ∧
      ∀ name, name ≠ m.fileName → files' name = files name := by
  have hfits : (encodeMdata m).length < MAX_MDATA_FILE_SIZE := by
    unfold writeMetadataToDisk at h
    split at h
    · rename_i hfits
      exact hfits.2
    · cases h
  rw [writeMetadataToDisk_eq_some h]
  exact ⟨⟨_, Function.update_self .., describes_overwrite hfits _⟩,
    fun name hname => Function.update_of_ne hname ..⟩

/-- Writing a record again that is on disk changes nothing. -/
theorem writeMetadataToDisk_same {m : Mdata} {files files' : List Char → Option (List Char)}
    {bytes : List Char} (h : writeMetadataToDisk m files = some files')
    (hbytes : files m.fileName = some bytes) (hdesc : Describes bytes m) : files' = files := by
  obtain ⟨rest, rfl⟩ := hdesc.encoded
  rw [writeMetadataToDisk_eq_some h, hbytes, Option.getD_some, overwrite, List.drop_left]
  exact Function.update_eq_self_iff.mpr hbytes.symm

/-- Cut names that are the same have the same record. -/
theorem Mdata.BlankIfCut.same {m m' : Mdata} (h : m.BlankIfCut) (h' : m'.BlankIfCut)
    (hname : m.fileName = m'.fileName) (hcut : MAX_FILE_NAME_SIZE ≤ m'.fileName.length) : m.Same m' := by
  obtain ⟨hnum, hsize⟩ := h (hname ▸ hcut)
  obtain ⟨hnum', hsize'⟩ := h' hcut
  refine ⟨hname, hnum.trans hnum'.symm, hsize.trans hsize'.symm, ?_⟩
  rw [Mdata.paths, Mdata.paths, hnum, hnum']
  rfl

/-- A record and its file change together, block and all. -/
theorem WrittenThrough.replace {files : List Char → Option (List Char)} {m : Mdata}
    (h : WrittenThrough s) (hi : i < s.metaDataCache.numBlocks) (hm : m.Clean) (hblank : m.BlankIfCut)
    (hname : ∀ k, s.Cached k → k ≠ i → (s.records k).fileName = m.fileName →
      MAX_FILE_NAME_SIZE ≤ m.fileName.length)
    (hself : ∃ bytes, files m.fileName = some bytes ∧ Describes bytes m)
    (hother : ∀ name, name ≠ m.fileName → files name = s.mdataFiles name)
    {c : Cache} (hblocks : c.numBlocks = s.metaDataCache.numBlocks)
    (howns : ∀ k, (c.cblocks k).mdata = some k)
    (hfree : ∀ k, (c.cblocks k).freeFlag = false ↔ k = i ∨ s.Cached k)
    {b : Cache} (hb : ∀ j, ∀ k ∈ (b.cblocks j).mdata, k = i ∨ s.Cached k)
    {chunks : ChunkFiles} {load : List Char → Bool} {path : List Char} :
    WrittenThrough ⟨c, b, Function.update s.records i m, files, chunks, load, path⟩ := by
  have hrecord : Function.update s.records i m i = m := Function.update_self ..
  have hold : ∀ k, k ≠ i → Function.update s.records i m k = s.records k :=
    fun k hk => Function.update_of_ne hk ..
  have hcached : ∀ k, k ≠ i → (c.cblocks k).freeFlag = false → s.Cached k :=
    fun k hk h => ((hfree k).mp h).resolve_left hk
  refine ⟨howns, fun k hk => ?_, fun k l hk hl hkl => ?_, fun k hk => ?_, fun k hk => ?_,
    fun k hk => ?_, fun name bytes hbytes => ?_, fun j k hk => (hfree k).mpr (hb j k hk)⟩
  · show k < c.numBlocks
    rw [hblocks]
    rcases (hfree k).mp hk with rfl | hk
    · exact hi
    · exact h.bound k hk
  · refine @fileName_update_inj s.records m i _ (fun k => (c.cblocks k).freeFlag = false ∧
      (Function.update s.records i m k).fileName.length < MAX_FILE_NAME_SIZE) h.names
      (fun k hki hk => ?_) (fun k hki hk heq => ?_) k l hk hl hkl
    · rw [hold k hki] at hk
      exact ⟨hcached k hki hk.1, hk.2⟩
    · exact absurd (heq ▸ hk.2) (not_lt.mpr (hname k hk.1 hki heq))
  · show (Function.update s.records i m k).Clean
    by_cases hki : k = i
    · rw [hki, hrecord]
      exact hm
    · rw [hold k hki]
      exact h.clean k (hcached k hki hk)
  · show (Function.update s.records i m k).BlankIfCut
    by_cases hki : k = i
    · rw [hki, hrecord]
      exact hblank
    · rw [hold k hki]
      exact h.blank k (hcached k hki hk)
  · show ∃ bytes, files (Function.update s.records i m k).fileName = some bytes ∧
      Describes bytes (Function.update s.records i m k)
    by_cases hki : k = i
    · rw [hki, hrecord]
      exact hself
    · have hck := hcached k hki hk
      rw [hold k hki]
      by_cases hsame : (s.records k).fileName = m.fileName
      · obtain ⟨bytes, hbytes, hdesc⟩ := hself
        exact ⟨bytes, hsame ▸ hbytes,
          hdesc.same ((h.blank k hck).same hblank hsame (hname k hck hki hsame))⟩
      · rw [hother _ hsame]
        exact h.onDisk k hck
  · change files name = some bytes at hbytes
    by_cases hn : name = m.fileName
    · obtain ⟨bytes', hbytes', hdesc⟩ := hself
      rw [hn, hbytes'] at hbytes
      exact ⟨m, hn.symm, hm, hblank, Option.some.inj hbytes ▸ hdesc⟩
    · rw [hother name hn] at hbytes
      exact h.files name bytes hbytes

/-! ## The operations -/

theorem take_updateLru_freeFlag (c : Cache) (i k : ℕ) :
    ((updateLru (c.take i) i).cblocks k).freeFlag = false ↔ k = i ∨ (c.cblocks k).freeFlag = false := by
  rw [updateLru_freeFlag, take_freeFlag]

theorem WrittenThrough.mknod {code : ℤ} (h : WrittenThrough s)
    (hfresh : s.mdataFiles f.chars = none) (hword : IsWord f.chars)
    (hop : lfsMknod s f.path = some (s', code)) : WrittenThrough s' := by
  obtain ⟨i, files, hvictim, hfiles, rfl⟩ := lfsMknod_eq_some hop
  obtain ⟨hself, hother⟩ := writeMetadataToDisk_describes hfiles
  refine h.replace (c := updateLru (s.metaDataCache.take i) i) (victim_lt hvictim)
    ⟨isWord_recordName hword, fun hmem => f.noNul (mem_of_mem_recordName hmem), le_rfl,
      fun p hp => ?_⟩ (fun _ => ⟨rfl, rfl⟩) (fun k hk _ hname => ?_) hself hother rfl (fun k => ?_)
    (take_updateLru_freeFlag _ i) (fun j k hk => Or.inr (h.buffers j k hk))
  · cases hp
  · -- a name that has not been cut is new
    by_contra hshort
    rw [Mdata.fileName_named, Name.tail_path] at hname hshort
    obtain ⟨bytes, hbytes, -⟩ := h.onDisk k hk
    rw [hname, recordName_of_lt (not_le.mp hshort), hfresh] at hbytes
    cases hbytes
  · simpa using h.owns k

/-- The record of a file is found, or what is read back replaces that of the block taken. -/
theorem WrittenThrough.metaDataBlock (h : WrittenThrough s)
    (hop : metaDataBlock s f.path stack = some (s', i)) :
    WrittenThrough s' ∧ s'.mdataFiles = s.mdataFiles ∧ (s'.records i).fileName = f.chars ∧
      (∀ k, s'.Cached k ↔ k = i ∨ s.Cached k) ∧ ∀ k, k ≠ i → s'.records k = s.records k := by
  cases hfind : findMetaDataBlock s.records s.metaDataCache f.chars with
  | some k =>
    rw [metaDataBlock_found hfind] at hop
    obtain ⟨rfl, rfl⟩ := Prod.mk.inj (Option.some.inj hop)
    obtain ⟨hcached, hname⟩ := findMetaDataBlock_own h.owns hfind
    exact ⟨{ h with owns := h.owns }, rfl, hname,
      fun m => (or_iff_right_of_imp fun hm : m = k => hm ▸ hcached).symm, fun _ _ => rfl⟩
  | none =>
    rw [metaDataBlock_reload hfind] at hop
    obtain ⟨files, bytes, buf, m, -, hvictim, hwrite, hbytes, hbuf, hparse, rfl⟩ :=
      mdataFromDiskToMemory_eq_some hop
    have hfiles : files = s.mdataFiles := by
      rcases hwrite with rfl | ⟨hcached, hwrite⟩
      · rfl
      · obtain ⟨old, hold, hdesc⟩ := h.onDisk i hcached
        exact writeMetadataToDisk_same hwrite hold hdesc
    subst hfiles
    rw [Name.tail_path] at hbytes
    obtain ⟨m₀, hname₀, hclean₀, hblank₀, hdesc⟩ := h.files _ _ hbytes
    have hsame := hdesc.parse hclean₀ hbuf hparse
    have hname : m.fileName = f.chars := hsame.fileName.trans hname₀
    have hblank : m.BlankIfCut := fun hcut => by
      rw [hsame.numPaths, hsame.size]
      exact hblank₀ (hsame.fileName ▸ hcut)
    refine ⟨h.replace (c := updateLru (s.metaDataCache.take i) i) (victim_lt hvictim)
      (hclean₀.same hsame) hblank (fun k hk _ hkf => ?_) ⟨bytes, hname ▸ hbytes, hdesc.same hsame⟩
      (fun _ _ => rfl) rfl (fun k => ?_) (take_updateLru_freeFlag _ i)
      (fun j k hk => Or.inr (h.buffers j k hk)), rfl, ?_, take_updateLru_freeFlag _ i,
      fun k hk => Function.update_of_ne hk ..⟩
    · exact absurd (hkf.trans hname) (findMetaDataBlock_gone h.owns h.bound hfind k hk)
    · simpa using h.owns k
    · show (Function.update s.records i m i).fileName = f.chars
      rw [Function.update_self, hname]

/-- What a flush makes of a record: the same name, no path less. -/
structure Grown (m m' : Mdata) : Prop where
  fileName : m'.fileName = m.fileName
  count : 0 ≤ m.numPaths → 0 ≤ m'.numPaths
  paths : ∀ p ∈ m.paths, p ∈ m'.paths

theorem Grown.refl (m : Mdata) : Grown m m := ⟨rfl, id, fun _ => id⟩

theorem Grown.trans {m m' m'' : Mdata} (h : Grown m m') (h' : Grown m' m'') : Grown m m'' :=
  ⟨h'.fileName.trans h.fileName, fun hc => h'.count (h.count hc), fun p hp => h'.paths p (h.paths p hp)⟩

theorem grown_appendChunk {name bytes : List Char} {d d' : Mdata × ChunkFiles}
    (h : appendChunk name bytes d = some d') : Grown d.1 d'.1 := by
  refine ⟨appendChunk_fileName h, fun hcount => ?_, fun p hp => ?_⟩ <;> unfold appendChunk at h <;>
    split at h
  · split at h
    · obtain ⟨m, hm, rfl⟩ := Option.map_eq_some_iff.mp h
      have hnum := (Mdata.numPaths_pushPath hm).1
      show 0 ≤ m.numPaths
      omega
    · obtain rfl := Option.some.inj h
      exact hcount
  · cases h
  · split at h
    · obtain ⟨m, hm, rfl⟩ := Option.map_eq_some_iff.mp h
      have hpaths := Mdata.paths_pushPath hm
      show p ∈ m.paths
      rw [hpaths]
      exact List.mem_append_left _ hp
    · obtain rfl := Option.some.inj h
      exact hp
  · cases h

theorem grown_flush {junk : Junk} {chunk_path : List Char} {b b' : CBlock} {n : ℕ}
    {d d' : Mdata × ChunkFiles} (h : writeBufferToDisk junk chunk_path b n d = some (b', d')) :
    Grown d.1 d'.1 :=
  (flushBuffer_frame (P := fun e => Grown d.1 e.1)
    (fun _ _ _ _ _ happend hgrown => hgrown.trans (grown_appendChunk happend)) h (Grown.refl d.1)).2.2.2.2

/-- A flush keeps the paths of every record. -/
theorem flushBlock_grown {junk : Junk} (h : flushBlock s j junk = some s') (k : ℕ) :
    Grown (s.records k) (s'.records k) := by
  obtain ⟨i, block, m, chunks, files, -, hflush, -, rfl⟩ := flushBlock_eq_some h
  show Grown (s.records k) (Function.update s.records i m k)
  by_cases hk : k = i
  · rw [hk, Function.update_self]
    exact grown_flush hflush
  · rw [Function.update_of_ne hk]
    exact Grown.refl _

theorem WrittenThrough.flushBlock {junk : Junk} (h : WrittenThrough s)
    (hop : flushBlock s j junk = some s') (hpaths : PathsClean s') : WrittenThrough s' := by
  have hgrown := flushBlock_grown hop
  obtain ⟨i, block, m, chunks, files, hi, hflush, hfiles, rfl⟩ := flushBlock_eq_some hop
  have hcached := h.buffers j i hi
  have hblock := (writeBufferToDisk_frame hflush).1
  obtain ⟨hself, hother⟩ := writeMetadataToDisk_describes hfiles
  have hm : Grown (s.records i) m := grown_flush hflush
  have hclean := h.clean i hcached
  have hshort : m.fileName.length < MAX_FILE_NAME_SIZE :=
    hm.fileName ▸ writeBufferToDisk_fileName_lt hflush
  refine h.replace (h.bound i hcached) ⟨hm.fileName ▸ hclean.word, hm.fileName ▸ hclean.noNul,
    hm.count hclean.count, fun p hp => ?_⟩ (fun hcut => absurd hshort (not_lt.mpr hcut))
    (fun k hk hki hname => ?_) hself hother rfl h.owns (fun k => ?_) (fun m k hk => Or.inr ?_)
  · refine hpaths i (h.bound i hcached) p ?_
    show p ∈ (Function.update s.records i m i).paths
    rwa [Function.update_self]
  · have heq := hname.trans hm.fileName
    exact absurd (h.names k i ⟨hk, hname ▸ hshort⟩ ⟨hcached, hm.fileName ▸ hshort⟩ heq) hki
  · exact (or_iff_right_of_imp fun hki : k = i => hki ▸ hcached).symm
  · by_cases hmj : m = j
    · rw [hmj, Cache.cblocks_set_self, hblock] at hk
      exact h.buffers j k hk
    · rw [Cache.cblocks_set_of_ne _ hmj] at hk
      exact h.buffers m k hk

/-- No record in use has this name, unless it is cut. -/
def Unnamed (s : Fs) (name : List Char) : Prop :=
  ∀ k, s.Cached k → (s.records k).fileName = name → MAX_FILE_NAME_SIZE ≤ name.length

/-- What a flush or a change of hands leaves of the names in use. -/
structure SameRecords (s s' : Fs) : Prop where
  metaDataCache : s'.metaDataCache = s.metaDataCache
  fileName : ∀ i, (s'.records i).fileName = (s.records i).fileName

theorem Unnamed.framed {name : List Char} (h : Unnamed s name) (hs : SameRecords s s') :
    Unnamed s' name := by
  intro k hk
  rw [Fs.Cached, hs.metaDataCache] at hk
  rw [hs.fileName]
  exact h k hk

/-- A flush writes no file but that of a record in use. -/
theorem WrittenThrough.flushBlock_files {junk : Junk} (h : WrittenThrough s)
    (hop : QuorumLogFs.Log.flushBlock s j junk = some s') {name : List Char} (hname : Unnamed s name) :
    s'.mdataFiles name = s.mdataFiles name := by
  obtain ⟨i, block, m, chunks, files, hi, hflush, hfiles, rfl⟩ := flushBlock_eq_some hop
  refine (writeMetadataToDisk_describes hfiles).2 name fun heq => ?_
  have hrecord : (s.records i).fileName = name := (grown_flush hflush).fileName.symm.trans heq.symm
  have hcut := hname i (h.buffers j i hi) hrecord
  exact absurd (hrecord ▸ writeBufferToDisk_fileName_lt hflush) (not_lt.mpr hcut)

/-- The write buffer of a file, pointing to a block in use. -/
theorem WrittenThrough.wbufDataBlock {junk : Junk} (h : WrittenThrough s) (hi : s.Cached i)
    (hop : wbufDataBlock s f.path (some i) junk = some (s', j)) (hpaths : PathsClean s') :
    WrittenThrough s' ∧ SameRecords s s' ∧
      ∀ name, Unnamed s name → s'.mdataFiles name = s.mdataFiles name := by
  cases hfind : findMetaDataBlock s.records s.bufferCache f.chars with
  | some k =>
    rw [wbufDataBlock_found hfind] at hop
    obtain ⟨rfl, rfl⟩ := Prod.mk.inj (Option.some.inj hop)
    exact ⟨h, ⟨rfl, fun _ => rfl⟩, fun _ _ => rfl⟩
  | none =>
    obtain ⟨-, t, ht, rfl⟩ := wbufDataBlock_eq_some hfind hop
    have htaken : WrittenThrough { s with bufferCache := s.bufferCache.take j } :=
      { h with owns := h.owns, buffers := fun m k hk => h.buffers m k (by simpa using hk) }
    have hframe := evictBlock_framed ht
    obtain ⟨hevicted, hfiles⟩ : WrittenThrough t ∧
        ∀ name, Unnamed s name → t.mdataFiles name = s.mdataFiles name := by
      unfold evictBlock at ht
      split at ht
      · exact ⟨htaken.flushBlock ht hpaths, fun name hname => htaken.flushBlock_files ht hname⟩
      · obtain rfl := Option.some.inj ht
        exact ⟨htaken, fun _ _ => rfl⟩
    refine ⟨{ hevicted with owns := hevicted.owns, buffers := fun m k hk => ?_ },
      ⟨hframe.metaDataCache, hframe.fileName⟩, hfiles⟩
    by_cases hmj : m = j
    · subst hmj
      obtain rfl : i = k := by simpa [Fs.assign] using hk
      show (t.metaDataCache.cblocks i).freeFlag = false
      rw [hframe.metaDataCache]
      exact hi
    · change k ∈ ((t.bufferCache.set j _).cblocks m).mdata at hk
      rw [Cache.cblocks_set_of_ne _ hmj] at hk
      exact hevicted.buffers m k hk

theorem WrittenThrough.makeRoom {junk : Junk} (h : WrittenThrough s)
    (hop : makeRoom s j text junk = some s') (hpaths : PathsClean s') :
    WrittenThrough s' ∧ ∀ name, Unnamed s name → s'.mdataFiles name = s.mdataFiles name := by
  unfold QuorumLogFs.Log.makeRoom at hop
  split at hop
  · exact ⟨h.flushBlock hop hpaths, fun name hname => h.flushBlock_files hop hname⟩
  · obtain rfl := Option.some.inj hop
    exact ⟨h, fun _ _ => rfl⟩

theorem makeRoom_grown {junk : Junk} (hop : makeRoom s j text junk = some s') (k : ℕ) :
    Grown (s.records k) (s'.records k) := by
  unfold QuorumLogFs.Log.makeRoom at hop
  split at hop
  · exact flushBlock_grown hop k
  · exact Option.some.inj hop ▸ Grown.refl _

theorem WrittenThrough.appendText (h : WrittenThrough s) (hop : appendText s j text = some s') :
    WrittenThrough s' := by
  have hframe := appendText_framed hop
  obtain ⟨buf, -, rfl⟩ := Option.map_eq_some_iff.mp hop
  exact { h with owns := h.owns, buffers := fun m k hk => h.buffers m k (hframe.mdata m ▸ hk) }

theorem WrittenThrough.write {buf : List Char} {junk : WriteJunk} {n : ℕ} (h : WrittenThrough s)
    (hop : lfsWrite s f.path buf 0 0 junk = some (s', n)) (hpaths : PathsClean s') :
    WrittenThrough s' ∧ ∀ i, reloadBlock s f = some i → s.Cached i →
      s'.mdataFiles (s.records i).fileName = s.mdataFiles (s.records i).fileName := by
  obtain ⟨text, s₁, i, s₂, j, s₃, -, h₁, h₂, h₃, h₄, -⟩ := lfsWrite_eq_some hop
  have hload : WrittenThrough { s with loadPath := s.loadPath ++ f.path } := { h with owns := h.owns }
  obtain ⟨hinv₁, hfiles₁, hname₁, hcached₁, hrecords₁⟩ := hload.metaDataBlock h₁
  -- the paths in between are among those at the end
  have hpaths₃ : PathsClean s₃ := by
    obtain ⟨buf', -, rfl⟩ := Option.map_eq_some_iff.mp h₄
    exact hpaths
  have hpaths₂ : PathsClean s₂ := fun k hk p hp =>
    hpaths₃ k (by rwa [(makeRoom_framed h₃).metaDataCache]) p ((makeRoom_grown h₃ k).paths p hp)
  rw [hinv₁.owns] at h₂
  obtain ⟨hinv₂, hframe₂, hfiles₂⟩ := hinv₁.wbufDataBlock ((hcached₁ i).mpr (Or.inl rfl)) h₂ hpaths₂
  obtain ⟨hinv₃, hfiles₃⟩ := hinv₂.makeRoom h₃ hpaths₃
  refine ⟨hinv₃.appendText h₄, fun i' htaken hcached => ?_⟩
  -- no record in use has the name of the record that was replaced
  have hunnamed : Unnamed s₁ (s.records i').fileName := by
    have hnone : findMetaDataBlock s.records s.metaDataCache f.chars = none := by
      unfold reloadBlock at htaken
      split at htaken
      · cases htaken
      · assumption
    have hfile := findMetaDataBlock_gone h.owns h.bound hnone i' hcached
    have hi' : i' = i := by
      have hreload : QuorumLogFs.Log.metaDataBlock { s with loadPath := s.loadPath ++ f.path } f.path
          junk.stack = _ := metaDataBlock_reload hnone
      rw [hreload] at h₁
      obtain ⟨_, _, _, _, -, hvictim, -⟩ := mdataFromDiskToMemory_eq_some h₁
      unfold reloadBlock at htaken
      rw [hnone] at htaken
      exact Option.some.inj (htaken.symm.trans hvictim)
    intro k hk hname
    by_contra hshort
    rw [not_le] at hshort
    by_cases hki : k = i
    · exact hfile (hname.symm.trans (hki ▸ hname₁))
    · rw [hrecords₁ k hki] at hname
      have hck := ((hcached₁ k).mp hk).resolve_left hki
      exact hki ((h.names k i' ⟨hck, hname ▸ hshort⟩ ⟨hcached, hshort⟩ hname).trans hi')
  have hfiles₄ : s'.mdataFiles = s₃.mdataFiles := by
    obtain ⟨buf', -, rfl⟩ := Option.map_eq_some_iff.mp h₄
    rfl
  rw [hfiles₄, hfiles₃ _ (hunnamed.framed hframe₂), hfiles₂ _ hunnamed, hfiles₁]

/-- Each call keeps the records on disk, as long as files are new words and paths stay clean. -/
theorem WrittenThrough.step {op : Op} (h : WrittenThrough s) (hfresh : FreshWords s op)
    (hop : step s op = some s') (hpaths : PathsClean s') :
    WrittenThrough s' ∧ LosesNothing s op s' := by
  -- what was on disk for a block in use is enough when its file has not changed
  have hkept : (∀ i ∈ takenBlock s op, s.Cached i →
      s'.mdataFiles (s.records i).fileName = s.mdataFiles (s.records i).fileName) →
        LosesNothing s op s' := by
    intro hfiles i hi hcached
    obtain ⟨bytes, hbytes, hdesc⟩ := h.onDisk i hcached
    exact ⟨bytes, (hfiles i hi hcached).trans hbytes, hdesc.encoded⟩
  cases op with
  | mknod f =>
    obtain ⟨⟨t, code⟩, ht, rfl⟩ := Option.map_eq_some_iff.mp hop
    have hinv := h.mknod hfresh.1 hfresh.2 ht
    refine ⟨hinv, fun i hi hcached => ?_⟩
    obtain ⟨i', files, -, hfiles, rfl⟩ := lfsMknod_eq_some ht
    obtain ⟨⟨bytes', hbytes', hdesc'⟩, hother⟩ := writeMetadataToDisk_describes hfiles
    obtain ⟨bytes, hbytes, hdesc⟩ := h.onDisk i hcached
    by_cases hname : (s.records i).fileName = recordName f.chars
    · -- the new file has the same cut name
      have hcut : MAX_FILE_NAME_SIZE ≤ (recordName f.chars).length := by
        by_contra hshort
        rw [hname, recordName_of_lt (not_le.mp hshort), hfresh.1] at hbytes
        cases hbytes
      have hsame : (s.records i).Same ((s.records i').named f.chars) :=
        (h.blank i hcached).same (fun _ => ⟨rfl, rfl⟩) hname hcut
      exact ⟨bytes', hname ▸ hbytes', hsame.encode ▸ hdesc'.encoded⟩
    · exact ⟨bytes, (hother _ hname).trans hbytes, hdesc.encoded⟩
  | «open» f =>
    obtain ⟨⟨t, code⟩, ht, rfl⟩ := Option.map_eq_some_iff.mp hop
    unfold lfsOpen at ht
    split at ht
    · obtain ⟨rfl, -⟩ := Prod.mk.inj (Option.some.inj ht)
      exact ⟨{ h with owns := h.owns }, hkept fun _ _ _ => rfl⟩
    · cases ht
  | getattr f stack =>
    obtain ⟨⟨t, attr⟩, ht, rfl⟩ := Option.map_eq_some_iff.mp hop
    obtain ⟨-, rfl | ⟨-, s₁, i, h₁, hs'⟩⟩ := lfsGetattr_eq_some ht
    · exact ⟨h, hkept fun _ _ _ => rfl⟩
    · obtain ⟨hinv₁, hfiles, -⟩ := h.metaDataBlock h₁
      rcases hs' with rfl | ⟨j, rfl⟩
      · exact ⟨hinv₁, hkept fun _ _ _ => congrFun hfiles _⟩
      · exact ⟨{ hinv₁ with owns := hinv₁.owns }, hkept fun _ _ _ => congrFun hfiles _⟩
  | read f buf stack =>
    obtain ⟨⟨t, out⟩, ht, rfl⟩ := Option.map_eq_some_iff.mp hop
    obtain ⟨i, hi⟩ := lfsRead_metaDataBlock ht
    obtain ⟨hinv, hfiles, -⟩ := h.metaDataBlock hi
    exact ⟨hinv, hkept fun _ _ _ => congrFun hfiles _⟩
  | write f buf junk =>
    obtain ⟨⟨t, n⟩, ht, rfl⟩ := Option.map_eq_some_iff.mp hop
    obtain ⟨hinv, hfiles⟩ := h.write ht hpaths
    exact ⟨hinv, hkept hfiles⟩

/-- In every run that creates files under new names, and whose names and paths the format of the
metadata files can carry, no metadata file is behind the cache, and no record is lost when its block
is taken; whatever the memory of the write buffers holds at first. -/
theorem never_behind (fresh : ℕ → List Char) {ops : List Op}
    (hfresh : Each step FreshWords (Fs.init fresh) ops)
    (hpaths : Always step PathsClean (Fs.init fresh) ops) :
    Always step NeverBehind (Fs.init fresh) ops ∧ Steps step LosesNothing (Fs.init fresh) ops := by
  have hok := hfresh.and hpaths.next
  have hstep : ∀ s op s', WrittenThrough s →
      (FreshWords s op ∧ ∀ s', step s op = some s' → PathsClean s') → step s op = some s' →
        WrittenThrough s' ∧ LosesNothing s op s' :=
    fun s op s' h hok hop => h.step hok.1 hop (hok.2 s' hop)
  refine ⟨?_, ?_⟩
  · exact (always_of_each (writtenThrough_init fresh)
      (fun s op s' h hok hop => (hstep s op s' h hok hop).1) hok).imp fun _ h => h.neverBehind
  · exact steps_of_each (writtenThrough_init fresh) (fun s op s' h hok hop => (hstep s op s' h hok hop).1)
      (fun s op s' h hok hop => (hstep s op s' h hok hop).2) hok

/-- Eleven files are created and written to; the last one takes the write buffer of the first, which
is then looked up again. -/
def elevenFiles : List Op :=
  ((List.finRange 101).take 11).flatMap (fun i => [.mknod (fileNo i), .write (fileNo i) oneLine {}]) ++
    [.getattr firstFile []]

theorem never_behind_elevenFiles : (run step Fs.init elevenFiles).isSome ∧
    Always step NeverBehind Fs.init elevenFiles ∧ Steps step LosesNothing Fs.init elevenFiles := by
  have hchecked : (runChecked step (fun s op => FreshWords s op ∧ ∀ t ∈ step s op, PathsClean t)
      Fs.init elevenFiles).isSome := by decide +kernel
  obtain ⟨hruns, hok⟩ := of_runChecked hchecked
  exact ⟨hruns, never_behind _ (hok.imp fun _ _ h => h.1)
    (always_of_each (pathsClean_init _) (fun _ _ t _ h ht => h.2 t ht) hok)⟩

end QuorumLogFs.Log
