import QuorumLogFs.Log.WriteThrough
import QuorumLogFs.Log.RoundTrip
import QuorumLogFs.Log.ReadBack

/-!
# Restarts

Reference: `main` in `lfs_fuse.c`; `lfs_release` and `lfs_fsync` are empty.

Nothing is flushed when the file system is stopped. `main` creates the caches anew, and a file is read
again from its metadata file. Since metadata is written through, a restart loses the text in the write
buffer of a file and nothing else. A file without chunk files is lost as a whole, because its metadata
file cannot be parsed, unless a token happens to follow the record. Whatever the memory of the new write
buffers holds, it is not read.
-/

namespace QuorumLogFs.Log

open QuorumLogFs.Basis

/-- `main` again, after the file system was stopped between two calls. -/
def Fs.restart (s : Fs) (fresh : ℕ → List Char) : Fs :=
  { Fs.init fresh with mdataFiles := s.mdataFiles, chunkFiles := s.chunkFiles, loadFiles := s.loadFiles }

/-- A call, or a restart. -/
inductive LifeOp where
  | call (op : Op)
  | restart (fresh : ℕ → List Char)

def lifeStep (s : Fs) : LifeOp → Option Fs
  | .call op => step s op
  | .restart fresh => some (s.restart fresh)

/-- The names in calls of `mknod` are new and words. -/
def FreshCalls (s : Fs) : LifeOp → Prop
  | .call op => FreshWords s op
  | .restart _ => True

instance (s : Fs) : ∀ e, Decidable (FreshCalls s e)
  | .call op => inferInstanceAs (Decidable (FreshWords s op))
  | .restart _ => isTrue trivial

/-- The record of the file in the metadata cache. -/
def Fs.HasRecord (s : Fs) (f : Name) (m : Mdata) : Prop :=
  ∃ i ∈ findMetaDataBlock s.records s.metaDataCache f.chars, s.records i = m

/-- What `lfs_read` delivers after a restart is what it delivered before, up to the text of the write
buffer. It delivers something unless the file has no chunk file. The file is one whose name its record
holds whole. -/
def LosesBuffers (s : Fs) : Prop :=
  ∀ (f : Name) buf size offset stack t out, f.chars.length < MAX_FILE_NAME_SIZE →
    lfsRead s f.path buf size offset stack = some (t, out) → ∀ fresh stack', nul ∈ stack' →
      ((∃ t' out', lfsRead (s.restart fresh) f.path buf size offset stack' = some (t', out')) ↔
        ∃ m, t.HasRecord f m ∧
          (0 < m.numPaths ∨ StrayToken m ((s.mdataFiles f.chars).getD []) stack')) ∧
      ∀ t' out', lfsRead (s.restart fresh) f.path buf size offset stack' = some (t', out') →
        nul ∉ out' → ∃ text, bufferedText t f.path = some text ∧ out = out' ++ text

/-- The paths of the record are within the lengths of its arrays. -/
structure Mdata.PathsFit (m : Mdata) : Prop where
  count : m.numPaths ≤ MAX_PATHS
  paths : ∀ p ∈ m.paths, p.length < MAX_PATH_NAME_SIZE

/-- All records can be loaded, if their names can. -/
def AllLoad (s : Fs) : Prop := ∀ i, (s.records i).PathsFit

/-- The records are on disk, and can be loaded from there. -/
structure Restartable (s : Fs) : Prop extends WrittenThrough s where
  loads : AllLoad s

variable {s s' t : Fs} {f : Name} {i j k n : ℕ} {m m' old : Mdata} {stack buf text : List Char}
  {fresh : ℕ → List Char}

/-! ## Records that can be loaded -/

theorem pathsFit_noPaths (hnum : m.numPaths = 0) : m.PathsFit := by
  have hnone : m.paths = [] := by
    rw [← List.length_eq_zero_iff, m.length_paths, hnum]
    rfl
  refine ⟨hnum ▸ by decide, ?_⟩
  rw [hnone]
  exact List.forall_mem_nil _

theorem splitPaths_lengths {paths : List Char} {ps : List (List Char)}
    (h : splitPaths n paths = some ps) :
    ps.length = n ∧ ∀ p ∈ ps, p.length < MAX_PATH_NAME_SIZE := by
  induction n generalizing paths ps with
  | zero =>
    obtain rfl := Option.some.inj h
    exact ⟨rfl, List.forall_mem_nil _⟩
  | succ n ih =>
    simp only [splitPaths] at h
    split at h
    · rename_i hpath
      obtain ⟨qs, hqs, rfl⟩ := Option.map_eq_some_iff.mp h
      obtain ⟨hlen, hall⟩ := ih hqs
      exact ⟨by rw [List.length_cons, hlen], List.forall_mem_cons.mpr ⟨hpath.2, hall⟩⟩
    · cases h

theorem parseMdata_pathsFit (h : parseMdata old buf = some (some m)) : m.PathsFit := by
  unfold parseMdata at h
  split at h
  · cases h
  · split at h
    · split at h
      · rename_i hfits
        obtain ⟨ps, hps, hm⟩ := Option.map_eq_some_iff.mp h
        obtain rfl := Option.some.inj hm
        obtain ⟨hlen, hall⟩ := splitPaths_lengths hps
        refine ⟨hfits.2, ?_⟩
        rw [Mdata.paths_of_list rfl hlen]
        exact hall
      · cases h
    · cases h

theorem pathsFit_appendChunk {name bytes : List Char} {d d' : Mdata × ChunkFiles}
    (h : appendChunk name bytes d = some d') (hd : d.1.PathsFit) : d'.1.PathsFit := by
  unfold appendChunk at h
  split at h
  · rename_i hshort
    split at h
    · obtain ⟨m, hm, rfl⟩ := Option.map_eq_some_iff.mp h
      refine ⟨(Mdata.numPaths_pushPath hm).2, fun p hp => ?_⟩
      change p ∈ m.paths at hp
      rw [Mdata.paths_pushPath hm] at hp
      rcases List.mem_append.mp hp with hp | hp
      · exact hd.paths p hp
      · rw [List.mem_singleton.mp hp]
        exact hshort.trans (by decide)
    · obtain rfl := Option.some.inj h
      exact ⟨hd.count, hd.paths⟩
  · cases h

theorem AllLoad.update (h : AllLoad s) (hm : m.PathsFit) (i : ℕ) :
    ∀ k, (Function.update s.records i m k).PathsFit := by
  intro k
  by_cases hk : k = i
  · rwa [hk, Function.update_self]
  · rw [Function.update_of_ne hk]
    exact h k

theorem AllLoad.metaDataBlock {path : List Char} (h : AllLoad s)
    (hop : metaDataBlock s path stack = some (s', i)) : AllLoad s' := by
  cases hfind : findMetaDataBlock s.records s.metaDataCache path.tail with
  | some k =>
    rw [metaDataBlock_found hfind] at hop
    obtain ⟨rfl, -⟩ := Prod.mk.inj (Option.some.inj hop)
    exact h
  | none =>
    rw [metaDataBlock_reload hfind] at hop
    obtain ⟨files, bytes, buf, m, -, -, -, -, -, hparse, rfl⟩ := mdataFromDiskToMemory_eq_some hop
    exact h.update (parseMdata_pathsFit hparse) i

theorem AllLoad.flushBlock {junk : Junk} (h : AllLoad s) (hop : flushBlock s j junk = some s') :
    AllLoad s' := by
  obtain ⟨i, block, m, chunks, files, -, hflush, -, rfl⟩ := flushBlock_eq_some hop
  refine h.update ?_ i
  exact (flushBuffer_frame (P := fun e => e.1.PathsFit)
    (fun _ _ _ _ _ happend hd => pathsFit_appendChunk happend hd) hflush (h i)).2.2.2.2

theorem AllLoad.wbufDataBlock {path : List Char} {mdata : Option ℕ} {junk : Junk} (h : AllLoad s)
    (hop : wbufDataBlock s path mdata junk = some (s', j)) : AllLoad s' := by
  cases hfind : findMetaDataBlock s.records s.bufferCache path.tail with
  | some k =>
    rw [wbufDataBlock_found hfind] at hop
    obtain ⟨rfl, -⟩ := Prod.mk.inj (Option.some.inj hop)
    exact h
  | none =>
    obtain ⟨-, t, ht, rfl⟩ := wbufDataBlock_eq_some hfind hop
    have htaken : AllLoad { s with bufferCache := s.bufferCache.take j } := h
    have hevicted : AllLoad t := by
      unfold evictBlock at ht
      split at ht
      · exact htaken.flushBlock ht
      · exact Option.some.inj ht ▸ htaken
    exact hevicted

theorem AllLoad.makeRoom {junk : Junk} (h : AllLoad s) (hop : makeRoom s j text junk = some s') :
    AllLoad s' := by
  unfold Log.makeRoom at hop
  split at hop
  · exact h.flushBlock hop
  · exact Option.some.inj hop ▸ h

/-- Each call leaves records that can be loaded. -/
theorem AllLoad.step {op : Op} (h : AllLoad s) (hop : step s op = some s') : AllLoad s' := by
  cases op with
  | mknod f =>
    obtain ⟨⟨t, code⟩, ht, rfl⟩ := Option.map_eq_some_iff.mp hop
    obtain ⟨i, files, -, -, rfl⟩ := lfsMknod_eq_some ht
    exact h.update (pathsFit_noPaths rfl) i
  | «open» f =>
    obtain ⟨⟨t, code⟩, ht, rfl⟩ := Option.map_eq_some_iff.mp hop
    unfold lfsOpen at ht
    split at ht
    · obtain ⟨rfl, -⟩ := Prod.mk.inj (Option.some.inj ht)
      exact h
    · cases ht
  | getattr f stack =>
    obtain ⟨⟨t, attr⟩, ht, rfl⟩ := Option.map_eq_some_iff.mp hop
    obtain ⟨-, rfl | ⟨-, s₁, i, h₁, hs'⟩⟩ := lfsGetattr_eq_some ht
    · exact h
    · have hloaded := h.metaDataBlock h₁
      rcases hs' with rfl | ⟨j, rfl⟩
      · exact hloaded
      · exact hloaded
  | read f buf stack =>
    obtain ⟨⟨t, out⟩, ht, rfl⟩ := Option.map_eq_some_iff.mp hop
    obtain ⟨i, hi⟩ := lfsRead_metaDataBlock ht
    exact h.metaDataBlock hi
  | write f buf junk =>
    obtain ⟨⟨t, n⟩, ht, rfl⟩ := Option.map_eq_some_iff.mp hop
    obtain ⟨text, s₁, i, s₂, j, s₃, -, h₁, h₂, h₃, h₄, -⟩ := lfsWrite_eq_some ht
    have hload : AllLoad { s with loadPath := s.loadPath ++ f.path } := h
    have hroom := ((hload.metaDataBlock h₁).wbufDataBlock h₂).makeRoom h₃
    obtain ⟨buf', -, rfl⟩ := Option.map_eq_some_iff.mp h₄
    exact hroom

/-! ## Reading -/

/-- Without a text the buffer takes the chunks as they are. -/
theorem fillBuffer_nil {chunks : List Char} (hfits : chunks.length < buf.length)
    (hmax : (chunks.length : ℤ) ≤ INT_MAX) : fillBuffer buf chunks [] = some chunks := by
  unfold fillBuffer
  rw [List.length_nil, if_pos ⟨hfits, by push_cast; omega⟩, strcat_nil (by simp), Option.map_some,
    Nat.add_zero, List.take_left]

/-- Looking for a record changes no chunk file and no file under `LOAD_PATH`. -/
theorem metaDataBlock_onDisk {path : List Char} (hop : metaDataBlock s path stack = some (s', i)) :
    s'.chunkFiles = s.chunkFiles ∧ s'.loadFiles = s.loadFiles := by
  cases hfind : findMetaDataBlock s.records s.metaDataCache path.tail with
  | some k =>
    rw [metaDataBlock_found hfind] at hop
    obtain ⟨rfl, -⟩ := Prod.mk.inj (Option.some.inj hop)
    exact ⟨rfl, rfl⟩
  | none =>
    rw [metaDataBlock_reload hfind] at hop
    obtain ⟨files, bytes, buf, m, -, -, -, -, -, -, rfl⟩ := mdataFromDiskToMemory_eq_some hop
    exact ⟨rfl, rfl⟩

/-- The reader of the metadata file sees the record and what is left behind it. -/
theorem Describes.stringAt {bytes : List Char} (h : Describes bytes m) (hclean : m.Clean)
    (hstack : nul ∈ stack) : stringAt (bytes.take MAX_MDATA_FILE_SIZE ++ stack) 0 =
      some (encodeMdata m ++ leftover m bytes stack) := by
  obtain ⟨rest, rfl⟩ := h.encoded
  rw [Basis.stringAt, List.drop_zero, if_pos (List.mem_append_right _ hstack), List.take_append,
    List.take_of_length_le h.fits.le, List.append_assoc, cstr_append (nul_notMem_encode hclean),
    leftover, List.drop_left]

/-! ## After a restart -/

/-- Nothing is found where no block is in use. -/
theorem find_unused {c : Cache} (hfree : ∀ j, (c.cblocks j).freeFlag = true) (records : ℕ → Mdata)
    (name : List Char) : findMetaDataBlock records c name = none := by
  refine List.find?_eq_none.mpr fun j _ hfor => ?_
  have hused := (CBlock.isFor_iff.mp hfor).1
  rw [hfree j] at hused
  cases hused

/-- The record of a file is read from its metadata file, into a free block. -/
theorem metaDataBlock_restart (s : Fs) (fresh : ℕ → List Char) (f : Name) (stack : List Char)
    (hname : f.chars.length < MAX_FILE_NAME_SIZE) :
    ∃ i cache, metaDataBlock (s.restart fresh) f.path stack =
      (((s.mdataFiles f.chars).bind fun bytes =>
        (stringAt (bytes.take MAX_MDATA_FILE_SIZE ++ stack) 0).bind fun buf =>
          (parseMdata Mdata.empty buf).join).map fun m =>
            ({ s.restart fresh with
              metaDataCache := cache, records := Function.update (fun _ => Mdata.empty) i m }, i)) := by
  obtain ⟨i, hi, -⟩ : ∃ i, victim (fun i => ((s.restart fresh).metaDataCache.cblocks i).lruCounter)
      (s.restart fresh).metaDataCache.numBlocks = some i ∧
        i < (s.restart fresh).metaDataCache.numBlocks ∧ _ :=
    victim_spec (show 0 < 100 by decide)
  refine ⟨i, updateLru ((s.restart fresh).metaDataCache.take i) i, ?_⟩
  have hpath : (MDATA_PATH ++ f.path).length < MAX_PATH_NAME_SIZE := by
    have hname : f.chars.length < 100 := hname
    have hpath : MDATA_PATH.length = 32 := by decide
    have hmax : MAX_PATH_NAME_SIZE = 200 := rfl
    rw [List.length_append, Name.path, List.length_cons]
    omega
  have hfree : writeBackMdata (s.restart fresh) i
      (if ((s.restart fresh).metaDataCache.cblocks i).freeFlag = false then WRITE_BACK else NORMAL) =
        some s.mdataFiles := rfl
  rw [metaDataBlock_reload (find_unused (fun _ => rfl) _ _)]
  unfold mdataFromDiskToMemory getFreeCacheBlock
  rw [if_pos hpath]
  simp only [hi, Option.map_some, Option.bind_eq_bind, Option.bind_some, hfree, Name.tail_path]
  cases s.mdataFiles f.chars with
  | none => rfl
  | some bytes =>
    simp only [Option.bind_some]
    cases stringAt (bytes.take MAX_MDATA_FILE_SIZE ++ stack) 0 with
    | none => rfl
    | some buf => simp only [Option.bind_some, Option.map_eq_bind]; rfl

theorem WrittenThrough.fileOf (h : WrittenThrough s) (hi : s.Cached i)
    (hname : (s.records i).fileName = f.chars) :
    ∃ bytes, s.mdataFiles f.chars = some bytes ∧ Describes bytes (s.records i) :=
  hname ▸ h.onDisk i hi

/-- What is found after a restart is the record that was there, without a write buffer. -/
theorem Restartable.restart_found (h : Restartable s) (hi : s.Cached i)
    (hname : (s.records i).fileName = f.chars) (hshort : f.chars.length < MAX_FILE_NAME_SIZE)
    (hop : metaDataBlock (s.restart fresh) f.path stack = some (t, k)) :
    (t.records k).Same (s.records i) ∧ t.chunkFiles = s.chunkFiles ∧
      bufferedText t f.path = some [] := by
  obtain ⟨bytes, hbytes, hdesc⟩ := h.fileOf hi hname
  have hfiles := (metaDataBlock_onDisk hop).1
  obtain ⟨l, cache, hblock⟩ := metaDataBlock_restart s fresh f stack hshort
  rw [hblock, hbytes, Option.bind_some] at hop
  obtain ⟨m, hm, heq⟩ := Option.map_eq_some_iff.mp hop
  obtain ⟨buf, hbuf, hm⟩ := Option.bind_eq_some_iff.mp hm
  obtain ⟨rfl, rfl⟩ := Prod.mk.inj heq
  refine ⟨?_, hfiles, ?_⟩
  · show (Function.update (fun _ => Mdata.empty) l m l).Same (s.records i)
    rw [Function.update_self]
    exact hdesc.parse (h.clean i hi) hbuf (Option.join_eq_some_iff.mp hm)
  · exact bufferedText_of_none (find_unused (fun _ => rfl) _ _)

/-- The metadata file can be parsed if there is a path in it, or a stray token behind it. -/
theorem Restartable.restart_found_iff (h : Restartable s) (hi : s.Cached i)
    (hname : (s.records i).fileName = f.chars) (hshort : f.chars.length < MAX_FILE_NAME_SIZE)
    (hstack : nul ∈ stack) :
    (∃ t k, metaDataBlock (s.restart fresh) f.path stack = some (t, k)) ↔
      0 < (s.records i).numPaths ∨
        StrayToken (s.records i) ((s.mdataFiles f.chars).getD []) stack := by
  have hfits : (s.records i).Fits := ⟨hname ▸ hshort, (h.loads i).count, (h.loads i).paths⟩
  obtain ⟨bytes, hbytes, hdesc⟩ := h.fileOf hi hname
  obtain ⟨l, cache, hblock⟩ := metaDataBlock_restart s fresh f stack hshort
  rw [hblock, hbytes, Option.bind_some, Option.getD_some, hdesc.stringAt (h.clean i hi) hstack,
    Option.bind_some, StrayToken, ← hfits.parse_iff (h.clean i hi) Mdata.empty]
  constructor
  · rintro ⟨t, k, hop⟩
    obtain ⟨m, hm, -⟩ := Option.map_eq_some_iff.mp hop
    exact ⟨m, Option.join_eq_some_iff.mp hm⟩
  · rintro ⟨m, hm⟩
    rw [hm]
    exact ⟨_, _, rfl⟩

/-- A record that is found has been in the cache, or has been read from a file that stays. -/
theorem WrittenThrough.restart_eq (h : WrittenThrough s)
    (hop : QuorumLogFs.Log.metaDataBlock s f.path stack = some (t, i)) :
    t.restart fresh = s.restart fresh := by
  obtain ⟨-, hfiles, -⟩ := h.metaDataBlock hop
  obtain ⟨hchunks, hload⟩ := metaDataBlock_onDisk hop
  unfold Fs.restart
  rw [hfiles, hchunks, hload]

/-- A record in use is found under its name. -/
theorem WrittenThrough.find (h : WrittenThrough s) (hi : s.Cached i)
    (hname : (s.records i).fileName = f.chars) (hshort : f.chars.length < MAX_FILE_NAME_SIZE) :
    findMetaDataBlock s.records s.metaDataCache f.chars = some i := by
  refine findMetaDataBlock_eq (h.bound i hi)
    (CBlock.isFor_iff.mpr ⟨hi, i, h.owns i, hname⟩) fun k _ hfor => ?_
  obtain ⟨hk, l, hl, hname'⟩ := CBlock.isFor_iff.mp hfor
  rw [h.owns, Option.mem_some_iff] at hl
  subst hl
  exact h.names k i ⟨hk, hname' ▸ hshort⟩ ⟨hi, hname ▸ hshort⟩ (hname'.trans hname.symm)

theorem WrittenThrough.hasRecord (h : WrittenThrough s) (hi : s.Cached i)
    (hname : (s.records i).fileName = f.chars) (hshort : f.chars.length < MAX_FILE_NAME_SIZE) :
    s.HasRecord f m ↔ s.records i = m := by
  unfold Fs.HasRecord
  rw [h.find hi hname hshort]
  simp

/-- A read after a restart, of a file that could be read before. -/
theorem Restartable.losesBuffers (h : Restartable s) : LosesBuffers s := by
  intro f buf size offset stack t out hshort hread fresh stack' hstack
  obtain ⟨i, chunks, text, hblock, hchunks, htext, hout⟩ := lfsRead_eq_some_iff.mp hread
  obtain ⟨hwritten, hfiles, hname, hcached, -⟩ := h.metaDataBlock hblock
  have ht : Restartable t := ⟨hwritten, h.loads.metaDataBlock hblock⟩
  have hi : t.Cached i := (hcached i).mpr (Or.inl rfl)
  have hiff : (∃ t' k, metaDataBlock (t.restart fresh) f.path stack' = some (t', k)) ↔ _ :=
    ht.restart_found_iff hi hname hshort hstack
  rw [h.restart_eq hblock, hfiles] at hiff
  -- the chunks are the same, and nothing is appended to them
  have hparts : ∀ t' k, metaDataBlock (s.restart fresh) f.path stack' = some (t', k) →
      readChunks (t'.records k).size t'.chunkFiles (t'.records k).paths = some chunks ∧
        bufferedText t' f.path = some [] := by
    intro t' k hop
    obtain ⟨hsame, hchunkFiles, hnone⟩ :=
      ht.restart_found hi hname hshort ((h.restart_eq hblock).symm ▸ hop)
    rw [hsame.size, hsame.paths, hchunkFiles]
    exact ⟨hchunks, hnone⟩
  have hfill : fillBuffer buf chunks [] = some chunks := by
    unfold fillBuffer at hout
    split at hout
    · rename_i hfits
      exact fillBuffer_nil hfits.1 (by omega)
    · cases hout
  refine ⟨?_, fun t' out' hread' hnul => ?_⟩
  · constructor
    · rintro ⟨t', out', hread'⟩
      obtain ⟨k, _, _, hop, -⟩ := lfsRead_eq_some_iff.mp hread'
      exact ⟨_, (ht.hasRecord hi hname hshort).mpr rfl, hiff.mp ⟨t', k, hop⟩⟩
    · rintro ⟨m, hm, hreadable⟩
      obtain rfl := (ht.hasRecord hi hname hshort).mp hm
      obtain ⟨t', k, hop⟩ := hiff.mpr hreadable
      obtain ⟨hchunks', hnone⟩ := hparts t' k hop
      exact ⟨t', chunks, lfsRead_eq_some_iff.mpr ⟨k, chunks, [], hop, hchunks', hnone, hfill⟩⟩
  · obtain ⟨k, chunks', text', hop, hchunks', htext', hout'⟩ := lfsRead_eq_some_iff.mp hread'
    obtain ⟨hsame, hnone⟩ := hparts t' k hop
    obtain rfl := Option.some.inj (hsame.symm.trans hchunks')
    obtain rfl := Option.some.inj (hnone.symm.trans htext')
    obtain rfl := Option.some.inj (hfill.symm.trans hout')
    exact ⟨text, htext, fillBuffer_eq hnul hout⟩

/-! ## Runs with restarts -/

theorem allLoad_restart (s : Fs) (fresh : ℕ → List Char) : AllLoad (s.restart fresh) :=
  fun _ => pathsFit_noPaths rfl

/-- The metadata files are what a restart leaves of the records. -/
theorem WrittenThrough.restart (h : WrittenThrough s) (fresh : ℕ → List Char) :
    WrittenThrough (s.restart fresh) where
  owns _ := rfl
  bound i h := by cases h
  names i j h := by cases h.1
  clean i h := by cases h
  blank i h := by cases h
  onDisk i h := by cases h
  files := h.files
  buffers j i h := by cases h

theorem restartable_init (fresh : ℕ → List Char) : Restartable (Fs.init fresh) :=
  ⟨writtenThrough_init fresh, fun _ => pathsFit_noPaths rfl⟩

theorem Restartable.step {op : Op} (h : Restartable s) (hfresh : FreshWords s op)
    (hop : step s op = some s') (hpaths : PathsClean s') : Restartable s' :=
  ⟨(h.toWrittenThrough.step hfresh hop hpaths).1, h.loads.step hop⟩

theorem Restartable.lifeStep {e : LifeOp} (h : Restartable s) (hfresh : FreshCalls s e)
    (hop : lifeStep s e = some s') (hpaths : PathsClean s') : Restartable s' := by
  cases e with
  | call op => exact h.step hfresh hop hpaths
  | restart fresh =>
    obtain rfl := Option.some.inj hop
    exact ⟨h.toWrittenThrough.restart fresh, allLoad_restart s fresh⟩

/-- In every run of calls and restarts that creates files under new names, and whose names and paths the
format of the metadata files can carry, a restart at any time loses the text in the write buffers, the
files without a chunk file, and nothing else. -/
theorem restart_loses_buffers (fresh : ℕ → List Char) {es : List LifeOp}
    (hfresh : Each lifeStep FreshCalls (Fs.init fresh) es)
    (hpaths : Always lifeStep PathsClean (Fs.init fresh) es) :
    Always lifeStep LosesBuffers (Fs.init fresh) es :=
  (always_of_each (restartable_init fresh)
    (fun _ _ s' h hok hop => h.lifeStep hok.1 hop (hok.2 s' hop))
    (hfresh.and hpaths.next)).imp fun _ h => h.losesBuffers

/-- A file is flushed and the file system restarted; then the file is read and written to again. -/
def flushedTwice : List LifeOp :=
  overfull.map .call ++ [.restart fun _ => zeros 4096, .call (.getattr firstFile [nul]),
    .call (.write firstFile (bytesOf [march18] ++ [nul]) {}), .restart fun _ => zeros 4096,
    .call (.read firstFile (zeros 4220) [nul])]

theorem restart_loses_buffers_flushedTwice : (run lifeStep Fs.init flushedTwice).isSome ∧
    Always lifeStep LosesBuffers Fs.init flushedTwice := by
  have hchecked : (runChecked lifeStep (fun s e => FreshCalls s e ∧ ∀ t ∈ lifeStep s e, PathsClean t)
      Fs.init flushedTwice).isSome := by decide +kernel
  obtain ⟨hruns, hok⟩ := of_runChecked hchecked
  exact ⟨hruns, restart_loses_buffers _ (hok.imp fun _ _ h => h.1)
    (always_of_each (pathsClean_init _) (fun _ _ t _ h ht => h.2 t ht) hok)⟩

/-! ## The lines of a file after a restart -/

/-- Where no file has been created there is nothing to read. -/
theorem Tidy.not_read {out : List Char} {size offset : ℕ} (h : Tidy 0 s) :
    lfsRead (s.restart fresh) f.path buf size offset stack ≠ some (t, out) := by
  intro hread
  obtain ⟨i, hblock⟩ := lfsRead_metaDataBlock hread
  rw [metaDataBlock_reload (find_unused (fun _ => rfl) _ _)] at hblock
  obtain ⟨files, bytes, _, _, -, -, hfiles, hbytes, -⟩ := mdataFromDiskToMemory_eq_some hblock
  rcases hfiles with rfl | ⟨hcached, -⟩
  · obtain ⟨m, hm, -⟩ := (h.onDisk f.chars).mp (by rw [show s.mdataFiles f.chars = _ from hbytes]; simp)
    exact absurd hm (Nat.not_lt_zero m)
  · cases hcached

/-- The view of the file on disk. -/
def FileView.onDisk (v : FileView) : FileView := { v with text := [] }

theorem Stored.stores_onDisk {v : FileView} {cs : List (Line × List Line)}
    (h : Stored (v.mdata, v.chunkFiles) cs) : v.onDisk.Stores (linesIn cs) :=
  ⟨cs, [], h, rfl, List.append_nil _⟩

/-- What is read after a restart is what is on disk, if the metadata file can be parsed. -/
theorem Restartable.lfsRead_restart {v : FileView} {size offset : ℕ} {out : List Char}
    (h : Restartable s) (hi : s.Cached i) (hname : (s.records i).fileName = f.chars)
    (hshort : f.chars.length < MAX_FILE_NAME_SIZE) (hv : Shows s i v) :
    (∃ t, lfsRead (s.restart fresh) f.path buf size offset stack = some (t, out)) ↔
      (∃ t k, metaDataBlock (s.restart fresh) f.path stack = some (t, k)) ∧
        v.onDisk.output buf = some out := by
  have houtput : v.onDisk.output buf =
      (readChunks (s.records i).size s.chunkFiles (s.records i).paths).bind fun chunks =>
        fillBuffer buf chunks [] := by
    show (readChunks v.mdata.size v.chunkFiles v.mdata.paths).bind _ = _
    rw [hv.chunks, readChunks_chunks, hv.mdata]
    rfl
  rw [houtput]
  constructor
  · rintro ⟨t, hread⟩
    obtain ⟨k, chunks, text, hblock, hchunks, htext, hout⟩ := lfsRead_eq_some_iff.mp hread
    obtain ⟨hsame, hfiles, hnone⟩ := h.restart_found hi hname hshort hblock
    obtain rfl := Option.some.inj (hnone.symm.trans htext)
    rw [hsame.size, hsame.paths, hfiles] at hchunks
    exact ⟨⟨t, k, hblock⟩, Option.bind_eq_some_iff.mpr ⟨chunks, hchunks, hout⟩⟩
  · rintro ⟨⟨t, k, hblock⟩, hout⟩
    obtain ⟨chunks, hchunks, hout⟩ := Option.bind_eq_some_iff.mp hout
    obtain ⟨hsame, hfiles, hnone⟩ := h.restart_found hi hname hshort hblock
    rw [← hsame.size, ← hsame.paths, ← hfiles] at hchunks
    exact ⟨t, lfsRead_eq_some_iff.mpr ⟨k, chunks, [], hblock, hchunks, hnone, hout⟩⟩

/-- Calls on a file whose name is a word, created once. -/
theorem freshWords_of_clean {ops : List Op} (hword : IsWord f.chars) (hfile : ∀ op ∈ ops, op.file = f)
    (hclean : Each step FlushesEmpty Fs.init ops) : Each step FreshWords Fs.init ops := by
  intro ops' op hp s' hrun
  have hempty := hclean ops' op hp s' hrun
  have hop := hfile op (hp.subset (by simp))
  cases op with
  | mknod g =>
    obtain rfl : g = f := hop
    exact ⟨hempty.1, hword⟩
  | _ => trivial

/-- In a run of calls on one file that carry lines, whose flushes leave nothing behind and append in
order, a restart loses the last lines of the file, less than a write buffer of them. What is read
afterwards are the lines before them, and it can be read if there are any. -/
theorem restart_keeps_prefix {f : Name} {ops : List Op} (hword : IsWord f.chars)
    (hfile : ∀ op ∈ ops, op.file = f) {linesOf : Op → List Line}
    (hcarries : ∀ op ∈ ops, op.Carries (linesOf op))
    (hsize : ((bytesOf (ops.flatMap linesOf)).length + (ops.flatMap linesOf).length : ℤ) ≤ INT_MAX)
    (hclean : Each step (fun s op => FlushesEmpty s op ∧ FlushesInOrder s op) Fs.init ops)
    (hpaths : Always step PathsClean Fs.init ops) {s : Fs} (hrun : run step Fs.init ops = some s) :
    ∃ kept lost, kept ++ lost = ops.flatMap linesOf ∧ (bytesOf lost).length < BLOCK_SIZE ∧
      bufferedText s f.path = some (bytesOf lost) ∧ ∀ fresh,
        (kept ≠ [] → ReadsBack (s.restart fresh) f kept) ∧
        (kept = [] → ∀ buf size offset stack t out,
          lfsRead (s.restart fresh) f.path buf size offset stack = some (t, out) →
            nonEmptyLines out = []) := by
  obtain ⟨k, hk, -⟩ := onlyFile_run hfile hcarries hclean hrun
  have hfresh := freshWords_of_clean hword hfile (hclean.imp fun _ _ h => h.1)
  have hinv : Restartable s := run_invariant (restartable_init _)
    (fun _ _ s' h hok hop => h.step hok.1 hop (hok.2 s' hop)) (hfresh.and hpaths.next) hrun
  rcases Nat.eq_zero_or_pos k with rfl | hpos
  · -- the file has not been created
    refine ⟨[], [], (hk.nothing rfl).symm, BLOCK_SIZE_pos, ?_, fun fresh => ?_⟩
    · refine bufferedText_of_none ?_
      cases hfind : findMetaDataBlock s.records s.bufferCache f.path.tail with
      | none => rfl
      | some j =>
        obtain ⟨hj, hfor⟩ := findMetaDataBlock_some hfind
        obtain ⟨i, hi, -⟩ := hk.tidy.target j hj (CBlock.isFor_iff.mp hfor).1
        exact absurd hi (Nat.not_lt_zero i)
    · exact ⟨fun hne => absurd rfl hne,
        fun _ buf size offset stack t out hread => absurd hread hk.tidy.not_read⟩
  · obtain ⟨hname, hshort⟩ := hk.name 0 hpos
    have hi : s.Cached 0 := (hk.tidy.inUse 0 (hpos.trans_le hk.tidy.ranked.le)).mpr hpos
    obtain ⟨v, hv, cs, buffered, hstored, htext, hall⟩ := hk.stores 0 hpos
    obtain ⟨hbuffered, hlen⟩ := hk.tidy.bufferedText hpos hname hv
    rw [htext] at hbuffered hlen
    have hsize' : ((bytesOf (linesIn cs)).length + (linesIn cs).length : ℤ) ≤ INT_MAX := by
      have hbytes := congrArg (fun ls => (bytesOf ls).length) hall
      have hlines := congrArg List.length hall
      simp only [bytesOf_append, List.length_append] at hbytes hlines
      omega
    obtain ⟨text, hlines, hsame, hout⟩ := hstored.stores_onDisk.output hsize'
    have hread : ∀ fresh buf size offset stack t out,
        lfsRead (s.restart fresh) f.path buf size offset stack = some (t, out) →
          nonEmptyLines out = (linesIn cs).map Line.render := by
      intro fresh buf size offset stack t out hop
      rw [hsame buf out ((hinv.lfsRead_restart hi hname hshort hv).mp ⟨t, hop⟩).2, hlines]
    refine ⟨linesIn cs, buffered, hall, hlen, hbuffered, fun fresh => ⟨fun hne => ?_, fun hnone => ?_⟩⟩
    · refine ⟨hread fresh, text.length, fun buf size offset stack hbuf hstack => ?_⟩
      have hcount : 0 < (s.records 0).numPaths := by
        have hlen := (s.records 0).length_paths
        have hpaths : (s.records 0).paths.length = cs.length := by
          rw [hv.mdata, show v.mdata.paths = _ from hstored.paths, List.length_map]
        have hcs : cs ≠ [] := fun hcs => hne (by rw [hcs]; rfl)
        have hpos := List.length_pos_iff.mpr hcs
        omega
      have hfound : ∃ t k, metaDataBlock (s.restart fresh) f.path stack = some (t, k) :=
        (hinv.restart_found_iff hi hname hshort hstack).mpr (Or.inl hcount)
      obtain ⟨t, hop⟩ := (hinv.lfsRead_restart hi hname hshort hv).mpr ⟨hfound, hout buf hbuf⟩
      rw [hop]
      rfl
    · intro buf size offset stack t out hop
      rw [hread fresh buf size offset stack t out hop, hnone]
      rfl

theorem restart_keeps_prefix_flushedClean : (run step Fs.init flushedClean).isSome ∧
    ∀ s, run step Fs.init flushedClean = some s → ∃ kept lost,
      kept ++ lost = flushedClean.flatMap cleanLines ∧ (bytesOf lost).length < BLOCK_SIZE ∧
      bufferedText s firstFile.path = some (bytesOf lost) ∧ ∀ fresh,
        (kept ≠ [] → ReadsBack (s.restart fresh) firstFile kept) ∧
        (kept = [] → ∀ buf size offset stack t out,
          lfsRead (s.restart fresh) firstFile.path buf size offset stack = some (t, out) →
            nonEmptyLines out = []) := by
  have hword : IsWord firstFile.chars := by decide
  obtain ⟨hruns, hok⟩ := flushes_flushedClean
  refine ⟨hruns, fun s hrun => ?_⟩
  exact restart_keeps_prefix hword file_flushedClean carries_cleanLines size_flushedClean
    (hok.imp fun _ _ h => h.1)
    (always_of_each (pathsClean_init _) (fun _ _ t _ h ht => h.2 t ht) hok) hrun

end QuorumLogFs.Log
