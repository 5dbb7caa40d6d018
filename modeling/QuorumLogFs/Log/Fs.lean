import QuorumLogFs.Basis.Runs
import QuorumLogFs.Log.Flush

/-!
# The log file system

Reference: `lfs_fuse.c`.

The state holds the two caches, the records that the metadata cache owns, and what lies on disk:
one metadata file per log file and the chunk files. The operations are those of a file in use:
`mknod`, `getattr`, `open`, `read` and `write`. File calls succeed, except that a file which does not
exist is not found. An operation that calls `exit`, fails an assertion or leaves an array has no
result.
-/

namespace QuorumLogFs.Log

open QuorumLogFs.Basis

def LOAD_PATH : List Char := "/home/vino/Desktop/serverfilesystem".toList
def MDATA_PATH : List Char := "/home/vino/Desktop/ESS/metadata/".toList
def CHUNK_PATH : List Char := "/home/vino/Desktop/ESS/Chunks/".toList

/-- The array length of `load_path`. -/
def LOAD_PATH_SIZE : ℕ := 500

def ENOENT : ℤ := 2
def EEXIST : ℤ := 17

/-- The state of the file system. Metadata files are named by the file they describe;
`loadFiles` are the names under `LOAD_PATH`. -/
structure Fs where
  metaDataCache : Cache
  bufferCache : Cache
  records : ℕ → Mdata
  mdataFiles : List Char → Option (List Char)
  chunkFiles : ChunkFiles
  loadFiles : List Char → Bool
  loadPath : List Char

/-- `main`: both caches are created, and nothing is on disk. `fresh` is what the memory of the write
buffers holds, zeros unless said otherwise. -/
def Fs.init (fresh : ℕ → List Char := fun _ => zeros 4096) : Fs where
  metaDataCache := createCache 100 1 .METADATA_CACHE
  bufferCache := createCache (4096 * 10) 4096 .WRITE_BUFFER fresh
  records _ := Mdata.empty
  mdataFiles _ := none
  chunkFiles _ := none
  loadFiles _ := false
  loadPath := []

/-! ## Metadata files -/

/-- What `write_metadata_to_disk` prints. -/
def encodeMdata (m : Mdata) : List Char :=
  "Filename:".toList ++ (m.fileName ++ '\n' :: ("NumPaths:".toList ++ (decimal m.numPaths ++
    '\n' :: ("Size:".toList ++ (decimal m.size ++ '\n' :: ("Paths:".toList ++
      (m.paths.flatMap (· ++ [';']) ++ ['\n'])))))))

/-- Bytes written over the start of a file: what lies behind them stays. -/
def overwrite (bytes old : List Char) : List Char := bytes ++ old.drop bytes.length

/-- `write_metadata_to_disk(mdata,MDATA_PATH)` -/
def writeMetadataToDisk (mdata : Mdata) (files : List Char → Option (List Char)) :
    Option (List Char → Option (List Char)) :=
  if (MDATA_PATH ++ mdata.fileName).length < MAX_PATH_NAME_SIZE ∧
      (encodeMdata mdata).length < MAX_MDATA_FILE_SIZE then
    some (Function.update files mdata.fileName
      (some (overwrite (encodeMdata mdata) ((files mdata.fileName).getD []))))
  else none

/-- `sscanf(buf,"Filename:%s\nNumPaths:%d\nSize:%d\nPaths:%s",…)` -/
def scanMdata (buf : List Char) : List Arg :=
  scan (("Filename:".toList.map .lit) ++ .str true :: .white :: (("NumPaths:".toList.map .lit) ++
    .int :: .white :: (("Size:".toList.map .lit) ++ .int :: .white ::
      (("Paths:".toList.map .lit) ++ [.str true])))) buf

/-- The loops that split the scanned paths at `;`. They read on until they find it. -/
def splitPaths : ℕ → List Char → Option (List (List Char))
  | 0, _ => some []
  | n + 1, paths =>
    let path := paths.takeWhile (· ≠ ';')
    if ';' ∈ paths ∧ path.length < MAX_PATH_NAME_SIZE then
      (splitPaths n (paths.drop (path.length + 1))).map (path :: ·)
    else none

/-- What `mdata_from_disk_to_memory` makes of the bytes of a metadata file, over the old content of
the record; the inner `none` is the result `NULL`. -/
def parseMdata (old : Mdata) (buf : List Char) : Option (Option Mdata) :=
  if MAX_FILE_NAME_SIZE ≤ (argStr (scanMdata buf) 0 []).length then none
  else
    match scanMdata buf with
    | [.str file_name, .int num_paths, .int size, .str paths] =>
      if paths.length < MAX_MDATA_FILE_SIZE ∧ storedInt num_paths ≤ MAX_PATHS then
        (splitPaths (storedInt num_paths).toNat paths).map fun ps =>
          some ⟨file_name, storedInt num_paths, fun i => ps[i]?.getD (old.path i), storedInt size,
            isInt_storedInt _, isInt_storedInt _⟩
      else none
    | _ => some none

/-- `if(result == WRITE_BACK) write_metadata_to_disk(…)`, for the record of block `i`. -/
def writeBackMdata (s : Fs) (i result : ℕ) : Option (List Char → Option (List Char)) :=
  if result = WRITE_BACK then writeMetadataToDisk (s.records i) s.mdataFiles
  else some s.mdataFiles

/-- `mdata_from_disk_to_memory`, whose result is not `NULL`: all its callers assert that. `stack` is
what its buffer holds behind the bytes it reads. -/
def mdataFromDiskToMemory (s : Fs) (filepath stack : List Char) : Option (Fs × ℕ) :=
  if (MDATA_PATH ++ filepath).length < MAX_PATH_NAME_SIZE then do
    let (i, result, cache) ← getFreeCacheBlock s.metaDataCache
    let files ← writeBackMdata s i result
    let bytes ← files filepath.tail
    let buf ← stringAt (bytes.take MAX_MDATA_FILE_SIZE ++ stack) 0
    let mdata ← (parseMdata (s.records i) buf).join
    some ({ s with
      metaDataCache := updateLru cache i
      records := Function.update s.records i mdata
      mdataFiles := files }, i)
  else none

/-- The first lines of `lfs_getattr`, `lfs_read` and `lfs_write`: the metadata block of a file, read
from disk when it is not in the cache. -/
def metaDataBlock (s : Fs) (path stack : List Char) : Option (Fs × ℕ) :=
  match findMetaDataBlock s.records s.metaDataCache path.tail with
  | some i => some ({ s with metaDataCache := updateLru s.metaDataCache i }, i)
  | none => mdataFromDiskToMemory s path stack

/-! ## The operations -/

/-- `lfs_mknod` of a regular file. The result of `get_free_cache_block` is not looked at. The name in
the record, and with it that of the metadata file, ends with the array `file_name`. -/
def lfsMknod (s : Fs) (path : List Char) : Option (Fs × ℤ) :=
  if (LOAD_PATH ++ path).length < LOAD_PATH_SIZE ∧ (MDATA_PATH ++ path).length < 500 then do
    let (i, _, cache) ← getFreeCacheBlock s.metaDataCache
    let mdata := (s.records i).named path.tail
    let files ← writeMetadataToDisk mdata s.mdataFiles
    some ({ s with
      metaDataCache := updateLru cache i
      records := Function.update s.records i mdata
      mdataFiles := files
      loadFiles := Function.update s.loadFiles path.tail true
      loadPath := LOAD_PATH ++ path }, if s.loadFiles path.tail then -EEXIST else 0)
  else none

/-- `lfs_open` -/
def lfsOpen (s : Fs) (path : List Char) : Option (Fs × ℤ) :=
  if (LOAD_PATH ++ path).length < LOAD_PATH_SIZE then
    some ({ s with loadPath := LOAD_PATH ++ path }, if s.loadFiles path.tail then 0 else -ENOENT)
  else none

/-- What `lfs_getattr` leaves in `stbuf`, or the error it returns. -/
inductive Attr where
  | error (errno : ℤ)
  /-- As `lstat` filled it in. -/
  | lstat
  | st_size (n : ℤ)
deriving DecidableEq

/-- `lfs_getattr` -/
def lfsGetattr (s : Fs) (path stack : List Char) : Option (Fs × Attr) :=
  if (MDATA_PATH ++ path).length < MAX_PATH_NAME_SIZE then
    if path = ['/'] then some (s, .lstat)
    else if s.mdataFiles path.tail = none then some (s, .error (-ENOENT))
    else if path.tail.head? = some '.' then some (s, .lstat)
    else do
      let (s, i) ← metaDataBlock s path stack
      let mdata := s.records i
      match findMetaDataBlock s.records s.bufferCache path.tail with
      | none => some (s, .st_size (mdata.size + mdata.numPaths))
      | some j => some ({ s with bufferCache := updateLru s.bufferCache j },
          .st_size (wrap32 (mdata.size + (s.bufferCache.cblocks j).offset) + mdata.numPaths))
  else none

/-- `fread(…,1,size,fptr)` on a file with these bytes. -/
def fread (size : ℤ) (bytes : List Char) : List Char :=
  if size < 0 then bytes else bytes.take size.toNat

/-- The loop of `lfs_read` over the paths: each chunk and a newline. -/
def readChunks (size : ℤ) (chunkFiles : ChunkFiles) : List (List Char) → Option (List Char)
  | [] => some []
  | path :: paths => do
    let bytes ← chunkFiles path
    let rest ← readChunks size chunkFiles paths
    some (fread size bytes ++ '\n' :: rest)

/-- What `lfs_read` puts into the caller's buffer `buf`: the chunks, then the string `text` of the
write buffer, appended by `strcat`. -/
def fillBuffer (buf chunks text : List Char) : Option (List Char) :=
  if chunks.length < buf.length ∧ (chunks.length + text.length : ℤ) ≤ INT_MAX then
    (strcat (chunks ++ nul :: buf.drop (chunks.length + 1)) text).map
      (·.take (chunks.length + text.length))
  else none

/-- The string in the write buffer of a file, if it has one. -/
def bufferedText (s : Fs) (path : List Char) : Option (List Char) :=
  match findMetaDataBlock s.records s.bufferCache path.tail with
  | none => some []
  | some j => stringAt (s.bufferCache.cblocks j).buf 0

/-- `lfs_read`. It uses neither `size` nor `offset`; its result is the number of bytes that are
delivered. -/
def lfsRead (s : Fs) (path buf : List Char) (_size _offset : ℕ) (stack : List Char) :
    Option (Fs × List Char) := do
  let (s, i) ← metaDataBlock s path stack
  let mdata := s.records i
  let chunks ← readChunks mdata.size s.chunkFiles mdata.paths
  let text ← bufferedText s path
  let out ← fillBuffer buf chunks text
  some (s, out)

/-- `write_buffer_to_disk` and `write_metadata_to_disk` for one write buffer. -/
def flushBlock (s : Fs) (j : ℕ) (junk : Junk) : Option Fs := do
  let i ← (s.bufferCache.cblocks j).mdata
  let (block, mdata, chunks) ← writeBufferToDisk junk CHUNK_PATH (s.bufferCache.cblocks j)
    s.bufferCache.cacheBlockSize (s.records i, s.chunkFiles)
  let files ← writeMetadataToDisk mdata s.mdataFiles
  some { s with
    bufferCache := s.bufferCache.set j block
    records := Function.update s.records i mdata
    chunkFiles := chunks
    mdataFiles := files }

/-- Uninitialised memory met by `lfs_write`. -/
structure WriteJunk where
  stack : List Char := [nul]
  evict : Junk := {}
  full : Junk := {}

/-- A block that is still in use is flushed before it changes hands. -/
def evictBlock (s : Fs) (j result : ℕ) (junk : Junk) : Option Fs :=
  if result = WRITE_BACK then flushBlock s j junk else some s

/-- Let a write buffer point to a record. -/
def Fs.assign (s : Fs) (j : ℕ) (mdata : Option ℕ) : Fs :=
  { s with bufferCache := s.bufferCache.set j { s.bufferCache.cblocks j with mdata := mdata } }

/-- The write buffer of a file, taken from another file when all are in use. -/
def wbufDataBlock (s : Fs) (path : List Char) (mdata : Option ℕ) (junk : Junk) :
    Option (Fs × ℕ) :=
  match findMetaDataBlock s.records s.bufferCache path.tail with
  | some j => some (s, j)
  | none => do
    let (j, result, cache) ← getFreeCacheBlock s.bufferCache
    let s ← evictBlock { s with bufferCache := cache } j result junk
    some (s.assign j mdata, j)

/-- A block that the text would overfill is flushed first. -/
def makeRoom (s : Fs) (j : ℕ) (text : List Char) (junk : Junk) : Option Fs :=
  if s.bufferCache.cacheBlockSize < (s.bufferCache.cblocks j).offset + text.length then
    flushBlock s j junk
  else some s

/-- `update_lru(buffer_cache,…); strcat(…->buf,buf); …->offset += strlen(buf);` -/
def appendText (s : Fs) (j : ℕ) (text : List Char) : Option Fs :=
  (strcat (s.bufferCache.cblocks j).buf text).map fun buf =>
    { s with
      bufferCache := (updateLru s.bufferCache j).set j
        { (updateLru s.bufferCache j).cblocks j with
          buf := buf, offset := (s.bufferCache.cblocks j).offset + text.length } }

/-- `lfs_write`. It writes the string in `buf` and uses neither `size` nor `offset`. -/
def lfsWrite (s : Fs) (path buf : List Char) (_size _offset : ℕ) (junk : WriteJunk) :
    Option (Fs × ℕ) :=
  if (s.loadPath ++ path).length < LOAD_PATH_SIZE then do
    let text ← stringAt buf 0
    let (s, i) ← metaDataBlock { s with loadPath := s.loadPath ++ path } path junk.stack
    let (s, j) ← wbufDataBlock s path (s.metaDataCache.cblocks i).mdata junk.evict
    let s ← makeRoom s j text junk.full
    let s ← appendText s j text
    some (s, text.length)
  else none

/-! ## Runs -/

/-- A file name as the operating system passes it. -/
@[ext] structure Name where
  chars : List Char
  ne_nil : chars ≠ []
  noSlash : '/' ∉ chars
  noNul : nul ∉ chars

instance : DecidableEq Name := fun f g => decidable_of_iff (f.chars = g.chars) Name.ext_iff.symm

/-- The path of a file in the root directory. -/
def Name.path (f : Name) : List Char := '/' :: f.chars

@[simp] theorem Name.tail_path (f : Name) : f.path.tail = f.chars := rfl

/-- A call of one of the operations, with the caller's memory and what uninitialised memory
holds. -/
inductive Op where
  | mknod (f : Name)
  | open (f : Name)
  | getattr (f : Name) (stack : List Char)
  | read (f : Name) (buf stack : List Char)
  | write (f : Name) (buf : List Char) (junk : WriteJunk)

/-- One call. -/
def step (s : Fs) : Op → Option Fs
  | .mknod f => (lfsMknod s f.path).map Prod.fst
  | .open f => (lfsOpen s f.path).map Prod.fst
  | .getattr f stack => (lfsGetattr s f.path stack).map Prod.fst
  | .read f buf stack => (lfsRead s f.path buf 0 0 stack).map Prod.fst
  | .write f buf junk => (lfsWrite s f.path buf 0 0 junk).map Prod.fst

/-! ## What each part changes -/

variable {s s' : Fs} {path stack : List Char}

theorem writeMetadataToDisk_eq_some {m : Mdata} {files files' : List Char → Option (List Char)}
    (h : writeMetadataToDisk m files = some files') :
    files' = Function.update files m.fileName
      (some (overwrite (encodeMdata m) ((files m.fileName).getD []))) := by
  unfold writeMetadataToDisk at h
  split at h
  · exact (Option.some.inj h).symm
  · cases h

/-- What is on disk afterwards was there before or is the record's own file. -/
theorem writeMetadataToDisk_ne_none {m : Mdata} {files files' : List Char → Option (List Char)}
    (h : writeMetadataToDisk m files = some files') {name : List Char} :
    files' name ≠ none ↔ name = m.fileName ∨ files name ≠ none := by
  rw [writeMetadataToDisk_eq_some h]
  by_cases hn : name = m.fileName
  · simp [hn]
  · simp [hn]

/-- A reload takes the victim block, writes its record back if it was in use, and the record read
from disk replaces it. -/
theorem mdataFromDiskToMemory_eq_some {i : ℕ}
    (h : mdataFromDiskToMemory s path stack = some (s', i)) :
    ∃ files bytes buf mdata,
      (MDATA_PATH ++ path).length < MAX_PATH_NAME_SIZE ∧
      victim (fun i => (s.metaDataCache.cblocks i).lruCounter) s.metaDataCache.numBlocks = some i ∧
      (files = s.mdataFiles ∨ (s.metaDataCache.cblocks i).freeFlag = false ∧
        writeMetadataToDisk (s.records i) s.mdataFiles = some files) ∧
      files path.tail = some bytes ∧
      stringAt (bytes.take MAX_MDATA_FILE_SIZE ++ stack) 0 = some buf ∧
      parseMdata (s.records i) buf = some (some mdata) ∧
      s' = { s with
        metaDataCache := updateLru (s.metaDataCache.take i) i
        records := Function.update s.records i mdata
        mdataFiles := files } := by
  unfold mdataFromDiskToMemory getFreeCacheBlock at h
  split at h
  · rename_i hlen
    simp only [Option.bind_eq_bind, Option.bind_eq_some_iff, Option.map_eq_some_iff] at h
    obtain ⟨⟨i', result, cache⟩, ⟨v, hv, heq⟩, files, hfiles, bytes, hbytes, buf, hbuf, mdata, hm,
      hs⟩ := h
    obtain ⟨rfl, rfl, rfl⟩ := by simpa using heq
    obtain ⟨rfl, rfl⟩ := by simpa using hs
    refine ⟨files, bytes, buf, mdata, hlen, hv, ?_, hbytes, hbuf, Option.join_eq_some_iff.mp hm, rfl⟩
    unfold writeBackMdata at hfiles
    by_cases hfree : (s.metaDataCache.cblocks v).freeFlag = false
    · rw [if_pos hfree, if_pos rfl] at hfiles
      exact Or.inr ⟨hfree, hfiles⟩
    · rw [if_neg hfree, if_neg (show NORMAL ≠ WRITE_BACK by decide)] at hfiles
      exact Or.inl (Option.some.inj hfiles).symm
  · cases h

theorem metaDataBlock_found {i : ℕ}
    (hfind : findMetaDataBlock s.records s.metaDataCache path.tail = some i) :
    metaDataBlock s path stack =
      some ({ s with metaDataCache := updateLru s.metaDataCache i }, i) := by
  unfold metaDataBlock
  rw [hfind]

theorem metaDataBlock_reload
    (hfind : findMetaDataBlock s.records s.metaDataCache path.tail = none) :
    metaDataBlock s path stack = mdataFromDiskToMemory s path stack := by
  unfold metaDataBlock
  rw [hfind]

/-- The write buffers are not touched. -/
theorem metaDataBlock_bufferCache (h : metaDataBlock s path stack = some (s', i)) :
    s'.bufferCache = s.bufferCache := by
  cases hfind : findMetaDataBlock s.records s.metaDataCache path.tail with
  | some k =>
    rw [metaDataBlock_found hfind] at h
    obtain ⟨rfl, -⟩ := Prod.mk.inj (Option.some.inj h)
    rfl
  | none =>
    rw [metaDataBlock_reload hfind] at h
    obtain ⟨files, bytes, buf, m, -, -, -, -, -, -, rfl⟩ := mdataFromDiskToMemory_eq_some h
    rfl

theorem lfsMknod_eq_some {code : ℤ} (h : lfsMknod s path = some (s', code)) :
    ∃ i files,
      victim (fun i => (s.metaDataCache.cblocks i).lruCounter) s.metaDataCache.numBlocks = some i ∧
      writeMetadataToDisk ((s.records i).named path.tail) s.mdataFiles = some files ∧
      s' = { s with
        metaDataCache := updateLru (s.metaDataCache.take i) i
        records := Function.update s.records i ((s.records i).named path.tail)
        mdataFiles := files
        loadFiles := Function.update s.loadFiles path.tail true
        loadPath := LOAD_PATH ++ path } := by
  unfold lfsMknod getFreeCacheBlock at h
  split at h
  · simp only [Option.bind_eq_bind, Option.bind_eq_some_iff, Option.map_eq_some_iff] at h
    obtain ⟨⟨i', result, cache⟩, ⟨v, hv, heq⟩, files, hfiles, hs⟩ := h
    obtain ⟨rfl, -, rfl⟩ := by simpa using heq
    obtain ⟨rfl, -⟩ := Prod.mk.inj (Option.some.inj hs)
    exact ⟨_, files, hv, hfiles, rfl⟩
  · cases h

/-- `lfs_getattr` looks for the metadata file; if it is there, at most the metadata block of the file
and the counters change. -/
theorem lfsGetattr_eq_some {attr : Attr} (h : lfsGetattr s path stack = some (s', attr)) :
    (attr = .error (-ENOENT) ↔ path ≠ ['/'] ∧ s.mdataFiles path.tail = none) ∧
      (s' = s ∨ (s.mdataFiles path.tail ≠ none ∧ path.tail.head? ≠ some '.') ∧
        ∃ s₁ i, metaDataBlock s path stack = some (s₁, i) ∧
          (s' = s₁ ∨ ∃ j, s' = { s₁ with bufferCache := updateLru s₁.bufferCache j })) := by
  unfold lfsGetattr at h
  split at h
  · split at h
    · rename_i hroot
      obtain ⟨rfl, rfl⟩ := Prod.mk.inj (Option.some.inj h)
      exact ⟨by simp [hroot], Or.inl rfl⟩
    · rename_i hroot
      split at h
      · rename_i hnone
        obtain ⟨rfl, rfl⟩ := Prod.mk.inj (Option.some.inj h)
        exact ⟨by simp [hroot, hnone], Or.inl rfl⟩
      · rename_i hfound
        split at h
        · obtain ⟨rfl, rfl⟩ := Prod.mk.inj (Option.some.inj h)
          exact ⟨by simp [hfound], Or.inl rfl⟩
        · rename_i hdot
          simp only [Option.bind_eq_bind, Option.bind_eq_some_iff] at h
          obtain ⟨⟨s₁, i⟩, h₁, h⟩ := h
          split at h
          · obtain ⟨rfl, rfl⟩ := Prod.mk.inj (Option.some.inj h)
            exact ⟨by simp [hfound], Or.inr ⟨⟨hfound, hdot⟩, s₁, i, h₁, Or.inl rfl⟩⟩
          · obtain ⟨rfl, rfl⟩ := Prod.mk.inj (Option.some.inj h)
            exact ⟨by simp [hfound], Or.inr ⟨⟨hfound, hdot⟩, s₁, i, h₁, Or.inr ⟨_, rfl⟩⟩⟩
  · cases h

theorem lfsRead_eq_some_iff {buf out : List Char} {size offset : ℕ} :
    lfsRead s path buf size offset stack = some (s', out) ↔
      ∃ i chunks text, metaDataBlock s path stack = some (s', i) ∧
        readChunks (s'.records i).size s'.chunkFiles (s'.records i).paths = some chunks ∧
        bufferedText s' path = some text ∧ fillBuffer buf chunks text = some out := by
  unfold lfsRead
  simp only [Option.bind_eq_bind, Option.bind_eq_some_iff]
  constructor
  · rintro ⟨⟨s₁, i⟩, h₁, chunks, hchunks, text, htext, out', hout, heq⟩
    obtain ⟨rfl, rfl⟩ := Prod.mk.inj (Option.some.inj heq)
    exact ⟨i, chunks, text, h₁, hchunks, htext, hout⟩
  · rintro ⟨i, chunks, text, h₁, hchunks, htext, hout⟩
    exact ⟨(s', i), h₁, chunks, hchunks, text, htext, out, hout, rfl⟩

/-- Reading a file changes nothing but its metadata block. -/
theorem lfsRead_metaDataBlock {buf out : List Char} {size offset : ℕ}
    (h : lfsRead s path buf size offset stack = some (s', out)) :
    ∃ i, metaDataBlock s path stack = some (s', i) := by
  obtain ⟨i, -, -, h₁, -⟩ := lfsRead_eq_some_iff.mp h
  exact ⟨i, h₁⟩

theorem bufferedText_of_none (h : findMetaDataBlock s.records s.bufferCache path.tail = none) :
    bufferedText s path = some [] := by
  unfold bufferedText
  rw [h]

/-- A flush replaces one block, its record, the chunk files and the metadata file. -/
theorem flushBlock_eq_some {j : ℕ} {junk : Junk} (h : flushBlock s j junk = some s') :
    ∃ i block mdata chunks files,
      (s.bufferCache.cblocks j).mdata = some i ∧
      writeBufferToDisk junk CHUNK_PATH (s.bufferCache.cblocks j) s.bufferCache.cacheBlockSize
        (s.records i, s.chunkFiles) = some (block, mdata, chunks) ∧
      writeMetadataToDisk mdata s.mdataFiles = some files ∧
      s' = { s with
        bufferCache := s.bufferCache.set j block
        records := Function.update s.records i mdata
        chunkFiles := chunks
        mdataFiles := files } := by
  unfold flushBlock at h
  simp only [Option.bind_eq_bind, Option.bind_eq_some_iff] at h
  obtain ⟨i, hi, ⟨block, mdata, chunks⟩, hflush, files, hfiles, hs⟩ := h
  exact ⟨i, block, mdata, chunks, files, hi, hflush, hfiles, (Option.some.inj hs).symm⟩

theorem wbufDataBlock_found {j : ℕ} {mdata : Option ℕ} {junk : Junk}
    (hfind : findMetaDataBlock s.records s.bufferCache path.tail = some j) :
    wbufDataBlock s path mdata junk = some (s, j) := by
  unfold wbufDataBlock
  rw [hfind]

/-- A file without a write buffer takes the victim block. -/
theorem wbufDataBlock_eq_some {j : ℕ} {mdata : Option ℕ} {junk : Junk}
    (hfind : findMetaDataBlock s.records s.bufferCache path.tail = none)
    (h : wbufDataBlock s path mdata junk = some (s', j)) :
    victim (fun j => (s.bufferCache.cblocks j).lruCounter) s.bufferCache.numBlocks = some j ∧
      ∃ t, evictBlock { s with bufferCache := s.bufferCache.take j } j
          (if (s.bufferCache.cblocks j).freeFlag = false then WRITE_BACK else NORMAL) junk =
            some t ∧ s' = t.assign j mdata := by
  unfold wbufDataBlock getFreeCacheBlock at h
  rw [hfind] at h
  simp only [Option.bind_eq_bind, Option.bind_eq_some_iff, Option.map_eq_some_iff] at h
  obtain ⟨⟨j', result, cache⟩, ⟨v, hv, heq⟩, t, ht, hs⟩ := h
  obtain ⟨rfl, rfl, rfl⟩ := by simpa using heq
  obtain ⟨rfl, rfl⟩ := Prod.mk.inj (Option.some.inj hs)
  exact ⟨hv, t, ht, rfl⟩

theorem lfsWrite_eq_some {buf : List Char} {size offset n : ℕ} {junk : WriteJunk}
    (h : lfsWrite s path buf size offset junk = some (s', n)) :
    ∃ text s₁ i s₂ j s₃,
      stringAt buf 0 = some text ∧
      metaDataBlock { s with loadPath := s.loadPath ++ path } path junk.stack = some (s₁, i) ∧
      wbufDataBlock s₁ path (s₁.metaDataCache.cblocks i).mdata junk.evict = some (s₂, j) ∧
      makeRoom s₂ j text junk.full = some s₃ ∧ appendText s₃ j text = some s' ∧
      n = text.length := by
  unfold lfsWrite at h
  split at h
  · simp only [Option.bind_eq_bind, Option.bind_eq_some_iff] at h
    obtain ⟨text, htext, ⟨s₁, i⟩, h₁, ⟨s₂, j⟩, h₂, s₃, h₃, s₄, h₄, hs⟩ := h
    obtain ⟨rfl, rfl⟩ := Prod.mk.inj (Option.some.inj hs)
    exact ⟨text, s₁, i, s₂, j, s₃, htext, h₁, h₂, h₃, h₄, rfl⟩
  · cases h

/-- The parts of a write, put together. -/
theorem lfsWrite_of_parts {s₁ s₂ s₃ : Fs} {buf text : List Char} {i j size offset : ℕ}
    {junk : WriteJunk} (hload : (s.loadPath ++ path).length < LOAD_PATH_SIZE)
    (htext : stringAt buf 0 = some text)
    (h₁ : metaDataBlock { s with loadPath := s.loadPath ++ path } path junk.stack = some (s₁, i))
    (h₂ : wbufDataBlock s₁ path (s₁.metaDataCache.cblocks i).mdata junk.evict = some (s₂, j))
    (h₃ : makeRoom s₂ j text junk.full = some s₃) (h₄ : appendText s₃ j text = some s') :
    lfsWrite s path buf size offset junk = some (s', text.length) := by
  unfold lfsWrite
  rw [if_pos hload]
  simp only [htext, h₁, h₂, h₃, h₄, Option.bind_eq_bind, Option.bind_some]

/-! ## What a flush leaves alone -/

/-- The caches of `s'` are those of `s` except for what the write buffers hold. -/
structure Fs.Framed (s s' : Fs) : Prop where
  metaDataCache : s'.metaDataCache = s.metaDataCache
  fileName : ∀ i, (s'.records i).fileName = (s.records i).fileName
  numBlocks : s'.bufferCache.numBlocks = s.bufferCache.numBlocks
  mdata : ∀ j, (s'.bufferCache.cblocks j).mdata = (s.bufferCache.cblocks j).mdata
  freeFlag : ∀ j, (s'.bufferCache.cblocks j).freeFlag = (s.bufferCache.cblocks j).freeFlag

theorem Fs.Framed.refl (s : Fs) : s.Framed s := ⟨rfl, fun _ => rfl, rfl, fun _ => rfl, fun _ => rfl⟩

theorem Fs.Framed.trans {s₁ s₂ s₃ : Fs} (h : s₁.Framed s₂) (h' : s₂.Framed s₃) : s₁.Framed s₃ :=
  ⟨h'.metaDataCache.trans h.metaDataCache, fun i => (h'.fileName i).trans (h.fileName i),
    h'.numBlocks.trans h.numBlocks, fun j => (h'.mdata j).trans (h.mdata j),
    fun j => (h'.freeFlag j).trans (h.freeFlag j)⟩

/-- A search in either cache finds what it found before. -/
theorem Fs.Framed.find (h : s.Framed s') (name : List Char) :
    findMetaDataBlock s'.records s'.metaDataCache name =
        findMetaDataBlock s.records s.metaDataCache name ∧
      findMetaDataBlock s'.records s'.bufferCache name =
        findMetaDataBlock s.records s.bufferCache name := by
  refine ⟨?_, findMetaDataBlock_congr h.numBlocks h.mdata h.freeFlag h.fileName⟩
  rw [h.metaDataCache]
  exact findMetaDataBlock_congr rfl (fun _ => rfl) (fun _ => rfl) h.fileName

theorem flushBlock_framed {j : ℕ} {junk : Junk} (h : flushBlock s j junk = some s') :
    s.Framed s' := by
  obtain ⟨i, block, mdata, chunks, files, hi, hflush, -, rfl⟩ := flushBlock_eq_some h
  obtain ⟨hmdata, hfree, -, -, hname⟩ := writeBufferToDisk_frame hflush
  refine ⟨rfl, fun k => ?_, rfl, fun k => ?_, fun k => ?_⟩
  · show (Function.update s.records i mdata k).fileName = (s.records k).fileName
    by_cases hk : k = i
    · rw [hk, Function.update_self, hname]
    · rw [Function.update_of_ne hk]
  · by_cases hk : k = j
    · rw [hk, Cache.cblocks_set_self, hmdata]
    · rw [Cache.cblocks_set_of_ne _ hk]
  · by_cases hk : k = j
    · rw [hk, Cache.cblocks_set_self, hfree]
    · rw [Cache.cblocks_set_of_ne _ hk]

theorem evictBlock_framed {j result : ℕ} {junk : Junk}
    (h : evictBlock s j result junk = some s') : s.Framed s' := by
  unfold evictBlock at h
  split at h
  · exact flushBlock_framed h
  · exact Option.some.inj h ▸ Fs.Framed.refl s

theorem makeRoom_framed {j : ℕ} {text : List Char} {junk : Junk}
    (h : makeRoom s j text junk = some s') : s.Framed s' := by
  unfold makeRoom at h
  split at h
  · exact flushBlock_framed h
  · exact Option.some.inj h ▸ Fs.Framed.refl s

theorem appendText_framed {j : ℕ} {text : List Char} (h : appendText s j text = some s') :
    s.Framed s' := by
  obtain ⟨buf, -, rfl⟩ := Option.map_eq_some_iff.mp h
  refine ⟨rfl, fun _ => rfl, rfl, fun k => ?_, fun k => ?_⟩ <;>
  · by_cases hk : k = j
    · rw [hk, Cache.cblocks_set_self]
      rfl
    · rw [Cache.cblocks_set_of_ne _ hk]
      rfl

end QuorumLogFs.Log
