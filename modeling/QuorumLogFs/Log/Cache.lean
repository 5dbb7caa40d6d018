import Mathlib.Logic.Function.Basic
import QuorumLogFs.Basis.Int32
import QuorumLogFs.Basis.Lru
import QuorumLogFs.Basis.Memory

/-!
# The block caches

Reference: `log_fs.h`, `Cache.h`, `Cache.c`.

The file system keeps a cache of metadata records and a cache of write buffers. Both are arrays of
the same kind of block; block `i` of the metadata cache owns the record at address `i`, and a block
of the write-buffer cache points to the record of the file it buffers.
-/

namespace QuorumLogFs.Log

open QuorumLogFs.Basis

def MAX_FILE_NAME_SIZE : ℕ := 100
def MAX_PATH_NAME_SIZE : ℕ := 200
def MAX_PATHS : ℕ := 1000
def MAX_MDATA_FILE_SIZE : ℕ := 200 * 1000 + 300
def MAX_LINE_SIZE : ℕ := 200

/-- The results of `get_free_cache_block`. -/
def WRITE_BACK : ℕ := 4
def NORMAL : ℕ := 0

/-- `MDATA`: what is known of one file. Only the first `numPaths` entries of `path` count. -/
structure Mdata where
  fileName : List Char
  numPaths : ℤ
  path : ℕ → List Char
  size : ℤ
  numPaths_isInt : IsInt numPaths := by decide
  size_isInt : IsInt size := by decide

/-- `struct cache_block`. A pointer to a record is the record's address, `none` is `NULL`. -/
structure CBlock where
  mdata : Option ℕ
  freeFlag : Bool
  buf : List Char
  offset : ℕ
  lruCounter : ℕ

/-- `struct cache` -/
structure Cache where
  cblocks : ℕ → CBlock
  numBlocks : ℕ
  cacheBlockSize : ℕ

inductive CacheType where
  | METADATA_CACHE
  | WRITE_BUFFER

/-- `init_cache_block`: a metadata block gets a record of its own, a write buffer gets a block of
memory, which is not cleared. -/
def initCacheBlock (fresh : List Char) (i : ℕ) : CacheType → CBlock
  | .METADATA_CACHE => ⟨some i, true, [], 0, 0⟩
  | .WRITE_BUFFER => ⟨none, true, fresh, 0, 0⟩

/-- `create_cache`, for sizes that are multiples of the block and page size. `fresh` is what
`posix_memalign` delivers for each block: `block_size` bytes, all zero unless said otherwise. -/
def createCache (size block_size : ℕ) (type : CacheType)
    (fresh : ℕ → List Char := fun _ => zeros block_size) : Cache where
  cblocks i := initCacheBlock (fresh i) i type
  numBlocks :=
    match type with
    | .METADATA_CACHE => size
    | .WRITE_BUFFER => size / block_size
  cacheBlockSize := block_size

/-- Store a block. -/
def Cache.set (c : Cache) (i : ℕ) (b : CBlock) : Cache :=
  { c with cblocks := Function.update c.cblocks i b }

/-- Mark a block as allocated. -/
def Cache.take (c : Cache) (i : ℕ) : Cache := c.set i { c.cblocks i with freeFlag := false }

/-- `get_free_cache_block`: the index of the block, whether its old content has to be written back,
and the cache with the block marked as allocated. -/
def getFreeCacheBlock (c : Cache) : Option (ℕ × ℕ × Cache) :=
  (victim (fun i => (c.cblocks i).lruCounter) c.numBlocks).map fun index =>
    (index, if (c.cblocks index).freeFlag = false then WRITE_BACK else NORMAL, c.take index)

/-- `update_lru` -/
def updateLru (c : Cache) (cache_blk : ℕ) : Cache :=
  { c with
    cblocks := fun i => { c.cblocks i with
      lruCounter := touch c.numBlocks (fun j => (c.cblocks j).lruCounter) cache_blk i } }

/-- The test of `find_meta_data_block`: an allocated block whose record carries the name. -/
def CBlock.isFor (records : ℕ → Mdata) (file_name : List Char) (b : CBlock) : Bool :=
  !b.freeFlag &&
    match b.mdata with
    | some i => (records i).fileName = file_name
    | none => false

/-- `find_meta_data_block` -/
def findMetaDataBlock (records : ℕ → Mdata) (c : Cache) (file_name : List Char) : Option ℕ :=
  (List.range c.numBlocks).find? fun i => (c.cblocks i).isFor records file_name

/-! ## Records -/

/-- A record that has never been used. -/
def Mdata.empty : Mdata := { fileName := [], numPaths := 0, path := fun _ => [], size := 0 }

/-- The chunk files of a record, in the order they were created. -/
def Mdata.paths (m : Mdata) : List (List Char) := (List.range m.numPaths.toNat).map m.path

/-- The part of a file's name that its record holds. `strcpy` writes a longer name over `num_paths` and
the paths as well, but `lfs_mknod` then sets `num_paths` to zero, which ends the name there. -/
def recordName (name : List Char) : List Char := name.take MAX_FILE_NAME_SIZE

/-- The record that `lfs_mknod` makes of an old one. -/
def Mdata.named (m : Mdata) (name : List Char) : Mdata :=
  { m with
    fileName := recordName name
    numPaths := 0
    size := 0
    numPaths_isInt := by decide
    size_isInt := by decide }

/-- `mdata->size += n` -/
def Mdata.grow (m : Mdata) (n : ℕ) : Mdata :=
  { m with size := wrap32 (m.size + n), size_isInt := isInt_wrap32 _ }

theorem isInt_numPaths_succ {n : ℤ} (h : 0 ≤ n ∧ n < MAX_PATHS) : IsInt (n + 1) := by
  rw [IsInt, INT_MAX]
  have : (MAX_PATHS : ℤ) = 1000 := rfl
  omega

/-- `strcpy(mdata->path[mdata->num_paths++],chunk_file_name)` -/
def Mdata.pushPath (m : Mdata) (chunk_file_name : List Char) : Option Mdata :=
  if h : 0 ≤ m.numPaths ∧ m.numPaths < MAX_PATHS then
    some { m with
      numPaths := m.numPaths + 1
      path := Function.update m.path m.numPaths.toNat chunk_file_name
      numPaths_isInt := isInt_numPaths_succ h }
  else none

/-- A name that fits is recorded whole. -/
theorem recordName_eq_self {name : List Char} :
    recordName name = name ↔ name.length ≤ MAX_FILE_NAME_SIZE := List.take_eq_self_iff name

theorem mem_of_mem_recordName {name : List Char} {c : Char} (h : c ∈ recordName name) : c ∈ name :=
  List.mem_of_mem_take h

theorem recordName_ne_nil {name : List Char} (h : name ≠ []) : recordName name ≠ [] := by
  rw [recordName, Ne, List.take_eq_nil_iff, not_or]
  exact ⟨by decide, h⟩

/-- A recorded name that leaves room in its array has not been cut. -/
theorem recordName_of_lt {name : List Char} (h : (recordName name).length < MAX_FILE_NAME_SIZE) :
    recordName name = name := by
  rw [recordName_eq_self]
  rw [recordName, List.length_take] at h
  omega

theorem isWord_recordName {name : List Char} (h : IsWord name) : IsWord (recordName name) :=
  ⟨recordName_ne_nil h.1, fun c hc => h.2 c (mem_of_mem_recordName hc)⟩

section Named

variable (m : Mdata) (name : List Char)

@[simp] theorem Mdata.fileName_named : (m.named name).fileName = recordName name := rfl

@[simp] theorem Mdata.numPaths_named : (m.named name).numPaths = 0 := rfl

@[simp] theorem Mdata.size_named : (m.named name).size = 0 := rfl

@[simp] theorem Mdata.paths_named : (m.named name).paths = [] := rfl

end Named

section Grow

variable (m : Mdata) (n : ℕ)

@[simp] theorem Mdata.fileName_grow : (m.grow n).fileName = m.fileName := rfl

@[simp] theorem Mdata.numPaths_grow : (m.grow n).numPaths = m.numPaths := rfl

@[simp] theorem Mdata.path_grow : (m.grow n).path = m.path := rfl

@[simp] theorem Mdata.paths_grow : (m.grow n).paths = m.paths := rfl

@[simp] theorem Mdata.size_grow : (m.grow n).size = wrap32 (m.size + n) := rfl

end Grow

/-- What a new path changes of the record. -/
theorem Mdata.pushPath_eq_some {m m' : Mdata} {p : List Char} (h : m.pushPath p = some m') :
    0 ≤ m.numPaths ∧ m'.fileName = m.fileName ∧ m'.size = m.size ∧
      m'.path = Function.update m.path m.numPaths.toNat p := by
  unfold Mdata.pushPath at h
  split at h
  · rename_i hc
    obtain rfl := Option.some.inj h
    exact ⟨hc.1, rfl, rfl, rfl⟩
  · cases h

/-- A new path has a place in the array. -/
theorem Mdata.numPaths_pushPath {m m' : Mdata} {p : List Char} (h : m.pushPath p = some m') :
    m'.numPaths = m.numPaths + 1 ∧ m'.numPaths ≤ MAX_PATHS := by
  unfold Mdata.pushPath at h
  split at h
  · rename_i hc
    obtain rfl := Option.some.inj h
    refine ⟨rfl, ?_⟩
    show m.numPaths + 1 ≤ MAX_PATHS
    omega
  · cases h

/-- A new path goes to the end of the list. -/
theorem Mdata.paths_pushPath {m m' : Mdata} {p : List Char} (h : m.pushPath p = some m') :
    m'.paths = m.paths ++ [p] := by
  obtain ⟨hpos, -, -, hpath⟩ := Mdata.pushPath_eq_some h
  have hn : m'.numPaths.toNat = m.numPaths.toNat + 1 := by
    rw [(Mdata.numPaths_pushPath h).1]
    omega
  have hold : ∀ i ∈ List.range m.numPaths.toNat, m'.path i = m.path i := by
    intro i hi
    have := List.mem_range.mp hi
    rw [hpath, Function.update_of_ne (by omega)]
  unfold Mdata.paths
  rw [hn, List.range_succ, List.map_append, List.map_congr_left hold, hpath]
  simp

/-! ## Blocks -/

@[simp] theorem Cache.cblocks_set_self (c : Cache) (i : ℕ) (b : CBlock) :
    (c.set i b).cblocks i = b := Function.update_self ..

theorem Cache.cblocks_set_of_ne (c : Cache) {i j : ℕ} (h : j ≠ i) (b : CBlock) :
    (c.set i b).cblocks j = c.cblocks j := Function.update_of_ne h ..

@[simp] theorem Cache.numBlocks_set (c : Cache) (i : ℕ) (b : CBlock) :
    (c.set i b).numBlocks = c.numBlocks := rfl

@[simp] theorem Cache.cacheBlockSize_set (c : Cache) (i : ℕ) (b : CBlock) :
    (c.set i b).cacheBlockSize = c.cacheBlockSize := rfl

section UpdateLru

variable (c : Cache) (b i : ℕ)

@[simp] theorem updateLru_numBlocks : (updateLru c b).numBlocks = c.numBlocks := rfl

@[simp] theorem updateLru_cacheBlockSize :
    (updateLru c b).cacheBlockSize = c.cacheBlockSize := rfl

@[simp] theorem updateLru_mdata : ((updateLru c b).cblocks i).mdata = (c.cblocks i).mdata := rfl

@[simp] theorem updateLru_freeFlag :
    ((updateLru c b).cblocks i).freeFlag = (c.cblocks i).freeFlag := rfl

@[simp] theorem updateLru_buf : ((updateLru c b).cblocks i).buf = (c.cblocks i).buf := rfl

@[simp] theorem updateLru_offset :
    ((updateLru c b).cblocks i).offset = (c.cblocks i).offset := rfl

@[simp] theorem updateLru_isFor (records : ℕ → Mdata) (name : List Char) :
    ((updateLru c b).cblocks i).isFor records name = (c.cblocks i).isFor records name := rfl

@[simp] theorem findMetaDataBlock_updateLru (records : ℕ → Mdata) (name : List Char) :
    findMetaDataBlock records (updateLru c b) name = findMetaDataBlock records c name := rfl

end UpdateLru

variable {records : ℕ → Mdata} {c c' : Cache} {name : List Char}

theorem CBlock.isFor_iff {b : CBlock} : b.isFor records name = true ↔
    b.freeFlag = false ∧ ∃ i ∈ b.mdata, (records i).fileName = name := by
  cases h : b.mdata <;> simp [CBlock.isFor, h]

theorem findMetaDataBlock_some {j : ℕ} (h : findMetaDataBlock records c name = some j) :
    j < c.numBlocks ∧ (c.cblocks j).isFor records name = true := by
  unfold findMetaDataBlock at h
  have hfor := List.find?_some h
  exact ⟨List.mem_range.mp (List.mem_of_find?_eq_some h), hfor⟩

theorem findMetaDataBlock_none (h : findMetaDataBlock records c name = none) {j : ℕ}
    (hj : j < c.numBlocks) : (c.cblocks j).isFor records name = false := by
  simpa using List.find?_eq_none.mp h j (List.mem_range.mpr hj)

/-- A search looks at nothing but the flags of the blocks, their pointers and the names in the records. -/
theorem findMetaDataBlock_congr {records' : ℕ → Mdata} (hblocks : c'.numBlocks = c.numBlocks)
    (hmdata : ∀ j, (c'.cblocks j).mdata = (c.cblocks j).mdata)
    (hfree : ∀ j, (c'.cblocks j).freeFlag = (c.cblocks j).freeFlag)
    (hname : ∀ i, (records' i).fileName = (records i).fileName) :
    findMetaDataBlock records' c' name = findMetaDataBlock records c name := by
  have hfor : ∀ j, (c'.cblocks j).isFor records' name = (c.cblocks j).isFor records name := by
    intro j
    unfold CBlock.isFor
    rw [hmdata, hfree]
    cases (c.cblocks j).mdata with
    | none => rfl
    | some i => simp only [hname i]
  unfold findMetaDataBlock
  rw [hblocks]
  congr 1
  funext j
  exact hfor j

/-- Where every block has a record of its own, a search finds the record of the file. -/
theorem findMetaDataBlock_own {j : ℕ} (howns : ∀ i, (c.cblocks i).mdata = some i)
    (h : findMetaDataBlock records c name = some j) :
    (c.cblocks j).freeFlag = false ∧ (records j).fileName = name := by
  obtain ⟨hused, i, hi, hname⟩ := CBlock.isFor_iff.mp (findMetaDataBlock_some h).2
  rw [howns j, Option.mem_some_iff] at hi
  exact ⟨hused, hi ▸ hname⟩

/-- A search that finds nothing: no block in use has the name. -/
theorem findMetaDataBlock_gone (howns : ∀ i, (c.cblocks i).mdata = some i)
    (hbound : ∀ i, (c.cblocks i).freeFlag = false → i < c.numBlocks)
    (h : findMetaDataBlock records c name = none) (k : ℕ) (hk : (c.cblocks k).freeFlag = false) :
    (records k).fileName ≠ name := by
  intro hname
  have hfor := CBlock.isFor_iff.mpr ⟨hk, k, howns k, hname⟩
  rw [findMetaDataBlock_none h (hbound k hk)] at hfor
  cases hfor

/-- The only block for a name is found. -/
theorem findMetaDataBlock_eq {j : ℕ} (hj : j < c.numBlocks)
    (hfor : (c.cblocks j).isFor records name = true)
    (honly : ∀ k, k < c.numBlocks → (c.cblocks k).isFor records name = true → k = j) :
    findMetaDataBlock records c name = some j := by
  cases h : findMetaDataBlock records c name with
  | none => simp [findMetaDataBlock_none h hj] at hfor
  | some k =>
    obtain ⟨hk, hkfor⟩ := findMetaDataBlock_some h
    rw [honly k hk hkfor]

/-- Different blocks have different names still when the record of one is replaced. -/
theorem fileName_update_inj {m : Mdata} {i : ℕ} {used used' : ℕ → Prop}
    (h : ∀ k l, used k → used l → (records k).fileName = (records l).fileName → k = l)
    (hused : ∀ k, k ≠ i → used' k → used k)
    (hname : ∀ k, k ≠ i → used k → (records k).fileName ≠ m.fileName) (k l : ℕ) (hk : used' k)
    (hl : used' l) (hkl : (Function.update records i m k).fileName =
      (Function.update records i m l).fileName) : k = l := by
  by_cases hki : k = i <;> by_cases hli : l = i
  · rw [hki, hli]
  · rw [hki, Function.update_self, Function.update_of_ne hli] at hkl
    exact absurd hkl.symm (hname l hli (hused l hli hl))
  · rw [hli, Function.update_self, Function.update_of_ne hki] at hkl
    exact absurd hkl (hname k hki (hused k hki hk))
  · rw [Function.update_of_ne hki, Function.update_of_ne hli] at hkl
    exact h k l (hused k hki hk) (hused l hli hl) hkl

/-! ## Taking a block -/

section Take

variable (c : Cache) (i k : ℕ)

@[simp] theorem take_numBlocks : (c.take i).numBlocks = c.numBlocks := rfl

@[simp] theorem take_cacheBlockSize : (c.take i).cacheBlockSize = c.cacheBlockSize := rfl

theorem take_cblocks_self : (c.take i).cblocks i = { c.cblocks i with freeFlag := false } :=
  c.cblocks_set_self i _

theorem take_cblocks_of_ne {c : Cache} {i k : ℕ} (h : k ≠ i) :
    (c.take i).cblocks k = c.cblocks k :=
  c.cblocks_set_of_ne h _

@[simp] theorem take_mdata : ((c.take i).cblocks k).mdata = (c.cblocks k).mdata := by
  by_cases h : k = i
  · rw [h, take_cblocks_self]
  · rw [take_cblocks_of_ne h]

@[simp] theorem take_buf : ((c.take i).cblocks k).buf = (c.cblocks k).buf := by
  by_cases h : k = i
  · rw [h, take_cblocks_self]
  · rw [take_cblocks_of_ne h]

@[simp] theorem take_offset : ((c.take i).cblocks k).offset = (c.cblocks k).offset := by
  by_cases h : k = i
  · rw [h, take_cblocks_self]
  · rw [take_cblocks_of_ne h]

@[simp] theorem take_lruCounter :
    ((c.take i).cblocks k).lruCounter = (c.cblocks k).lruCounter := by
  by_cases h : k = i
  · rw [h, take_cblocks_self]
  · rw [take_cblocks_of_ne h]

theorem take_freeFlag :
    ((c.take i).cblocks k).freeFlag = false ↔ k = i ∨ (c.cblocks k).freeFlag = false := by
  by_cases h : k = i
  · rw [h, take_cblocks_self]
    simp
  · rw [take_cblocks_of_ne h]
    simp [h]

end Take

end QuorumLogFs.Log
