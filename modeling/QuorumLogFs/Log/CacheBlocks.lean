import QuorumLogFs.Basis.Int32
import QuorumLogFs.Basis.Runs
import QuorumLogFs.Log.Cache

/-!
# Appending to a cache block and reading it

Reference: `Cache.c`, `write_cache_block`, `read_cache_block` and `find_cache_block`.

`write_cache_block` copies by length and writes no terminator, `read_cache_block` copies up to one.
What is read is what was written exactly if the bytes hold no NUL and the memory that the block
started with has one right behind them.
-/

namespace QuorumLogFs.Log

open QuorumLogFs.Basis

/-- `find_cache_block` -/
def findCacheBlock (c : Cache) (meta_data : Option ℕ) : Option ℕ :=
  (List.range c.numBlocks).find? fun i => (c.cblocks i).mdata = meta_data

/-- `write_cache_block`. It has no result when there is no block or the sum overflows. -/
def writeCacheBlock (c : Cache) (meta_data : Option ℕ) (in_buf : List Char) :
    Option (Cache × ℤ) := do
  let cblk ← findCacheBlock c meta_data
  let offset := (c.cblocks cblk).offset
  if INT_MAX < offset + in_buf.length then none
  else if c.cacheBlockSize ≤ offset + in_buf.length then some (c, -1)
  else
    let buf ← memcpy (c.cblocks cblk).buf offset in_buf
    let block := { c.cblocks cblk with buf := buf, offset := offset + in_buf.length }
    some (updateLru (c.set cblk block) cblk, 0)

/-- `read_cache_block`: the string copied to `out_buf` and the value of `*buf_len`; the inner `none`
is the result -1. -/
def readCacheBlock (c : Cache) (meta_data : Option ℕ) :
    Option (Cache × Option (List Char × ℕ)) :=
  match findCacheBlock c meta_data with
  | none => some (c, none)
  | some cblk => (stringAt (c.cblocks cblk).buf 0).map fun out =>
      (updateLru c cblk, some (out, (c.cblocks cblk).offset))

inductive BlockCall where
  | write (meta_data : Option ℕ) (in_buf : List Char)
  | read (meta_data : Option ℕ)

/-- A cache and the concatenation of the strings whose write to one block returned 0. -/
structure Written where
  cache : Cache
  accepted : List Char

/-- One call, recorded for the block of `m`. -/
def blockStep (m : Option ℕ) (s : Written) : BlockCall → Option Written
  | .write meta_data in_buf => (writeCacheBlock s.cache meta_data in_buf).map fun (c, result) =>
      ⟨c, if meta_data = m ∧ result = 0 then s.accepted ++ in_buf else s.accepted⟩
  | .read meta_data => (readCacheBlock s.cache meta_data).map fun (c, _) => ⟨c, s.accepted⟩

/-- A write that is refused leaves the cache unchanged. -/
def RefusalKeeps (s : Written) (call : BlockCall) (s' : Written) : Prop :=
  ∀ meta_data in_buf c, call = .write meta_data in_buf →
    writeCacheBlock s.cache meta_data in_buf = some (c, -1) → s'.cache = s.cache

/-- Reading the block of `m` after the calls delivers what its writes have stored. -/
def ReadsWritten (m : Option ℕ) (s : Written) : Prop :=
  ∃ c, readCacheBlock s.cache m = some (c, some (s.accepted, s.accepted.length))

/-- A string for the block of `m` joins its text if it fits into `size` bytes with one to spare. -/
def fit (size : ℕ) (m : Option ℕ) (text : List Char) : BlockCall → List Char
  | .write meta_data in_buf =>
    if meta_data = m ∧ (text ++ in_buf).length < size then text ++ in_buf else text
  | .read _ => text

/-- The text that the strings for the block of `m` make up. -/
def fitting (size : ℕ) (m : Option ℕ) (calls : List BlockCall) : List Char :=
  calls.foldl (fit size m) []

variable {c c' : Cache} {m meta_data : Option ℕ} {j k : ℕ} {in_buf mem : List Char} {result : ℤ}
  {s s' : Written} {calls : List BlockCall}

/-! ## The operations -/

theorem findCacheBlock_congr (hmdata : ∀ i, (c'.cblocks i).mdata = (c.cblocks i).mdata)
    (hnum : c'.numBlocks = c.numBlocks) : findCacheBlock c' m = findCacheBlock c m := by
  unfold findCacheBlock
  rw [hnum]
  congr 1
  funext i
  rw [hmdata]

theorem mdata_of_findCacheBlock (h : findCacheBlock c m = some j) : (c.cblocks j).mdata = m := by
  simpa using List.find?_some h

/-- A write is refused, or it copies the bytes behind the offset of one block. -/
theorem writeCacheBlock_eq_some (h : writeCacheBlock c m in_buf = some (c', result)) :
    ∃ k, findCacheBlock c m = some k ∧
      (c.cacheBlockSize ≤ (c.cblocks k).offset + in_buf.length ∧ c' = c ∧ result = -1 ∨
        (c.cblocks k).offset + in_buf.length < c.cacheBlockSize ∧ result = 0 ∧
          ∃ buf, memcpy (c.cblocks k).buf (c.cblocks k).offset in_buf = some buf ∧
            c' = updateLru (c.set k { c.cblocks k with
              buf := buf, offset := (c.cblocks k).offset + in_buf.length }) k) := by
  unfold writeCacheBlock at h
  obtain ⟨k, hk, h⟩ := Option.bind_eq_some_iff.mp h
  refine ⟨k, hk, ?_⟩
  dsimp only at h
  split at h
  · cases h
  · split at h
    · rename_i hfull
      obtain ⟨rfl, rfl⟩ := Prod.mk.inj (Option.some.inj h)
      exact Or.inl ⟨hfull, rfl, rfl⟩
    · rename_i hroom
      obtain ⟨buf, hbuf, h⟩ := Option.bind_eq_some_iff.mp h
      obtain ⟨rfl, rfl⟩ := Prod.mk.inj (Option.some.inj h)
      exact Or.inr ⟨not_le.mp hroom, rfl, buf, hbuf, rfl⟩

/-- A read changes nothing but the counters. -/
theorem readCacheBlock_eq_some {out : Option (List Char × ℕ)}
    (h : readCacheBlock c m = some (c', out)) : c' = c ∨ ∃ k, c' = updateLru c k := by
  unfold readCacheBlock at h
  split at h
  · obtain ⟨rfl, -⟩ := Prod.mk.inj (Option.some.inj h)
    exact Or.inl rfl
  · obtain ⟨text, -, h⟩ := Option.map_eq_some_iff.mp h
    obtain ⟨rfl, -⟩ := Prod.mk.inj h
    exact Or.inr ⟨_, rfl⟩

/-! ## The invariant -/

/-- Block `j` is that of `m`, and holds the accepted strings in front of what is left of its first
memory. -/
structure HoldsAccepted (m : Option ℕ) (j : ℕ) (mem : List Char) (s : Written) : Prop where
  found : findCacheBlock s.cache m = some j
  size : s.cache.cacheBlockSize = mem.length
  room : s.accepted.length ≤ mem.length
  offset : (s.cache.cblocks j).offset = s.accepted.length
  buf : (s.cache.cblocks j).buf = s.accepted ++ mem.drop s.accepted.length

theorem HoldsAccepted.read (h : HoldsAccepted m j mem s) (hread : c' = s.cache ∨
    ∃ k, c' = updateLru s.cache k) : HoldsAccepted m j mem ⟨c', s.accepted⟩ := by
  rcases hread with rfl | ⟨k, rfl⟩
  · exact h
  · exact ⟨h.found, h.size, h.room, h.offset, h.buf⟩

/-- A write extends the text of the block of `m` by what fits. -/
theorem HoldsAccepted.write (h : HoldsAccepted m j mem s)
    (hwrite : writeCacheBlock s.cache meta_data in_buf = some (c', result)) :
    HoldsAccepted m j mem
      ⟨c', if meta_data = m ∧ result = 0 then s.accepted ++ in_buf else s.accepted⟩ ∧
    (if meta_data = m ∧ result = 0 then s.accepted ++ in_buf else s.accepted) =
      fit mem.length m s.accepted (.write meta_data in_buf) := by
  obtain ⟨k, hk, ⟨hfull, rfl, rfl⟩ | ⟨hfits, rfl, buf, hbuf, rfl⟩⟩ :=
    writeCacheBlock_eq_some hwrite
  · rw [if_neg (by simp), fit]
    refine ⟨h, (if_neg ?_).symm⟩
    rintro ⟨rfl, hlt⟩
    obtain rfl : j = k := Option.some.inj (h.found.symm.trans hk)
    rw [h.size, h.offset] at hfull
    rw [List.length_append] at hlt
    omega
  · have hfound : findCacheBlock (updateLru (s.cache.set k { s.cache.cblocks k with
        buf := buf, offset := (s.cache.cblocks k).offset + in_buf.length }) k) m = some j := by
      rw [← h.found]
      refine findCacheBlock_congr (fun i => ?_) rfl
      rw [updateLru_mdata]
      by_cases hi : i = k
      · rw [hi, Cache.cblocks_set_self]
      · rw [Cache.cblocks_set_of_ne _ hi]
    by_cases hm : meta_data = m
    · obtain rfl : j = k := Option.some.inj (h.found.symm.trans (hm ▸ hk))
      rw [h.size, h.offset] at hfits
      rw [h.buf, h.offset, memcpy_append h.room] at hbuf
      have hlen : (s.accepted ++ in_buf).length ≤ mem.length := by
        rw [List.length_append]
        exact hfits.le
      rw [if_pos hlen] at hbuf
      rw [if_pos ⟨hm, rfl⟩, fit]
      refine ⟨⟨hfound, h.size, hlen, ?_, ?_⟩, (if_pos ⟨hm, ?_⟩).symm⟩
      · rw [updateLru_offset, Cache.cblocks_set_self, h.offset, List.length_append]
      · rw [updateLru_buf, Cache.cblocks_set_self, Option.some.inj hbuf]
      · rw [List.length_append]
        exact hfits
    · -- a block with another record is another block
      have hjk : j ≠ k := by
        rintro rfl
        exact hm ((mdata_of_findCacheBlock hk).symm.trans (mdata_of_findCacheBlock h.found))
      rw [if_neg (fun hc => hm hc.1), fit]
      refine ⟨⟨hfound, h.size, h.room, ?_, ?_⟩, (if_neg fun hc => hm hc.1).symm⟩
      · rw [updateLru_offset, Cache.cblocks_set_of_ne _ hjk, h.offset]
      · rw [updateLru_buf, Cache.cblocks_set_of_ne _ hjk, h.buf]

theorem HoldsAccepted.step {call : BlockCall} (h : HoldsAccepted m j mem s)
    (hs : blockStep m s call = some s') :
    HoldsAccepted m j mem s' ∧ s'.accepted = fit mem.length m s.accepted call := by
  cases call with
  | write meta_data in_buf =>
    obtain ⟨⟨c, result⟩, hwrite, rfl⟩ := Option.map_eq_some_iff.mp hs
    exact h.write hwrite
  | read meta_data =>
    obtain ⟨⟨c, out⟩, hread, rfl⟩ := Option.map_eq_some_iff.mp hs
    exact ⟨h.read (readCacheBlock_eq_some hread), rfl⟩

theorem HoldsAccepted.run (h : HoldsAccepted m j mem s)
    (hrun : run (blockStep m) s calls = some s') :
    HoldsAccepted m j mem s' ∧ s'.accepted = calls.foldl (fit mem.length m) s.accepted := by
  induction calls generalizing s with
  | nil =>
    obtain rfl := Option.some.inj hrun
    exact ⟨h, rfl⟩
  | cons call calls ih =>
    rw [run_cons] at hrun
    obtain ⟨t, ht, hrun⟩ := Option.bind_eq_some_iff.mp hrun
    obtain ⟨hholds, htext⟩ := h.step ht
    rw [List.foldl_cons, ← htext]
    exact ih hholds hrun

theorem blockStep_refusalKeeps {call : BlockCall} (hs : blockStep m s call = some s') :
    RefusalKeeps s call s' := by
  rintro meta_data in_buf c rfl hrefused
  rw [blockStep, hrefused] at hs
  obtain rfl := Option.some.inj hs
  obtain ⟨k, -, ⟨-, rfl, -⟩ | ⟨-, h, -⟩⟩ := writeCacheBlock_eq_some hrefused
  · rfl
  · cases h

/-- Two write buffers in use, of which the first was allocated with `mem` in it. -/
def twoBuffers (mem : List Char) : Cache :=
  ((createCache (4096 * 2) 4096 .WRITE_BUFFER).set 0 ⟨some 0, false, mem, 0, 0⟩).set 1
    ⟨some 1, false, zeros 4096, 0, 0⟩

/-- Writes to both of them. -/
def threeWrites : List BlockCall :=
  [.write (some 0) "Content 1".toList, .write (some 1) "File Not Found\n".toList,
    .write (some 0) "Content X".toList]

end QuorumLogFs.Log
