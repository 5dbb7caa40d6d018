import QuorumLogFs.Log.Owners

/-!
# The bytes that a write stores

Reference: `lfs_write` in `lfs_fuse.c`, `init_cache_block` in `Cache.c`.

`lfs_write` takes its data for a string: it measures it with `strlen` and appends it with `strcat`, at
the first NUL of the block. It stores exactly its data if they hold no NUL and one follows them in the
caller's memory, the block's string ends at its `offset`, and the block has room for the terminator.
-/

namespace QuorumLogFs.Log

open QuorumLogFs.Basis

/-- The block that a file's data go to when no other file's block has to be flushed: its write buffer
or a free one. -/
def plainBlock (s : Fs) (path : List Char) : Option ℕ :=
  match findMetaDataBlock s.records s.bufferCache path.tail with
  | some j => some j
  | none => Option.filter (fun j => (s.bufferCache.cblocks j).freeFlag)
      (victim (fun j => (s.bufferCache.cblocks j).lruCounter) s.bufferCache.numBlocks)

/-- The block that `lfs_write` appends to when it flushes none: one with room for the data by the test
that the code makes. -/
def plainTarget (s : Fs) (path stack : List Char) (size : ℕ) : Option ℕ :=
  if (s.loadPath ++ path).length < LOAD_PATH_SIZE then
    (metaDataBlock { s with loadPath := s.loadPath ++ path } path stack).bind fun r =>
      (plainBlock r.1 path).filter fun j =>
        (r.1.bufferCache.cblocks j).offset + size ≤ r.1.bufferCache.cacheBlockSize
  else none

/-- The content of `b'` is that of `b` with `d` behind it, by its string and by its offset. -/
structure Appends (b b' : CBlock) (d : List Char) : Prop where
  string : cstr b'.buf = b.buf.take b.offset ++ d
  bytes : b'.buf.take b'.offset = b.buf.take b.offset ++ d
  offset : b'.offset = b.offset + d.length

/-- The block holds a string that ends at its offset, and `size` more bytes with their NUL. -/
structure CBlock.Accepts (b : CBlock) (size : ℕ) : Prop where
  terminated : (cstr b.buf).length = b.offset
  room : b.offset + size < b.buf.length

/-- The call with the data `d` and the memory `rest` behind them returns the size of the data, and
without a flush the content of the block grows by them. -/
def WritesExactly (s : Fs) (path d rest : List Char) (offset : ℕ) (junk : WriteJunk) : Prop :=
  ∃ s', lfsWrite s path (d ++ rest) d.length offset junk = some (s', d.length) ∧
    ∀ j ∈ plainTarget s path junk.stack d.length,
      Appends (s.bufferCache.cblocks j) (s'.bufferCache.cblocks j) d

variable {s s' t : Fs} {path stack d rest : List Char} {i j n : ℕ}

/-! ## Strings -/

/-- `strcat` appends behind the first `offset` bytes exactly if the string ends there. -/
theorem strcat_appends_iff {buf buf' : List Char} {offset : ℕ} (hd : nul ∉ d)
    (h : strcat buf d = some buf') :
    cstr buf' = buf.take offset ++ d ∧ buf'.take (offset + d.length) = buf.take offset ++ d ↔
      (cstr buf).length = offset := by
  unfold strcat at h
  split at h
  · rename_i hroom
    obtain rfl := Option.some.inj h
    have hstring : cstr (cstr buf ++ d ++ nul :: buf.drop ((cstr buf).length + d.length + 1)) =
        cstr buf ++ d :=
      cstr_append_nul (by simp [hd, nul_notMem_cstr]) _
    have hprefix : cstr buf = buf.take (cstr buf).length :=
      List.prefix_iff_eq_take.mp (List.takeWhile_prefix _)
    rw [hstring]
    constructor
    · rintro ⟨heq, -⟩
      have hlen := congrArg List.length (List.append_cancel_right heq)
      rw [List.length_take] at hlen
      omega
    · rintro rfl
      rw [← hprefix]
      refine ⟨rfl, ?_⟩
      rw [← List.length_append, List.take_left]
  · cases h

/-! ## The block -/

/-- A file without a write buffer takes the victim block as it is when that is free. -/
theorem wbufDataBlock_free {mdata : Option ℕ} {junk : Junk}
    (hfind : findMetaDataBlock s.records s.bufferCache path.tail = none)
    (hvictim : victim (fun j => (s.bufferCache.cblocks j).lruCounter) s.bufferCache.numBlocks =
      some j) (hfree : (s.bufferCache.cblocks j).freeFlag = true) :
    wbufDataBlock s path mdata junk =
      some (Fs.assign { s with bufferCache := s.bufferCache.take j } j mdata, j) := by
  unfold wbufDataBlock getFreeCacheBlock evictBlock
  rw [hfind]
  simp [hvictim, hfree, show NORMAL ≠ WRITE_BACK by decide]

/-- Without a flush the text is appended to the block as it was. -/
theorem lfsWrite_plain {buf text : List Char} {junk : WriteJunk} {size offset : ℕ}
    (hj : plainTarget s path junk.stack text.length = some j)
    (htext : stringAt buf 0 = some text) :
    ∃ t, (t.bufferCache.cblocks j).buf = (s.bufferCache.cblocks j).buf ∧
      (t.bufferCache.cblocks j).offset = (s.bufferCache.cblocks j).offset ∧
      lfsWrite s path buf size offset junk = (appendText t j text).map (·, text.length) := by
  unfold plainTarget at hj
  split at hj
  · rename_i hpath
    obtain ⟨⟨s₁, i⟩, h₁, hfilter⟩ := Option.bind_eq_some_iff.mp hj
    obtain ⟨hfound, hfits⟩ := Option.filter_eq_some_iff.mp hfilter
    have hcache : s₁.bufferCache = s.bufferCache :=
      (metaDataBlock_bufferCache (s := { s with loadPath := s.loadPath ++ path }) h₁)
    have hfits' : ¬s₁.bufferCache.cacheBlockSize < (s₁.bufferCache.cblocks j).offset + text.length :=
      not_lt.mpr (of_decide_eq_true hfits)
    -- the block that is found or taken has the buffer and the offset that it had
    obtain ⟨t, h₂, hsize, hbuf, hoffset⟩ : ∃ t,
        wbufDataBlock s₁ path (s₁.metaDataCache.cblocks i).mdata junk.evict = some (t, j) ∧
        t.bufferCache.cacheBlockSize = s₁.bufferCache.cacheBlockSize ∧
        (t.bufferCache.cblocks j).buf = (s₁.bufferCache.cblocks j).buf ∧
        (t.bufferCache.cblocks j).offset = (s₁.bufferCache.cblocks j).offset := by
      cases hfind : findMetaDataBlock s₁.records s₁.bufferCache path.tail with
      | some k =>
        rw [plainBlock, hfind] at hfound
        obtain rfl := Option.some.inj hfound
        exact ⟨s₁, wbufDataBlock_found hfind, rfl, rfl, rfl⟩
      | none =>
        rw [plainBlock, hfind] at hfound
        obtain ⟨hvictim, hfree⟩ := Option.filter_eq_some_iff.mp hfound
        refine ⟨_, wbufDataBlock_free hfind hvictim hfree, rfl, ?_, ?_⟩
        · rw [Fs.assign, Cache.cblocks_set_self]
          exact take_buf _ _ _
        · rw [Fs.assign, Cache.cblocks_set_self]
          exact take_offset _ _ _
    refine ⟨t, by rw [hbuf, hcache], by rw [hoffset, hcache], ?_⟩
    have h₃ : makeRoom t j text junk.full = some t := by
      unfold makeRoom
      rw [hsize, hoffset, if_neg hfits']
    unfold lfsWrite
    rw [if_pos hpath]
    simp only [htext, h₁, h₂, h₃, Option.bind_eq_bind, Option.bind_some, Option.map_eq_bind]
    rfl
  · cases hj

/-- The text is appended exactly if the block with that buffer and offset accepts it. -/
theorem appendText_appends_iff {b : CBlock} {text : List Char} (hd : nul ∉ text)
    (hbuf : (t.bufferCache.cblocks j).buf = b.buf)
    (hoffset : (t.bufferCache.cblocks j).offset = b.offset) :
    (∃ s', appendText t j text = some s' ∧ Appends b (s'.bufferCache.cblocks j) text) ↔
      b.Accepts text.length := by
  constructor
  · rintro ⟨s', h, happ⟩
    obtain ⟨buf', hcat, rfl⟩ := Option.map_eq_some_iff.mp h
    rw [hbuf] at hcat
    obtain ⟨hstring, hbytes, hlen⟩ := happ
    rw [Cache.cblocks_set_self] at hstring hbytes
    rw [hoffset] at hbytes
    have hterm := (strcat_appends_iff hd hcat).mp ⟨hstring, hbytes⟩
    refine ⟨hterm, ?_⟩
    unfold strcat at hcat
    split at hcat
    · rename_i hroom
      rwa [hterm] at hroom
    · cases hcat
  · rintro ⟨hterm, hroom⟩
    have hcat : strcat b.buf text =
        some (cstr b.buf ++ text ++ nul :: b.buf.drop ((cstr b.buf).length + text.length + 1)) :=
      if_pos (by rwa [hterm])
    obtain ⟨hstring, hbytes⟩ := (strcat_appends_iff hd hcat).mpr hterm
    refine ⟨_, Option.map_eq_some_iff.mpr ⟨_, by rw [hbuf]; exact hcat, rfl⟩, ?_⟩
    rw [Cache.cblocks_set_self, hoffset]
    exact ⟨hstring, hbytes, rfl⟩

/-- A write that flushes nothing appends the string in its buffer exactly if the block accepts it. -/
theorem lfsWrite_appends_iff {buf text : List Char} {junk : WriteJunk} {offset : ℕ}
    (hj : plainTarget s path junk.stack text.length = some j)
    (htext : stringAt buf 0 = some text) (hd : nul ∉ text) :
    (∃ s', lfsWrite s path buf text.length offset junk = some (s', text.length) ∧
      Appends (s.bufferCache.cblocks j) (s'.bufferCache.cblocks j) text) ↔
      (s.bufferCache.cblocks j).Accepts text.length := by
  obtain ⟨t, hbuf, hoffset, heq⟩ := lfsWrite_plain hj htext
  rw [heq, ← appendText_appends_iff hd hbuf hoffset]
  refine exists_congr fun s' => and_congr_left fun _ => ?_
  rw [Option.map_eq_some_iff]
  constructor
  · rintro ⟨t', ht', hs⟩
    obtain ⟨rfl, -⟩ := Prod.mk.inj hs
    exact ht'
  · intro h
    exact ⟨s', h, rfl⟩

/-- A write stores exactly its bytes if and only if they are followed by a NUL and hold none, and the
block that they go to without a flush accepts them. -/
theorem writes_exactly_iff {junk : WriteJunk} {offset : ℕ}
    (hflush : plainTarget s path junk.stack d.length = none →
      (lfsWrite s path (d ++ rest) d.length offset junk).isSome) :
    WritesExactly s path d rest offset junk ↔ (nul ∉ d ∧ rest.head? = some nul) ∧
      ∀ j ∈ plainTarget s path junk.stack d.length,
        (s.bufferCache.cblocks j).Accepts d.length := by
  have hmeasured : ∀ s' n, lfsWrite s path (d ++ rest) d.length offset junk = some (s', n) →
      (n = d.length ↔ nul ∉ d ∧ rest.head? = some nul) := by
    intro s' n h
    obtain ⟨text, -, -, -, -, -, htext, -, -, -, -, rfl⟩ := lfsWrite_eq_some h
    obtain rfl : text = cstr (d ++ rest) := stringAt_eq_some htext
    exact length_cstr_eq_iff (List.drop_zero (l := d ++ rest) ▸ mem_of_stringAt htext)
  constructor
  · rintro ⟨s', hop, hplain⟩
    have hd := (hmeasured s' _ hop).mp rfl
    refine ⟨hd, fun j hj => ?_⟩
    exact (lfsWrite_appends_iff hj (stringAt_append_iff.mpr hd) hd.1).mp ⟨s', hop, hplain j hj⟩
  · rintro ⟨hd, hacc⟩
    cases hj : plainTarget s path junk.stack d.length with
    | some j =>
      obtain ⟨s', hop, happ⟩ :=
        (lfsWrite_appends_iff hj (stringAt_append_iff.mpr hd) hd.1).mpr (hacc j hj)
      refine ⟨s', hop, fun k hk => ?_⟩
      obtain rfl := Option.some.inj (hj.symm.trans hk)
      exact happ
    | none =>
      obtain ⟨⟨s', n⟩, hop⟩ := Option.isSome_iff_exists.mp (hflush hj)
      obtain rfl := (hmeasured s' n hop).mpr hd
      refine ⟨s', hop, fun k hk => ?_⟩
      rw [hj] at hk
      cases hk

/-- A line as the data of a write. -/
def lineBytes : List Char := "E|Sat Mar 17 20:33:43 EDT 2012|x\n".toList

theorem writes_exactly_iff_line : ∃ s j, run step Fs.init [.mknod firstFile] = some s ∧
    plainTarget s firstFile.path [nul] lineBytes.length = some j ∧
    WritesExactly s firstFile.path lineBytes [nul] 0 {} := by
  have hrun : ((run step Fs.init [.mknod firstFile]).bind fun s =>
      (plainTarget s firstFile.path [nul] lineBytes.length).map fun j =>
        ((cstr (s.bufferCache.cblocks j).buf).length, (s.bufferCache.cblocks j).offset,
          (s.bufferCache.cblocks j).buf.length)) = some (0, 0, 4096) := by decide +kernel
  obtain ⟨s, hs, hrun⟩ := Option.bind_eq_some_iff.mp hrun
  obtain ⟨j, hj, hfields⟩ := Option.map_eq_some_iff.mp hrun
  obtain ⟨hstring, hoffset, hsize⟩ : (cstr (s.bufferCache.cblocks j).buf).length = 0 ∧
      (s.bufferCache.cblocks j).offset = 0 ∧ (s.bufferCache.cblocks j).buf.length = 4096 := by
    simpa using hfields
  refine ⟨s, j, hs, hj, (writes_exactly_iff fun hnone => ?_).mpr ⟨by decide, fun k hk => ?_⟩⟩
  · exact absurd (hj.symm.trans hnone) (by simp)
  · obtain rfl := Option.some.inj (hj.symm.trans hk)
    refine ⟨hstring.trans hoffset.symm, ?_⟩
    rw [hoffset, hsize]
    decide

/-- Without a NUL right behind the data, what follows them in memory is stored as well. -/
theorem not_writes_exactly_unterminated : ∃ s, run step Fs.init [.mknod firstFile] = some s ∧
    ¬ WritesExactly s firstFile.path lineBytes ['y', 'z', nul] 0 {} := by
  have hrun : ((run step Fs.init [.mknod firstFile]).bind fun s =>
      (lfsWrite s firstFile.path (lineBytes ++ ['y', 'z', nul]) lineBytes.length 0 {}).map
        Prod.snd) = some 35 := by decide +kernel
  obtain ⟨s, hs, hrun⟩ := Option.bind_eq_some_iff.mp hrun
  refine ⟨s, hs, ?_⟩
  rintro ⟨s', hop, -⟩
  rw [hop] at hrun
  have hlen : lineBytes.length = 35 := by simpa using hrun
  exact absurd hlen (by decide)

end QuorumLogFs.Log
