import QuorumLogFs.Log.Metadata

/-!
# The metadata round trip

Reference: `write_metadata_to_disk` and `mdata_from_disk_to_memory` in `lfs_fuse.c`.

A record that fits its arrays is read back as it was written, provided that it has a path. Without one
`sscanf` has no token for its `%s` and counts three values, unless it finds one in what an older, longer
metadata file or the stack holds behind the record.
-/

namespace QuorumLogFs.Log

open QuorumLogFs.Basis

/-- A record within the lengths of its arrays. -/
structure Mdata.Fits (m : Mdata) : Prop where
  name : m.fileName.length < MAX_FILE_NAME_SIZE
  count : m.numPaths ≤ MAX_PATHS
  paths : ∀ p ∈ m.paths, p.length < MAX_PATH_NAME_SIZE

/-- What the reader's buffer holds behind the record, up to the first NUL: the rest of the file that
the record was written over, then the stack. -/
def leftover (m : Mdata) (old stack : List Char) : List Char :=
  cstr ((old.drop (encodeMdata m).length).take (MAX_MDATA_FILE_SIZE - (encodeMdata m).length) ++
    stack)

/-- The token that `%s` finds. -/
def firstWord (s : List Char) : List Char :=
  (s.dropWhile isSpace).takeWhile fun c => !isSpace c

/-- Behind a record without paths there is a token, which fits the array `paths`. -/
def StrayToken (m : Mdata) (old stack : List Char) : Prop :=
  firstWord (leftover m old stack) ≠ [] ∧
    (firstWord (leftover m old stack)).length < MAX_MDATA_FILE_SIZE

/-- Whatever block the reader takes: if it is in use, its record can be written back, and that does not
change the file of `m`. -/
def VictimApart (s : Fs) (m : Mdata) : Prop :=
  ∀ i, victim (fun i => (s.metaDataCache.cblocks i).lruCounter) s.metaDataCache.numBlocks = some i →
    (s.metaDataCache.cblocks i).freeFlag = false →
      (s.records i).Fits ∧ ((s.records i).fileName = m.fileName → (s.records i).Same m)

/-- `mdata_from_disk_to_memory` run after `write_metadata_to_disk` succeeds and yields the record. -/
def RoundTrip (s : Fs) (m : Mdata) (stack : List Char) : Prop :=
  ∃ files, writeMetadataToDisk m s.mdataFiles = some files ∧ ∃ s' i,
    mdataFromDiskToMemory { s with mdataFiles := files } ('/' :: m.fileName) stack = some (s', i) ∧
      (s'.records i).Same m

variable {s : Fs} {m m₀ old : Mdata} {stack buf rest : List Char}

/-! ## Lengths -/

theorem length_decimal_le {n : ℤ} (h : IsInt n) : (decimal n).length ≤ 11 := by
  rw [IsInt, INT_MAX] at h
  cases n with
  | ofNat n =>
    have hn : n < 10 ^ 11 := by
      have := h.2
      simp only [Int.ofNat_eq_natCast] at this
      omega
    exact (Nat.length_toDigits_le_iff (by decide) (by decide)).mpr hn
  | negSucc n =>
    have hn : n + 1 < 10 ^ 10 := by
      have := h.1
      omega
    have hlen : (Nat.toDigits 10 (n + 1)).length ≤ 10 :=
      (Nat.length_toDigits_le_iff (by decide) (by decide)).mpr hn
    show (Nat.toDigits 10 (n + 1)).length + 1 ≤ 11
    omega

theorem length_joinPaths_le {ps : List (List Char)} (h : ∀ p ∈ ps, p.length < MAX_PATH_NAME_SIZE) :
    (joinPaths ps).length ≤ ps.length * MAX_PATH_NAME_SIZE := by
  induction ps with
  | nil => exact le_refl 0
  | cons p ps ih =>
    have hp := h p List.mem_cons_self
    have hps := ih fun q hq => h q (List.mem_cons_of_mem p hq)
    rw [joinPaths_cons, List.length_append, List.length_cons, List.length_cons, Nat.succ_mul]
    omega

theorem Mdata.Fits.length_paths_le (h : m.Fits) : m.paths.length ≤ MAX_PATHS := by
  have := h.count
  rw [m.length_paths]
  omega

theorem Mdata.Fits.length_joinPaths_le (h : m.Fits) :
    (joinPaths m.paths).length ≤ MAX_PATHS * MAX_PATH_NAME_SIZE :=
  (Log.length_joinPaths_le h.paths).trans (Nat.mul_le_mul_right _ h.length_paths_le)

/-- The encoding fits the buffer that it is built in. -/
theorem Mdata.Fits.encode_fits (h : m.Fits) : (encodeMdata m).length < MAX_MDATA_FILE_SIZE := by
  have hname : m.fileName.length < 100 := h.name
  have hjoin : (joinPaths m.paths).length ≤ 1000 * 200 := h.length_joinPaths_le
  have hnum := length_decimal_le m.numPaths_isInt
  have hsize := length_decimal_le m.size_isInt
  have hencode := congrArg List.length (encodeMdata_eq m [])
  have hlen : "Filename:".toList.length = 9 ∧ "NumPaths:".toList.length = 9 ∧
      "Size:".toList.length = 5 ∧ "Paths:".toList.length = 6 := by decide
  have hmax : MAX_MDATA_FILE_SIZE = 200300 := rfl
  simp only [List.append_nil, List.length_append, List.length_cons, List.length_nil] at hencode
  omega

/-- Such a record is written. -/
theorem Mdata.Fits.written (h : m.Fits) (files : List Char → Option (List Char)) :
    writeMetadataToDisk m files = some (Function.update files m.fileName
      (some (overwrite (encodeMdata m) ((files m.fileName).getD [])))) := by
  refine if_pos ⟨?_, h.encode_fits⟩
  have hname : m.fileName.length < 100 := h.name
  have hpath : MDATA_PATH.length = 32 := by decide
  have hmax : MAX_PATH_NAME_SIZE = 200 := rfl
  rw [List.length_append]
  omega

/-! ## Reading -/

theorem scan_last_str (s : List Char) :
    scan [.str true] s = if firstWord s = [] then [] else [.str (firstWord s)] := by
  rw [scan]
  rfl

theorem splitPaths_joinPaths_eq {ps : List (List Char)} (h : ∀ p ∈ ps, CleanPath p)
    (hfit : ∀ p ∈ ps, p.length < MAX_PATH_NAME_SIZE) :
    splitPaths ps.length (joinPaths ps) = some ps := by
  induction ps with
  | nil => rfl
  | cons p ps ih =>
    rw [joinPaths_cons, List.length_cons,
      splitPaths_path fun c hc => (h p List.mem_cons_self c hc).2.1,
      if_pos (hfit p List.mem_cons_self), ih (fun q hq => h q (List.mem_cons_of_mem p hq))
        fun q hq => hfit q (List.mem_cons_of_mem p hq)]
    rfl

theorem parseMdata_fields {file_name paths : List Char} {num_paths size : ℤ}
    (hscan : scanMdata buf = [.str file_name, .int num_paths, .int size, .str paths])
    (hname : file_name.length < MAX_FILE_NAME_SIZE) :
    parseMdata old buf =
      if paths.length < MAX_MDATA_FILE_SIZE ∧ storedInt num_paths ≤ MAX_PATHS then
        (splitPaths (storedInt num_paths).toNat paths).map fun ps =>
          some ⟨file_name, storedInt num_paths, fun i => ps[i]?.getD (old.path i), storedInt size,
            isInt_storedInt _, isInt_storedInt _⟩
      else none := by
  unfold parseMdata
  rw [hscan]
  exact if_neg (not_le.mpr hname)

/-- `sscanf` returns 3. -/
theorem parseMdata_short {file_name : List Char} {num_paths size : ℤ}
    (hscan : scanMdata buf = [.str file_name, .int num_paths, .int size])
    (hname : file_name.length < MAX_FILE_NAME_SIZE) : parseMdata old buf = some none := by
  unfold parseMdata
  rw [hscan]
  exact if_neg (not_le.mpr hname)

/-- A record is read back if it has a path, and else if a token follows it. -/
theorem Mdata.Fits.parse_iff (h : m.Fits) (hclean : m.Clean) (old : Mdata) :
    (∃ m', parseMdata old (encodeMdata m ++ rest) = some (some m')) ↔
      0 < m.numPaths ∨ firstWord rest ≠ [] ∧ (firstWord rest).length < MAX_MDATA_FILE_SIZE := by
  have hscan := scanMdata_encode hclean rest
  by_cases hnum : 0 < m.numPaths
  · refine iff_of_true ?_ (Or.inl hnum)
    have hword : IsWord (joinPaths m.paths) := by
      refine ⟨?_, isSpace_joinPaths hclean.paths⟩
      have hlen := m.length_paths
      obtain ⟨p, ps, hcons⟩ := List.exists_cons_of_ne_nil
        (show m.paths ≠ [] by rw [← List.length_pos_iff, hlen]; omega)
      rw [hcons, joinPaths_cons]
      simp
    rw [scan_str_word hword (endsWord_newline _), emit, if_pos rfl] at hscan
    have hjoin : (joinPaths m.paths).length < MAX_MDATA_FILE_SIZE :=
      h.length_joinPaths_le.trans_lt (by decide)
    simp only [parseMdata_fields hscan h.name, storedInt_of_isInt m.numPaths_isInt]
    rw [if_pos ⟨hjoin, h.count⟩, ← m.length_paths, splitPaths_joinPaths_eq hclean.paths h.paths]
    exact ⟨_, rfl⟩
  · -- no path: the token is whatever follows
    have hzero : m.numPaths = 0 := le_antisymm (not_lt.mp hnum) hclean.count
    have hnone : m.paths = [] := by
      rw [← List.length_eq_zero_iff, m.length_paths, hzero]
      rfl
    have hfirst : firstWord ('\n' :: rest) = firstWord rest := by
      rw [firstWord, List.dropWhile_cons_of_pos (by decide)]
      rfl
    rw [hnone, joinPaths, List.flatMap_nil, List.nil_append, scan_last_str, hfirst] at hscan
    rw [or_iff_right hnum]
    by_cases hword : firstWord rest = []
    · rw [if_pos hword] at hscan
      rw [parseMdata_short hscan h.name]
      simp [hword]
    · rw [if_neg hword] at hscan
      simp only [parseMdata_fields hscan h.name, hzero]
      by_cases hlen : (firstWord rest).length < MAX_MDATA_FILE_SIZE
      · rw [if_pos ⟨hlen, by decide⟩]
        exact iff_of_true ⟨_, rfl⟩ ⟨hword, hlen⟩
      · rw [if_neg fun hc => hlen hc.1]
        simp [hlen]

/-! ## The round trip -/

theorem overwrite_overwrite (bytes old : List Char) :
    overwrite bytes (overwrite bytes old) = overwrite bytes old := by
  rw [overwrite, overwrite, List.drop_left]

/-- Whether the victim is written back or not, the file of `m` stays as it was written. -/
theorem VictimApart.writeBack (h : VictimApart s m) {i : ℕ}
    (hi : victim (fun i => (s.metaDataCache.cblocks i).lruCounter) s.metaDataCache.numBlocks = some i)
    {files : List Char → Option (List Char)} {old : List Char}
    (hfile : files m.fileName = some (overwrite (encodeMdata m) old)) :
    ∃ files', writeBackMdata { s with mdataFiles := files } i
        (if (s.metaDataCache.cblocks i).freeFlag = false then WRITE_BACK else NORMAL) =
          some files' ∧ files' m.fileName = some (overwrite (encodeMdata m) old) := by
  unfold writeBackMdata
  by_cases hfree : (s.metaDataCache.cblocks i).freeFlag = false
  · rw [if_pos hfree, if_pos rfl]
    obtain ⟨hstore, hsame⟩ := h i hi hfree
    refine ⟨_, hstore.written files, ?_⟩
    by_cases hname : (s.records i).fileName = m.fileName
    · rw [hname, Function.update_self, (hsame hname).encode, hfile, Option.getD_some,
        overwrite_overwrite]
    · rw [Function.update_of_ne (Ne.symm hname), hfile]
  · rw [if_neg hfree, if_neg (by decide)]
    exact ⟨files, rfl, hfile⟩

/-- The reader sees the record and what is left behind it. -/
theorem stringAt_overwrite (hclean : m.Clean) (hm : m.Fits) (old : List Char) (hstack : nul ∈ stack) :
    stringAt ((overwrite (encodeMdata m) old).take MAX_MDATA_FILE_SIZE ++ stack) 0 =
      some (encodeMdata m ++ leftover m old stack) := by
  rw [stringAt, List.drop_zero, if_pos (List.mem_append_right _ hstack), overwrite, List.take_append,
    List.take_of_length_le hm.encode_fits.le, List.append_assoc,
    cstr_append (nul_notMem_encode hclean)]
  rfl

/-- Behind the write the reader parses the record and what is left behind it. -/
theorem read_written (hclean : m.Clean) (hm : m.Fits) (hcache : 0 < s.metaDataCache.numBlocks)
    (hvictim : VictimApart s m) (hstack : nul ∈ stack) :
    ∃ files, ∃ t : Fs, ∃ i, writeMetadataToDisk m s.mdataFiles = some files ∧
      mdataFromDiskToMemory { s with mdataFiles := files } ('/' :: m.fileName) stack =
        (parseMdata (s.records i) (encodeMdata m ++
          leftover m ((s.mdataFiles m.fileName).getD []) stack)).join.map fun mdata =>
            ({ t with records := Function.update s.records i mdata }, i) := by
  obtain ⟨i, hi, -⟩ : ∃ i, victim (fun i => (s.metaDataCache.cblocks i).lruCounter)
      s.metaDataCache.numBlocks = some i ∧ i < s.metaDataCache.numBlocks ∧ _ := victim_spec hcache
  have hwritten := hm.written s.mdataFiles
  obtain ⟨files', hfiles', hfile'⟩ := hvictim.writeBack hi (Function.update_self m.fileName
    (some (overwrite (encodeMdata m) ((s.mdataFiles m.fileName).getD []))) s.mdataFiles)
  refine ⟨_, { s with metaDataCache := updateLru (s.metaDataCache.take i) i, mdataFiles := files' },
    i, hwritten, ?_⟩
  have hpath : (MDATA_PATH ++ '/' :: m.fileName).length < MAX_PATH_NAME_SIZE := by
    have hname : m.fileName.length < 100 := hm.name
    have hpath : MDATA_PATH.length = 32 := by decide
    have hmax : MAX_PATH_NAME_SIZE = 200 := rfl
    rw [List.length_append, List.length_cons]
    omega
  unfold mdataFromDiskToMemory getFreeCacheBlock
  rw [if_pos hpath]
  simp only [hi, Option.map_some, Option.bind_eq_bind, Option.bind_some, hfiles', List.tail_cons,
    hfile', stringAt_overwrite hclean hm _ hstack]
  rw [Option.map_eq_bind]
  rfl

/-- A record that the format can carry and that fits its arrays survives the round trip if and only if it
has a path, or a stray token stands behind it. -/
theorem round_trip_iff (hclean : m.Clean) (hm : m.Fits) (hcache : 0 < s.metaDataCache.numBlocks)
    (hvictim : VictimApart s m) (hstack : nul ∈ stack) :
    RoundTrip s m stack ↔
      0 < m.numPaths ∨ StrayToken m ((s.mdataFiles m.fileName).getD []) stack := by
  obtain ⟨files, t, i, hwrite, hread⟩ := read_written hclean hm hcache hvictim hstack
  rw [StrayToken, ← hm.parse_iff hclean (s.records i)]
  constructor
  · rintro ⟨files', hwrite', s', i', hread', -⟩
    obtain rfl := Option.some.inj (hwrite.symm.trans hwrite')
    obtain ⟨mdata, hmdata, -⟩ := Option.map_eq_some_iff.mp (hread.symm.trans hread')
    exact ⟨mdata, Option.join_eq_some_iff.mp hmdata⟩
  · rintro ⟨mdata, hmdata⟩
    rw [hmdata] at hread
    refine ⟨files, hwrite, _, i, hread, ?_⟩
    show (Function.update s.records i mdata i).Same m
    rw [Function.update_self]
    exact parseMdata_encode hclean hmdata

/-- The record of a file with three chunk files. -/
def threePaths : Mdata where
  fileName := "f".toList
  numPaths := 3
  path i := ["/c/Mar-17-2012/f-10".toList, "/c/Mar-18-2012/f-9".toList, "/c/f-1".toList].getD i []
  size := 4000

theorem round_trip_iff_threePaths : RoundTrip Fs.init threePaths [nul] := by
  have hclean : threePaths.Clean := by
    have hword : ∀ c ∈ ['f'], isSpace c = false := List.forall_mem_singleton.mpr (by decide)
    exact ⟨⟨by decide, hword⟩, by decide, by decide, by decide⟩
  have hfits : threePaths.Fits := ⟨by decide, by decide, by decide⟩
  refine (round_trip_iff hclean hfits (by decide) ?_ (by decide)).mpr (Or.inl (by decide))
  intro i _ hfree
  cases hfree

/-- The metadata file that `lfs_mknod` creates cannot be read back. -/
theorem not_round_trip_noPath : ¬ RoundTrip Fs.init (Mdata.empty.named "f".toList) [nul] := by
  rintro ⟨files, hwrite, s', i, hread, -⟩
  have hnone : ((writeMetadataToDisk (Mdata.empty.named "f".toList) Fs.init.mdataFiles).bind fun files =>
      mdataFromDiskToMemory { Fs.init with mdataFiles := files } "/f".toList [nul]).isNone := by
    decide
  rw [hwrite, Option.bind_some] at hnone
  rw [show mdataFromDiskToMemory _ "/f".toList [nul] = _ from hread] at hnone
  cases hnone

end QuorumLogFs.Log
