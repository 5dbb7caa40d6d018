import QuorumLogFs.Log.Fs

/-!
# Metadata files

What `mdata_from_disk_to_memory` reads from a file that begins with the encoding of a record is that
record, whatever follows in the file and in the buffer behind it: `parseMdata_encode`. The record has
to be `Clean`, since `%s` ends at white space and the paths are separated by `;`.
-/

namespace QuorumLogFs.Log

open QuorumLogFs.Basis

/-- A string that the format can carry as a path. -/
def CleanPath (p : List Char) : Prop := ∀ c ∈ p, isSpace c = false ∧ c ≠ ';' ∧ c ≠ nul

instance (p : List Char) : Decidable (CleanPath p) :=
  decidable_of_iff (p.all (fun c => decide (isSpace c = false ∧ c ≠ ';' ∧ c ≠ nul)) = true)
    (by simp [CleanPath])

/-- A record that the format can carry. -/
structure Mdata.Clean (m : Mdata) : Prop where
  word : IsWord m.fileName
  noNul : nul ∉ m.fileName
  count : 0 ≤ m.numPaths
  paths : ∀ p ∈ m.paths, CleanPath p

instance (m : Mdata) : Decidable m.Clean :=
  decidable_of_iff ((IsWord m.fileName ∧ nul ∉ m.fileName) ∧ 0 ≤ m.numPaths ∧
    ∀ p ∈ m.paths, CleanPath p)
    ⟨fun h => ⟨h.1.1, h.1.2, h.2.1, h.2.2⟩, fun h => ⟨⟨h.word, h.noNul⟩, h.count, h.paths⟩⟩

/-- The paths of all records can be written to a metadata file. -/
def PathsClean (s : Fs) : Prop :=
  ∀ i, i < s.metaDataCache.numBlocks → ∀ p ∈ (s.records i).paths, CleanPath p

instance (s : Fs) : Decidable (PathsClean s) :=
  decidable_of_iff (((List.range s.metaDataCache.numBlocks).all fun i =>
    (s.records i).paths.all fun p => decide (CleanPath p)) = true) (by simp [PathsClean])

theorem pathsClean_init (fresh : ℕ → List Char) : PathsClean (Fs.init fresh) := by
  intro i _ p hp
  cases hp

/-- The records agree in everything that counts. -/
structure Mdata.Same (m m' : Mdata) : Prop where
  fileName : m.fileName = m'.fileName
  numPaths : m.numPaths = m'.numPaths
  size : m.size = m'.size
  paths : m.paths = m'.paths

theorem Mdata.Same.encode {m m' : Mdata} (h : m.Same m') : encodeMdata m = encodeMdata m' := by
  unfold encodeMdata
  rw [h.fileName, h.numPaths, h.size, h.paths]

theorem Mdata.Clean.same {m m' : Mdata} (h : m.Clean) (hs : m'.Same m) : m'.Clean :=
  ⟨hs.fileName ▸ h.word, hs.fileName ▸ h.noNul, hs.numPaths ▸ h.count, hs.paths ▸ h.paths⟩

theorem Mdata.length_paths (m : Mdata) : m.paths.length = m.numPaths.toNat := by
  rw [Mdata.paths, List.length_map, List.length_range]

/-- Fresh entries of the path array, as many as there are paths. -/
theorem Mdata.paths_of_list {m : Mdata} {ps : List (List Char)} {old : ℕ → List Char}
    (hpath : m.path = fun i => ps[i]?.getD (old i)) (h : ps.length = m.numPaths.toNat) :
    m.paths = ps := by
  unfold Mdata.paths
  rw [← h, hpath]
  refine List.ext_getElem (by simp) fun i hi hi' => ?_
  rw [List.getElem_map, List.getElem_range, List.getElem?_eq_getElem hi', Option.getD_some]

/-! ## Paths -/

/-- What `write_metadata_to_disk` prints of the paths. -/
def joinPaths (ps : List (List Char)) : List Char := ps.flatMap (· ++ [';'])

theorem joinPaths_cons (p : List Char) (ps : List (List Char)) :
    joinPaths (p :: ps) = p ++ ';' :: joinPaths ps := by
  simp [joinPaths]

theorem isSpace_joinPaths {ps : List (List Char)} (h : ∀ p ∈ ps, CleanPath p) :
    ∀ c ∈ joinPaths ps, isSpace c = false := by
  intro c hc
  obtain ⟨p, hp, hc⟩ := List.mem_flatMap.mp hc
  rcases List.mem_append.mp hc with hc | hc
  · exact (h p hp c hc).1
  · rw [List.mem_singleton.mp hc]
    decide

theorem nul_notMem_joinPaths {ps : List (List Char)} (h : ∀ p ∈ ps, CleanPath p) :
    nul ∉ joinPaths ps := by
  intro hc
  obtain ⟨p, hp, hc⟩ := List.mem_flatMap.mp hc
  rcases List.mem_append.mp hc with hc | hc
  · exact (h p hp nul hc).2.2 rfl
  · exact absurd (List.mem_singleton.mp hc) (by decide)

/-- The loops that split at `;` find the first path. -/
theorem splitPaths_path {p : List Char} (hp : ∀ c ∈ p, c ≠ ';') (n : ℕ) (rest : List Char) :
    splitPaths (n + 1) (p ++ ';' :: rest) =
      if p.length < MAX_PATH_NAME_SIZE then (splitPaths n rest).map (p :: ·) else none := by
  have hpath : (p ++ ';' :: rest).takeWhile (· ≠ ';') = p :=
    takeWhile_exact (fun c hc => decide_eq_true (hp c hc)) (by simp)
  have hrest : (p ++ ';' :: rest).drop (p.length + 1) = rest := by
    rw [List.drop_append]
    simp
  have hmem : ';' ∈ p ++ ';' :: rest := by simp
  rw [splitPaths]
  simp only [hpath, hrest, hmem, true_and]

/-- The paths that were joined are found, unless one of them is too long. -/
theorem splitPaths_joinPaths {ps qs : List (List Char)} (h : ∀ p ∈ ps, CleanPath p)
    (hsplit : splitPaths ps.length (joinPaths ps) = some qs) : qs = ps := by
  induction ps generalizing qs with
  | nil =>
    rw [List.length_nil, splitPaths] at hsplit
    exact (Option.some.inj hsplit).symm
  | cons p ps ih =>
    rw [joinPaths_cons, List.length_cons,
      splitPaths_path fun c hc => (h p List.mem_cons_self c hc).2.1] at hsplit
    split at hsplit
    · obtain ⟨qs', hqs', rfl⟩ := Option.map_eq_some_iff.mp hsplit
      rw [ih (fun q hq => h q (List.mem_cons_of_mem p hq)) hqs']
    · cases hsplit

/-! ## Records -/

theorem field_append (w v z rest : List Char) (c : Char) :
    (w ++ (v ++ c :: z)) ++ rest = w ++ (v ++ c :: (z ++ rest)) := by
  simp

theorem encodeMdata_eq (m : Mdata) (rest : List Char) :
    encodeMdata m ++ rest = "Filename:".toList ++ (m.fileName ++ ('\n' :: ("NumPaths:".toList ++
      (decimal m.numPaths ++ ('\n' :: ("Size:".toList ++ (decimal m.size ++ ('\n' ::
        ("Paths:".toList ++ (joinPaths m.paths ++ '\n' :: rest)))))))))) := by
  unfold encodeMdata
  rw [field_append, field_append, field_append, List.append_assoc, List.append_assoc]
  rfl

/-- A newline in front of a literal is taken by white space in the format. -/
theorem scan_white_newline {c : Char} {w rest : List Char} (hc : isSpace c = false)
    (ds : List Directive) :
    scan (.white :: ds) ('\n' :: (c :: w ++ rest)) = scan ds (c :: w ++ rest) := by
  rw [scan, List.dropWhile_cons_of_pos (by decide), List.cons_append,
    List.dropWhile_cons_of_neg (by simp [hc])]

/-- The first three values are read back; the fourth depends on what follows when there is no path. -/
theorem scanMdata_encode {m : Mdata} (h : m.Clean) (rest : List Char) :
    scanMdata (encodeMdata m ++ rest) = .str m.fileName :: .int m.numPaths :: .int m.size ::
      scan [.str true] (joinPaths m.paths ++ '\n' :: rest) := by
  have hnum : "NumPaths:".toList = 'N' :: "umPaths:".toList := rfl
  have hsize : "Size:".toList = 'S' :: "ize:".toList := rfl
  have hpaths : "Paths:".toList = 'P' :: "aths:".toList := rfl
  rw [encodeMdata_eq, scanMdata, scan_lits, scan_str_word h.word (endsWord_newline _), emit,
    if_pos rfl]
  rw [hnum, scan_white_newline (by decide), ← hnum, scan_lits, scan_int_decimal _ (endsWord_newline _)]
  rw [hsize, scan_white_newline (by decide), ← hsize, scan_lits,
    scan_int_decimal _ (endsWord_newline _)]
  rw [hpaths, scan_white_newline (by decide), ← hpaths, scan_lits]

/-- Reading a record back. -/
theorem parseMdata_encode {m₀ old m : Mdata} (h₀ : m₀.Clean) {rest : List Char}
    (h : parseMdata old (encodeMdata m₀ ++ rest) = some (some m)) : m.Same m₀ := by
  unfold parseMdata at h
  rw [scanMdata_encode h₀] at h
  split at h
  · cases h
  · split at h
    · rename_i file_name num_paths size paths heq
      obtain ⟨hname, hrest⟩ := List.cons.inj heq
      obtain ⟨hnum, hrest⟩ := List.cons.inj hrest
      obtain ⟨hsize, hlast⟩ := List.cons.inj hrest
      obtain rfl := Arg.str.inj hname
      obtain rfl := Arg.int.inj hnum
      obtain rfl := Arg.int.inj hsize
      split at h
      · obtain ⟨ps, hps, hm⟩ := Option.map_eq_some_iff.mp h
        obtain rfl := Option.some.inj hm
        have hnum := storedInt_of_isInt m₀.numPaths_isInt
        rw [hnum, ← m₀.length_paths] at hps
        have hps : ps = m₀.paths := by
          by_cases hnone : m₀.paths = []
          · -- without paths the token that `%s` found is not looked at
            rw [hnone] at hps ⊢
            exact (Option.some.inj hps).symm
          · have hword : IsWord (joinPaths m₀.paths) := by
              refine ⟨?_, isSpace_joinPaths h₀.paths⟩
              obtain ⟨p, ps', hcons⟩ := List.exists_cons_of_ne_nil hnone
              rw [hcons, joinPaths_cons]
              simp
            rw [scan_str_word hword (endsWord_newline _), emit, if_pos rfl] at hlast
            rw [← Arg.str.inj (List.cons.inj hlast).1] at hps
            exact splitPaths_joinPaths h₀.paths hps
        subst hps
        exact ⟨rfl, hnum, storedInt_of_isInt m₀.size_isInt,
          Mdata.paths_of_list rfl (m₀.length_paths.trans (congrArg Int.toNat hnum.symm))⟩
      · cases h
    · cases h

theorem nul_notMem_decimal (n : ℤ) : nul ∉ decimal n := by
  intro hn
  cases n with
  | ofNat n => exact absurd (isDigit_of_mem_toDigits hn) (by decide)
  | negSucc n =>
    rcases List.mem_cons.mp hn with hn | hn
    · exact absurd hn (by decide)
    · exact absurd (isDigit_of_mem_toDigits hn) (by decide)

theorem notMem_field {c d : Char} {w v z : List Char} (hw : c ∉ w) (hv : c ∉ v) (hd : c ≠ d)
    (hz : c ∉ z) : c ∉ w ++ (v ++ d :: z) := by
  simp [hw, hv, hd, hz]

theorem nul_notMem_encode {m : Mdata} (h : m.Clean) : nul ∉ encodeMdata m := by
  have hnewline : nul ≠ '\n' := by decide
  unfold encodeMdata
  refine notMem_field (by decide) h.noNul hnewline (notMem_field (by decide)
    (nul_notMem_decimal _) hnewline (notMem_field (by decide) (nul_notMem_decimal _) hnewline
      fun hmem => ?_))
  rcases List.mem_append.mp hmem with hmem | hmem
  · revert hmem
    decide
  · rcases List.mem_append.mp hmem with hmem | hmem
    · exact nul_notMem_joinPaths h.paths hmem
    · exact hnewline (List.mem_singleton.mp hmem)

/-! ## Files -/

/-- The file begins with the encoding of the record. -/
structure Describes (bytes : List Char) (m : Mdata) : Prop where
  encoded : encodeMdata m <+: bytes
  fits : (encodeMdata m).length < MAX_MDATA_FILE_SIZE

theorem Describes.same {bytes : List Char} {m m' : Mdata} (h : Describes bytes m) (hs : m'.Same m) :
    Describes bytes m' :=
  ⟨hs.encode ▸ h.encoded, hs.encode ▸ h.fits⟩

/-- Overwriting without truncation leaves the rest of the old file behind the record. -/
theorem describes_overwrite {m : Mdata} (hfits : (encodeMdata m).length < MAX_MDATA_FILE_SIZE)
    (old : List Char) : Describes (overwrite (encodeMdata m) old) m :=
  ⟨List.prefix_append _ _, hfits⟩

/-- The reader's string begins with the record. -/
theorem Describes.cstr_take {bytes : List Char} {m : Mdata} (h : Describes bytes m) (hclean : m.Clean)
    (stack : List Char) : encodeMdata m <+: cstr (bytes.take MAX_MDATA_FILE_SIZE ++ stack) := by
  obtain ⟨rest, rfl⟩ := h.encoded
  rw [List.take_append, List.take_of_length_le h.fits.le, List.append_assoc,
    cstr_append (nul_notMem_encode hclean)]
  exact List.prefix_append _ _

/-- What is read back from a file is the record it begins with. -/
theorem Describes.parse {bytes stack buf : List Char} {m₀ old m : Mdata} (h : Describes bytes m₀)
    (h₀ : m₀.Clean) (hbuf : stringAt (bytes.take MAX_MDATA_FILE_SIZE ++ stack) 0 = some buf)
    (hparse : parseMdata old buf = some (some m)) : m.Same m₀ := by
  obtain ⟨rest, hrest⟩ := h.cstr_take h₀ stack
  rw [stringAt_eq_some hbuf, List.drop_zero, ← hrest] at hparse
  exact parseMdata_encode h₀ hparse

end QuorumLogFs.Log
