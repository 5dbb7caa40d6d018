import Mathlib.Logic.Relation
import QuorumLogFs.Log.RoundTrip

/-!
# Decoding any metadata file

Reference: `mdata_from_disk_to_memory` in `lfs_fuse.c`.

The loops that split the scanned paths at `;` trust the scanned count: the inner one stops at nothing
else. Here they are a machine that takes a step for every byte, with what it reads and writes at each.
It stays inside its arrays exactly for the files in which the count and the paths agree, and then it
leaves the paths that `splitPaths` finds.
-/

namespace QuorumLogFs.Log

open QuorumLogFs.Basis

/-- The variables of the loops. `path i` is what has been written to `path[i]`. -/
structure SplitVars where
  i : ℕ
  j : ℕ
  offset : ℕ
  path : ℕ → List Char

/-- One test of the inner loop, with the assignments behind it: `path[i][offset] = paths[j]` and on to
the next byte, or the terminator and on to the next path. -/
def splitStep (num_paths : ℤ) (paths : ℕ → Char) (v : SplitVars) : Option SplitVars :=
  if v.i < num_paths then
    if paths v.j ≠ ';' then
      some { v with
        path := Function.update v.path v.i
          ((v.path v.i).take v.offset ++ paths v.j :: (v.path v.i).drop (v.offset + 1))
        offset := v.offset + 1
        j := v.j + 1 }
    else
      some { v with
        path := Function.update v.path v.i ((v.path v.i).take v.offset)
        i := v.i + 1
        j := v.j + 1
        offset := 0 }
  else none

/-- `w` is reached from `v`. Behind the terminator of `paths` lies other memory. -/
def SplitsTo (num_paths : ℤ) (paths : List Char) (behind : ℕ → Char) : SplitVars → SplitVars → Prop :=
  Relation.ReflTransGen fun v w =>
    splitStep num_paths (byteAt (paths ++ [nul]) behind) v = some w

/-- The next step reads no byte behind the terminator and writes inside `path[i]`. -/
def InBounds (num_paths : ℤ) (paths : List Char) (v : SplitVars) : Prop :=
  v.i < num_paths → v.j ≤ paths.length ∧ v.i < MAX_PATHS ∧ v.offset < MAX_PATH_NAME_SIZE

/-- A metadata file is decoded without leaving an array: the scanned strings fit theirs, the result is
`NULL` or a record, and the loops stay in bounds and end with the paths of the record. -/
def DecodesSafely (old : Mdata) (bytes stack : List Char) (behind : ℕ → Char) : Prop :=
  ∃ buf, stringAt (bytes.take MAX_MDATA_FILE_SIZE ++ stack) 0 = some buf ∧
    (argStr (scanMdata buf) 0 []).length < MAX_FILE_NAME_SIZE ∧
    (∃ r, parseMdata old buf = some r) ∧
    ∀ file_name num_paths size paths,
      scanMdata buf = [.str file_name, .int num_paths, .int size, .str paths] →
        paths.length < MAX_MDATA_FILE_SIZE ∧
        (∀ v, SplitsTo (storedInt num_paths) paths behind ⟨0, 0, 0, old.path⟩ v →
          InBounds (storedInt num_paths) paths v) ∧
        ∃ v, SplitsTo (storedInt num_paths) paths behind ⟨0, 0, 0, old.path⟩ v ∧
          storedInt num_paths ≤ v.i ∧ parseMdata old buf = some (some ⟨file_name,
            storedInt num_paths, v.path, storedInt size, isInt_storedInt _, isInt_storedInt _⟩)

/-- Enough separators, each behind a path that is not too long. -/
def Separated (n : ℕ) (paths : List Char) : Prop :=
  n < (paths.splitOn ';').length ∧
    ∀ p ∈ (paths.splitOn ';').take n, p.length < MAX_PATH_NAME_SIZE

/-- The scanned fields fit the arrays, and the count, as it is stored, agrees with the paths. -/
def WellFormed (buf : List Char) : Prop :=
  (argStr (scanMdata buf) 0 []).length < MAX_FILE_NAME_SIZE ∧
    ∀ file_name num_paths size paths,
      scanMdata buf = [.str file_name, .int num_paths, .int size, .str paths] →
        paths.length < MAX_MDATA_FILE_SIZE ∧ storedInt num_paths ≤ MAX_PATHS ∧
          Separated (storedInt num_paths).toNat paths

variable {paths rest p buf : List Char} {ps : List (List Char)} {behind : ℕ → Char} {num_paths : ℤ}
  {v w : SplitVars} {n k offset : ℕ} {old : Mdata}

/-! ## Separators -/

/-- From here on, `n` more paths end in time; `offset` bytes of the first have been read. -/
def SeparatedFrom : List Char → ℕ → ℕ → Prop
  | _, 0, _ => True
  | [], _ + 1, _ => False
  | c :: rest, n + 1, offset => offset < MAX_PATH_NAME_SIZE ∧
      if c = ';' then SeparatedFrom rest n 0 else SeparatedFrom rest (n + 1) (offset + 1)

@[simp] theorem separatedFrom_zero : SeparatedFrom rest 0 offset ↔ True := by
  cases rest <;> rfl

theorem separatedFrom_path (hp : ';' ∉ p) :
    SeparatedFrom (p ++ ';' :: rest) (n + 1) offset ↔
      offset + p.length < MAX_PATH_NAME_SIZE ∧ SeparatedFrom rest n 0 := by
  induction p generalizing offset with
  | nil => simp [SeparatedFrom]
  | cons c p ih =>
    have hc : c ≠ ';' := fun h => hp (h ▸ List.mem_cons_self)
    rw [List.cons_append, SeparatedFrom, if_neg hc, ih fun h => hp (List.mem_cons_of_mem c h),
      List.length_cons]
    constructor
    · rintro ⟨-, hlen, hrest⟩
      exact ⟨by omega, hrest⟩
    · rintro ⟨hlen, hrest⟩
      exact ⟨by omega, by omega, hrest⟩

theorem not_separatedFrom (h : ';' ∉ rest) : ¬SeparatedFrom rest (n + 1) offset := by
  induction rest generalizing offset with
  | nil => exact id
  | cons c rest ih =>
    have hc : c ≠ ';' := fun he => h (he ▸ List.mem_cons_self)
    rw [SeparatedFrom, if_neg hc]
    exact fun hs => ih (fun hm => h (List.mem_cons_of_mem c hm)) hs.2

/-- A text has no separator, or it starts with a path. -/
theorem exists_path (rest : List Char) : ';' ∉ rest ∨
    ∃ p rest', ';' ∉ p ∧ rest = p ++ ';' :: rest' := by
  by_cases h : ';' ∈ rest
  · obtain ⟨p, rest', rfl, hp⟩ := List.eq_append_cons_of_mem h
    exact Or.inr ⟨p, rest', hp, rfl⟩
  · exact Or.inl h

theorem separatedFrom_iff (n : ℕ) (rest : List Char) : SeparatedFrom rest n 0 ↔ Separated n rest := by
  induction n generalizing rest with
  | zero =>
    rw [SeparatedFrom, Separated, List.take_zero]
    simp [List.length_pos_iff]
  | succ n ih =>
    rcases exists_path rest with h | ⟨p, rest', hp, rfl⟩
    · refine iff_of_false (not_separatedFrom h) fun hs => ?_
      have hlen := hs.1
      rw [List.splitOn_eq_singleton h, List.length_singleton] at hlen
      omega
    · rw [separatedFrom_path hp, ih, Separated, Separated,
        List.splitOn_append_cons_self_of_not_mem hp, List.length_cons, List.take_succ_cons,
        List.forall_mem_cons, Nat.zero_add, Nat.succ_lt_succ_iff]
      exact and_left_comm

theorem splitPaths_isSome_iff (n : ℕ) (rest : List Char) :
    (splitPaths n rest).isSome ↔ Separated n rest := by
  rw [← separatedFrom_iff]
  induction n generalizing rest with
  | zero => simp [splitPaths]
  | succ n ih =>
    rcases exists_path rest with h | ⟨p, rest', hp, rfl⟩
    · refine iff_of_false ?_ (not_separatedFrom h)
      rw [splitPaths, if_neg fun hc => h hc.1]
      simp
    · rw [splitPaths_path fun c hc he => hp (he ▸ hc), separatedFrom_path hp, Nat.zero_add]
      split
      · rename_i hlen
        rw [Option.isSome_map, ih, and_iff_right hlen]
      · rename_i hlen
        exact iff_of_false (by simp) fun hc => hlen hc.1

/-! ## The machine -/

/-- The byte that the machine looks at, inside the string. -/
theorem byteAt_of_drop (behind : ℕ → Char) {j : ℕ} {c : Char} (h : paths.drop j = c :: rest) :
    byteAt (paths ++ [nul]) behind j = c ∧ paths.drop (j + 1) = rest ∧ j < paths.length := by
  have hlt : j < paths.length := by
    by_contra hge
    rw [List.drop_eq_nil_of_le (not_lt.mp hge)] at h
    cases h
  have hget : paths[j]? = some c := by
    rw [← List.head?_drop, h]
    rfl
  refine ⟨?_, ?_, hlt⟩
  · rw [byteAt, List.getElem?_append_left hlt, hget]
    rfl
  · rw [← List.tail_drop, h]
    rfl

/-- A byte that is no separator is copied. -/
theorem splitStep_byte (mem : ℕ → Char) (hi : v.i < num_paths) (hc : mem v.j ≠ ';') :
    splitStep num_paths mem v = some { v with
      path := Function.update v.path v.i
        ((v.path v.i).take v.offset ++ mem v.j :: (v.path v.i).drop (v.offset + 1))
      offset := v.offset + 1
      j := v.j + 1 } := by
  rw [splitStep, if_pos hi, if_pos hc]

/-- A separator ends the path. -/
theorem splitStep_end (mem : ℕ → Char) (hi : v.i < num_paths) (hc : mem v.j = ';') :
    splitStep num_paths mem v = some { v with
      path := Function.update v.path v.i ((v.path v.i).take v.offset)
      i := v.i + 1
      j := v.j + 1
      offset := 0 } := by
  rw [splitStep, if_pos hi, if_neg (not_not.mpr hc)]

/-- The text from `v.j` on holds the paths that are still to come. -/
structure OnTrack (num_paths : ℤ) (paths : List Char) (v : SplitVars) : Prop where
  count : v.i ≤ num_paths.toNat
  inside : v.j ≤ paths.length
  rest : SeparatedFrom (paths.drop v.j) (num_paths.toNat - v.i) v.offset

theorem OnTrack.next (h : OnTrack num_paths paths v)
    (hstep : splitStep num_paths (byteAt (paths ++ [nul]) behind) v = some w) :
    OnTrack num_paths paths w := by
  unfold splitStep at hstep
  split at hstep
  · rename_i hi
    obtain ⟨k, hk⟩ : ∃ k, num_paths.toNat - v.i = k + 1 := ⟨num_paths.toNat - v.i - 1, by omega⟩
    have hrest := h.rest
    rw [hk] at hrest
    cases hdrop : paths.drop v.j with
    | nil =>
      rw [hdrop] at hrest
      exact hrest.elim
    | cons c rest =>
      rw [hdrop] at hrest
      obtain ⟨hbyte, hdrop', hlt⟩ := byteAt_of_drop behind hdrop
      obtain ⟨-, hrest⟩ := hrest
      rw [hbyte] at hstep
      split at hstep
      · rename_i hc
        obtain rfl := Option.some.inj hstep
        rw [if_neg hc] at hrest
        exact ⟨h.count, hlt, by dsimp only; rwa [hdrop', hk]⟩
      · rename_i hc
        obtain rfl := Option.some.inj hstep
        rw [if_pos (not_not.mp hc)] at hrest
        refine ⟨by dsimp only; omega, hlt, ?_⟩
        dsimp only
        rwa [hdrop', show num_paths.toNat - (v.i + 1) = k by omega]
  · cases hstep

theorem OnTrack.reaches (h : OnTrack num_paths paths v) (hw : SplitsTo num_paths paths behind v w) :
    OnTrack num_paths paths w := by
  induction hw with
  | refl => exact h
  | tail _ hstep ih => exact ih.next hstep

theorem OnTrack.inBounds (h : OnTrack num_paths paths v) (hcount : num_paths ≤ MAX_PATHS) :
    InBounds num_paths paths v := by
  intro hi
  obtain ⟨k, hk⟩ : ∃ k, num_paths.toNat - v.i = k + 1 := ⟨num_paths.toNat - v.i - 1, by omega⟩
  have hrest := h.rest
  rw [hk] at hrest
  refine ⟨h.inside, by omega, ?_⟩
  cases hdrop : paths.drop v.j with
  | nil =>
    rw [hdrop] at hrest
    exact hrest.elim
  | cons c rest =>
    rw [hdrop] at hrest
    exact hrest.1

/-- A machine that stays in bounds finds its separators. -/
theorem separatedFrom_of_inBounds (hrest : paths.drop v.j = rest)
    (h : ∀ w, SplitsTo num_paths paths behind v w → InBounds num_paths paths w) :
    SeparatedFrom rest (num_paths.toNat - v.i) v.offset ∧
      (v.i < num_paths → num_paths ≤ MAX_PATHS) := by
  induction rest generalizing v with
  | nil =>
    by_cases hi : v.i < num_paths
    · -- the terminator is no separator, so the next byte lies behind it
      have hend : v.j = paths.length :=
        le_antisymm (h v Relation.ReflTransGen.refl hi).1 (List.drop_eq_nil_iff.mp hrest)
      have hbyte : byteAt (paths ++ [nul]) behind v.j = nul := by
        rw [byteAt, hend]
        simp
      have hstep := splitStep_byte (byteAt (paths ++ [nul]) behind) hi (by rw [hbyte]; decide)
      have hnext := (h _ (Relation.ReflTransGen.single hstep) hi).1
      dsimp only at hnext
      omega
    · rw [show num_paths.toNat - v.i = 0 by omega, separatedFrom_zero]
      exact ⟨trivial, fun hlt => absurd hlt hi⟩
  | cons c rest ih =>
    by_cases hi : v.i < num_paths
    · obtain ⟨k, hk⟩ : ∃ k, num_paths.toNat - v.i = k + 1 :=
        ⟨num_paths.toNat - v.i - 1, by omega⟩
      obtain ⟨-, hmax, hoffset⟩ := h v Relation.ReflTransGen.refl hi
      obtain ⟨hbyte, hdrop, -⟩ := byteAt_of_drop behind hrest
      rw [hk, SeparatedFrom]
      by_cases hc : c = ';'
      · have hstep := splitStep_end (byteAt (paths ++ [nul]) behind) hi (hbyte.trans hc)
        obtain ⟨hrest', hmax'⟩ := ih hdrop fun w hw => h w (Relation.ReflTransGen.head hstep hw)
        dsimp only at hrest' hmax'
        rw [show num_paths.toNat - (v.i + 1) = k by omega] at hrest'
        rw [if_pos hc]
        exact ⟨⟨hoffset, hrest'⟩, fun _ => by omega⟩
      · have hstep := splitStep_byte (byteAt (paths ++ [nul]) behind) hi (by rwa [hbyte])
        obtain ⟨hrest', hmax'⟩ := ih hdrop fun w hw => h w (Relation.ReflTransGen.head hstep hw)
        dsimp only at hrest'
        rw [hk] at hrest'
        rw [if_neg hc]
        exact ⟨⟨hoffset, hrest'⟩, hmax'⟩
    · rw [show num_paths.toNat - v.i = 0 by omega, separatedFrom_zero]
      exact ⟨trivial, fun hlt => absurd hlt hi⟩

/-- One path is copied. -/
theorem splitsTo_path (behind : ℕ → Char) (hi : v.i < num_paths) (hp : ';' ∉ p)
    (hdrop : paths.drop v.j = p ++ ';' :: rest) (hoffset : v.offset ≤ (v.path v.i).length) :
    SplitsTo num_paths paths behind v ⟨v.i + 1, v.j + p.length + 1, 0,
      Function.update v.path v.i ((v.path v.i).take v.offset ++ p)⟩ := by
  induction p generalizing v with
  | nil =>
    obtain ⟨hbyte, -⟩ := byteAt_of_drop behind hdrop
    refine Relation.ReflTransGen.single ?_
    rw [splitStep_end _ hi hbyte, List.append_nil]
    rfl
  | cons c p ih =>
    obtain ⟨hbyte, hdrop', -⟩ := byteAt_of_drop behind hdrop
    have hc : c ≠ ';' := fun h => hp (h ▸ List.mem_cons_self)
    have hstep := splitStep_byte (byteAt (paths ++ [nul]) behind) hi (by rwa [hbyte])
    refine Relation.ReflTransGen.head hstep ?_
    have hlen : ((v.path v.i).take v.offset).length = v.offset := List.length_take_of_le hoffset
    have hnext := ih (v := { v with
      path := Function.update v.path v.i
        ((v.path v.i).take v.offset ++ byteAt (paths ++ [nul]) behind v.j ::
          (v.path v.i).drop (v.offset + 1))
      offset := v.offset + 1
      j := v.j + 1 }) hi (fun h => hp (List.mem_cons_of_mem c h)) hdrop' (by simp; omega)
    have htake : ((v.path v.i).take v.offset ++ c :: (v.path v.i).drop (v.offset + 1)).take
        (v.offset + 1) = (v.path v.i).take v.offset ++ [c] := by
      rw [List.take_append, hlen, List.take_of_length_le (by omega)]
      simp
    dsimp only at hnext
    rw [hbyte, Function.update_self, Function.update_idem, htake, List.append_assoc] at hnext
    rw [List.length_cons, show v.j + (p.length + 1) + 1 = v.j + 1 + p.length + 1 by omega, hbyte]
    exact hnext

/-- The loops end, and leave the paths that `splitPaths` finds. -/
theorem splitsTo_splitPaths (behind : ℕ → Char) (hn : v.i + n = num_paths.toNat) (hoffset : v.offset = 0)
    (h : splitPaths n (paths.drop v.j) = some ps) :
    ∃ w, SplitsTo num_paths paths behind v w ∧ num_paths ≤ w.i ∧
      w.path = fun m => if m < v.i then v.path m else ps[m - v.i]?.getD (v.path m) := by
  induction n generalizing v ps with
  | zero =>
    obtain rfl := Option.some.inj h
    refine ⟨v, Relation.ReflTransGen.refl, by omega, ?_⟩
    funext m
    simp
  | succ n ih =>
    rcases exists_path (paths.drop v.j) with hnone | ⟨p, rest, hp, hdrop⟩
    · rw [splitPaths, if_neg fun hc => hnone hc.1] at h
      cases h
    · have hi : v.i < num_paths := by omega
      rw [hdrop, splitPaths_path fun c hc he => hp (he ▸ hc)] at h
      split at h
      · obtain ⟨ps', hps', rfl⟩ := Option.map_eq_some_iff.mp h
        have hcopy := splitsTo_path behind hi hp hdrop (by omega)
        rw [hoffset, List.take_zero, List.nil_append] at hcopy
        have hdrop' : paths.drop (v.j + p.length + 1) = rest := by
          rw [Nat.add_assoc, ← List.drop_drop, hdrop]
          simp
        obtain ⟨w, hw, hend, hpath⟩ := ih (v := ⟨v.i + 1, v.j + p.length + 1, 0,
          Function.update v.path v.i p⟩) (by dsimp only; omega) rfl (by rwa [hdrop'])
        refine ⟨w, hcopy.trans hw, hend, ?_⟩
        rw [hpath]
        funext m
        dsimp only
        rcases Nat.lt_trichotomy m v.i with hm | rfl | hm
        · rw [if_pos (by omega), if_pos hm, Function.update_of_ne (by omega)]
        · rw [if_pos (by omega), if_neg (lt_irrefl _), Function.update_self, Nat.sub_self]
          rfl
        · rw [if_neg (by omega), if_neg (by omega), Function.update_of_ne (by omega),
            show m - v.i = m - (v.i + 1) + 1 by omega, List.getElem?_cons_succ]
      · cases h

/-- Without its four fields a file gives `NULL`. -/
theorem parseMdata_null (hname : (argStr (scanMdata buf) 0 []).length < MAX_FILE_NAME_SIZE)
    (hscan : ¬∃ file_name num_paths size paths,
      scanMdata buf = [.str file_name, .int num_paths, .int size, .str paths]) :
    parseMdata old buf = some none := by
  unfold parseMdata
  rw [if_neg (not_le.mpr hname)]
  split
  · rename_i file_name num_paths size paths heq
    exact absurd ⟨file_name, num_paths, size, paths, heq⟩ hscan
  · rfl

/-- Reading the fields of any metadata file is safe if and only if they fit and agree. -/
theorem decodes_safely_iff (old : Mdata) (bytes : List Char) {stack : List Char}
    (hstack : nul ∈ stack) (behind : ℕ → Char) :
    DecodesSafely old bytes stack behind ↔
      WellFormed (cstr (bytes.take MAX_MDATA_FILE_SIZE ++ stack)) := by
  have hbuf : stringAt (bytes.take MAX_MDATA_FILE_SIZE ++ stack) 0 =
      some (cstr (bytes.take MAX_MDATA_FILE_SIZE ++ stack)) :=
    if_pos (List.mem_append_right _ hstack)
  generalize cstr (bytes.take MAX_MDATA_FILE_SIZE ++ stack) = buf at hbuf
  constructor
  · rintro ⟨buf', hbuf', hname, -, hloops⟩
    obtain rfl := Option.some.inj (hbuf.symm.trans hbuf')
    refine ⟨hname, fun file_name num_paths size paths hscan => ?_⟩
    obtain ⟨hlen, hin, -⟩ := hloops file_name num_paths size paths hscan
    obtain ⟨hrest, hmax⟩ := separatedFrom_of_inBounds rfl hin
    refine ⟨hlen, ?_, (separatedFrom_iff _ _).mp hrest⟩
    by_cases hpos : 0 < storedInt num_paths
    · exact hmax hpos
    · exact (not_lt.mp hpos).trans (by decide)
  · rintro ⟨hname, hfields⟩
    -- what the loops do when all four fields are there
    have hloops : ∀ file_name num_paths size paths,
        scanMdata buf = [.str file_name, .int num_paths, .int size, .str paths] →
          (∀ v, SplitsTo (storedInt num_paths) paths behind ⟨0, 0, 0, old.path⟩ v →
            InBounds (storedInt num_paths) paths v) ∧
          ∃ v, SplitsTo (storedInt num_paths) paths behind ⟨0, 0, 0, old.path⟩ v ∧
            storedInt num_paths ≤ v.i ∧ parseMdata old buf = some (some ⟨file_name,
              storedInt num_paths, v.path, storedInt size, isInt_storedInt _, isInt_storedInt _⟩) := by
      intro file_name num_paths size paths hscan
      obtain ⟨hlen, hmax, hsep⟩ := hfields file_name num_paths size paths hscan
      rw [hscan] at hname
      have hstart : OnTrack (storedInt num_paths) paths ⟨0, 0, 0, old.path⟩ :=
        ⟨Nat.zero_le _, Nat.zero_le _, (separatedFrom_iff _ _).mpr hsep⟩
      refine ⟨fun v hv => (hstart.reaches hv).inBounds hmax, ?_⟩
      obtain ⟨ps, hps⟩ := Option.isSome_iff_exists.mp ((splitPaths_isSome_iff _ _).mpr hsep)
      obtain ⟨v, hv, hend, hpath⟩ := splitsTo_splitPaths (v := ⟨0, 0, 0, old.path⟩) behind
        (Nat.zero_add _) rfl hps
      refine ⟨v, hv, hend, ?_⟩
      rw [parseMdata_fields hscan hname, if_pos ⟨hlen, hmax⟩, hps, hpath]
      rfl
    refine ⟨buf, hbuf, hname, ?_, fun file_name num_paths size paths hscan =>
      ⟨(hfields file_name num_paths size paths hscan).1, hloops _ _ _ _ hscan⟩⟩
    by_cases hscan : ∃ file_name num_paths size paths,
        scanMdata buf = [.str file_name, .int num_paths, .int size, .str paths]
    · obtain ⟨file_name, num_paths, size, paths, hscan⟩ := hscan
      obtain ⟨-, v, -, -, hparse⟩ := hloops _ _ _ _ hscan
      exact ⟨_, hparse⟩
    · exact ⟨none, parseMdata_null hname hscan⟩

theorem decodes_safely_iff_threePaths :
    DecodesSafely Mdata.empty (encodeMdata threePaths) [nul] fun _ => nul := by
  refine (decodes_safely_iff Mdata.empty (encodeMdata threePaths) List.mem_cons_self _).mpr ?_
  have hscan : scanMdata (cstr ((encodeMdata threePaths).take MAX_MDATA_FILE_SIZE ++ [nul])) =
      [.str "f".toList, .int 3, .int 4000,
        .str "/c/Mar-17-2012/f-10;/c/Mar-18-2012/f-9;/c/f-1;".toList] := by decide
  refine ⟨by rw [hscan]; decide, fun file_name num_paths size paths h => ?_⟩
  obtain ⟨-, rfl, -, rfl⟩ : "f".toList = file_name ∧ 3 = num_paths ∧ 4000 = size ∧
      "/c/Mar-17-2012/f-10;/c/Mar-18-2012/f-9;/c/f-1;".toList = paths := by
    simpa using hscan.symm.trans h
  exact ⟨by decide, by decide, by decide, by decide⟩

/-- A count that an `int` does not hold is another one when it is stored. -/
example : storedInt (-4294967295) = 1 ∧ storedInt 4294967297 = 1 := by decide

/-- A file whose only path is not followed by a separator. -/
def unseparated : List Char := "Filename:f\nNumPaths:1\nSize:0\nPaths:x\n".toList

/-- The loop reads on behind the terminator. -/
theorem not_decodes_safely_unseparated :
    ¬ DecodesSafely Mdata.empty unseparated [nul] fun _ => 'y' := by
  have hread : stringAt (unseparated.take MAX_MDATA_FILE_SIZE ++ [nul]) 0 = some unseparated := by
    decide
  have hscan : scanMdata unseparated =
      [.str "f".toList, .int 1, .int 0, .str "x".toList] := by decide
  have hone : ((0 : ℕ) : ℤ) < storedInt 1 := by decide
  rintro ⟨buf, hbuf, -, -, hloops⟩
  obtain rfl := Option.some.inj (hread.symm.trans hbuf)
  obtain ⟨-, hin, -⟩ := hloops _ _ _ _ hscan
  have hfirst := splitStep_byte (v := ⟨0, 0, 0, Mdata.empty.path⟩)
    (byteAt ("x".toList ++ [nul]) fun _ => 'y') hone (by decide)
  have hsecond := splitStep_byte (v := ⟨0, 1, 1, Function.update Mdata.empty.path 0 ['x']⟩)
    (byteAt ("x".toList ++ [nul]) fun _ => 'y') hone (by decide)
  have hbound := hin _ (Relation.ReflTransGen.head hfirst (Relation.ReflTransGen.single hsecond))
  exact absurd (hbound (by decide)).1 (by decide)

end QuorumLogFs.Log
