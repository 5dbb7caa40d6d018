import QuorumLogFs.Log.Owners

/-!
# One namespace, kept twice

Names are listed from `LOAD_PATH` and looked up under `MDATA_PATH`. `lfs_mknod` adds a name to both
directories; `lfs_mkdir`, `lfs_rmdir` and `lfs_unlink` change only the first. Directories are added to
the model of the file system here. No operation makes one under `MDATA_PATH`, so the kernel never
finds one, and every path it passes has a single component.
-/

namespace QuorumLogFs.Log

open QuorumLogFs.Basis

def ENOTDIR : ℤ := 20
def EISDIR : ℤ := 21

/-- The file system with the directories under `LOAD_PATH`. A name that is a directory is one
whatever `loadFiles` says. -/
structure Namespace where
  fs : Fs
  dirs : List Char → Bool

/-- Both directories are empty; `fresh` is what the memory of the write buffers holds at first. -/
def Namespace.init (fresh : ℕ → List Char := fun _ => zeros 4096) : Namespace :=
  ⟨Fs.init fresh, fun _ => false⟩

/-- `lfs_readdir` lists the name. -/
def Namespace.lists (s : Namespace) (name : List Char) : Bool := s.dirs name || s.fs.loadFiles name

/-- `lfs_getattr` finds the name. -/
def Namespace.finds (s : Namespace) (name : List Char) : Bool := (s.fs.mdataFiles name).isSome

/-- `lfs_mknod` of a regular file. `O_EXCL` leaves a directory alone too. -/
def lfsMknodAt (s : Namespace) (path : List Char) : Option (Namespace × ℤ) :=
  (lfsMknod s.fs path).map fun (fs, code) =>
    if s.dirs path.tail then ({ s with fs := { fs with loadFiles := s.fs.loadFiles } }, -EEXIST)
    else ({ s with fs := fs }, code)

/-- `strcpy(load_path,LOAD_PATH); strcat(load_path,path);` -/
def Namespace.setLoadPath (s : Namespace) (path : List Char) : Namespace :=
  { s with fs := { s.fs with loadPath := LOAD_PATH ++ path } }

/-- `lfs_mkdir` -/
def lfsMkdir (s : Namespace) (path : List Char) : Option (Namespace × ℤ) :=
  if (LOAD_PATH ++ path).length < LOAD_PATH_SIZE then
    if s.lists path.tail then some (s.setLoadPath path, -EEXIST)
    else some ({ s.setLoadPath path with dirs := Function.update s.dirs path.tail true }, 0)
  else none

/-- `lfs_unlink` -/
def lfsUnlink (s : Namespace) (path : List Char) : Option (Namespace × ℤ) :=
  if (LOAD_PATH ++ path).length < LOAD_PATH_SIZE then
    if s.dirs path.tail then some (s.setLoadPath path, -EISDIR)
    else if s.fs.loadFiles path.tail then
      some ({ s with fs := { s.fs with
        loadPath := LOAD_PATH ++ path
        loadFiles := Function.update s.fs.loadFiles path.tail false } }, 0)
    else some (s.setLoadPath path, -ENOENT)
  else none

/-- `lfs_rmdir` -/
def lfsRmdir (s : Namespace) (path : List Char) : Option (Namespace × ℤ) :=
  if (LOAD_PATH ++ path).length < LOAD_PATH_SIZE then
    if s.dirs path.tail then
      some (⟨{ s.fs with
        loadPath := LOAD_PATH ++ path
        loadFiles := Function.update s.fs.loadFiles path.tail false },
        Function.update s.dirs path.tail false⟩, 0)
    else some (s.setLoadPath path, if s.fs.loadFiles path.tail then -ENOTDIR else -ENOENT)
  else none

/-- A call of one of the operations. -/
inductive NamespaceOp where
  | file (op : Op)
  | mkdir (f : Name)
  | rmdir (f : Name)
  | unlink (f : Name)

/-- One call. -/
def namespaceStep (s : Namespace) : NamespaceOp → Option Namespace
  | .file (.mknod f) => (lfsMknodAt s f.path).map Prod.fst
  | .file op => (step s.fs op).map fun fs => { s with fs := fs }
  | .mkdir f => (lfsMkdir s f.path).map Prod.fst
  | .rmdir f => (lfsRmdir s f.path).map Prod.fst
  | .unlink f => (lfsUnlink s f.path).map Prod.fst

/-- A name is listed exactly when it is found. -/
def OneNamespace (s : Namespace) : Prop := ∀ name, s.lists name = s.finds name

/-- A call that reads the record of a file back from disk; `mknod` takes a block without reading. -/
def readsBack (s : Fs) : Op → Bool
  | .mknod _ => false
  | op => (takenBlock s op).isSome

/-- `lfs_mknod` records the name as it is. -/
def RecordsName : Op → Prop
  | .mknod f => recordName f.chars = f.chars
  | _ => True

/-- The call neither makes a directory nor removes a file, makes no file with a name that its record
cuts, and reads back no record whose file has a name with white space. -/
def KeepsNames (s : Namespace) : NamespaceOp → Prop
  | .file op => RecordsName op ∧ (readsBack s.fs op = true → IsWord op.file.chars)
  | .mkdir f => s.lists f.chars = true
  | .rmdir _ => True
  | .unlink f => s.dirs f.chars = true ∨ s.fs.loadFiles f.chars = false

instance decidableRecordsName : ∀ op, Decidable (RecordsName op)
  | .mknod f => inferInstanceAs (Decidable (recordName f.chars = f.chars))
  | .open _ => isTrue trivial
  | .getattr _ _ => isTrue trivial
  | .read _ _ _ => isTrue trivial
  | .write _ _ _ => isTrue trivial

instance decidableKeepsNames (s : Namespace) : ∀ op, Decidable (KeepsNames s op)
  | .file op => inferInstanceAs (Decidable
      (RecordsName op ∧ (readsBack s.fs op = true → IsWord op.file.chars)))
  | .mkdir f => inferInstanceAs (Decidable (s.lists f.chars = true))
  | .rmdir _ => isTrue trivial
  | .unlink f => inferInstanceAs (Decidable (s.dirs f.chars = true ∨ s.fs.loadFiles f.chars = false))

/-- Whenever `lfs_getattr` returns, it finds what `finds` says. -/
theorem lfsGetattr_finds {s : Namespace} {fs : Fs} {f : Name} {stack : List Char} {attr : Attr}
    (h : lfsGetattr s.fs f.path stack = some (fs, attr)) :
    s.finds f.chars = true ↔ attr ≠ .error (-ENOENT) := by
  have hroot : f.path ≠ ['/'] := fun h => f.ne_nil (List.cons_injective h)
  rw [Ne, (lfsGetattr_eq_some h).1, Namespace.finds, Option.isSome_iff_ne_none, Name.tail_path]
  simp [hroot]

/-! ## Every record in use has its metadata file -/

/-- The records that the caches may write back are on disk, each in the file that its name says. -/
structure Recorded (s : Fs) : Prop where
  named : FilesNamed s.mdataFiles
  owns : ∀ i, (s.metaDataCache.cblocks i).mdata = some i
  cached : ∀ i, (s.metaDataCache.cblocks i).freeFlag = false →
    s.mdataFiles (s.records i).fileName ≠ none
  buffered : ∀ j, ∀ i ∈ (s.bufferCache.cblocks j).mdata, s.mdataFiles (s.records i).fileName ≠ none

/-- The same names are on disk. -/
structure SameNames (s s' : Fs) : Prop where
  mdataFiles : ∀ name, s'.mdataFiles name ≠ none ↔ s.mdataFiles name ≠ none
  loadFiles : s'.loadFiles = s.loadFiles

theorem SameNames.refl (s : Fs) : SameNames s s := ⟨fun _ => Iff.rfl, rfl⟩

theorem SameNames.trans {s s' t : Fs} (h : SameNames s s') (h' : SameNames s' t) : SameNames s t :=
  ⟨fun name => (h'.mdataFiles name).trans (h.mdataFiles name), h'.loadFiles.trans h.loadFiles⟩

variable {s s' t : Fs} {f : Name} {i j : ℕ} {stack text : List Char}

theorem recorded_init (fresh : ℕ → List Char) : Recorded (Fs.init fresh) := by
  refine ⟨fun name bytes h => ?_, fun i => rfl, fun i h => ?_, fun j i h => ?_⟩
  · cases h
  · cases h
  · cases h

/-- Writing a record that is on disk adds no name. -/
theorem writeMetadataToDisk_names {m : Mdata} {files files' : List Char → Option (List Char)}
    (h : writeMetadataToDisk m files = some files') (hm : files m.fileName ≠ none) (name : List Char) :
    files' name ≠ none ↔ files name ≠ none := by
  rw [writeMetadataToDisk_ne_none h]
  constructor
  · rintro (rfl | hname)
    · exact hm
    · exact hname
  · exact Or.inr

/-- Only what is in the blocks has changed. -/
theorem Recorded.framed (h : Recorded s) (hs : s.Framed s') (hnames : SameNames s s')
    (hnamed : FilesNamed s'.mdataFiles) : Recorded s' := by
  refine ⟨hnamed, fun i => ?_, fun i hfree => ?_, fun j i hi => ?_⟩
  · rw [hs.metaDataCache, h.owns]
  · rw [hs.metaDataCache] at hfree
    rw [hnames.mdataFiles, hs.fileName]
    exact h.cached i hfree
  · rw [hs.mdata] at hi
    rw [hnames.mdataFiles, hs.fileName]
    exact h.buffered j i hi

/-- A block takes over a record that is on disk under its new name. -/
theorem Recorded.update_record {files : List Char → Option (List Char)} {m : Mdata} (h : Recorded s)
    (hfiles : FilesNamed files) (hmono : ∀ name, s.mdataFiles name ≠ none → files name ≠ none)
    (hm : files m.fileName ≠ none) {loadFiles : List Char → Bool} {loadPath : List Char} :
    Recorded { s with
      metaDataCache := updateLru (s.metaDataCache.take i) i
      records := Function.update s.records i m
      mdataFiles := files
      loadFiles := loadFiles
      loadPath := loadPath } := by
  have hrecord : ∀ k, s.mdataFiles (s.records k).fileName ≠ none ∨ k = i →
      files (Function.update s.records i m k).fileName ≠ none := by
    intro k hk
    by_cases hki : k = i
    · rw [hki, Function.update_self]
      exact hm
    · rw [Function.update_of_ne hki]
      exact hmono _ (hk.resolve_right hki)
  refine ⟨hfiles, fun k => by simpa using h.owns k, fun k hfree => hrecord k ?_, fun j k hk => ?_⟩
  · rcases (take_freeFlag s.metaDataCache i k).mp hfree with rfl | hfree
    · exact Or.inr rfl
    · exact Or.inl (h.cached k hfree)
  · exact hrecord k (Or.inl (h.buffered j k hk))

/-- The record of a file is in the cache, or read back from the file's own metadata file. -/
theorem Recorded.metaDataBlock (h : Recorded s)
    (hword : (reloadBlock s f).isSome = true → IsWord f.chars)
    (hop : metaDataBlock s f.path stack = some (s', i)) :
    Recorded s' ∧ SameNames s s' ∧ s'.mdataFiles (s'.records i).fileName ≠ none := by
  cases hfind : findMetaDataBlock s.records s.metaDataCache f.chars with
  | some k =>
    rw [metaDataBlock_found hfind] at hop
    obtain ⟨rfl, rfl⟩ := Prod.mk.inj (Option.some.inj hop)
    obtain ⟨-, hfor⟩ := findMetaDataBlock_some hfind
    exact ⟨⟨h.named, h.owns, h.cached, h.buffered⟩, ⟨fun _ => Iff.rfl, rfl⟩,
      h.cached k (CBlock.isFor_iff.mp hfor).1⟩
  | none =>
    rw [metaDataBlock_reload hfind] at hop
    have hname : (s'.records i).fileName = f.chars := by
      refine reload_fileName h.named (hword ?_) hop
      obtain ⟨_, _, _, _, -, hvictim, -⟩ := mdataFromDiskToMemory_eq_some hop
      rw [reloadBlock, hfind, Option.isSome_iff_exists]
      exact ⟨i, hvictim⟩
    obtain ⟨files, bytes, buf, mdata, -, hvictim, hwrite, hbytes, -, -, rfl⟩ :=
      mdataFromDiskToMemory_eq_some hop
    have hsame : ∀ name, files name ≠ none ↔ s.mdataFiles name ≠ none := by
      rcases hwrite with rfl | ⟨hfree, hwrite⟩
      · exact fun _ => Iff.rfl
      · exact writeMetadataToDisk_names hwrite (h.cached i hfree)
    have hnamed : FilesNamed files := by
      rcases hwrite with rfl | ⟨-, hwrite⟩
      · exact h.named
      · exact filesNamed_writeMetadataToDisk h.named hwrite
    change (Function.update s.records i mdata i).fileName = f.chars at hname
    have hfile : files mdata.fileName ≠ none := by
      rw [Function.update_self] at hname
      rw [hname]
      exact fun hnone => by rw [Name.tail_path, hnone] at hbytes; cases hbytes
    refine ⟨h.update_record hnamed (fun name => (hsame name).mpr) hfile, ⟨hsame, rfl⟩, ?_⟩
    show files (Function.update s.records i mdata i).fileName ≠ none
    rw [Function.update_self]
    exact hfile

theorem Recorded.flushBlock {junk : Junk} (h : Recorded s) (hop : flushBlock s j junk = some s') :
    Recorded s' ∧ SameNames s s' := by
  obtain ⟨i, block, mdata, chunks, files, hi, hflush, hfiles, rfl⟩ := flushBlock_eq_some hop
  have hname := (writeBufferToDisk_frame hflush).2.2.2.2
  have hsame : SameNames s { s with
      bufferCache := s.bufferCache.set j block
      records := Function.update s.records i mdata
      chunkFiles := chunks
      mdataFiles := files } :=
    ⟨writeMetadataToDisk_names hfiles (hname ▸ h.buffered j i hi), rfl⟩
  exact ⟨h.framed (flushBlock_framed hop) hsame (filesNamed_writeMetadataToDisk h.named hfiles), hsame⟩

/-- The write buffer of a file, pointing to a record that is on disk. -/
theorem Recorded.wbufDataBlock {junk : Junk} (h : Recorded s)
    (hi : s.mdataFiles (s.records i).fileName ≠ none)
    (hop : wbufDataBlock s f.path (some i) junk = some (s', j)) : Recorded s' ∧ SameNames s s' := by
  cases hfind : findMetaDataBlock s.records s.bufferCache f.chars with
  | some k =>
    rw [wbufDataBlock_found hfind] at hop
    obtain ⟨rfl, rfl⟩ := Prod.mk.inj (Option.some.inj hop)
    exact ⟨h, SameNames.refl s⟩
  | none =>
    obtain ⟨-, t, ht, rfl⟩ := wbufDataBlock_eq_some hfind hop
    have htaken : Recorded { s with bufferCache := s.bufferCache.take j } :=
      ⟨h.named, h.owns, h.cached, fun k m hm => h.buffered k m (by simpa using hm)⟩
    have hframe := evictBlock_framed ht
    obtain ⟨hevicted, hsame⟩ : Recorded t ∧
        SameNames { s with bufferCache := s.bufferCache.take j } t := by
      unfold evictBlock at ht
      split at ht
      · exact htaken.flushBlock ht
      · obtain rfl := Option.some.inj ht
        exact ⟨htaken, SameNames.refl _⟩
    refine ⟨⟨hevicted.named, hevicted.owns, hevicted.cached, fun k m hm => ?_⟩,
      ⟨hsame.mdataFiles, hsame.loadFiles⟩⟩
    by_cases hk : k = j
    · subst hk
      obtain rfl : i = m := by simpa [Fs.assign] using hm
      show t.mdataFiles (t.records i).fileName ≠ none
      rw [hsame.mdataFiles, hframe.fileName]
      exact hi
    · refine hevicted.buffered k m ?_
      change m ∈ ((t.bufferCache.set j _).cblocks k).mdata at hm
      rwa [Cache.cblocks_set_of_ne _ hk] at hm

theorem Recorded.makeRoom {junk : Junk} (h : Recorded s) (hop : makeRoom s j text junk = some s') :
    Recorded s' ∧ SameNames s s' := by
  unfold QuorumLogFs.Log.makeRoom at hop
  split at hop
  · exact h.flushBlock hop
  · obtain rfl := Option.some.inj hop
    exact ⟨h, SameNames.refl s⟩

theorem Recorded.appendText (h : Recorded s) (hop : appendText s j text = some s') :
    Recorded s' ∧ SameNames s s' := by
  have hframe := appendText_framed hop
  obtain ⟨buf, -, rfl⟩ := Option.map_eq_some_iff.mp hop
  have hsame := SameNames.refl s
  exact ⟨h.framed hframe ⟨hsame.mdataFiles, rfl⟩ h.named, ⟨hsame.mdataFiles, rfl⟩⟩

theorem Recorded.write {buf : List Char} {junk : WriteJunk} {n : ℕ} (h : Recorded s)
    (hword : (reloadBlock s f).isSome = true → IsWord f.chars)
    (hop : lfsWrite s f.path buf 0 0 junk = some (s', n)) : Recorded s' ∧ SameNames s s' := by
  obtain ⟨text, s₁, i, s₂, j, s₃, -, h₁, h₂, h₃, h₄, -⟩ := lfsWrite_eq_some hop
  have hload : Recorded { s with loadPath := s.loadPath ++ f.path } :=
    ⟨h.named, h.owns, h.cached, h.buffered⟩
  obtain ⟨hinv₁, hsame₁, hi⟩ := hload.metaDataBlock hword h₁
  rw [hinv₁.owns] at h₂
  obtain ⟨hinv₂, hsame₂⟩ := hinv₁.wbufDataBlock hi h₂
  obtain ⟨hinv₃, hsame₃⟩ := hinv₂.makeRoom h₃
  obtain ⟨hinv₄, hsame₄⟩ := hinv₃.appendText h₄
  have hsame : SameNames s s₁ := ⟨hsame₁.mdataFiles, hsame₁.loadFiles⟩
  exact ⟨hinv₄, hsame.trans (hsame₂.trans (hsame₃.trans hsame₄))⟩

/-- A call on a file in use adds no name and removes none. -/
theorem Recorded.step {op : Op} (h : Recorded s) (hop : step s op = some s')
    (hword : readsBack s op = true → IsWord op.file.chars) (hmknod : ∀ f, op ≠ .mknod f) :
    Recorded s' ∧ SameNames s s' := by
  cases op with
  | mknod f => exact absurd rfl (hmknod f)
  | «open» f =>
    obtain ⟨⟨t, code⟩, ht, rfl⟩ := Option.map_eq_some_iff.mp hop
    unfold lfsOpen at ht
    split at ht
    · obtain ⟨rfl, -⟩ := Prod.mk.inj (Option.some.inj ht)
      exact ⟨⟨h.named, h.owns, h.cached, h.buffered⟩, ⟨fun _ => Iff.rfl, rfl⟩⟩
    · cases ht
  | getattr f stack =>
    obtain ⟨⟨t, attr⟩, ht, rfl⟩ := Option.map_eq_some_iff.mp hop
    obtain ⟨-, rfl | ⟨⟨hfile, hdot⟩, s₁, i, h₁, hs'⟩⟩ := lfsGetattr_eq_some ht
    · exact ⟨h, SameNames.refl _⟩
    · have htaken : takenBlock s (.getattr f stack) = reloadBlock s f :=
        if_neg (not_or.mpr ⟨hfile, hdot⟩)
      have hword : (reloadBlock s f).isSome = true → IsWord f.chars := by
        rw [← htaken]
        exact hword
      obtain ⟨hinv₁, hsame₁, -⟩ := h.metaDataBlock hword h₁
      rcases hs' with rfl | ⟨j, rfl⟩
      · exact ⟨hinv₁, hsame₁⟩
      · exact ⟨⟨hinv₁.named, hinv₁.owns, hinv₁.cached, hinv₁.buffered⟩,
          ⟨hsame₁.mdataFiles, hsame₁.loadFiles⟩⟩
  | read f buf stack =>
    obtain ⟨⟨t, out⟩, ht, rfl⟩ := Option.map_eq_some_iff.mp hop
    obtain ⟨i, hi⟩ := lfsRead_metaDataBlock ht
    obtain ⟨hinv, hsame, -⟩ := h.metaDataBlock hword hi
    exact ⟨hinv, hsame⟩
  | write f buf junk =>
    obtain ⟨⟨t, n⟩, ht, rfl⟩ := Option.map_eq_some_iff.mp hop
    exact h.write hword ht

/-- `lfs_mknod` adds its name to one directory, and the name that it records to the other. -/
theorem Recorded.mknod {code : ℤ} (h : Recorded s) (hop : lfsMknod s f.path = some (s', code)) :
    Recorded s' ∧
      (∀ name, s'.mdataFiles name ≠ none ↔ name = recordName f.chars ∨ s.mdataFiles name ≠ none) ∧
      s'.loadFiles = Function.update s.loadFiles f.chars true := by
  obtain ⟨i, files, -, hfiles, rfl⟩ := lfsMknod_eq_some hop
  have hnames : ∀ name, files name ≠ none ↔ name = recordName f.chars ∨ s.mdataFiles name ≠ none :=
    fun _ => writeMetadataToDisk_ne_none hfiles
  exact ⟨h.update_record (filesNamed_writeMetadataToDisk h.named hfiles)
    (fun name hname => (hnames name).mpr (Or.inr hname)) ((hnames _).mpr (Or.inl rfl)), hnames, rfl⟩

/-! ## Runs -/

/-- Nothing but files is under `LOAD_PATH`, and the same ones are under `MDATA_PATH`. -/
structure NamesInv (s : Namespace) : Prop where
  recorded : Recorded s.fs
  noDirs : ∀ name, s.dirs name = false
  agree : ∀ name, s.fs.mdataFiles name ≠ none ↔ s.fs.loadFiles name = true

theorem namesInv_init (fresh : ℕ → List Char) : NamesInv (.init fresh) := by
  refine ⟨recorded_init fresh, fun _ => rfl, fun name => ⟨fun h => absurd rfl h, fun h => ?_⟩⟩
  cases h

theorem NamesInv.oneNamespace {s : Namespace} (h : NamesInv s) : OneNamespace s := by
  intro name
  rw [Namespace.lists, Namespace.finds, h.noDirs, Bool.false_or, Bool.eq_iff_iff, ← h.agree,
    Option.isSome_iff_ne_none]

theorem NamesInv.file {s s' : Namespace} {op : Op} (h : NamesInv s) (hname : RecordsName op)
    (hword : readsBack s.fs op = true → IsWord op.file.chars)
    (hop : namespaceStep s (.file op) = some s') : NamesInv s' := by
  by_cases hmknod : ∃ f, op = .mknod f
  · obtain ⟨f, rfl⟩ := hmknod
    obtain ⟨⟨t, code⟩, ht, rfl⟩ := Option.map_eq_some_iff.mp hop
    obtain ⟨⟨fs, code'⟩, hfs, heq⟩ := Option.map_eq_some_iff.mp ht
    dsimp only at heq
    rw [if_neg (by rw [h.noDirs]; decide)] at heq
    obtain ⟨rfl, -⟩ := Prod.mk.inj heq
    obtain ⟨hrecorded, hnames, hload⟩ := h.recorded.mknod hfs
    refine ⟨hrecorded, h.noDirs, fun name => ?_⟩
    show fs.mdataFiles name ≠ none ↔ fs.loadFiles name = true
    rw [hnames, show recordName f.chars = f.chars from hname, h.agree, hload]
    by_cases hf : name = f.chars
    · simp [hf]
    · simp [hf]
  · have hnot := not_exists.mp hmknod
    obtain ⟨fs, hfs, rfl⟩ : ∃ fs, step s.fs op = some fs ∧ { s with fs := fs } = s' := by
      cases op with
      | mknod f => exact absurd rfl (hnot f)
      | _ => exact Option.map_eq_some_iff.mp hop
    obtain ⟨hrecorded, hsame⟩ := h.recorded.step hfs hword hnot
    refine ⟨hrecorded, h.noDirs, fun name => ?_⟩
    show fs.mdataFiles name ≠ none ↔ fs.loadFiles name = true
    rw [hsame.mdataFiles, hsame.loadFiles, h.agree]

theorem NamesInv.setLoadPath {s : Namespace} (h : NamesInv s) (path : List Char) :
    NamesInv (s.setLoadPath path) :=
  ⟨⟨h.recorded.named, h.recorded.owns, h.recorded.cached, h.recorded.buffered⟩, h.noDirs, h.agree⟩

/-- The calls that leave both directories alone, or change both. -/
theorem NamesInv.step {s s' : Namespace} {op : NamespaceOp} (h : NamesInv s) (hok : KeepsNames s op)
    (hop : namespaceStep s op = some s') : NamesInv s' := by
  have hdirs : ∀ name, ¬ s.dirs name = true := fun name => by rw [h.noDirs]; decide
  cases op with
  | file op => exact h.file hok.1 hok.2 hop
  | mkdir f =>
    obtain ⟨⟨t, code⟩, ht, rfl⟩ := Option.map_eq_some_iff.mp hop
    have hlisted : s.lists f.path.tail = true := hok
    unfold lfsMkdir at ht
    rw [if_pos hlisted] at ht
    split at ht
    · obtain ⟨rfl, -⟩ := Prod.mk.inj (Option.some.inj ht)
      exact h.setLoadPath _
    · cases ht
  | rmdir f =>
    obtain ⟨⟨t, code⟩, ht, rfl⟩ := Option.map_eq_some_iff.mp hop
    unfold lfsRmdir at ht
    rw [if_neg (hdirs f.path.tail)] at ht
    split at ht
    · obtain ⟨rfl, -⟩ := Prod.mk.inj (Option.some.inj ht)
      exact h.setLoadPath _
    · cases ht
  | unlink f =>
    obtain ⟨⟨t, code⟩, ht, rfl⟩ := Option.map_eq_some_iff.mp hop
    have hfile : ¬ s.fs.loadFiles f.path.tail = true := by
      rw [Name.tail_path, hok.resolve_left (hdirs f.chars)]
      decide
    unfold lfsUnlink at ht
    rw [if_neg (hdirs f.path.tail), if_neg hfile] at ht
    split at ht
    · obtain ⟨rfl, -⟩ := Prod.mk.inj (Option.some.inj ht)
      exact h.setLoadPath _
    · cases ht

/-- A new file whose name its record cuts is listed, and never found. -/
theorem OneNamespace.broken_mknod {s s' : Namespace} (h : OneNamespace s)
    (hop : namespaceStep s (.file (.mknod f)) = some s') (hcut : ¬ RecordsName (.mknod f))
    (hnew : s.lists f.chars = false) : ¬ OneNamespace s' := by
  obtain ⟨⟨t, code⟩, ht, rfl⟩ := Option.map_eq_some_iff.mp hop
  obtain ⟨⟨fs, code'⟩, hfs, heq⟩ := Option.map_eq_some_iff.mp ht
  have hdir : ¬ s.dirs f.path.tail = true := by simpa using (Bool.or_eq_false_iff.mp hnew).1
  dsimp only at heq
  rw [if_neg hdir] at heq
  obtain ⟨rfl, -⟩ := Prod.mk.inj heq
  obtain ⟨i, files, -, hfiles, rfl⟩ := lfsMknod_eq_some hfs
  intro hone
  have hlisted : (s.dirs f.chars || Function.update s.fs.loadFiles f.chars true f.chars) =
      (files f.chars).isSome := hone f.chars
  rw [Function.update_self, Bool.or_true, eq_comm, Option.isSome_iff_ne_none,
    writeMetadataToDisk_ne_none hfiles] at hlisted
  rcases hlisted with hname | hold
  · exact hcut hname.symm
  · have hfound : s.finds f.chars = false := (h f.chars).symm.trans hnew
    exact hold (Option.isSome_eq_false_iff.mp hfound |> Option.isNone_iff_eq_none.mp)

/-- A directory that is made, and a file that is removed, are listed and found differently at
once. -/
theorem OneNamespace.broken {s s' : Namespace} {op : NamespaceOp} (h : OneNamespace s)
    (hop : namespaceStep s op = some s') (hnot : ¬ KeepsNames s op) (hfile : ∀ op', op ≠ .file op') :
    ¬ OneNamespace s' := by
  cases op with
  | file op => exact absurd rfl (hfile op)
  | rmdir f => exact absurd trivial hnot
  | mkdir f =>
    obtain ⟨⟨t, code⟩, ht, rfl⟩ := Option.map_eq_some_iff.mp hop
    have hfree : ¬ s.lists f.path.tail = true := hnot
    unfold lfsMkdir at ht
    rw [if_neg hfree] at ht
    split at ht
    · obtain ⟨rfl, -⟩ := Prod.mk.inj (Option.some.inj ht)
      intro hone
      have hlisted : (Function.update s.dirs f.chars true f.chars || s.fs.loadFiles f.chars) =
          s.finds f.chars := hone f.chars
      rw [Function.update_self, Bool.true_or] at hlisted
      exact hfree ((h f.chars).trans hlisted.symm)
    · cases ht
  | unlink f =>
    obtain ⟨⟨t, code⟩, ht, rfl⟩ := Option.map_eq_some_iff.mp hop
    obtain ⟨hdir, hload⟩ : ¬ s.dirs f.path.tail = true ∧ ¬ s.fs.loadFiles f.path.tail = false :=
      not_or.mp hnot
    have hload : s.fs.loadFiles f.path.tail = true := by simpa using hload
    unfold lfsUnlink at ht
    rw [if_neg hdir, if_pos hload] at ht
    split at ht
    · obtain ⟨rfl, -⟩ := Prod.mk.inj (Option.some.inj ht)
      intro hone
      have hgone : (s.dirs f.chars || Function.update s.fs.loadFiles f.chars false f.chars) =
          s.finds f.chars := hone f.chars
      have hfound : (s.dirs f.chars || s.fs.loadFiles f.chars) = s.finds f.chars := h f.chars
      rw [Function.update_self, Bool.or_false] at hgone
      rw [show s.fs.loadFiles f.chars = true from hload, Bool.or_true] at hfound
      exact hdir (hgone.trans hfound.symm)
    · cases ht

/-- As long as no directory is made, no file removed, no name that a record cuts given to a file and no
name with white space read back, the two directories agree. -/
theorem one_namespace (fresh : ℕ → List Char) {ops : List NamespaceOp}
    (hok : Each namespaceStep KeepsNames (Namespace.init fresh) ops) :
    Always namespaceStep OneNamespace (Namespace.init fresh) ops :=
  (always_of_each (namesInv_init fresh) (fun _ _ _ h hok hop => NamesInv.step h hok hop) hok).imp
    fun _ h => h.oneNamespace

/-- A file is created, looked up and written to; an existing name is taken for a directory, and what
is not there is removed. -/
theorem one_namespace_twoNames :
    Always namespaceStep OneNamespace Namespace.init
      [.file (.mknod (fileNo 0)), .file (.getattr (fileNo 0) []), .mkdir (fileNo 0),
        .file (.write (fileNo 0) oneLine {}), .unlink (fileNo 1), .rmdir (fileNo 0)] :=
  one_namespace _ (by decide +kernel)

/-- A removed file is still found. -/
theorem not_one_namespace_unlink :
    ∃ s, run namespaceStep Namespace.init [.file (.mknod (fileNo 0)), .unlink (fileNo 0)] = some s ∧
      s.lists (fileNo 0).chars = false ∧ s.finds (fileNo 0).chars = true := by
  have hrun : (run namespaceStep Namespace.init [.file (.mknod (fileNo 0)), .unlink (fileNo 0)]).map
      (fun s => (s.lists (fileNo 0).chars, s.finds (fileNo 0).chars)) = some (false, true) := by
    decide
  obtain ⟨s, hs, heq⟩ := Option.map_eq_some_iff.mp hrun
  exact ⟨s, hs, (Prod.mk.inj heq).1, (Prod.mk.inj heq).2⟩

end QuorumLogFs.Log
