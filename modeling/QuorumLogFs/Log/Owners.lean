import QuorumLogFs.Log.Fs

/-!
# Write buffers and the records they point to

A write buffer points to the record of its file, and the record belongs to a block of the metadata
cache. Nothing ties the two caches together: when the metadata cache gives a block to another file,
its record is overwritten, whether or not a write buffer still points to it. `KeepsOwner` is the
property that no write buffer ever points to the record of another file; it holds in the runs that
take no metadata block in use by a write buffer.
-/

namespace QuorumLogFs.Log

open QuorumLogFs.Basis

/-- The file system together with the file that each write buffer was last given to. -/
structure Owned where
  fs : Fs
  owner : ℕ → List Char

/-- The write buffer that a call of `lfs_write` allocates or takes from another file. -/
def assigned (s : Fs) : Op → Option ℕ
  | .write f _ junk => do
    let (s, _) ← metaDataBlock { s with loadPath := s.loadPath ++ f.path } f.path junk.stack
    match findMetaDataBlock s.records s.bufferCache f.chars with
    | some _ => none
    | none => victim (fun j => (s.bufferCache.cblocks j).lruCounter) s.bufferCache.numBlocks
  | _ => none

/-- The file a call is about. -/
def Op.file : Op → Name
  | .mknod f => f
  | .open f => f
  | .getattr f _ => f
  | .read f _ _ => f
  | .write f _ _ => f

/-- One call, with the bookkeeping of owners. -/
def ownedStep (o : Owned) (op : Op) : Option Owned :=
  (step o.fs op).map fun s =>
    { fs := s
      owner :=
        match assigned o.fs op with
        | some j => Function.update o.owner j op.file.chars
        | none => o.owner }

/-- Every allocated write buffer points to a record with its owner's name. -/
def KeepsOwner (s : Fs) (owner : ℕ → List Char) : Prop :=
  ∀ j, j < s.bufferCache.numBlocks → (s.bufferCache.cblocks j).freeFlag = false →
    ∃ i ∈ (s.bufferCache.cblocks j).mdata, (s.records i).fileName = owner j

/-- The metadata block that a reload of the file takes. -/
def reloadBlock (s : Fs) (f : Name) : Option ℕ :=
  match findMetaDataBlock s.records s.metaDataCache f.chars with
  | some _ => none
  | none => victim (fun i => (s.metaDataCache.cblocks i).lruCounter) s.metaDataCache.numBlocks

/-- The metadata block that a call takes from `get_free_cache_block`. -/
def takenBlock (s : Fs) : Op → Option ℕ
  | .mknod _ => victim (fun i => (s.metaDataCache.cblocks i).lruCounter) s.metaDataCache.numBlocks
  | .getattr f _ =>
    if s.mdataFiles f.chars = none ∨ f.chars.head? = some '.' then none else reloadBlock s f
  | .read f _ _ => reloadBlock s f
  | .write f _ _ => reloadBlock s f
  | .open _ => none

/-- The block that is flushed for a file without a write buffer. -/
def evictedBlock (s : Fs) (path : List Char) : Option ℕ :=
  if findMetaDataBlock s.records s.bufferCache path.tail = none then
    Option.filter (fun j => !(s.bufferCache.cblocks j).freeFlag)
      (victim (fun j => (s.bufferCache.cblocks j).lruCounter) s.bufferCache.numBlocks)
  else none

/-- No write buffer points to the record of this metadata block. -/
def Unreferenced (s : Fs) (i : ℕ) : Prop :=
  ∀ j, j < s.bufferCache.numBlocks → (s.bufferCache.cblocks j).freeFlag = false →
    (s.bufferCache.cblocks j).mdata ≠ some i

/-- The call takes no metadata block whose record a write buffer points to, and the record that
`lfs_write` reads back from disk carries a name that `%s` reads whole. -/
def SparesBuffers (o : Owned) (op : Op) : Prop :=
  (∀ i ∈ takenBlock o.fs op, Unreferenced o.fs i) ∧
  match op with
  | .write f _ _ => reloadBlock o.fs f ≠ none → IsWord f.chars
  | _ => True

instance (s : Fs) (i : ℕ) : Decidable (Unreferenced s i) :=
  Nat.decidableBallLT s.bufferCache.numBlocks fun j _ =>
    (s.bufferCache.cblocks j).freeFlag = false → (s.bufferCache.cblocks j).mdata ≠ some i

instance decidableSparesBuffers (o : Owned) : ∀ op, Decidable (SparesBuffers o op)
  | .mknod f => inferInstanceAs (Decidable ((∀ i ∈ takenBlock o.fs (.mknod f), _) ∧ True))
  | .open f => inferInstanceAs (Decidable ((∀ i ∈ takenBlock o.fs (.open f), _) ∧ True))
  | .getattr f stack =>
    inferInstanceAs (Decidable ((∀ i ∈ takenBlock o.fs (.getattr f stack), _) ∧ True))
  | .read f buf stack =>
    inferInstanceAs (Decidable ((∀ i ∈ takenBlock o.fs (.read f buf stack), _) ∧ True))
  | .write f buf junk =>
    inferInstanceAs (Decidable ((∀ i ∈ takenBlock o.fs (.write f buf junk), _) ∧
      (reloadBlock o.fs f ≠ none → IsWord f.chars)))

/-! ## A reload gives the record its file's name -/

/-- Every metadata file starts with the name of the file it describes. -/
def FilesNamed (files : List Char → Option (List Char)) : Prop :=
  ∀ name bytes, files name = some bytes → "Filename:".toList ++ (name ++ ['\n']) <+: bytes

theorem encodeMdata_named (m : Mdata) :
    ∃ rest, encodeMdata m = "Filename:".toList ++ (m.fileName ++ '\n' :: rest) :=
  ⟨_, rfl⟩

theorem filesNamed_writeMetadataToDisk {m : Mdata} {files files' : List Char → Option (List Char)}
    (hfiles : FilesNamed files) (h : writeMetadataToDisk m files = some files') :
    FilesNamed files' := by
  intro name bytes hbytes
  rw [writeMetadataToDisk_eq_some h] at hbytes
  by_cases hn : name = m.fileName
  · subst hn
    rw [Function.update_self] at hbytes
    obtain rfl := Option.some.inj hbytes
    obtain ⟨rest, hrest⟩ := encodeMdata_named m
    rw [overwrite, hrest]
    refine ⟨rest ++ ((files m.fileName).getD []).drop
      ("Filename:".toList ++ (m.fileName ++ '\n' :: rest)).length, ?_⟩
    simp only [List.append_assoc, List.cons_append, List.nil_append]
  · rw [Function.update_of_ne hn] at hbytes
    exact hfiles name bytes hbytes

theorem parseMdata_fileName {name rest : List Char} (hword : IsWord name) {old m : Mdata}
    (h : parseMdata old ("Filename:".toList ++ (name ++ '\n' :: rest)) = some (some m)) :
    m.fileName = name := by
  obtain ⟨args, hargs⟩ : ∃ args,
      scanMdata ("Filename:".toList ++ (name ++ '\n' :: rest)) = .str name :: args := by
    rw [scanMdata, scan_lits, scan_str_word hword (endsWord_newline rest)]
    exact ⟨_, rfl⟩
  unfold parseMdata at h
  split at h
  · cases h
  · rw [hargs] at h
    split at h
    · rename_i heq
      obtain ⟨rfl, -⟩ : name = _ ∧ _ := by simpa using heq
      split at h
      · obtain ⟨ps, -, hm⟩ := Option.map_eq_some_iff.mp h
        obtain rfl := Option.some.inj hm
        rfl
      · cases h
    · cases h

/-- What a reload reads is the file's own name, if that is a word. -/
theorem reload_fileName {s s' : Fs} {f : Name} {stack : List Char} {i : ℕ}
    (hfiles : FilesNamed s.mdataFiles) (hword : IsWord f.chars)
    (h : mdataFromDiskToMemory s f.path stack = some (s', i)) :
    (s'.records i).fileName = f.chars := by
  obtain ⟨files, bytes, buf, mdata, hlen, -, hwrite, hbytes, hbuf, hparse, rfl⟩ :=
    mdataFromDiskToMemory_eq_some h
  have hnamed : FilesNamed files := by
    rcases hwrite with rfl | ⟨-, hwrite⟩
    · exact hfiles
    · exact filesNamed_writeMetadataToDisk hfiles hwrite
  rw [Name.tail_path] at hbytes
  obtain ⟨rest, rfl⟩ := hnamed _ _ hbytes
  obtain ⟨rest', rfl⟩ : ∃ rest', buf = "Filename:".toList ++ (f.chars ++ '\n' :: rest') := by
    have hnul : nul ∉ "Filename:".toList ++ (f.chars ++ ['\n']) := by
      have hlit : nul ∉ "Filename:".toList := by decide
      have hnewline : nul ≠ '\n' := by decide
      simp [-String.reduceToList, hlit, f.noNul, hnewline]
    have hfits : ("Filename:".toList ++ (f.chars ++ ['\n'])).length ≤ MAX_MDATA_FILE_SIZE := by
      have hlit : "Filename:".toList.length = 9 := rfl
      simp only [Name.path, List.length_append, List.length_cons, List.length_nil, hlit,
        MAX_PATH_NAME_SIZE] at hlen ⊢
      rw [MAX_MDATA_FILE_SIZE]
      omega
    rw [stringAt_eq_some hbuf, List.drop_zero, List.take_append, List.take_of_length_le hfits,
      List.append_assoc, cstr_append hnul]
    exact ⟨_, by simp only [List.append_assoc, List.cons_append, List.nil_append]; rfl⟩
  show (Function.update s.records i mdata i).fileName = f.chars
  rw [Function.update_self]
  exact parseMdata_fileName hword hparse

/-! ## One call -/

/-- What the calls preserve: owners, the names in the metadata files, and that every metadata block
owns the record at its own address. -/
structure OwnerInv (s : Fs) (owner : ℕ → List Char) : Prop where
  keeps : KeepsOwner s owner
  named : FilesNamed s.mdataFiles
  owns : ∀ i, (s.metaDataCache.cblocks i).mdata = some i

variable {s s' t : Fs} {owner : ℕ → List Char} {f : Name} {i j : ℕ} {stack text : List Char}

/-- A flush changes no name. -/
theorem KeepsOwner.framed (h : KeepsOwner s owner) (hs : s.Framed s') : KeepsOwner s' owner := by
  intro j hj hfree
  rw [hs.numBlocks] at hj
  rw [hs.freeFlag] at hfree
  obtain ⟨i, hi, hname⟩ := h j hj hfree
  exact ⟨i, by rwa [hs.mdata], by rw [hs.fileName, hname]⟩

theorem OwnerInv.flushBlock {junk : Junk} (h : OwnerInv s owner)
    (hflush : flushBlock s j junk = some s') : OwnerInv s' owner := by
  refine ⟨h.keeps.framed (flushBlock_framed hflush), ?_, ?_⟩
  · obtain ⟨i, block, mdata, chunks, files, -, -, hfiles, rfl⟩ := flushBlock_eq_some hflush
    exact filesNamed_writeMetadataToDisk h.named hfiles
  · rw [(flushBlock_framed hflush).metaDataCache]
    exact h.owns

/-- A record that no write buffer points to can be replaced. -/
theorem KeepsOwner.update_record (h : KeepsOwner s owner) (hi : Unreferenced s i) (m : Mdata) :
    KeepsOwner { s with records := Function.update s.records i m } owner := by
  intro j hj hfree
  obtain ⟨k, hk, hname⟩ := h j hj hfree
  have hki : k ≠ i := by
    rintro rfl
    exact hi j hj hfree hk
  refine ⟨k, hk, ?_⟩
  show (Function.update s.records i m k).fileName = owner j
  rw [Function.update_of_ne hki, hname]

theorem OwnerInv.mknod {code : ℤ} (h : OwnerInv s owner)
    (hspare : ∀ i ∈ takenBlock s (.mknod f), Unreferenced s i)
    (hop : lfsMknod s f.path = some (s', code)) : OwnerInv s' owner := by
  obtain ⟨i, files, hvictim, hfiles, rfl⟩ := lfsMknod_eq_some hop
  exact ⟨h.keeps.update_record (hspare i hvictim) _, filesNamed_writeMetadataToDisk h.named hfiles,
    fun k => by simpa using h.owns k⟩

/-- The record of a file is found, or read back into a block that no write buffer uses. -/
theorem OwnerInv.metaDataBlock (h : OwnerInv s owner)
    (hspare : ∀ i ∈ reloadBlock s f, Unreferenced s i)
    (hop : metaDataBlock s f.path stack = some (s', i)) :
    OwnerInv s' owner ∧
      ((reloadBlock s f ≠ none → IsWord f.chars) → (s'.records i).fileName = f.chars) := by
  cases hfind : findMetaDataBlock s.records s.metaDataCache f.chars with
  | some k =>
    rw [metaDataBlock_found hfind] at hop
    obtain ⟨rfl, rfl⟩ := Prod.mk.inj (Option.some.inj hop)
    refine ⟨⟨h.keeps, h.named, h.owns⟩, fun _ => ?_⟩
    obtain ⟨-, hfor⟩ := findMetaDataBlock_some hfind
    obtain ⟨-, m, hm, hname⟩ := CBlock.isFor_iff.mp hfor
    rw [h.owns, Option.mem_some_iff] at hm
    rw [← hname, ← hm]
  | none =>
    rw [metaDataBlock_reload hfind] at hop
    obtain ⟨files, bytes, buf, mdata, -, hvictim, hwrite, -, -, -, rfl⟩ :=
      mdataFromDiskToMemory_eq_some hop
    have hreload : reloadBlock s f = some i := by
      rw [reloadBlock, hfind]
      exact hvictim
    refine ⟨⟨h.keeps.update_record (hspare i hreload) _, ?_, fun k => by simpa using h.owns k⟩,
      fun hword => ?_⟩
    · rcases hwrite with rfl | ⟨-, hwrite⟩
      · exact h.named
      · exact filesNamed_writeMetadataToDisk h.named hwrite
    · exact reload_fileName h.named (hword (by simp [hreload])) hop

/-- The block that was taken, and flushed if need be, belongs to the file it is given to. -/
theorem OwnerInv.assign (h : OwnerInv s owner)
    (hframe : Fs.Framed { s with bufferCache := s.bufferCache.take j } t)
    (hnamed : FilesNamed t.mdataFiles) (hname : (s.records i).fileName = f.chars) :
    OwnerInv (t.assign j (some i)) (Function.update owner j f.chars) := by
  refine ⟨fun k hk hfree => ?_, hnamed, fun k => ?_⟩
  · show ∃ m ∈ ((t.bufferCache.set j _).cblocks k).mdata, (t.records m).fileName = _
    change k < t.bufferCache.numBlocks at hk
    rw [hframe.numBlocks, take_numBlocks] at hk
    by_cases hkj : k = j
    · subst hkj
      exact ⟨i, by simp, by rw [hframe.fileName, hname, Function.update_self]⟩
    · change ((t.bufferCache.set j _).cblocks k).freeFlag = false at hfree
      rw [Cache.cblocks_set_of_ne _ hkj, hframe.freeFlag, take_cblocks_of_ne hkj] at hfree
      obtain ⟨m, hm, hmname⟩ := h.keeps k hk hfree
      rw [Cache.cblocks_set_of_ne _ hkj, hframe.mdata, take_cblocks_of_ne hkj]
      exact ⟨m, hm, by rw [hframe.fileName, hmname, Function.update_of_ne hkj]⟩
  · show (t.metaDataCache.cblocks k).mdata = some k
    rw [hframe.metaDataCache]
    exact h.owns k

/-- The owner of the write buffers after `wbufDataBlock`. -/
theorem OwnerInv.wbufDataBlock {junk : Junk} (h : OwnerInv s owner)
    (hname : (s.records i).fileName = f.chars)
    (hop : wbufDataBlock s f.path (some i) junk = some (s', j)) :
    OwnerInv s' (match findMetaDataBlock s.records s.bufferCache f.chars with
      | some _ => owner
      | none => Function.update owner j f.chars) := by
  cases hfind : findMetaDataBlock s.records s.bufferCache f.chars with
  | some k =>
    rw [wbufDataBlock_found hfind] at hop
    obtain ⟨rfl, rfl⟩ := Prod.mk.inj (Option.some.inj hop)
    exact h
  | none =>
    obtain ⟨-, t, ht, rfl⟩ := wbufDataBlock_eq_some hfind hop
    refine h.assign (evictBlock_framed ht) ?_ hname
    unfold evictBlock at ht
    split at ht
    · obtain ⟨_, _, mdata, _, files, -, -, hfiles, rfl⟩ := flushBlock_eq_some ht
      exact filesNamed_writeMetadataToDisk h.named hfiles
    · obtain rfl := Option.some.inj ht
      exact h.named

theorem OwnerInv.makeRoom {junk : Junk} (h : OwnerInv s owner)
    (hop : makeRoom s j text junk = some s') : OwnerInv s' owner := by
  unfold QuorumLogFs.Log.makeRoom at hop
  split at hop
  · exact h.flushBlock hop
  · exact Option.some.inj hop ▸ h

theorem OwnerInv.appendText (h : OwnerInv s owner) (hop : appendText s j text = some s') :
    OwnerInv s' owner := by
  have hframe := appendText_framed hop
  refine ⟨h.keeps.framed hframe, ?_, ?_⟩
  · obtain ⟨buf, -, rfl⟩ := Option.map_eq_some_iff.mp hop
    exact h.named
  · rw [hframe.metaDataCache]
    exact h.owns

/-- The owners after a write are those that `assigned` says. -/
theorem OwnerInv.write {buf : List Char} {junk : WriteJunk} {n : ℕ} (h : OwnerInv s owner)
    (hspare : ∀ i ∈ reloadBlock s f, Unreferenced s i)
    (hword : reloadBlock s f ≠ none → IsWord f.chars)
    (hop : lfsWrite s f.path buf 0 0 junk = some (s', n)) :
    OwnerInv s' (match assigned s (.write f buf junk) with
      | some j => Function.update owner j f.chars
      | none => owner) := by
  obtain ⟨text, s₁, i, s₂, j, s₃, -, h₁, h₂, h₃, h₄, -⟩ := lfsWrite_eq_some hop
  have hload : OwnerInv { s with loadPath := s.loadPath ++ f.path } owner :=
    ⟨h.keeps, h.named, h.owns⟩
  obtain ⟨hinv₁, hname⟩ := hload.metaDataBlock hspare h₁
  rw [hinv₁.owns] at h₂
  have hinv₂ := hinv₁.wbufDataBlock (hname hword) h₂
  have hassigned : assigned s (.write f buf junk) =
      match findMetaDataBlock s₁.records s₁.bufferCache f.chars with
      | some _ => none
      | none => some j := by
    simp only [assigned, h₁, Option.bind_eq_bind, Option.bind_some]
    cases hfind : findMetaDataBlock s₁.records s₁.bufferCache f.chars with
    | some k => rfl
    | none => exact (wbufDataBlock_eq_some hfind h₂).1
  rw [hassigned]
  have hinv₄ := (hinv₂.makeRoom h₃).appendText h₄
  cases hfind : findMetaDataBlock s₁.records s₁.bufferCache f.chars with
  | some k =>
    rw [hfind] at hinv₄
    exact hinv₄
  | none =>
    rw [hfind] at hinv₄
    exact hinv₄

/-- `lfs_getattr` and `lfs_read` change nothing but the metadata block and the counters. -/
theorem OwnerInv.getattr {attr : Attr} (h : OwnerInv s owner)
    (hspare : ∀ i ∈ takenBlock s (.getattr f stack), Unreferenced s i)
    (hop : lfsGetattr s f.path stack = some (s', attr)) : OwnerInv s' owner := by
  obtain ⟨-, rfl | ⟨⟨hmdata, hdot⟩, s₁, i, h₁, hs'⟩⟩ := lfsGetattr_eq_some hop
  · exact h
  · have htaken : takenBlock s (.getattr f stack) = reloadBlock s f :=
      if_neg (not_or.mpr ⟨hmdata, hdot⟩)
    have hinv₁ := (h.metaDataBlock (htaken ▸ hspare) h₁).1
    rcases hs' with rfl | ⟨j, rfl⟩
    · exact hinv₁
    · exact ⟨hinv₁.keeps, hinv₁.named, hinv₁.owns⟩

/-- Each call that spares the write buffers keeps their owners. -/
theorem OwnerInv.ownedStep {o o' : Owned} {op : Op} (h : OwnerInv o.fs o.owner)
    (hspare : SparesBuffers o op) (hop : ownedStep o op = some o') : OwnerInv o'.fs o'.owner := by
  obtain ⟨s', hs', rfl⟩ := Option.map_eq_some_iff.mp hop
  cases op with
  | mknod f =>
    obtain ⟨⟨t, code⟩, ht, rfl⟩ := Option.map_eq_some_iff.mp hs'
    exact h.mknod hspare.1 ht
  | «open» f =>
    obtain ⟨⟨t, code⟩, ht, rfl⟩ := Option.map_eq_some_iff.mp hs'
    unfold lfsOpen at ht
    split at ht
    · obtain ⟨rfl, -⟩ := Prod.mk.inj (Option.some.inj ht)
      exact ⟨h.keeps, h.named, h.owns⟩
    · cases ht
  | getattr f stack =>
    obtain ⟨⟨t, attr⟩, ht, rfl⟩ := Option.map_eq_some_iff.mp hs'
    exact h.getattr hspare.1 ht
  | read f buf stack =>
    obtain ⟨⟨t, out⟩, ht, rfl⟩ := Option.map_eq_some_iff.mp hs'
    obtain ⟨i, hi⟩ := lfsRead_metaDataBlock ht
    exact (h.metaDataBlock hspare.1 hi).1
  | write f buf junk =>
    obtain ⟨⟨t, n⟩, ht, rfl⟩ := Option.map_eq_some_iff.mp hs'
    exact h.write hspare.1 hspare.2 ht

/-! ## Runs -/

/-- The file system as `main` leaves it: no write buffer has an owner yet. -/
def Owned.init (fresh : ℕ → List Char := fun _ => zeros 4096) : Owned := ⟨Fs.init fresh, fun _ => []⟩

theorem ownerInv_init (fresh : ℕ → List Char) :
    OwnerInv (Owned.init fresh).fs (Owned.init fresh).owner := by
  refine ⟨fun _ _ hfree => ?_, fun _ _ h => ?_, fun _ => rfl⟩
  · cases hfree
  · cases h

/-- In a run whose calls never take a metadata block that a write buffer needs, every write buffer
keeps the record of its file; whatever the memory of the buffers holds at first. -/
theorem buffers_keep_owner (fresh : ℕ → List Char) {ops : List Op}
    (hspare : Each ownedStep SparesBuffers (Owned.init fresh) ops) :
    Always ownedStep (fun o => KeepsOwner o.fs o.owner) (Owned.init fresh) ops := by
  have hinv := always_of_each (I := fun o : Owned => OwnerInv o.fs o.owner) (ownerInv_init fresh)
    (fun _ _ _ h hok hop => OwnerInv.ownedStep h hok hop) hspare
  exact hinv.imp fun _ h => h.keeps

/-- The `i`-th of many files. -/
def fileNo (i : Fin 101) : Name :=
  ⟨['f', Char.ofNat (48 + i)], by simp, by revert i; decide, by revert i; decide⟩

/-- The first of them. -/
def firstFile : Name := fileNo 0

/-- One line in the caller's memory. -/
def oneLine : List Char := "E|Sat Mar 17 20:33:43 EDT 2012|x\n".toList ++ [nul]

/-- The first file loses its write buffer to the eleventh that is written to, and its record to the last
of a hundred others. Then it is written to again. -/
def evictedFile : List Op :=
  .mknod (fileNo 0) :: .write (fileNo 0) oneLine {} :: .mknod (fileNo 1) ::
    (((List.finRange 101).take 12).drop 2).flatMap
      (fun i => [.mknod (fileNo i), .write (fileNo i) oneLine {}]) ++
    ((List.finRange 101).drop 12).map (fun i => .mknod (fileNo i)) ++ [.write (fileNo 0) oneLine {}]

theorem buffers_keep_owner_evictedFile : (run ownedStep Owned.init evictedFile).isSome ∧
    Always ownedStep (fun o => KeepsOwner o.fs o.owner) Owned.init evictedFile := by
  have hchecked : (runChecked ownedStep SparesBuffers Owned.init evictedFile).isSome := by
    decide +kernel
  obtain ⟨hruns, hspare⟩ := of_runChecked hchecked
  exact ⟨hruns, buffers_keep_owner _ hspare⟩

/-- One file is written to, then a hundred others are created. -/
def manyFiles : List Op :=
  .mknod (fileNo 0) :: .write (fileNo 0) oneLine {} ::
    (List.finRange 101).tail.map fun i => .mknod (fileNo i)

/-- The last of the new files takes over the record that the write buffer of the first one points
to. -/
theorem not_buffers_keep_owner_manyFiles :
    ¬ Always ownedStep (fun o => KeepsOwner o.fs o.owner) Owned.init manyFiles := by
  intro h
  have hrun : (run ownedStep Owned.init manyFiles).map (fun o =>
      ((o.fs.bufferCache.numBlocks, (o.fs.bufferCache.cblocks 0).freeFlag),
        (o.fs.bufferCache.cblocks 0).mdata, (o.fs.records 0).fileName, o.owner 0)) =
      some ((10, false), some 0, (fileNo 100).chars, (fileNo 0).chars) := by decide +kernel
  obtain ⟨o, ho, heq⟩ := Option.map_eq_some_iff.mp hrun
  obtain ⟨⟨hblocks, hfree⟩, hmdata, hname, howner⟩ := by simpa only [Prod.mk.injEq] using heq
  obtain ⟨i, hi, hkeeps⟩ := h manyFiles (List.prefix_refl _) o ho 0 (by omega) hfree
  rw [hmdata, Option.mem_some_iff] at hi
  rw [← hi, hname, howner] at hkeeps
  revert hkeeps
  decide

end QuorumLogFs.Log
