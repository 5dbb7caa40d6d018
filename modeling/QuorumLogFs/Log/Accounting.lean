import QuorumLogFs.Basis.Ledger
import QuorumLogFs.Log.Bounds
import QuorumLogFs.Log.Stored
import QuorumLogFs.Log.Window
import QuorumLogFs.Log.WriteThrough

/-!
# The books of the file system

`lfs_getattr` computes a length from the record of a file, `lfs_read` delivers the bytes of its chunk
files. `Accounted` says where the records are, in the cache or on disk, and that they account for the
chunk files: every chunk file is in the path list of one record, and the sizes add up. A flush keeps the
books when it appends to chunk files that are new or its record's own, and a record may leave the cache
when its metadata file can carry it; `agree_on_length` is what follows for the two operations.
-/

namespace QuorumLogFs.Log

open QuorumLogFs.Basis

/-- The record of each file. -/
abbrev Books := List Char → Option Mdata

/-- The chunk files of each file. -/
def Books.keys (R : Books) (name : List Char) : List (List Char) :=
  (R name).elim [] Mdata.paths

/-- For a file on which both operations complete, `lfs_getattr` reports the number of bytes that
`lfs_read` returns. -/
def AgreeOnLength (s : Fs) : Prop :=
  ∀ (f : Name) stack stack' buf size offset s' s'' n mem k,
    lfsGetattr s f.path stack = some (s', .st_size n) →
      lfsReadMem s f.path buf size offset stack' = some (s'', mem, k) → n = (k : ℤ)

/-- A record that leaves the cache is one that its metadata file can carry. -/
def TakesClean (s : Fs) (op : Op) : Prop :=
  ∀ i ∈ takenBlock s op, s.Cached i → (s.records i).Clean

/-- The flush of write buffer `j` appends to chunk files that are new or its record's own, and the file
stays below the limit. -/
def KeepsBooks (limit : ℕ) (s : Fs) (j : ℕ) (junk : Junk) : Prop :=
  ∀ i ∈ (s.bufferCache.cblocks j).mdata,
    ∀ writes ∈ chunkWrites junk CHUNK_PATH (s.records i).fileName (s.bufferCache.cblocks j)
        s.bufferCache.cacheBlockSize,
      OwnChunks (s.records i, s.chunkFiles) writes ∧
        (s.records i).size % 2 ^ 32 + (writes.flatMap Prod.snd).length < limit

/-- A condition on each flush that a call makes: of the buffer that it takes from another file, and of one
that is too full. -/
def EachFlush (P : Fs → ℕ → Junk → Prop) (s : Fs) : Op → Prop
  | .write f buf junk =>
    ∀ text ∈ stringAt buf 0,
      ∀ r ∈ metaDataBlock { s with loadPath := s.loadPath ++ f.path } f.path junk.stack,
        (∀ j ∈ evictedBlock r.1 f.path, P r.1 j junk.evict) ∧
          ∀ w ∈ wbufDataBlock r.1 f.path (r.1.metaDataCache.cblocks r.2).mdata junk.evict,
            w.1.bufferCache.cacheBlockSize < (w.1.bufferCache.cblocks w.2).offset + text.length →
              P w.1 w.2 junk.full
  | _ => True

/-- The conditions on a call under which the records keep accounting for the chunk files. -/
structure KeepsAccounts (s : Fs) (op : Op) : Prop where
  fresh : FreshName s op
  clean : TakesClean s op
  books : EachFlush (KeepsBooks (2 ^ 32)) s op

instance (s : Fs) (i : ℕ) : Decidable (s.Cached i) := inferInstanceAs (Decidable (_ = false))

instance (s : Fs) (op : Op) : Decidable (TakesClean s op) :=
  inferInstanceAs (Decidable (∀ i ∈ takenBlock s op, s.Cached i → (s.records i).Clean))

instance (d : Mdata × ChunkFiles) (writes : List (List Char × List Char)) :
    Decidable (OwnChunks d writes) :=
  inferInstanceAs (Decidable (∀ w ∈ writes, d.2 w.1 = none ∨ w.1 ∈ d.1.paths))

instance (limit : ℕ) (s : Fs) (j : ℕ) (junk : Junk) : Decidable (KeepsBooks limit s j junk) :=
  inferInstanceAs (Decidable (∀ i ∈ _, ∀ writes ∈ _, OwnChunks _ writes ∧ _ < _))

instance decidableEachFlush (P : Fs → ℕ → Junk → Prop) [∀ s j junk, Decidable (P s j junk)] (s : Fs) :
    ∀ op, Decidable (EachFlush P s op)
  | .write _ _ _ => inferInstanceAs (Decidable (∀ _ ∈ _, ∀ r ∈ _,
      (∀ j ∈ _, P _ j _) ∧ ∀ w ∈ _, _ < _ → P _ _ _))
  | .mknod _ => isTrue trivial
  | .open _ => isTrue trivial
  | .getattr _ _ => isTrue trivial
  | .read _ _ _ => isTrue trivial

instance (s : Fs) (op : Op) : Decidable (KeepsAccounts s op) :=
  decidable_of_iff (FreshName s op ∧ TakesClean s op ∧ EachFlush (KeepsBooks (2 ^ 32)) s op)
    ⟨fun h => ⟨h.1, h.2.1, h.2.2⟩, fun h => ⟨h.fresh, h.clean, h.books⟩⟩

/-- The records account for the chunk files. Each file has fewer bytes than the limit. -/
structure Balanced (limit : ℕ) (R : Books) (chunkFiles : ChunkFiles) : Prop where
  ledger : Ledger R.keys chunkFiles
  count : ∀ name, ∀ m ∈ R name, 0 ≤ m.numPaths
  size : ∀ name, ∀ m ∈ R name, m.size = wrap32 (total chunkFiles m.paths)
  small : ∀ name, ∀ m ∈ R name, total chunkFiles m.paths < limit

variable {limit : ℕ} {R : Books} {chunkFiles : ChunkFiles} {name bytes : List Char} {m m' : Mdata}
  {d d' : Mdata × ChunkFiles} {writes : List (List Char × List Char)}

theorem Books.keys_of_mem (h : R name = some m) : R.keys name = m.paths := by
  rw [Books.keys, h]
  rfl

theorem Books.keys_update (R : Books) (name : List Char) (m : Mdata) :
    Books.keys (Function.update R name (some m)) = Function.update R.keys name m.paths := by
  funext name'
  by_cases h : name' = name
  · rw [h, Function.update_self, Books.keys, Function.update_self]
    rfl
  · rw [Function.update_of_ne h, Books.keys, Function.update_of_ne h]
    rfl

/-- What holds of the new record and of the other records holds of all. -/
theorem Books.forall_update {P : Mdata → Prop} (hm : P m)
    (hother : ∀ name', name' ≠ name → ∀ m' ∈ R name', P m') :
    ∀ name', ∀ m' ∈ (Function.update R name (some m) : Books) name', P m' := by
  intro name' m' hm'
  by_cases h : name' = name
  · rw [h, Function.update_self, Option.mem_some_iff] at hm'
    exact hm' ▸ hm
  · rw [Function.update_of_ne h] at hm'
    exact hother name' h m' hm'

/-! ## Appends -/

theorem Balanced.append (h : Balanced limit (Function.update R name (some d.1)) d.2)
    {chunk : List Char} (hop : appendChunk chunk bytes d = some d')
    (hown : d.2 chunk = none ∨ chunk ∈ d.1.paths)
    (hlimit : total d.2 d.1.paths + bytes.length < limit) :
    Balanced limit (Function.update R name (some d'.1)) d'.2 ∧
      total d'.2 d'.1.paths = total d.2 d.1.paths + bytes.length := by
  have hself : (Function.update R name (some d.1) : Books) name = some d.1 := Function.update_self ..
  have hkeys : Books.keys (Function.update R name (some d.1)) name = d.1.paths :=
    Books.keys_of_mem hself
  obtain ⟨hfiles, hsize, hpaths⟩ := appendChunk_eq_some hop
  have hfiles : d'.2 = appendAt d.2 chunk bytes := hfiles
  have hpaths : d'.1.paths = listKey d.2 d.1.paths chunk := hpaths
  have htotal : total d'.2 d'.1.paths = total d.2 d.1.paths + bytes.length := by
    rw [hfiles, hpaths]
    exact total_listKey (hkeys ▸ h.ledger.nodup name) (hkeys ▸ h.ledger.stored name) hown
  have hown' : d.2 chunk = none ∨ chunk ∈ Books.keys (Function.update R name (some d.1)) name :=
    hkeys.symm ▸ hown
  -- the other files keep their chunk files
  have hother : ∀ name', name' ≠ name → ∀ m ∈ R name',
      total d'.2 m.paths = total d.2 m.paths := by
    intro name' hne m hm
    have hm' : (Function.update R name (some d.1) : Books) name' = some m :=
      (Function.update_of_ne hne ..).trans hm
    rw [hfiles, ← Books.keys_of_mem hm']
    exact h.ledger.total_other hown' hne
  have hold : ∀ name', name' ≠ name → ∀ m ∈ R name',
      m ∈ (Function.update R name (some d.1) : Books) name' := by
    intro name' hne m hm
    rwa [Function.update_of_ne hne]
  refine ⟨⟨?_, ?_, ?_, ?_⟩, htotal⟩
  · have hledger : Ledger (Function.update (Books.keys (Function.update R name (some d.1))) name _)
        (appendAt d.2 chunk bytes) := h.ledger.append hown'
    rwa [hkeys, ← hpaths, ← hfiles, Books.keys_update, Function.update_idem,
      ← Books.keys_update] at hledger
  · exact Books.forall_update ((grown_appendChunk hop).count (h.count name _ hself))
      fun name' hne m hm => h.count name' m (hold name' hne m hm)
  · refine Books.forall_update ?_ fun name' hne m hm => ?_
    · rw [hsize, h.size name _ hself, wrap32_wrap32_add, htotal]
      push_cast
      rfl
    · rw [hother name' hne m hm]
      exact h.size name' m (hold name' hne m hm)
  · refine Books.forall_update (htotal ▸ hlimit) fun name' hne m hm => ?_
    rw [hother name' hne m hm]
    exact h.small name' m (hold name' hne m hm)

theorem Balanced.listed (h : Balanced limit R chunkFiles) (hm : R name = some m) :
    Listed (m, chunkFiles) :=
  fun p hp => h.ledger.stored name p (Books.keys_of_mem hm ▸ hp)

theorem Balanced.appendAll (h : Balanced limit (Function.update R name (some d.1)) d.2)
    (hop : appendAll appendChunk writes d = some d') (hown : OwnChunks d writes)
    (hlimit : total d.2 d.1.paths + (writes.flatMap Prod.snd).length < limit) :
    Balanced limit (Function.update R name (some d'.1)) d'.2 := by
  induction writes generalizing d with
  | nil =>
    obtain rfl := Option.some.inj hop
    exact h
  | cons w writes ih =>
    obtain ⟨e, he, hop⟩ := Option.bind_eq_some_iff.mp hop
    rw [List.flatMap_cons, List.length_append] at hlimit
    have hlisted : Listed d := h.listed (Function.update_self ..)
    have hw := hown w List.mem_cons_self
    obtain ⟨h', htotal⟩ := h.append he hw (by omega)
    exact ih h' hop (hown.tail (appended_appendChunk he hlisted hw)) (by omega)

/-- The size tells how many bytes the chunk files have. -/
theorem Balanced.size_emod (h : Balanced limit R chunkFiles) (hlimit : limit ≤ 2 ^ 32)
    (hm : R name = some m) : m.size % 2 ^ 32 = total chunkFiles m.paths := by
  rw [h.size name m hm]
  exact wrap32_emod ((h.small name m hm).trans_le hlimit)

/-- A record with the same paths in the place of another, or of none. -/
theorem Balanced.update (h : Balanced limit R chunkFiles) (hpaths : m.paths = R.keys name)
    (hcount : 0 ≤ m.numPaths) (hsize : m.size = wrap32 (total chunkFiles m.paths))
    (hsmall : total chunkFiles m.paths < limit) :
    Balanced limit (Function.update R name (some m)) chunkFiles := by
  refine ⟨?_, Books.forall_update hcount fun name' _ m hm => h.count name' m hm,
    Books.forall_update hsize fun name' _ m hm => h.size name' m hm,
    Books.forall_update hsmall fun name' _ m hm => h.small name' m hm⟩
  rw [Books.keys_update, hpaths, Function.update_eq_self]
  exact h.ledger

theorem Balanced.same (h : Balanced limit R chunkFiles) (hm : R name = some m) (hs : m'.Same m) :
    Balanced limit (Function.update R name (some m')) chunkFiles := by
  refine h.update (hs.paths.trans (Books.keys_of_mem hm).symm) ?_ ?_ ?_
  · rw [hs.numPaths]
    exact h.count name m hm
  · rw [hs.size, hs.paths]
    exact h.size name m hm
  · rw [hs.paths]
    exact h.small name m hm

/-- A new file. -/
theorem Balanced.fresh (h : Balanced limit R chunkFiles) (hlimit : 0 < limit) (hnone : R name = none)
    (m : Mdata) (name' : List Char) :
    Balanced limit (Function.update R name (some (m.named name'))) chunkFiles := by
  have htotal : total chunkFiles ([] : List (List Char)) = 0 := rfl
  refine h.update ?_ le_rfl ?_ ?_
  · rw [Mdata.paths_named, Books.keys, hnone]
    rfl
  · rw [Mdata.paths_named, Mdata.size_named, htotal]
    decide
  · rwa [Mdata.paths_named, htotal]

/-! ## The state -/

/-- The records of the files are in the cache or described by the metadata files, each under its name;
one that is not in the cache can be read back. They account for the chunk files. -/
structure Accounted (limit : ℕ) (s : Fs) (R : Books) : Prop where
  blockSize : s.bufferCache.cacheBlockSize = BLOCK_SIZE
  owns : ∀ i, (s.metaDataCache.cblocks i).mdata = some i
  bound : ∀ i, s.Cached i → i < s.metaDataCache.numBlocks
  names : ∀ i j, s.Cached i → s.Cached j → (s.records i).fileName = (s.records j).fileName → i = j
  cached : ∀ i, s.Cached i → R (s.records i).fileName = some (s.records i)
  named : ∀ name, ∀ m ∈ R name, m.fileName = name
  onDisk : ∀ name, ∀ m ∈ R name, ∃ bytes, s.mdataFiles name = some bytes ∧ Describes bytes m
  known : ∀ name, R name = none → s.mdataFiles name = none
  carried : ∀ name, ∀ m ∈ R name, (∀ i, s.Cached i → (s.records i).fileName ≠ name) → m.Clean
  buffers : ∀ j, ∀ i ∈ (s.bufferCache.cblocks j).mdata, s.Cached i
  balanced : Balanced limit R s.chunkFiles

variable {s s' t : Fs} {f : Name} {i j k : ℕ} {stack text : List Char} {junk : Junk}

theorem accounted_init (fresh : ℕ → List Char) : Accounted limit (Fs.init fresh) fun _ => none where
  blockSize := rfl
  owns _ := rfl
  bound i h := by cases h
  names i j h := by cases h
  cached i h := by cases h
  named name m h := by cases h
  onDisk name m h := by cases h
  known name _ := rfl
  carried name m h := by cases h
  buffers j i h := by cases h
  balanced := by
    refine ⟨⟨fun _ => List.nodup_nil, fun _ k h => ?_, fun _ _ k h => ?_, fun k h => absurd rfl h⟩,
      fun _ m h => ?_, fun _ m h => ?_, fun _ m h => ?_⟩
    all_goals cases h

/-- A record and its file change together, block and all. The record that was in the block has the same
name or can be read back. -/
theorem Accounted.replace {files : List Char → Option (List Char)} (h : Accounted limit s R)
    (hi : i < s.metaDataCache.numBlocks)
    (hname : ∀ k, s.Cached k → k ≠ i → (s.records k).fileName ≠ m.fileName)
    (hleaves : s.Cached i → (s.records i).fileName ≠ m.fileName → (s.records i).Clean)
    (hself : ∃ bytes, files m.fileName = some bytes ∧ Describes bytes m)
    (hother : ∀ name, name ≠ m.fileName → files name = s.mdataFiles name)
    {c : Cache} (hblocks : c.numBlocks = s.metaDataCache.numBlocks)
    (howns : ∀ k, (c.cblocks k).mdata = some k)
    (hfree : ∀ k, (c.cblocks k).freeFlag = false ↔ k = i ∨ s.Cached k)
    {b : Cache} (hsize : b.cacheBlockSize = BLOCK_SIZE)
    (hb : ∀ j, ∀ k ∈ (b.cblocks j).mdata, k = i ∨ s.Cached k)
    (hbalanced : Balanced limit (Function.update R m.fileName (some m)) chunkFiles)
    {load : List Char → Bool} {path : List Char} :
    Accounted limit ⟨c, b, Function.update s.records i m, files, chunkFiles, load, path⟩
      (Function.update R m.fileName (some m)) := by
  have hrecord : Function.update s.records i m i = m := Function.update_self ..
  have hold : ∀ k, k ≠ i → Function.update s.records i m k = s.records k :=
    fun k hk => Function.update_of_ne hk ..
  have hcached : ∀ k, k ≠ i → (c.cblocks k).freeFlag = false → s.Cached k :=
    fun k hk h => ((hfree k).mp h).resolve_left hk
  have hR : (Function.update R m.fileName (some m) : Books) m.fileName = some m :=
    Function.update_self ..
  have hRold : ∀ name, name ≠ m.fileName →
      (Function.update R m.fileName (some m) : Books) name = R name :=
    fun name hn => Function.update_of_ne hn ..
  refine ⟨hsize, howns, fun k hk => ?_, fun k l hk hl hkl => ?_, fun k hk => ?_,
    fun name m' hm' => ?_, fun name m' hm' => ?_, fun name hnone => ?_, fun name m' hm' hgone => ?_,
    fun j k hk => (hfree k).mpr (hb j k hk), hbalanced⟩
  · show k < c.numBlocks
    rw [hblocks]
    rcases (hfree k).mp hk with rfl | hk
    · exact hi
    · exact h.bound k hk
  · exact fileName_update_inj h.names hcached (fun k hki hk => hname k hk hki) k l hk hl hkl
  · show (Function.update R m.fileName (some m) : Books) (Function.update s.records i m k).fileName =
      some (Function.update s.records i m k)
    by_cases hki : k = i
    · rw [hki, hrecord, hR]
    · rw [hold k hki, hRold _ (hname k (hcached k hki hk) hki)]
      exact h.cached k (hcached k hki hk)
  · by_cases hn : name = m.fileName
    · rw [hn, hR, Option.mem_some_iff] at hm'
      rw [← hm', hn]
    · rw [hRold name hn] at hm'
      exact h.named name m' hm'
  · show ∃ bytes, files name = some bytes ∧ Describes bytes m'
    by_cases hn : name = m.fileName
    · rw [hn, hR, Option.mem_some_iff] at hm'
      rw [hn, ← hm']
      exact hself
    · rw [hRold name hn] at hm'
      rw [hother name hn]
      exact h.onDisk name m' hm'
  · have hn : name ≠ m.fileName := by
      rintro rfl
      rw [hR] at hnone
      cases hnone
    rw [hRold name hn] at hnone
    exact (hother name hn).trans (h.known name hnone)
  · have hn : name ≠ m.fileName := by
      rintro rfl
      exact hgone i ((hfree i).mpr (Or.inl rfl)) (congrArg Mdata.fileName hrecord)
    rw [hRold name hn] at hm'
    by_cases hin : s.Cached i ∧ (s.records i).fileName = name
    · -- the record that was in the block
      obtain ⟨hci, rfl⟩ := hin
      obtain rfl : s.records i = m' := Option.some.inj ((h.cached i hci).symm.trans hm')
      exact hleaves hci hn
    · refine h.carried name m' hm' fun k hk hkn => ?_
      have hki : k ≠ i := by
        rintro rfl
        exact hin ⟨hk, hkn⟩
      exact hgone k ((hfree k).mpr (Or.inr hk)) ((congrArg Mdata.fileName (hold k hki)).trans hkn)

/-! ## The operations -/

/-- The records account for the chunk files, and each of them is like this. -/
def AccountedWith (Q : Mdata → Prop) (limit : ℕ) (s : Fs) : Prop :=
  ∃ R, Accounted limit s R ∧ ∀ name, ∀ m ∈ R name, Q m

/-- New records are like this, and so are those that are read back. -/
structure Lasting (Q : Mdata → Prop) : Prop where
  fresh : ∀ (m : Mdata) (f : Name), Q (m.named f.chars)
  same : ∀ m m' : Mdata, Q m → m'.Same m → Q m'

/-- The flush of write buffer `j` makes its record one like this. -/
def FlushMakes (Q : Mdata → Prop) (s : Fs) (j : ℕ) (junk : Junk) : Prop :=
  ∀ i ∈ (s.bufferCache.cblocks j).mdata,
    ∀ writes ∈ chunkWrites junk CHUNK_PATH (s.records i).fileName (s.bufferCache.cblocks j)
        s.bufferCache.cacheBlockSize,
      ∀ d ∈ appendAll appendChunk writes (s.records i, s.chunkFiles), Q d.1

variable {Q : Mdata → Prop}

theorem AccountedWith.mknod {code : ℤ} (hall : AccountedWith Q limit s) (hlast : Lasting Q)
    (hlimit : 0 < limit) (hfresh : s.mdataFiles (recordName f.chars) = none)
    (hclean : TakesClean s (.mknod f))
    (hop : lfsMknod s f.path = some (s', code)) : AccountedWith Q limit s' := by
  obtain ⟨R, h, hQ⟩ := hall
  obtain ⟨i, files, hvictim, hfiles, rfl⟩ := lfsMknod_eq_some hop
  obtain ⟨hself, hother⟩ := writeMetadataToDisk_describes hfiles
  have hnew : R (recordName f.chars) = none := by
    by_contra hsome
    obtain ⟨m, hm⟩ := Option.ne_none_iff_exists'.mp hsome
    obtain ⟨bytes, hbytes, -⟩ := h.onDisk _ m hm
    rw [hfresh] at hbytes
    cases hbytes
  refine ⟨_, h.replace (c := updateLru (s.metaDataCache.take i) i) (victim_lt hvictim)
    (fun k hk _ hname => ?_) (fun hci _ => hclean i hvictim hci) hself hother rfl (fun k => ?_)
    (take_updateLru_freeFlag _ i) h.blockSize (fun j k hk => Or.inr (h.buffers j k hk))
    (h.balanced.fresh hlimit hnew (s.records i) f.chars),
    Books.forall_update (hlast.fresh (s.records i) f) fun name _ => hQ name⟩
  · have hcached := h.cached k hk
    rw [hname] at hcached
    exact absurd (hnew.symm.trans hcached) (by simp)
  · simpa using h.owns k

/-- The record of a file is in the cache, or it is read back as it was. -/
theorem Accounted.metaDataBlock_cases (h : Accounted limit s R)
    (hop : metaDataBlock s f.path stack = some (s', i)) :
    (s.Cached i ∧ (s.records i).fileName = f.chars ∧
        s' = { s with metaDataCache := updateLru s.metaDataCache i }) ∨
      reloadBlock s f = some i ∧ (∀ k, s.Cached k → (s.records k).fileName ≠ f.chars) ∧
        ∃ m m', R f.chars = some m ∧ m'.Same m ∧ s' = { s with
          metaDataCache := updateLru (s.metaDataCache.take i) i
          records := Function.update s.records i m' } := by
  cases hfind : findMetaDataBlock s.records s.metaDataCache f.chars with
  | some k =>
    rw [metaDataBlock_found hfind] at hop
    obtain ⟨rfl, rfl⟩ := Prod.mk.inj (Option.some.inj hop)
    obtain ⟨hcached, hname⟩ := findMetaDataBlock_own h.owns hfind
    exact Or.inl ⟨hcached, hname, rfl⟩
  | none =>
    rw [metaDataBlock_reload hfind] at hop
    obtain ⟨files, bytes, buf, m', -, hvictim, hwrite, hbytes, hbuf, hparse, rfl⟩ :=
      mdataFromDiskToMemory_eq_some hop
    have hgone := findMetaDataBlock_gone h.owns h.bound hfind
    have hfiles : files = s.mdataFiles := by
      rcases hwrite with rfl | ⟨hci, hwrite⟩
      · rfl
      · obtain ⟨old, hold, hdesc⟩ := h.onDisk _ _ (h.cached i hci)
        exact writeMetadataToDisk_same hwrite hold hdesc
    subst hfiles
    rw [Name.tail_path] at hbytes
    obtain ⟨m, hm⟩ : ∃ m, R f.chars = some m := by
      refine Option.ne_none_iff_exists'.mp fun hnone => ?_
      rw [h.known _ hnone] at hbytes
      cases hbytes
    obtain ⟨bytes', hbytes', hdesc⟩ := h.onDisk _ _ hm
    obtain rfl : bytes = bytes' := Option.some.inj (hbytes.symm.trans hbytes')
    have hsame := hdesc.parse (h.carried _ _ hm hgone) hbuf hparse
    refine Or.inr ⟨?_, hgone, m, m', hm, hsame, rfl⟩
    unfold reloadBlock
    rw [hfind]
    exact hvictim

theorem AccountedWith.metaDataBlock (hall : AccountedWith Q limit s) (hlast : Lasting Q)
    (hclean : ∀ i ∈ reloadBlock s f, s.Cached i → (s.records i).Clean)
    (hop : metaDataBlock s f.path stack = some (s', i)) :
    AccountedWith Q limit s' ∧ s'.Cached i ∧ (s'.metaDataCache.cblocks i).mdata = some i := by
  obtain ⟨R, h, hQ⟩ := hall
  rcases h.metaDataBlock_cases hop with ⟨hci, -, rfl⟩ | ⟨hreload, hgone, m, m', hm, hsame, rfl⟩
  · exact ⟨⟨R, { h with blockSize := h.blockSize }, hQ⟩, hci, h.owns i⟩
  · have hname : m'.fileName = f.chars := hsame.fileName.trans (h.named _ _ hm)
    have hvictim : victim (fun i => (s.metaDataCache.cblocks i).lruCounter)
        s.metaDataCache.numBlocks = some i := by
      unfold reloadBlock at hreload
      split at hreload
      · cases hreload
      · exact hreload
    obtain ⟨bytes, hbytes, hdesc⟩ := h.onDisk _ _ hm
    refine ⟨⟨_, h.replace (c := updateLru (s.metaDataCache.take i) i) (victim_lt hvictim)
      (fun k hk _ hkn => hgone k hk (hkn.trans hname)) (fun hci _ => hclean i hreload hci)
      ⟨bytes, hname ▸ hbytes, hdesc.same hsame⟩ (fun _ _ => rfl) rfl (fun k => ?_)
      (take_updateLru_freeFlag _ i) h.blockSize (fun j k hk => Or.inr (h.buffers j k hk))
      (hname.symm ▸ h.balanced.same hm hsame),
      Books.forall_update (hlast.same m m' (hQ _ m hm) hsame) fun name _ => hQ name⟩, ?_, ?_⟩
    · simpa using h.owns k
    · exact (take_updateLru_freeFlag _ i i).mpr (Or.inl rfl)
    · simpa using h.owns i

/-- A flush of one record's buffer. -/
theorem AccountedWith.flushBlock (hall : AccountedWith Q limit s) (hlimit : limit ≤ 2 ^ 32)
    (hkeeps : KeepsBooks limit s j junk) (hmakes : FlushMakes Q s j junk)
    (hop : flushBlock s j junk = some s') : AccountedWith Q limit s' := by
  obtain ⟨R, h, hQ⟩ := hall
  obtain ⟨i, -, -, -, -, hi, -⟩ := flushBlock_eq_some hop
  obtain ⟨writes, d, files, hwrites, -, hd, hfiles, rfl⟩ := flushBlock_writes h.blockSize hi hop
  have hci := h.buffers j i hi
  obtain ⟨hown, hsmall⟩ := hkeeps i hi writes (h.blockSize ▸ hwrites)
  obtain ⟨hself, hother⟩ := writeMetadataToDisk_describes hfiles
  have hR := h.cached i hci
  have happ := (appendAll_own hd (h.balanced.listed hR) hown).1
  have hname : d.1.fileName = (s.records i).fileName := happ.fileName
  have hbalanced : Balanced limit (Function.update R d.1.fileName (some d.1)) d.2 := by
    rw [hname]
    refine Balanced.appendAll (d := (s.records i, s.chunkFiles)) ?_ hd hown ?_
    · rw [← hR, Function.update_eq_self]
      exact h.balanced
    · rw [h.balanced.size_emod hlimit hR] at hsmall
      exact_mod_cast hsmall
  refine ⟨_, h.replace (b := s.bufferCache.set j _) (h.bound i hci)
    (fun k hk hki heq => hki (h.names k i hk hci (heq.trans hname)))
    (fun _ hne => absurd hname.symm hne) hself hother rfl h.owns
    (fun k => (or_iff_right_of_imp fun hki : k = i => hki ▸ hci).symm) h.blockSize
    (fun m k hk => Or.inr ?_) hbalanced,
    Books.forall_update (hmakes i hi writes (h.blockSize ▸ hwrites) d hd) fun name _ => hQ name⟩
  · by_cases hmj : m = j
    · rw [hmj, Cache.cblocks_set_self] at hk
      exact h.buffers j k hk
    · rw [Cache.cblocks_set_of_ne _ hmj] at hk
      exact h.buffers m k hk

/-- Marking the block as allocated makes no difference to its flush. -/
theorem KeepsBooks.take (h : KeepsBooks limit s j junk) :
    KeepsBooks limit { s with bufferCache := s.bufferCache.take j } j junk := by
  intro i hi writes hwrites
  rw [take_mdata] at hi
  refine h i hi writes ?_
  rwa [chunkWrites_congr (take_buf _ _ _)] at hwrites

theorem FlushMakes.take (h : FlushMakes Q s j junk) :
    FlushMakes Q { s with bufferCache := s.bufferCache.take j } j junk := by
  intro i hi writes hwrites
  rw [take_mdata] at hi
  refine h i hi writes ?_
  rwa [chunkWrites_congr (take_buf _ _ _)] at hwrites

theorem evictedBlock_eq {path : List Char}
    (hfind : findMetaDataBlock s.records s.bufferCache path.tail = none)
    (hvictim : victim (fun j => (s.bufferCache.cblocks j).lruCounter) s.bufferCache.numBlocks = some j)
    (hused : (s.bufferCache.cblocks j).freeFlag = false) : evictedBlock s path = some j := by
  rw [evictedBlock, if_pos hfind, hvictim, Option.filter_some, hused]
  rfl

/-- The write buffer of a file, pointing to a record in the cache. -/
theorem AccountedWith.wbufDataBlock (hall : AccountedWith Q limit s) (hlimit : limit ≤ 2 ^ 32)
    (hi : s.Cached i)
    (hflush : ∀ j ∈ evictedBlock s f.path, KeepsBooks limit s j junk ∧ FlushMakes Q s j junk)
    (hop : wbufDataBlock s f.path (some i) junk = some (s', j)) : AccountedWith Q limit s' := by
  cases hfind : findMetaDataBlock s.records s.bufferCache f.chars with
  | some k =>
    rw [wbufDataBlock_found hfind] at hop
    obtain ⟨rfl, -⟩ := Prod.mk.inj (Option.some.inj hop)
    exact hall
  | none =>
    obtain ⟨hvictim, t, ht, rfl⟩ := wbufDataBlock_eq_some hfind hop
    have htaken : AccountedWith Q limit { s with bufferCache := s.bufferCache.take j } := by
      obtain ⟨R, h, hQ⟩ := hall
      refine ⟨R, { h with blockSize := h.blockSize, buffers := fun m k hk => ?_ }, hQ⟩
      rw [take_mdata] at hk
      exact h.buffers m k hk
    obtain ⟨R', ht', hQ'⟩ : AccountedWith Q limit t := by
      by_cases hused : (s.bufferCache.cblocks j).freeFlag = false
      · rw [evictBlock, if_pos (if_pos hused)] at ht
        obtain ⟨hkeeps, hmakes⟩ := hflush j (evictedBlock_eq hfind hvictim hused)
        exact htaken.flushBlock hlimit hkeeps.take hmakes.take ht
      · rw [evictBlock, if_neg (by rw [if_neg hused]; decide)] at ht
        exact Option.some.inj ht ▸ htaken
    have hci : t.Cached i := by
      rw [Fs.Cached, (evictBlock_framed ht).metaDataCache]
      exact hi
    refine ⟨R', { ht' with blockSize := ht'.blockSize, buffers := fun m k hk => ?_ }, hQ'⟩
    change k ∈ ((t.bufferCache.set j _).cblocks m).mdata at hk
    by_cases hmj : m = j
    · rw [hmj, Cache.cblocks_set_self, Option.mem_some_iff] at hk
      exact hk ▸ hci
    · rw [Cache.cblocks_set_of_ne _ hmj] at hk
      exact ht'.buffers m k hk

theorem AccountedWith.makeRoom (hall : AccountedWith Q limit s) (hlimit : limit ≤ 2 ^ 32)
    (hflush : s.bufferCache.cacheBlockSize < (s.bufferCache.cblocks j).offset + text.length →
      KeepsBooks limit s j junk ∧ FlushMakes Q s j junk)
    (hop : makeRoom s j text junk = some s') : AccountedWith Q limit s' := by
  unfold Log.makeRoom at hop
  split at hop
  · rename_i hover
    exact hall.flushBlock hlimit (hflush hover).1 (hflush hover).2 hop
  · exact Option.some.inj hop ▸ hall

theorem AccountedWith.appendText (hall : AccountedWith Q limit s)
    (hop : appendText s j text = some s') : AccountedWith Q limit s' := by
  obtain ⟨R, h, hQ⟩ := hall
  have hframe := appendText_framed hop
  obtain ⟨buf, -, rfl⟩ := Option.map_eq_some_iff.mp hop
  exact ⟨R, { h with blockSize := h.blockSize,
                     buffers := fun m k hk => h.buffers m k (hframe.mdata m ▸ hk) }, hQ⟩

/-- The flushes of a write keep the books, given that the records account for the chunk files until
then. -/
theorem AccountedWith.write {buf : List Char} {junk : WriteJunk} {n : ℕ}
    (hall : AccountedWith Q limit s) (hlast : Lasting Q) (hlimit : limit ≤ 2 ^ 32)
    (hclean : TakesClean s (.write f buf junk))
    (hflush : EachFlush (fun s j junk => AccountedWith Q limit s →
      KeepsBooks limit s j junk ∧ FlushMakes Q s j junk) s (.write f buf junk))
    (hop : lfsWrite s f.path buf 0 0 junk = some (s', n)) : AccountedWith Q limit s' := by
  obtain ⟨text, s₁, i, s₂, j, s₃, htext, h₁, h₂, h₃, h₄, -⟩ := lfsWrite_eq_some hop
  obtain ⟨hevict, hfull⟩ := hflush text htext (s₁, i) h₁
  have hload : AccountedWith Q limit { s with loadPath := s.loadPath ++ f.path } := by
    obtain ⟨R, h, hQ⟩ := hall
    exact ⟨R, { h with blockSize := h.blockSize }, hQ⟩
  obtain ⟨hall₁, hci, hpointer⟩ := hload.metaDataBlock hlast hclean h₁
  have hw := hfull (s₂, j) h₂
  rw [hpointer] at h₂
  have hall₂ := hall₁.wbufDataBlock hlimit hci (fun j hj => hevict j hj hall₁) h₂
  exact (hall₂.makeRoom hlimit (fun hover => hw hover hall₂) h₃).appendText h₄

/-- Each call keeps the books. -/
theorem AccountedWith.step {op : Op} (hall : AccountedWith Q limit s) (hlast : Lasting Q)
    (hpos : 0 < limit) (hlimit : limit ≤ 2 ^ 32) (hfresh : FreshName s op) (hclean : TakesClean s op)
    (hflush : EachFlush (fun s j junk => AccountedWith Q limit s →
      KeepsBooks limit s j junk ∧ FlushMakes Q s j junk) s op)
    (hop : step s op = some s') : AccountedWith Q limit s' := by
  cases op with
  | mknod f =>
    obtain ⟨⟨t, code⟩, ht, rfl⟩ := Option.map_eq_some_iff.mp hop
    exact hall.mknod hlast hpos hfresh hclean ht
  | «open» f =>
    obtain ⟨⟨t, code⟩, ht, rfl⟩ := Option.map_eq_some_iff.mp hop
    obtain ⟨R, h, hQ⟩ := hall
    unfold lfsOpen at ht
    split at ht
    · obtain ⟨rfl, -⟩ := Prod.mk.inj (Option.some.inj ht)
      exact ⟨R, { h with blockSize := h.blockSize }, hQ⟩
    · cases ht
  | getattr f stack =>
    obtain ⟨⟨t, attr⟩, ht, rfl⟩ := Option.map_eq_some_iff.mp hop
    obtain ⟨-, rfl | ⟨⟨hfile, hdot⟩, s₁, i, h₁, hs'⟩⟩ := lfsGetattr_eq_some ht
    · exact hall
    · have htaken : takenBlock s (.getattr f stack) = reloadBlock s f :=
        if_neg (not_or.mpr ⟨hfile, hdot⟩)
      obtain ⟨R₁, hinv₁, hQ₁⟩ := (hall.metaDataBlock hlast (htaken ▸ hclean) h₁).1
      rcases hs' with rfl | ⟨j, rfl⟩
      · exact ⟨R₁, hinv₁, hQ₁⟩
      · exact ⟨R₁, { hinv₁ with blockSize := hinv₁.blockSize, buffers := hinv₁.buffers }, hQ₁⟩
  | read f buf stack =>
    obtain ⟨⟨t, out⟩, ht, rfl⟩ := Option.map_eq_some_iff.mp hop
    obtain ⟨i, hi⟩ := lfsRead_metaDataBlock ht
    exact (hall.metaDataBlock hlast hclean hi).1
  | write f buf junk =>
    obtain ⟨⟨t, n⟩, ht, rfl⟩ := Option.map_eq_some_iff.mp hop
    exact hall.write hlast hlimit hclean hflush ht

/-- What follows from a condition on the flushes. -/
theorem EachFlush.imp {P P' : Fs → ℕ → Junk → Prop} (h : ∀ s j junk, P s j junk → P' s j junk)
    {op : Op} (hp : EachFlush P s op) : EachFlush P' s op := by
  cases op with
  | write f buf junk =>
    intro text htext r hr
    obtain ⟨hevict, hfull⟩ := hp text htext r hr
    exact ⟨fun j hj => h _ _ _ (hevict j hj), fun w hw hover => h _ _ _ (hfull w hw hover)⟩
  | mknod f => trivial
  | «open» f => trivial
  | getattr f stack => trivial
  | read f buf stack => trivial

/-! ## The two operations -/

theorem lfsGetattr_st_size {path : List Char} {n : ℤ}
    (h : lfsGetattr s path stack = some (s', .st_size n)) :
    ∃ s₁ i, metaDataBlock s path stack = some (s₁, i) ∧
      (findMetaDataBlock s₁.records s₁.bufferCache path.tail = none ∧
          n = (s₁.records i).size + (s₁.records i).numPaths ∨
        ∃ j, findMetaDataBlock s₁.records s₁.bufferCache path.tail = some j ∧
          n = wrap32 ((s₁.records i).size + (s₁.bufferCache.cblocks j).offset) +
            (s₁.records i).numPaths) := by
  unfold lfsGetattr at h
  split at h
  · split at h
    · cases h
    · split at h
      · cases h
      · split at h
        · cases h
        · simp only [Option.bind_eq_bind, Option.bind_eq_some_iff] at h
          obtain ⟨⟨s₁, i⟩, h₁, h⟩ := h
          refine ⟨s₁, i, h₁, ?_⟩
          cases hfind : findMetaDataBlock s₁.records s₁.bufferCache path.tail with
          | none =>
            rw [hfind] at h
            obtain ⟨-, heq⟩ := Prod.mk.inj (Option.some.inj h)
            exact Or.inl ⟨rfl, (Attr.st_size.inj heq).symm⟩
          | some j =>
            rw [hfind] at h
            obtain ⟨-, heq⟩ := Prod.mk.inj (Option.some.inj h)
            exact Or.inr ⟨j, rfl, (Attr.st_size.inj heq).symm⟩
  · cases h

theorem readParts_eq_some {path chunks text : List Char}
    (h : readParts s path stack = some (s', chunks, text)) :
    ∃ i, metaDataBlock s path stack = some (s', i) ∧
      readChunks (s'.records i).size s'.chunkFiles (s'.records i).paths = some chunks ∧
      bufferedText s' path = some text := by
  unfold readParts at h
  simp only [Option.bind_eq_bind, Option.bind_eq_some_iff] at h
  obtain ⟨⟨s₁, i⟩, h₁, chunks', hchunks, text', htext, heq⟩ := h
  obtain ⟨rfl, hparts⟩ := Prod.mk.inj (Option.some.inj heq)
  obtain ⟨rfl, rfl⟩ := Prod.mk.inj hparts
  exact ⟨i, h₁, hchunks, htext⟩

/-- Each chunk file is delivered whole, with a newline behind it. -/
theorem length_readChunks {size : ℤ} {paths : List (List Char)} {chunks : List Char}
    (hread : ∀ p ∈ paths, fread size ((chunkFiles p).getD []) = (chunkFiles p).getD [])
    (h : readChunks size chunkFiles paths = some chunks) :
    chunks.length = total chunkFiles paths + paths.length := by
  induction paths generalizing chunks with
  | nil =>
    obtain rfl := Option.some.inj h
    rfl
  | cons p paths ih =>
    obtain ⟨hp, hread⟩ := List.forall_mem_cons.mp hread
    unfold readChunks at h
    simp only [Option.bind_eq_bind, Option.bind_eq_some_iff] at h
    obtain ⟨bytes, hbytes, rest, hrest, h⟩ := h
    obtain rfl := Option.some.inj h
    rw [hbytes, Option.getD_some] at hp
    rw [List.length_append, List.length_cons, hp, ih hread hrest, total_cons, hbytes,
      Option.getD_some, List.length_cons]
    omega

theorem Balanced.fread (h : Balanced limit R chunkFiles) (hlimit : limit ≤ 2 ^ 32)
    (hm : R name = some m) :
    ∀ p ∈ m.paths, fread m.size ((chunkFiles p).getD []) = (chunkFiles p).getD [] := by
  intro p hp
  have hle : ((chunkFiles p).getD []).length ≤ total chunkFiles m.paths := length_le_total hp
  refine fread_eq ?_
  rw [h.size name m hm]
  rcases wrap32_natCast ((h.small name m hm).trans_le hlimit) with heq | hneg
  · exact Or.inr (by rw [heq]; exact_mod_cast hle)
  · exact Or.inl hneg

/-- What a reload of the file finds does not depend on what the stack holds. -/
theorem Accounted.fetched (h : Accounted limit s R)
    (hop : Log.metaDataBlock s f.path stack = some (s', i)) :
    (∃ m, R f.chars = some m ∧ (s'.records i).Same m) ∧ s'.chunkFiles = s.chunkFiles ∧
      s'.bufferCache = s.bufferCache ∧
      ∀ k, (s'.records k).fileName = if k = i then f.chars else (s.records k).fileName := by
  rcases h.metaDataBlock_cases hop with ⟨hci, hname, rfl⟩ | ⟨-, -, m, m', hm, hsame, rfl⟩
  · refine ⟨⟨_, hname ▸ h.cached i hci, rfl, rfl, rfl, rfl⟩, rfl, rfl, fun k => ?_⟩
    split
    · rename_i hk
      rw [hk]
      exact hname
    · rfl
  · have hself : Function.update s.records i m' i = m' := Function.update_self ..
    refine ⟨⟨m, hm, ?_⟩, rfl, rfl, fun k => ?_⟩
    · show (Function.update s.records i m' i).Same m
      rwa [hself]
    · show (Function.update s.records i m' k).fileName = _
      split
      · rename_i hk
        rw [hk, hself]
        exact hsame.fileName.trans (h.named _ _ hm)
      · rename_i hk
        rw [Function.update_of_ne hk]

theorem Accounted.fetched_unique {stack' : List Char} {i' : ℕ} (h : Accounted limit s R)
    (hop : Log.metaDataBlock s f.path stack = some (s', i))
    (hop' : Log.metaDataBlock s f.path stack' = some (t, i')) : i = i' := by
  rcases h.metaDataBlock_cases hop with ⟨hci, hname, -⟩ | ⟨hreload, hgone, -⟩ <;>
    rcases h.metaDataBlock_cases hop' with ⟨hci', hname', -⟩ | ⟨hreload', hgone', -⟩
  · exact h.names i i' hci hci' (hname.trans hname'.symm)
  · exact absurd hname (hgone' i hci)
  · exact absurd hname' (hgone i' hci')
  · exact Option.some.inj (hreload.symm.trans hreload')

theorem Accounted.agreeOnLength (h : Accounted limit s R) (hlimit : limit ≤ 2 ^ 32)
    (htexts : HoldsTexts (fun _ => True) s) : AgreeOnLength s := by
  intro f stack stack' buf size offset s' s'' n mem k hattr hread
  obtain ⟨s₁, i, h₁, hn⟩ := lfsGetattr_st_size hattr
  obtain ⟨chunks, text, hparts, hfill⟩ := lfsReadMem_eq_some.mp hread
  obtain ⟨-, hmax, -, rfl, -⟩ := fillMem_eq_some.mp hfill
  obtain ⟨i', h₂, hchunks, htext⟩ := readParts_eq_some hparts
  obtain rfl := h.fetched_unique h₁ h₂
  obtain ⟨⟨m, hm, hsame₁⟩, -, hbuf₁, hnames₁⟩ := h.fetched h₁
  obtain ⟨⟨m', hm', hsame₂⟩, hfiles₂, hbuf₂, hnames₂⟩ := h.fetched h₂
  obtain rfl := Option.some.inj (hm.symm.trans hm')
  -- both see the same record, and the same write buffer
  have hlen : chunks.length = total s.chunkFiles m.paths + m.paths.length := by
    rw [hsame₂.size, hsame₂.paths, hfiles₂] at hchunks
    exact length_readChunks (h.balanced.fread hlimit hm) hchunks
  have hfind : findMetaDataBlock s''.records s''.bufferCache f.chars =
      findMetaDataBlock s₁.records s₁.bufferCache f.chars := by
    rw [hbuf₁, hbuf₂]
    exact findMetaDataBlock_congr rfl (fun _ => rfl) (fun _ => rfl)
      fun k => (hnames₂ k).trans (hnames₁ k).symm
  have hcount : (m.paths.length : ℤ) = m.numPaths := by
    rw [m.length_paths]
    exact Int.toNat_of_nonneg (h.balanced.count _ _ hm)
  have htotal : ((total s.chunkFiles m.paths + text.length : ℕ) : ℤ) ≤ INT_MAX := by
    rw [hlen] at hmax
    push_cast at hmax ⊢
    omega
  have hsize : m.size = (total s.chunkFiles m.paths : ℕ) := by
    rw [h.balanced.size _ _ hm]
    refine wrap32_of_range (by omega) (le_trans ?_ htotal)
    exact_mod_cast Nat.le_add_right _ _
  rw [hsame₁.size, hsame₁.numPaths, hsize, ← hcount] at hn
  unfold bufferedText at htext
  rw [Name.tail_path, hfind] at htext
  rcases hn with ⟨hnone, hn⟩ | ⟨j, hj, hn⟩
  · rw [Name.tail_path] at hnone
    rw [hnone] at htext
    obtain rfl := Option.some.inj htext
    rw [hn, hlen]
    push_cast
    simp
  · rw [Name.tail_path] at hj
    rw [hj, hbuf₂] at htext
    obtain ⟨held, -, hholds⟩ := htexts.holds j
    obtain rfl : held = text := Option.some.inj (hholds.stringAt.symm.trans htext)
    rw [hn, hbuf₁, hholds.offset, ← Nat.cast_add, wrap32_of_range (by omega) htotal, hlen]
    push_cast
    omega

/-- In a run that creates files under new names, `lfs_getattr` and `lfs_read` agree on the length of every
file, as long as flushes keep the books and the records that leave the cache can be read back. -/
theorem agree_on_length {ops : List Op} (hok : Each step KeepsAccounts Fs.init ops) :
    Always step AgreeOnLength Fs.init ops := by
  have hlast : Lasting fun _ => True := ⟨fun _ _ => trivial, fun _ _ _ _ => trivial⟩
  have hbooks : Always step (fun s => AccountedWith (fun _ => True) (2 ^ 32) s ∧
      HoldsTexts (fun _ => True) s) Fs.init ops := by
    refine always_of_each ⟨⟨_, accounted_init _, fun _ _ _ => trivial⟩, holdsTexts_fresh trivial rfl⟩
      (fun s op s' h hok hop => ⟨?_, ?_⟩) hok
    · refine h.1.step hlast (by decide) le_rfl hok.fresh hok.clean ?_ hop
      exact hok.books.imp fun s j junk hkeeps _ => ⟨hkeeps, fun _ _ _ _ _ _ => trivial⟩
    · exact h.2.step flushLeaves_text (fun _ _ _ _ _ _ _ _ => trivial) hop
  refine hbooks.imp fun s hs => ?_
  obtain ⟨⟨R, h, -⟩, htexts⟩ := hs
  exact h.agreeOnLength le_rfl htexts

/-- A file is flushed, and looked up. -/
theorem agree_on_length_flush : Always step AgreeOnLength Fs.init
    [.mknod firstFile, writeLines firstFile 160 2, writeLines firstFile 160 20,
      .getattr firstFile [], .read firstFile (zeros 8192) []] :=
  agree_on_length (by decide +kernel)

def fileA : Name := ⟨"a".toList, by decide, by decide, by decide⟩

def fileA1 : Name := ⟨"a-1".toList, by decide, by decide, by decide⟩

/-- A write of `k` lines with this time. -/
def writeAt (f : Name) (time : String) (k : ℕ) : Op :=
  let line := "E|Sat Mar 17 ".toList ++ time.toList ++ " EDT 2012|".toList ++ List.replicate 160 'x'
  .write f (joinLines (List.replicate k line) ++ [nul]) {}

/-- The chunk file of "a" for the time "1-10" is the one of "a-1" for the time "10". Both files are
flushed. -/
def sharedChunk : List Op :=
  [.mknod fileA, writeAt fileA "1-10" 2, writeAt fileA "1-10" 20,
    .mknod fileA1, writeAt fileA1 "10" 2, writeAt fileA1 "10" 21]

/-- The second file appends to the chunk file, counts the bytes and does not list it. -/
theorem not_agree_on_length_sharedChunk : ¬ Always step AgreeOnLength Fs.init sharedChunk := by
  have hrun : ((run step Fs.init sharedChunk).map fun s =>
      ((lfsGetattr s fileA1.path []).map Prod.snd,
        (lfsReadMem s fileA1.path (zeros 8192) 8192 0 []).map fun r => r.2.2)) =
      some (some (.st_size 4463), some 4091) := by decide +kernel
  intro hagree
  obtain ⟨s, hs, hat⟩ := Option.map_eq_some_iff.mp hrun
  obtain ⟨hattr, hread⟩ := Prod.mk.inj hat
  obtain ⟨⟨s₁, attr⟩, hattr, hattr'⟩ := Option.map_eq_some_iff.mp hattr
  obtain ⟨⟨s₂, mem, k⟩, hread, hread'⟩ := Option.map_eq_some_iff.mp hread
  obtain rfl : attr = .st_size 4463 := hattr'
  obtain rfl : k = 4091 := hread'
  have heq := hagree sharedChunk (List.prefix_refl _) s hs fileA1 [] [] _ _ _ _ _ _ _ _ hattr hread
  exact absurd heq (by decide)

end QuorumLogFs.Log
