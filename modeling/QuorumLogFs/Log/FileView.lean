import QuorumLogFs.Log.Fs
import QuorumLogFs.Log.Replay

/-!
# One file on its own

`FileView` is what the file system holds of one file: its record, the text in its write buffer and
the chunk files that the record lists. Two things happen to it: a write to the file, and the flush
that takes its buffer away for another file. This is a file system that knows a single file;
`Log/Private.lean` shows that the real one behaves like it, file by file.
-/

namespace QuorumLogFs.Log

open QuorumLogFs.Basis

/-- The size of a write buffer. -/
def BLOCK_SIZE : ℕ := 4096

/-- One file: its record, the text in its write buffer (none if it has no buffer) and the chunk
files. -/
structure FileView where
  mdata : Mdata
  text : List Char
  chunkFiles : ChunkFiles

/-- A file as `lfs_mknod` creates it. -/
def FileView.fresh (name : List Char) : FileView :=
  ⟨{ Mdata.empty with fileName := name }, [], fun _ => none⟩

/-- A write buffer that holds this text. -/
def blockOf (text : List Char) : CBlock := ⟨none, false, padded BLOCK_SIZE text, text.length, 0⟩

/-- `write_buffer_to_disk` -/
def FileView.flush (v : FileView) (junk : Junk) : Option FileView :=
  (writeBufferToDisk junk CHUNK_PATH (blockOf v.text) BLOCK_SIZE (v.mdata, v.chunkFiles)).map
    fun r => ⟨r.2.1, cstr r.1.buf, r.2.2⟩

/-- What can happen to a file. -/
inductive FileOp where
  | write (text : List Char) (junk : Junk)
  | evict (junk : Junk)

/-- The flush that makes room for a text. -/
def FileView.room (v : FileView) (text : List Char) (junk : Junk) : Option FileView :=
  if BLOCK_SIZE < v.text.length + text.length then v.flush junk else some v

def FileView.step (v : FileView) : FileOp → Option FileView
  | .write text junk => do
    let v ← v.room text junk
    if v.text.length + text.length < BLOCK_SIZE then some { v with text := v.text ++ text }
    else none
  | .evict junk => (v.flush junk).map fun v => { v with text := [] }

/-- What `lfs_read` delivers. -/
def FileView.output (v : FileView) (buf : List Char) : Option (List Char) := do
  let chunks ← readChunks v.mdata.size v.chunkFiles v.mdata.paths
  fillBuffer buf chunks v.text

theorem BLOCK_SIZE_pos : 0 < BLOCK_SIZE := by decide

/-- A flush makes the appends it notes; the text is what remains. -/
theorem FileView.flush_eq (v : FileView) (junk : Junk) :
    v.flush junk = (chunkWrites junk CHUNK_PATH v.mdata.fileName (blockOf v.text) BLOCK_SIZE).bind
      fun writes => (appendAll appendChunk writes (v.mdata, v.chunkFiles)).map fun d =>
        ⟨d.1, remaining junk BLOCK_SIZE (padded BLOCK_SIZE v.text), d.2⟩ := by
  unfold FileView.flush
  rw [writeBufferToDisk_eq junk CHUNK_PATH _ BLOCK_SIZE_pos]
  cases chunkWrites junk CHUNK_PATH v.mdata.fileName (blockOf v.text) BLOCK_SIZE with
  | none => rfl
  | some writes =>
    rw [Option.bind_some, Option.bind_some, Option.map_map]
    congr 1
    funext d
    exact congrArg (FileView.mk d.1 · d.2) (cstr_padded (nul_notMem_remaining _ _ _) _)

/-- Without a flush the new text is behind the old one. -/
theorem FileView.step_of_room {v v' : FileView} {text : List Char} {junk : Junk}
    (hroom : ¬BLOCK_SIZE < v.text.length + text.length)
    (hop : v.step (.write text junk) = some v') : v' = { v with text := v.text ++ text } := by
  obtain ⟨w, hw, hop⟩ := Option.bind_eq_some_iff.mp hop
  rw [FileView.room, if_neg hroom] at hw
  obtain rfl := Option.some.inj hw
  split at hop
  · exact (Option.some.inj hop).symm
  · cases hop

/-- When a flush that makes room leaves nothing, only the new text is in the buffer. -/
theorem FileView.text_of_step {v v' : FileView} {text : List Char} {junk : Junk}
    (hover : BLOCK_SIZE < v.text.length + text.length)
    (hnothing : remaining junk BLOCK_SIZE (padded BLOCK_SIZE v.text) = [])
    (hop : v.step (.write text junk) = some v') : v'.text = text := by
  obtain ⟨w, hw, hop⟩ := Option.bind_eq_some_iff.mp hop
  rw [FileView.room, if_pos hover, FileView.flush_eq] at hw
  obtain ⟨writes, -, hw⟩ := Option.bind_eq_some_iff.mp hw
  obtain ⟨d, -, rfl⟩ := Option.map_eq_some_iff.mp hw
  split at hop
  · obtain rfl := Option.some.inj hop
    dsimp only
    rw [hnothing, List.nil_append]
  · cases hop

/-! ## Appends to a record's own chunk files -/

section Chunks

variable {name bytes : List Char} {writes : List (List Char × List Char)}
  {d d' d'' : Mdata × ChunkFiles}

theorem appendChunk_eq_some (h : appendChunk name bytes d = some d') :
    d'.2 = Function.update d.2 name (some ((d.2 name).getD [] ++ bytes)) ∧
      d'.1.size = wrap32 (d.1.size + bytes.length) ∧
      d'.1.paths = (if d.2 name = none then d.1.paths ++ [name] else d.1.paths) := by
  unfold appendChunk at h
  split at h
  · split at h
    · rename_i hnone
      obtain ⟨m, hm, rfl⟩ := Option.map_eq_some_iff.mp h
      have hpaths := Mdata.paths_pushPath hm
      have hsize := (Mdata.pushPath_eq_some hm).2.2.1
      exact ⟨by simp [hnone], by rw [Mdata.size_grow, hsize], by rw [if_pos hnone]; exact hpaths⟩
    · rename_i old hold
      obtain rfl := Option.some.inj h
      exact ⟨by simp [hold], rfl, by rw [if_neg (by simp [hold])]; rfl⟩
  · cases h

/-- Every chunk file that is appended to is new or in the record's path list. -/
def OwnChunks (d : Mdata × ChunkFiles) (writes : List (List Char × List Char)) : Prop :=
  ∀ w ∈ writes, d.2 w.1 = none ∨ w.1 ∈ d.1.paths

/-- The chunk files in the path list of a record. -/
def Mdata.chunks (m : Mdata) (chunkFiles : ChunkFiles) : ChunkFiles :=
  fun p => if p ∈ m.paths then chunkFiles p else none

/-- Every path of the record exists. -/
def Listed (d : Mdata × ChunkFiles) : Prop := ∀ p ∈ d.1.paths, d.2 p ≠ none

/-- What appends to a record's own chunk files do. -/
structure Appended (d d' : Mdata × ChunkFiles) : Prop where
  fileName : d'.1.fileName = d.1.fileName
  kept : ∀ p ∈ d.1.paths, p ∈ d'.1.paths
  fresh : ∀ p ∈ d'.1.paths, p ∈ d.1.paths ∨ d.2 p = none
  others : ∀ p, p ∉ d'.1.paths → d'.2 p = d.2 p
  listed : Listed d'

theorem Appended.refl (h : Listed d) : Appended d d :=
  ⟨rfl, fun _ => id, fun _ => Or.inl, fun _ _ => rfl, h⟩

theorem Appended.trans (h : Appended d d') (h' : Appended d' d'') : Appended d d'' where
  fileName := h'.fileName.trans h.fileName
  kept p hp := h'.kept p (h.kept p hp)
  fresh p hp := by
    by_cases hd' : p ∈ d'.1.paths
    · exact h.fresh p hd'
    · rw [← h.others p hd']
      exact Or.inr ((h'.fresh p hp).resolve_left hd')
  others p hp := (h'.others p hp).trans (h.others p fun hd' => hp (h'.kept p hd'))
  listed := h'.listed

theorem appended_appendChunk (h : appendChunk name bytes d = some d') (hlisted : Listed d)
    (hown : d.2 name = none ∨ name ∈ d.1.paths) : Appended d d' := by
  obtain ⟨hfiles, -, hpaths⟩ := appendChunk_eq_some h
  have hmem : ∀ p, p ∈ d'.1.paths ↔ p ∈ d.1.paths ∨ p = name := by
    intro p
    rw [hpaths]
    by_cases hnone : d.2 name = none
    · rw [if_pos hnone, List.mem_append, List.mem_singleton]
    · rw [if_neg hnone]
      exact (or_iff_left_of_imp fun hp => hp ▸ hown.resolve_left hnone).symm
  have hother : ∀ p, p ≠ name → d'.2 p = d.2 p := fun p hp => by
    rw [hfiles, Function.update_of_ne hp]
  refine ⟨appendChunk_fileName h, fun p hp => (hmem p).mpr (Or.inl hp),
    fun p hp => ?_, fun p hp => hother p fun heq => hp ((hmem p).mpr (Or.inr heq)), fun p hp => ?_⟩
  · rcases (hmem p).mp hp with hp | rfl
    · exact Or.inl hp
    · exact hown.symm
  · by_cases hpn : p = name
    · simp [hfiles, hpn]
    · rw [hother p hpn]
      exact hlisted p (((hmem p).mp hp).resolve_right hpn)

/-- The record alone sees the same append. -/
theorem appendChunk_own (h : appendChunk name bytes d = some d')
    (hown : d.2 name = none ∨ name ∈ d.1.paths) :
    appendChunk name bytes (d.1, d.1.chunks d.2) = some (d'.1, d'.1.chunks d'.2) := by
  have hchunks : ∀ p, d.1.chunks d.2 p = if p ∈ d.1.paths then d.2 p else none := fun _ => rfl
  unfold appendChunk at h ⊢
  split at h
  · rename_i hlen
    rw [if_pos hlen]
    split at h
    · -- a new chunk file is new to the record too
      rename_i hnone
      obtain ⟨m, hm, rfl⟩ := Option.map_eq_some_iff.mp h
      have hpaths := Mdata.paths_pushPath hm
      have hnew : d.1.chunks d.2 name = none := by rw [hchunks, hnone, ite_self]
      simp only [hnew, hm, Option.map_some, Option.some.injEq, Prod.mk.injEq, true_and]
      funext p
      show _ = if p ∈ m.paths then Function.update d.2 name (some bytes) p else none
      by_cases hp : p = name
      · simp [hp, hpaths]
      · simp [hp, hpaths, hchunks]
    · rename_i old hold
      obtain rfl := Option.some.inj h
      have hmem : name ∈ d.1.paths := hown.resolve_left (by simp [hold])
      have hsame : d.1.chunks d.2 name = some old := by rw [hchunks, if_pos hmem, hold]
      simp only [hsame, Option.some.injEq, Prod.mk.injEq, true_and]
      funext p
      show _ = if p ∈ d.1.paths then Function.update d.2 name (some (old ++ bytes)) p else none
      by_cases hp : p = name
      · simp [hp, hmem]
      · simp [hp, hchunks]
  · cases h

theorem OwnChunks.tail {w : List Char × List Char} (h : OwnChunks d (w :: writes))
    (happ : Appended d d') : OwnChunks d' writes := by
  intro w' hw'
  by_cases hmem : w'.1 ∈ d'.1.paths
  · exact Or.inr hmem
  · rw [happ.others _ hmem]
    exact (h w' (List.mem_cons_of_mem w hw')).imp_right fun hp => absurd (happ.kept _ hp) hmem

theorem appendAll_own (h : appendAll appendChunk writes d = some d') (hlisted : Listed d)
    (hown : OwnChunks d writes) : Appended d d' ∧
      appendAll appendChunk writes (d.1, d.1.chunks d.2) = some (d'.1, d'.1.chunks d'.2) := by
  induction writes generalizing d with
  | nil =>
    obtain rfl := Option.some.inj h
    exact ⟨Appended.refl hlisted, rfl⟩
  | cons w writes ih =>
    obtain ⟨e, he, h⟩ := Option.bind_eq_some_iff.mp h
    have happ := appended_appendChunk he hlisted (hown w List.mem_cons_self)
    obtain ⟨happ', hown'⟩ := ih h happ.listed (hown.tail happ)
    refine ⟨happ.trans happ', ?_⟩
    rw [appendAll, appendChunk_own he (hown w List.mem_cons_self), Option.bind_some, hown']

theorem readChunks_congr {size : ℤ} {c c' : ChunkFiles} {paths : List (List Char)}
    (h : ∀ p ∈ paths, c p = c' p) : readChunks size c paths = readChunks size c' paths := by
  induction paths with
  | nil => rfl
  | cons p paths ih =>
    rw [readChunks, readChunks, h p List.mem_cons_self,
      ih fun q hq => h q (List.mem_cons_of_mem p hq)]

/-- A record sees all of its own chunk files. -/
theorem readChunks_chunks (m : Mdata) (size : ℤ) (chunkFiles : ChunkFiles) :
    readChunks size (m.chunks chunkFiles) m.paths = readChunks size chunkFiles m.paths :=
  readChunks_congr fun _ hp => if_pos hp

end Chunks

end QuorumLogFs.Log
