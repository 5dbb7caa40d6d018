import QuorumLogFs.Basis.Runs
import QuorumLogFs.Log.Cache

/-!
# The caches evict the least recently used block

Reference: `Cache.c`, `get_free_cache_block` and `update_lru`.

The file system uses a cache in two ways: it takes a block with `get_free_cache_block` and passes it
to `update_lru`, or it passes a block it has taken before to `update_lru` again. `log` lists the
blocks passed to `update_lru`, the latest first, so the position of a block in it says how long ago
its last use was. The counters are these positions among the distinct blocks, and they never wrap.
-/

namespace QuorumLogFs.Log

open QuorumLogFs.Basis

inductive LruStep where
  /-- `get_free_cache_block`, then `update_lru` on the block it returns. -/
  | allocate
  /-- `update_lru` on a block returned earlier. -/
  | touch (cache_blk : ℕ)
deriving DecidableEq, Repr

/-- A cache and the blocks passed to `update_lru` so far, the latest first. -/
structure LruState where
  cache : Cache
  log : List ℕ

def lruStep (s : LruState) : LruStep → Option LruState
  | .allocate => (getFreeCacheBlock s.cache).map fun (index, _, c) =>
      { cache := updateLru c index, log := index :: s.log }
  | .touch cache_blk =>
    if cache_blk ∈ s.log then
      some { cache := updateLru s.cache cache_blk, log := cache_blk :: s.log }
    else none

/-- `lru_counter` of block `i`. -/
def LruState.lru (s : LruState) (i : ℕ) : ℕ := (s.cache.cblocks i).lruCounter

/-- The cache behaves as a least-recently-used cache, and its counters are the recency ranks. -/
structure ExactLru (s : LruState) : Prop where
  /-- As long as a block was never taken, such a block is returned. -/
  fresh : (∃ b < s.cache.numBlocks, b ∉ s.log) → ∃ b < s.cache.numBlocks, b ∉ s.log ∧
    getFreeCacheBlock s.cache = some (b, NORMAL, s.cache.take b)
  /-- Afterwards the block whose last use is the oldest. -/
  oldest : (∀ b < s.cache.numBlocks, b ∈ s.log) → ∃ v ∈ s.log,
    (∀ c ∈ s.log, c ≠ v → s.log.idxOf c < s.log.idxOf v) ∧
    getFreeCacheBlock s.cache = some (v, WRITE_BACK, s.cache.take v)
  ranks : s.log.toFinset.image s.lru = Finset.range s.log.toFinset.card
  order : ∀ b ∈ s.log, ∀ c ∈ s.log, s.lru b < s.lru c ↔ s.log.idxOf b < s.log.idxOf c
  unused : ∀ b < s.cache.numBlocks, b ∉ s.log → s.lru b = s.log.toFinset.card
  /-- The reduction in `update_lru` never changes a counter. -/
  noWrap : ∀ b, (b ∈ s.log ∨ ∃ result c, getFreeCacheBlock s.cache = some (b, result, c)) →
    ∀ i < s.cache.numBlocks, i ≠ b → s.lru i ≤ s.lru b →
      (s.lru i + 1) % s.cache.numBlocks = s.lru i + 1

/-- The invariant: the counters rank the first `k` blocks by recency, and exactly these are marked
as allocated. -/
structure LruInv (s : LruState) : Prop where
  pos : 0 < s.cache.numBlocks
  recent : ∃ k, Recent s.cache.numBlocks k s.log s.lru
  flags : ∀ b < s.cache.numBlocks, (s.cache.cblocks b).freeFlag = false ↔ b ∈ s.log

theorem lruInv_init (size block_size : ℕ) (type : CacheType)
    (hn : 1 ≤ (createCache size block_size type).numBlocks) :
    LruInv ⟨createCache size block_size type, []⟩ where
  pos := hn
  recent := by
    have hlru : LruState.lru ⟨createCache size block_size type, []⟩ = fun _ => 0 := by
      funext i
      cases type <;> rfl
    rw [hlru]
    exact ⟨0, recent_nil _⟩
  flags b _ := by cases type <;> simp [createCache, initCacheBlock]

/-- What `get_free_cache_block` returns while the invariant holds. -/
theorem LruInv.getFreeCacheBlock {s : LruState} (h : LruInv s) {k : ℕ}
    (hk : Recent s.cache.numBlocks k s.log s.lru) :
    (k < s.cache.numBlocks ∧
      getFreeCacheBlock s.cache = some (k, NORMAL, s.cache.take k)) ∨
    (k = s.cache.numBlocks ∧ ∃ v ∈ s.log,
      (∀ c ∈ s.log, c ≠ v → s.log.idxOf c < s.log.idxOf v) ∧
      getFreeCacheBlock s.cache = some (v, WRITE_BACK, s.cache.take v)) := by
  rcases Nat.lt_or_eq_of_le hk.le with hlt | rfl
  · refine Or.inl ⟨hlt, ?_⟩
    have hfree : ¬ (s.cache.cblocks k).freeFlag = false := by
      rw [h.flags k hlt, hk.mem]
      exact lt_irrefl k
    have hvictim : victim s.lru s.cache.numBlocks = some k := hk.toRanked.victim_unused hlt
    unfold Log.getFreeCacheBlock
    rw [show (fun i => (s.cache.cblocks i).lruCounter) = s.lru from rfl, hvictim, Option.map_some,
      if_neg hfree]
  · refine Or.inr ⟨rfl, ?_⟩
    obtain ⟨v, hv, hvictim, hold⟩ := hk.victim_oldest h.pos
    have hfree : (s.cache.cblocks v).freeFlag = false := (h.flags v (hk.lt hv)).mpr hv
    refine ⟨v, hv, hold, ?_⟩
    unfold Log.getFreeCacheBlock
    rw [show (fun i => (s.cache.cblocks i).lruCounter) = s.lru from rfl, hvictim, Option.map_some,
      if_pos hfree]

/-- Both kinds of step keep the invariant. -/
theorem LruInv.step {s s' : LruState} (h : LruInv s) (e : LruStep) (hs : lruStep s e = some s') :
    LruInv s' := by
  obtain ⟨k, hk⟩ := h.recent
  cases e with
  | allocate =>
    have htake : ∀ b k', Recent s.cache.numBlocks k' (b :: s.log)
        (Basis.touch s.cache.numBlocks s.lru b) → b < s.cache.numBlocks →
        LruInv ⟨updateLru (s.cache.take b) b, b :: s.log⟩ := by
      intro b k' hrecent hb
      refine ⟨h.pos, ⟨k', ?_⟩, fun i hi => ?_⟩
      · have hlru : LruState.lru ⟨updateLru (s.cache.take b) b, b :: s.log⟩ =
            Basis.touch s.cache.numBlocks s.lru b := by
          funext i
          unfold LruState.lru updateLru
          simp only [take_numBlocks, take_lruCounter]
        rw [hlru]
        exact hrecent
      · rw [updateLru_freeFlag, take_freeFlag, List.mem_cons, h.flags i hi]
    simp only [lruStep] at hs
    rcases h.getFreeCacheBlock hk with ⟨hlt, hfree⟩ | ⟨rfl, v, hv, -, hfree⟩
    · rw [hfree, Option.map_some, Option.some.injEq] at hs
      subst hs
      exact htake k (k + 1) (hk.touch_unused hlt) hlt
    · rw [hfree, Option.map_some, Option.some.injEq] at hs
      subst hs
      exact htake v _ (hk.touch_used hv) (hk.lt hv)
  | touch b =>
    simp only [lruStep] at hs
    split at hs
    · rename_i hb
      obtain rfl := Option.some.inj hs
      refine ⟨h.pos, ⟨k, hk.touch_used hb⟩, fun i hi => ?_⟩
      rw [updateLru_freeFlag, List.mem_cons, h.flags i hi]
      constructor
      · exact Or.inr
      · rintro (rfl | hmem)
        · exact hb
        · exact hmem
    · cases hs

theorem LruInv.exactLru {s : LruState} (h : LruInv s) : ExactLru s := by
  obtain ⟨k, hk⟩ := h.recent
  have hcard : s.log.toFinset.card = k := by rw [hk.card, Finset.card_range]
  have hget := h.getFreeCacheBlock hk
  refine ⟨?_, ?_, ?_, hk.order, fun b hb hmem => ?_, fun b hb i hi hib hle => ?_⟩
  · rintro ⟨b, hb, hmem⟩
    rw [hk.mem] at hmem
    obtain ⟨hlt, hfree⟩ := hget.resolve_right fun hc => by omega
    exact ⟨k, hlt, by simp [hk.mem], hfree⟩
  · intro hall
    obtain ⟨-, hold⟩ := hget.resolve_left fun hc => by
      have := (hk.mem k).mp (hall k hc.1)
      omega
    exact hold
  · rw [hcard, hk.card]
    exact hk.toRanked.image_lru
  · rw [hcard]
    exact hk.unused b (by rwa [hk.mem, not_lt] at hmem) hb
  · refine hk.toRanked.no_wrap ?_ hi hib hle
    rcases hb with hb | ⟨result, c, hfree⟩
    · exact Or.inl ((hk.mem b).mp hb)
    · rcases hget with ⟨hlt, hfree'⟩ | ⟨rfl, v, hv, -, hfree'⟩
      · obtain ⟨rfl, -, -⟩ : k = b ∧ _ ∧ _ := by simpa using hfree'.symm.trans hfree
        exact Or.inr ⟨rfl, hlt⟩
      · obtain ⟨rfl, -, -⟩ : v = b ∧ _ ∧ _ := by simpa using hfree'.symm.trans hfree
        exact Or.inl (hk.lt hv)

/-- After any sequence of allocations and uses, from a cache with at least one block, the cache is
exactly a least-recently-used cache. -/
theorem createCache_exactLru (size block_size : ℕ) (type : CacheType)
    (hn : 1 ≤ (createCache size block_size type).numBlocks) (es : List LruStep) {s : LruState}
    (hrun : run lruStep ⟨createCache size block_size type, []⟩ es = some s) : ExactLru s :=
  (run_invariant (I := LruInv) (lruInv_init size block_size type hn)
    (fun _ e _ hI _ hs => hI.step e hs) (fun _ _ _ _ _ => trivial) hrun).exactLru

/-- Two blocks, of which the first is used again before the second is taken over. -/
theorem createCache_exactLru_two : ∃ s,
    run lruStep ⟨createCache 2 4096 .METADATA_CACHE, []⟩ [.allocate, .allocate, .touch 0, .allocate] =
      some s ∧ s.log = [1, 0, 1, 0] ∧ ExactLru s := by
  refine ⟨_, rfl, rfl, ?_⟩
  exact createCache_exactLru 2 4096 .METADATA_CACHE (by decide)
    [.allocate, .allocate, .touch 0, .allocate] rfl

end QuorumLogFs.Log
