import TLiveOmni.BlockPool

/-! What every operation keeps of a block pool: a block is free if and only if nobody refers to it,
and it is found under exactly the hash it has. -/
set_option autoImplicit false

namespace TLiveOmni.Kv
open Sched (Fault)

namespace BlockHashToBlockMap
variable {H : Type} [DecidableEq H] {cache : BlockHashToBlockMap H} {h key : H} {b : Nat}

def ids : Option CachedBlocks → List Nat
  | none => []
  | some (.block b) => [b]
  | some (.blocks bs) => bs

/-- The blocks under a hash, the first one inserted first. -/
def members (cache : BlockHashToBlockMap H) (h : H) : List Nat := ids (cache.get? h)

theorem members_set_self {v : CachedBlocks} :
    BlockHashToBlockMap.members (cache.set key v) key = ids (some v) := by
  rw [members,Dict.get?_set,if_pos rfl]

theorem members_set {v : CachedBlocks} (hne : h ≠ key) :
    BlockHashToBlockMap.members (cache.set key v) h = cache.members h := by
  rw [members,Dict.get?_set,if_neg hne,members]

theorem members_erase_self : BlockHashToBlockMap.members (cache.erase key) key = [] := by
  rw [members,Dict.get?_erase,if_pos rfl,ids]

theorem members_erase (hne : h ≠ key) :
    BlockHashToBlockMap.members (cache.erase key) h = cache.members h := by
  rw [members,Dict.get?_erase,if_neg hne,members]

theorem getOneBlock_eq : cache.getOneBlock key = (cache.members key).head? := by
  rw [getOneBlock,members]
  cases Dict.get? cache key with
  | none => rfl
  | some c => cases c <;> rfl

theorem members_insert_self : (cache.insert key b).members key =
    if b ∈ cache.members key then cache.members key else cache.members key ++ [b] := by
  have hm : cache.members key = ids (cache.get? key) := rfl
  rw [insert,hm]
  cases Dict.get? cache key with
  | none => exact members_set_self
  | some c =>
    cases c with
    | block other =>
      refine members_set_self.trans ?_
      by_cases hb : other = b
      · simp [ids,hb]
      · simp [ids,hb,Ne.symm hb]
    | blocks bs => exact members_set_self

theorem members_insert_of_ne (hne : h ≠ key) : (cache.insert key b).members h = cache.members h := by
  rw [insert]
  split <;> exact members_set hne

theorem pop_fst : (cache.pop key b).1 = if b ∈ cache.members key then some b else none := by
  rw [pop,members]
  cases Dict.get? cache key with
  | none => rfl
  | some c =>
    cases c with
    | block other =>
      by_cases hb : other = b
      · simp [ids,hb]
      · simp [ids,hb,Ne.symm hb]
    | blocks bs => rfl

theorem members_pop_self : BlockHashToBlockMap.members (cache.pop key b).2 key =
    (cache.members key).erase b := by
  have hm : cache.members key = ids (cache.get? key) := rfl
  cases hget : Dict.get? cache key with
  | none => simp only [pop,hm,hget,ids,List.erase_nil]
  | some c =>
    cases c with
    | block other =>
      simp only [pop,hm,hget,ids]
      by_cases hb : other = b
      · rw [if_pos hb,members_erase_self,hb,List.erase_cons_head]
      · rw [if_neg hb,members_set_self]
        simp [ids,hb]
    | blocks bs =>
      simp only [pop,hm,hget,ids]
      by_cases hleft : bs.erase b = []
      · rw [if_pos hleft,members_erase_self,hleft]
      · rw [if_neg hleft,members_set_self,ids]

theorem members_pop_of_ne (hne : h ≠ key) :
    BlockHashToBlockMap.members (cache.pop key b).2 h = cache.members h := by
  rw [pop]
  split
  · rfl
  · split
    · exact members_erase hne
    · exact (members_set hne).trans (members_erase hne)
  · simp only
    split
    · exact members_erase hne
    · exact (members_set hne).trans (members_erase hne)

end BlockHashToBlockMap

namespace BlockPool
variable {H : Type} {p p' p'' : BlockPool H} {l : List Nat} {b : Nat}

/-- A block that requests can hold. -/
def IsBlock (p : BlockPool H) (b : Nat) : Prop := b < p.numGpuBlocks ∧ b ≠ p.nullBlock

/-- What the operations leave as it is. -/
structure Same (p p' : BlockPool H) : Prop where
  numGpuBlocks : p'.numGpuBlocks = p.numGpuBlocks
  enableCaching : p'.enableCaching = p.enableCaching
  nullBlock : p'.nullBlock = p.nullBlock

theorem Same.refl (p : BlockPool H) : Same p p := ⟨rfl,rfl,rfl⟩

theorem Same.isBlock (h : Same p p') : p'.IsBlock b ↔ p.IsBlock b := by
  rw [IsBlock,IsBlock,h.numGpuBlocks,h.nullBlock]

theorem Same.trans (h : Same p p') (h' : Same p' p'') : Same p p'' :=
  ⟨h'.numGpuBlocks.trans h.numGpuBlocks,h'.enableCaching.trans h.enableCaching,
    h'.nullBlock.trans h.nullBlock⟩

variable [DecidableEq H]

/-- The blocks under a hash. -/
def members (p : BlockPool H) (h : H) : List Nat := p.cachedBlockHashToBlock.members h

/-- The map and the blocks agree on the hashes. -/
structure Cached (p : BlockPool H) : Prop where
  iff : ∀ h b, b ∈ p.members h ↔ p.blockHash b = some h
  nodup : ∀ h, (p.members h).Nodup
  off : p.enableCaching = false → ∀ b, p.blockHash b = none

/-- The accounts of the pool, with the free blocks in their order. -/
structure Ok (p : BlockPool H) (l : List Nat) : Prop where
  lists : p.freeBlockQueue.Lists l
  size : p.freeBlockQueue.size = p.numGpuBlocks
  free : ∀ b, b ∈ l ↔ p.IsBlock b ∧ p.refCnt b = 0
  nonneg : ∀ b, 0 ≤ p.refCnt b
  cached : p.Cached

theorem Ok.numFreeBlocks (h : p.Ok l) : p.getNumFreeBlocks = l.length := h.lists.count

theorem init_spec {numGpuBlocks : Nat} (enableCaching : Bool) (hpos : 0 < numGpuBlocks) :
    Returns (init (H := H) numGpuBlocks enableCaching) fun p =>
      p.Ok (List.range' 1 (numGpuBlocks-1)) ∧ p.numGpuBlocks = numGpuBlocks ∧ p.nullBlock = 0 ∧
        p.enableCaching = enableCaching ∧ (∀ b, p.refCnt b = 0) ∧ ∀ b, p.blockHash b = none := by
  rw [init]
  refine (Returns.check_of hpos).bind fun _ _ => ?_
  have hlists := FreeKvCacheBlockQueue.lists_init numGpuBlocks
  obtain ⟨n,rfl⟩ : ∃ n, numGpuBlocks = n+1 := ⟨numGpuBlocks-1,by omega⟩
  rw [List.range_eq_range',List.range'_succ] at hlists
  refine hlists.popleft_spec.bind fun popped ⟨hnull,hl,hsize⟩ => ?_
  refine .ok ⟨⟨hl,hsize,fun b => ?_,fun _ => le_rfl,⟨fun h b => ?_,fun h => List.nodup_nil,
    fun _ _ => rfl⟩⟩,rfl,hnull,rfl,fun _ => rfl,fun _ => rfl⟩
  · rw [List.mem_range'_1,IsBlock]
    simp only [hnull,and_true]
    omega
  · exact iff_of_false List.not_mem_nil nofun

/-- A hit gives a block with the hash. -/
theorem Cached.getCachedBlock (hp : p.Cached) {h : H} (heq : p.getCachedBlock h = some b) :
    p.blockHash b = some h := by
  rw [BlockPool.getCachedBlock,BlockHashToBlockMap.getOneBlock_eq] at heq
  exact (hp.iff h b).mp (List.mem_of_head? heq)

/-- Evicting takes the hash from the block, and nothing else. -/
theorem Cached.evict (hp : p.Cached) (b : Nat) :
    (p.maybeEvictCachedBlock b).Cached ∧ Same p (p.maybeEvictCachedBlock b) ∧
    (p.maybeEvictCachedBlock b).blockHash = Function.update p.blockHash b none ∧
    (p.maybeEvictCachedBlock b).refCnt = p.refCnt ∧
    (p.maybeEvictCachedBlock b).freeBlockQueue = p.freeBlockQueue := by
  rw [maybeEvictCachedBlock]
  cases hb : p.blockHash b with
  | none =>
    have hupdate : Function.update p.blockHash b none = p.blockHash := by
      rw [← hb,Function.update_eq_self]
    exact ⟨hp,.refl p,hupdate.symm,rfl,rfl⟩
  | some h =>
    have hmem : b ∈ p.cachedBlockHashToBlock.members h := (hp.iff h b).mpr hb
    simp only [BlockHashToBlockMap.pop_fst,if_pos hmem]
    refine ⟨⟨fun h' c => ?_,fun h' => ?_,fun hoff c => ?_⟩,⟨rfl,rfl,rfl⟩,trivial,trivial,trivial⟩
    · simp only [Function.update_apply,members]
      by_cases hh : h' = h
      · subst hh
        have hnodup : (p.cachedBlockHashToBlock.members h').Nodup := hp.nodup h'
        simp only [BlockHashToBlockMap.members_pop_self,hnodup.mem_erase_iff]
        by_cases hc : c = b
        · simp [hc]
        · simp only [hc,ne_eq,not_false_iff,true_and,if_false]
          exact hp.iff h' c
      · simp only [BlockHashToBlockMap.members_pop_of_ne hh]
        refine (hp.iff h' c).trans ?_
        by_cases hc : c = b
        · simp [hc,hb,Ne.symm hh]
        · rw [if_neg hc]
    · rw [members]
      by_cases hh : h' = h
      · subst hh
        simp only [BlockHashToBlockMap.members_pop_self]
        exact (hp.nodup h').erase _
      · simp only [BlockHashToBlockMap.members_pop_of_ne hh]
        exact hp.nodup h'
    · rw [hp.off hoff b] at hb
      cases hb

/-- Caching a block gives it its hash, and nothing else. -/
theorem Cached.cacheBlock (hp : p.Cached) (hon : p.enableCaching) {h : H} (hb : b ≠ p.nullBlock)
    (hnone : p.blockHash b = none) : Returns (p.cacheBlock (b,h)) fun p' => p'.Cached ∧
      p' = { p with
        blockHash := Function.update p.blockHash b (some h)
        cachedBlockHashToBlock := p'.cachedBlockHashToBlock } := by
  rw [BlockPool.cacheBlock,if_neg hb]
  refine (Returns.check_of hnone).bind fun _ _ => .ok ⟨⟨fun h' c => ?_,fun h' => ?_,?_⟩,rfl⟩
  · simp only [Function.update_apply,members]
    have hout : ∀ k, b ∉ p.cachedBlockHashToBlock.members k := fun k hmem => by
      rw [(hp.iff k b).mp hmem] at hnone
      cases hnone
    by_cases hh : h' = h
    · subst hh
      simp only [BlockHashToBlockMap.members_insert_self,if_neg (hout h'),List.mem_append,
        List.mem_singleton]
      by_cases hc : c = b
      · simp [hc]
      · simp only [hc,or_false,if_false]
        exact hp.iff h' c
    · simp only [BlockHashToBlockMap.members_insert_of_ne hh]
      by_cases hc : c = b
      · simp [hc,hout,Ne.symm hh]
      · rw [if_neg hc]
        exact hp.iff h' c
  · rw [members]
    by_cases hh : h' = h
    · subst hh
      simp only [BlockHashToBlockMap.members_insert_self]
      split
      · exact hp.nodup h'
      · rename_i hout
        exact List.nodup_append_comm.mp (List.nodup_cons.mpr ⟨hout,hp.nodup h'⟩)
    · simp only [BlockHashToBlockMap.members_insert_of_ne hh]
      exact hp.nodup h'
  · intro hoff
    rw [hon] at hoff
    cases hoff

section Take

theorem Cached.takeBlock (hp : p.Cached) (hzero : p.refCnt b = 0) :
    Returns (p.takeBlock b) fun p' => p'.Cached ∧ Same p p' ∧
      p'.freeBlockQueue = p.freeBlockQueue ∧ p'.refCnt = Function.update p.refCnt b 1 ∧
      p'.blockHash = Function.update p.blockHash b none := by
  have hevicted : ∃ p₁, p₁ = (if p.enableCaching then p.maybeEvictCachedBlock b else p) ∧
      p₁.Cached ∧ Same p p₁ ∧ p₁.blockHash = Function.update p.blockHash b none ∧
      p₁.refCnt = p.refCnt ∧ p₁.freeBlockQueue = p.freeBlockQueue := by
    refine ⟨_,rfl,?_⟩
    by_cases hon : p.enableCaching
    · rw [if_pos hon]
      exact hp.evict b
    · rw [if_neg hon]
      have hnone := hp.off (Bool.not_eq_true _ ▸ hon) b
      exact ⟨hp,.refl p,by rw [← hnone,Function.update_eq_self],rfl,rfl⟩
  obtain ⟨p₁,heq,hcached,hsame,hhash,href,hqueue⟩ := hevicted
  rw [BlockPool.takeBlock]
  simp only [← heq]
  refine (Returns.check_of (by rw [href,hzero])).bind fun _ _ => ?_
  refine .ok ⟨⟨hcached.iff,hcached.nodup,hcached.off⟩,
    ⟨hsame.numGpuBlocks,hsame.enableCaching,hsame.nullBlock⟩,hqueue,?_,hhash⟩
  simp only [href,hzero,Int.zero_add]

theorem Cached.takeBlocks {blocks : List Nat} (hp : p.Cached) (hnodup : blocks.Nodup)
    (hzero : ∀ b ∈ blocks, p.refCnt b = 0) :
    Returns (blocks.foldlM BlockPool.takeBlock p) fun p' => p'.Cached ∧ Same p p' ∧
      p'.freeBlockQueue = p.freeBlockQueue ∧
      (∀ b, p'.refCnt b = if b ∈ blocks then 1 else p.refCnt b) ∧
      ∀ b, p'.blockHash b = if b ∈ blocks then none else p.blockHash b := by
  induction blocks generalizing p with
  | nil => exact .ok ⟨hp,.refl p,rfl,fun b => rfl,fun b => rfl⟩
  | cons a blocks ih =>
    obtain ⟨ha,hnodup⟩ := List.nodup_cons.mp hnodup
    rw [List.foldlM_cons]
    refine (hp.takeBlock (hzero a List.mem_cons_self)).bind fun p₁ ⟨hp₁,hsame,hqueue,href,hhash⟩ => ?_
    have hzero₁ : ∀ b ∈ blocks, p₁.refCnt b = 0 := fun b hb => by
      rw [href,Function.update_of_ne (ne_of_mem_of_not_mem hb ha)]
      exact hzero b (List.mem_cons_of_mem _ hb)
    refine (ih hp₁ hnodup hzero₁).mono fun p' ⟨hp',hsame',hqueue',href',hhash'⟩ =>
      ⟨hp',hsame.trans hsame',hqueue'.trans hqueue,fun b => ?_,fun b => ?_⟩
    · rw [href',href,Function.update_apply]
      by_cases hb : b = a <;> by_cases hmem : b ∈ blocks <;> simp [hb,hmem]
    · rw [hhash',hhash,Function.update_apply]
      by_cases hb : b = a <;> by_cases hmem : b ∈ blocks <;> simp [hb,hmem]

/-- New blocks are the first free ones, with one reference and without a hash. -/
theorem Ok.getNewBlocks (h : p.Ok l) {n : Nat} (hn : n ≤ l.length) :
    Returns (p.getNewBlocks n) fun out => out.1 = l.take n ∧ out.2.Ok (l.drop n) ∧ Same p out.2 ∧
      (∀ b, out.2.refCnt b = if b ∈ l.take n then 1 else p.refCnt b) ∧
      ∀ b, out.2.blockHash b = if b ∈ l.take n then none else p.blockHash b := by
  rw [BlockPool.getNewBlocks,if_neg (by rw [h.numFreeBlocks]; omega)]
  refine (h.lists.popleftN_spec hn).bind fun popped ⟨hblocks,hl,hsize⟩ => ?_
  have hnodup : (l.take n).Nodup := h.lists.nodup.sublist (List.take_sublist _ _)
  have hcached : ({ p with freeBlockQueue := popped.2 } : BlockPool H).Cached :=
    ⟨h.cached.iff,h.cached.nodup,h.cached.off⟩
  refine (hcached.takeBlocks (hblocks ▸ hnodup) fun b hb => ?_).bind
    fun p' ⟨hp',hsame,hqueue,href,hhash⟩ => ?_
  · rw [hblocks] at hb
    exact ((h.free b).mp (List.mem_of_mem_take hb)).2
  · rw [hblocks] at href hhash
    have hsame' : Same p p' := ⟨hsame.numGpuBlocks,hsame.enableCaching,hsame.nullBlock⟩
    refine .ok ⟨hblocks,⟨hqueue ▸ hl,?_,fun b => ?_,fun b => ?_,hp'⟩,hsame',href,hhash⟩
    · rw [hqueue,hsame.numGpuBlocks]
      exact hsize.trans h.size
    · have hdisjoint := List.disjoint_take_drop h.lists.nodup (le_refl n)
      rw [hsame'.isBlock,href]
      by_cases hb : b ∈ l.take n
      · rw [if_pos hb]
        exact iff_of_false (fun hd => hdisjoint hb hd) (by simp)
      · rw [if_neg hb,← h.free]
        have hsplit : b ∈ l.take n ++ l.drop n ↔ _ := List.mem_append
        rw [List.take_append_drop] at hsplit
        exact ((or_iff_right hb).symm.trans hsplit.symm)
    · rw [href]
      split
      · exact Int.one_nonneg
      · exact h.nonneg b

end Take

section Cache

/-- Full blocks get their hashes, and nothing else changes. -/
theorem Cached.cacheBlocks {xs : List (Nat × H)} (hp : p.Cached) (hon : p.enableCaching)
    (hnodup : (xs.map Prod.fst).Nodup)
    (hnew : ∀ x ∈ xs, x.1 ≠ p.nullBlock ∧ p.blockHash x.1 = none) :
    Returns (xs.foldlM BlockPool.cacheBlock p) fun p' => p'.Cached ∧ Same p p' ∧
      p'.freeBlockQueue = p.freeBlockQueue ∧ p'.refCnt = p.refCnt ∧
      (∀ x ∈ xs, p'.blockHash x.1 = some x.2) ∧
      ∀ b, b ∉ xs.map Prod.fst → p'.blockHash b = p.blockHash b := by
  induction xs generalizing p with
  | nil => exact .ok ⟨hp,.refl p,rfl,rfl,by simp,fun b _ => rfl⟩
  | cons a xs ih =>
    obtain ⟨ha,hnodup⟩ := List.nodup_cons.mp hnodup
    obtain ⟨hnull,hnone⟩ := hnew a List.mem_cons_self
    rw [List.foldlM_cons]
    refine (hp.cacheBlock hon hnull hnone).bind fun p₁ ⟨hp₁,heq⟩ => ?_
    have hsame : Same p p₁ := by
      rw [heq]
      exact ⟨rfl,rfl,rfl⟩
    have hhash : p₁.blockHash = Function.update p.blockHash a.1 (some a.2) := by rw [heq]
    have hqueue : p₁.freeBlockQueue = p.freeBlockQueue := by rw [heq]
    have href : p₁.refCnt = p.refCnt := by rw [heq]
    have hnew₁ : ∀ x ∈ xs, x.1 ≠ p₁.nullBlock ∧ p₁.blockHash x.1 = none := fun x hx => by
      have hne : x.1 ≠ a.1 := fun h => ha (h ▸ List.mem_map_of_mem hx)
      rw [hsame.nullBlock,hhash,Function.update_of_ne hne]
      exact hnew x (List.mem_cons_of_mem _ hx)
    refine (ih hp₁ (hsame.enableCaching ▸ hon) hnodup hnew₁).mono
      fun p' ⟨hp',hsame',hqueue',href',hset,hkeep⟩ => ⟨hp',hsame.trans hsame',
        hqueue'.trans hqueue,href'.trans href,fun x hx => ?_,fun b hb => ?_⟩
    · rcases List.mem_cons.mp hx with rfl | hx
      · rw [hkeep _ ha,hhash,Function.update_self]
      · exact hset x hx
    · rw [List.map_cons,List.mem_cons,not_or] at hb
      rw [hkeep b hb.2,hhash,Function.update_of_ne hb.1]

theorem Ok.of_cached (h : p.Ok l) (hcached : p'.Cached) (hsame : Same p p')
    (hqueue : p'.freeBlockQueue = p.freeBlockQueue) (href : p'.refCnt = p.refCnt) : p'.Ok l := by
  refine ⟨hqueue ▸ h.lists,?_,fun b => ?_,fun b => href ▸ h.nonneg b,hcached⟩
  · rw [hqueue,hsame.numGpuBlocks]
    exact h.size
  · rw [hsame.isBlock,href]
    exact h.free b

theorem Ok.resetPrefixCache (h : p.Ok l) : p.resetPrefixCache.2.Ok l ∧ Same p p.resetPrefixCache.2 ∧
    p.resetPrefixCache.2.refCnt = p.refCnt ∧
    (p.resetPrefixCache.1 = false ∧ p.resetPrefixCache.2 = p ∨
      p.resetPrefixCache.1 = true ∧ l.length+1 = p.numGpuBlocks ∧
        ∀ b, p.resetPrefixCache.2.blockHash b = none) := by
  rw [BlockPool.resetPrefixCache]
  simp only [h.numFreeBlocks]
  split
  · exact ⟨h,.refl p,rfl,.inl ⟨rfl,rfl⟩⟩
  · rename_i hused
    refine ⟨⟨h.lists,h.size,h.free,h.nonneg,⟨fun k b => ?_,fun k => List.nodup_nil,fun _ _ => rfl⟩⟩,
      ⟨rfl,rfl,rfl⟩,rfl,.inr ⟨rfl,by omega,fun _ => rfl⟩⟩
    exact iff_of_false List.not_mem_nil nofun

end Cache

section Share

theorem Ok.touchBlock (h : p.Ok l) (hb : p.IsBlock b) :
    Returns (p.touchBlock b) fun p' => p'.Ok (l.erase b) ∧ Same p p' ∧
      p'.refCnt = Function.update p.refCnt b (p.refCnt b+1) ∧ p'.blockHash = p.blockHash := by
  have hqueue : Returns (if p.refCnt b = 0 ∧ b ≠ p.nullBlock then p.freeBlockQueue.remove b
      else .ok p.freeBlockQueue) fun q => q.Lists (l.erase b) ∧ q.size = p.freeBlockQueue.size := by
    by_cases hzero : p.refCnt b = 0
    · rw [if_pos ⟨hzero,hb.2⟩]
      exact h.lists.remove_spec ((h.free b).mpr ⟨hb,hzero⟩)
    · rw [if_neg fun h => hzero h.1,List.erase_of_not_mem fun hmem => hzero ((h.free b).mp hmem).2]
      exact .ok ⟨h.lists,rfl⟩
  rw [BlockPool.touchBlock]
  refine hqueue.bind fun q ⟨hq,hsize⟩ => .ok ⟨⟨hq,hsize.trans h.size,fun c => ?_,fun c => ?_,
    ⟨h.cached.iff,h.cached.nodup,h.cached.off⟩⟩,⟨rfl,rfl,rfl⟩,rfl,rfl⟩
  · simp only [h.lists.nodup.mem_erase_iff,Function.update_apply,h.free c]
    have hpos := h.nonneg b
    by_cases hc : c = b
    · subst hc
      simp only [ne_eq,not_true,false_and,if_true,false_iff,not_and]
      omega
    · simp only [ne_eq,hc,not_false_iff,true_and,if_false]
      rfl
  · have hpos := h.nonneg b
    simp only [Function.update_apply]
    split
    · omega
    · exact h.nonneg c

theorem Ok.touch {blocks : List Nat} (h : p.Ok l) (hblocks : ∀ b ∈ blocks, p.IsBlock b) :
    Returns (p.touch blocks) fun p' => p'.Ok (l.diff blocks) ∧ Same p p' ∧
      (∀ b, p'.refCnt b = p.refCnt b+blocks.count b) ∧ p'.blockHash = p.blockHash := by
  rw [BlockPool.touch]
  induction blocks generalizing p l with
  | nil => exact .ok ⟨h,.refl p,fun b => by simp,rfl⟩
  | cons a blocks ih =>
    rw [List.foldlM_cons]
    refine (h.touchBlock (hblocks a List.mem_cons_self)).bind fun p₁ ⟨h₁,hsame,href,hhash⟩ => ?_
    refine (ih h₁ fun b hb => hsame.isBlock.mpr (hblocks b (List.mem_cons_of_mem _ hb))).mono
      fun p' ⟨h',hsame',href',hhash'⟩ => ⟨?_,hsame.trans hsame',fun b => ?_,hhash'.trans hhash⟩
    · rw [List.diff_cons]
      exact h'
    · rw [href',href,Function.update_apply,List.count_cons]
      by_cases hb : b = a
      · simp only [hb,beq_self_eq_true,if_true]
        push_cast
        omega
      · simp [hb,Ne.symm hb]

/-- What leaves the free blocks is counted beforehand. -/
theorem length_le_diff (l blocks : List Nat) :
    l.length ≤ (l.diff blocks).length+blocks.countP (· ∈ l) := by
  induction blocks generalizing l with
  | nil => simp
  | cons a blocks ih =>
    rw [List.diff_cons,List.countP_cons]
    have hle := ih (l.erase a)
    have hmono : blocks.countP (· ∈ l.erase a) ≤ blocks.countP (· ∈ l) :=
      List.countP_mono_left fun b _ hb => by
        simp only [decide_eq_true_eq] at hb ⊢
        exact List.mem_of_mem_erase hb
    by_cases ha : a ∈ l
    · have hlen := List.length_erase_of_mem ha
      simp only [ha,decide_true,if_true]
      omega
    · rw [List.erase_of_not_mem ha] at hle ⊢
      simp only [ha,decide_false]
      omega

theorem release_apply (refCnt : Nat → Int) {blocks : List Nat} (hnodup : blocks.Nodup) (b : Nat) :
    release refCnt blocks b = if b ∈ blocks then refCnt b-1 else refCnt b := by
  rw [release]
  induction blocks generalizing refCnt with
  | nil => rfl
  | cons a blocks ih =>
    obtain ⟨ha,hnodup⟩ := List.nodup_cons.mp hnodup
    rw [List.foldl_cons,ih _ hnodup,Function.update_apply]
    by_cases hb : b = a
    · subst hb
      simp [ha]
    · simp [hb]

/-- Blocks that nobody refers to any more become free, in the order given. -/
theorem Ok.freeBlocks {blocks : List Nat} (h : p.Ok l) (hnodup : blocks.Nodup)
    (hheld : ∀ b ∈ blocks, p.IsBlock b ∧ 0 < p.refCnt b) :
    Returns (p.freeBlocks blocks) fun p' =>
      p'.Ok (l ++ blocks.filter fun b => p.refCnt b = 1) ∧ Same p p' ∧
      (∀ b, p'.refCnt b = if b ∈ blocks then p.refCnt b-1 else p.refCnt b) ∧
      p'.blockHash = p.blockHash := by
  have hfilter : (blocks.filter fun b => release p.refCnt blocks b = 0 ∧ b ≠ p.nullBlock) =
      blocks.filter fun b => p.refCnt b = 1 := by
    refine List.filter_congr fun b hb => ?_
    rw [release_apply _ hnodup,if_pos hb,decide_eq_decide]
    have := (hheld b hb).1.2
    constructor
    · rintro ⟨hzero,-⟩
      omega
    · exact fun hone => ⟨by omega,this⟩
  have hout : ∀ b ∈ blocks, b ∉ l := fun b hb hmem =>
    absurd ((h.free b).mp hmem).2 (hheld b hb).2.ne'
  rw [BlockPool.freeBlocks]
  simp only [hfilter]
  refine (h.lists.appendN_spec (fun b hb => ?_) ?_).bind fun q ⟨hq,hsize⟩ => ?_
  · rw [h.size]
    exact (hheld b (List.mem_filter.mp hb).1).1.1
  · refine List.nodup_append.mpr ⟨h.lists.nodup,hnodup.filter _,fun a ha b hb => ?_⟩
    rintro rfl
    exact hout a (List.mem_filter.mp hb).1 ha
  · refine .ok ⟨⟨hq,hsize.trans h.size,fun b => ?_,fun b => ?_,
      ⟨h.cached.iff,h.cached.nodup,h.cached.off⟩⟩,⟨rfl,rfl,rfl⟩,release_apply _ hnodup,rfl⟩
    · simp only [release_apply _ hnodup,List.mem_append,List.mem_filter,decide_eq_true_eq]
      by_cases hb : b ∈ blocks
      · simp only [hb,true_and,if_true,hout b hb,false_or]
        have hblock := (hheld b hb).1
        change p.refCnt b = 1 ↔ p.IsBlock b ∧ p.refCnt b-1 = 0
        constructor
        · exact fun hone => ⟨hblock,by omega⟩
        · rintro ⟨-,hzero⟩
          omega
      · simp only [hb,false_and,or_false,if_false]
        exact h.free b
    · simp only [release_apply _ hnodup]
      split
      · rename_i hb
        have := (hheld b hb).2
        omega
      · exact h.nonneg b

end Share
end BlockPool
end TLiveOmni.Kv
