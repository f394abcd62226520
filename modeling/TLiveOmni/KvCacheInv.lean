import TLiveOmni.BlockPoolInv
import TLiveOmni.KvCacheManager
import TLiveOmni.SchedulerStep

/-! What every operation keeps of the KV cache: as many requests hold a block as refer to it, the
cached blocks of a request have its hashes, and the others are its own. -/
set_option autoImplicit false

namespace TLiveOmni.Kv
open Sched (Fault)

namespace KvCacheManager
variable {H : Type} {m m' : KvCacheManager H}

/-- As many requests hold the block as refer to it. -/
def Held (m : KvCacheManager H) (b : Nat) : Prop :=
  ∃ ids : Finset String, (∀ id, id ∈ ids ↔ b ∈ m.blocksOf id) ∧ m.blockPool.refCnt b = ids.card

theorem Held.pos {b : Nat} (h : m.Held b) {id : String} (hb : b ∈ m.blocksOf id) :
    0 < m.blockPool.refCnt b := by
  obtain ⟨ids,hids,hcard⟩ := h
  rw [hcard]
  exact_mod_cast Finset.card_pos.mpr ⟨id,(hids id).mpr hb⟩

theorem Held.zero_iff {b : Nat} (h : m.Held b) :
    m.blockPool.refCnt b = 0 ↔ ∀ id, b ∉ m.blocksOf id := by
  constructor
  · exact fun hzero id hb => (h.pos hb).ne' hzero
  · intro hnone
    obtain ⟨ids,hids,hcard⟩ := h
    have hempty : ids = ∅ := Finset.eq_empty_of_forall_notMem fun id hid =>
      hnone id ((hids id).mp hid)
    rw [hcard,hempty]
    rfl

theorem Held.congr {b : Nat} (h : m.Held b) (hof : ∀ id, b ∈ m'.blocksOf id ↔ b ∈ m.blocksOf id)
    (href : m'.blockPool.refCnt b = m.blockPool.refCnt b) : m'.Held b := by
  obtain ⟨ids,hids,hcard⟩ := h
  exact ⟨ids,fun id => (hids id).trans (hof id).symm,href.trans hcard⟩

/-- One more request holds the block. -/
theorem Held.take {b : Nat} (h : m.Held b) {requestId : String} (hout : b ∉ m.blocksOf requestId)
    (hof : ∀ id, b ∈ m'.blocksOf id ↔ id = requestId ∨ b ∈ m.blocksOf id)
    (href : m'.blockPool.refCnt b = m.blockPool.refCnt b+1) : m'.Held b := by
  obtain ⟨ids,hids,hcard⟩ := h
  refine ⟨insert requestId ids,fun id => ?_,?_⟩
  · rw [Finset.mem_insert,hof,hids]
  · rw [href,hcard,Finset.card_insert_of_notMem (mt (hids requestId).mp hout)]
    rfl

/-- One request less holds the block. -/
theorem Held.release {b : Nat} (h : m.Held b) {requestId : String} (hb : b ∈ m.blocksOf requestId)
    (hof : ∀ id, b ∈ m'.blocksOf id ↔ id ≠ requestId ∧ b ∈ m.blocksOf id)
    (href : m'.blockPool.refCnt b = m.blockPool.refCnt b-1) : m'.Held b := by
  obtain ⟨ids,hids,hcard⟩ := h
  have hmem := (hids requestId).mpr hb
  have hpos := Finset.card_pos.mpr ⟨_,hmem⟩
  refine ⟨ids.erase requestId,fun id => ?_,?_⟩
  · rw [Finset.mem_erase,hof,hids]
  · rw [href,hcard,Finset.card_erase_of_mem hmem]
    omega

section Tables
variable (m) (pool : BlockPool H) (requestId id : String)

theorem blocksOf_set (blocks : List Nat) (counts : Dict String Nat) :
    blocksOf ⟨pool,m.reqToBlocks.set requestId blocks,counts⟩ id =
      if id = requestId then blocks else m.blocksOf id := by
  rw [blocksOf,Dict.get?_set]
  split <;> rfl

theorem blocksOf_erase (counts : Dict String Nat) :
    blocksOf ⟨pool,m.reqToBlocks.erase requestId,counts⟩ id =
      if id = requestId then [] else m.blocksOf id := by
  rw [blocksOf,Dict.get?_erase]
  split <;> rfl

theorem numCached_set (tables : Dict String (List Nat)) (n : Nat) :
    numCached ⟨pool,tables,m.numCachedBlock.set requestId n⟩ id =
      if id = requestId then n else m.numCached id := by
  rw [numCached,Dict.get?_set]
  split <;> rfl

theorem numCached_erase (tables : Dict String (List Nat)) :
    numCached ⟨pool,tables,m.numCachedBlock.erase requestId⟩ id =
      if id = requestId then 0 else m.numCached id := by
  rw [numCached,Dict.get?_erase]
  split <;> rfl

end Tables

variable [DecidableEq H] {blockSize maxModelLen : Nat} {hashes : String → List H}
  {requestId : String} {l : List Nat}

/-- The cached blocks of a request have its hashes, and the others are its own. -/
structure Ok (m : KvCacheManager H) (hashes : String → List H) (l : List Nat) : Prop where
  pool : m.blockPool.Ok l
  null : m.blockPool.nullBlock < m.blockPool.numGpuBlocks
  hashed : ∀ b h, m.blockPool.blockHash b = some h → m.blockPool.IsBlock b
  nodup : ∀ id, (m.blocksOf id).Nodup
  isBlock : ∀ id, ∀ b ∈ m.blocksOf id, m.blockPool.IsBlock b
  held : ∀ b, m.Held b
  started : ∀ id, id ∈ m.numCachedBlock → m.blocksOf id ≠ []
  cachedLe : ∀ id, m.numCached id ≤ (m.blocksOf id).length
  cached : ∀ id i b, i < m.numCached id → (m.blocksOf id)[i]? = some b →
    ∃ h, m.blockPool.blockHash b = some h ∧ (hashes id)[i]? = some h
  fresh : ∀ id i b, m.numCached id ≤ i → (m.blocksOf id)[i]? = some b →
    m.blockPool.blockHash b = none ∧ ∀ id', b ∈ m.blocksOf id' → id' = id

/-- A block that somebody holds is not free. -/
theorem Ok.not_free (h : m.Ok hashes l) {id : String} {b : Nat} (hb : b ∈ m.blocksOf id) : b ∉ l :=
  fun hmem => ((h.held b).pos hb).ne' ((h.pool.free b).mp hmem).2

/-- Only hashed blocks are shared. -/
theorem Ok.shared (h : m.Ok hashes l) {id id' : String} {b i j : Nat} (hne : id ≠ id')
    (hi : (m.blocksOf id)[i]? = some b) (hj : (m.blocksOf id')[j]? = some b) :
    ∃ k, (hashes id)[i]? = some k ∧ (hashes id')[j]? = some k := by
  have hlt : ∀ {id id' : String} {i : Nat}, id ≠ id' → (m.blocksOf id)[i]? = some b →
      b ∈ m.blocksOf id' → i < m.numCached id := fun hne hi hmem =>
    not_le.mp fun hle => hne ((h.fresh _ _ b hle hi).2 _ hmem).symm
  obtain ⟨k,hk,hik⟩ := h.cached id i b (hlt hne hi (List.mem_of_getElem? hj)) hi
  obtain ⟨k',hk',hjk⟩ := h.cached id' j b (hlt hne.symm hj (List.mem_of_getElem? hi)) hj
  rw [hk,Option.some.injEq] at hk'
  exact ⟨k,hik,hk' ▸ hjk⟩

/-- More hashes for a request change nothing. -/
theorem Ok.mono {hashes' : String → List H} (h : m.Ok hashes l)
    (hgrow : ∀ (id : String) (i : Nat) (k : H), m.blocksOf id ≠ [] → (hashes id)[i]? = some k →
      (hashes' id)[i]? = some k) :
    m.Ok hashes' l :=
  { h with
    cached := fun id i b hi hb => by
      obtain ⟨k,hk,hik⟩ := h.cached id i b hi hb
      exact ⟨k,hk,hgrow id i k (List.ne_nil_of_mem (List.mem_of_getElem? hb)) hik⟩ }

section Hits

theorem length_findLongestCacheHit_le (p : BlockPool H) (ks : List H) :
    (findLongestCacheHit p ks).length ≤ ks.length := by
  induction ks with
  | nil => exact le_rfl
  | cons k ks ih =>
    rw [findLongestCacheHit]
    split
    · exact Nat.succ_le_succ ih
    · exact Nat.zero_le _

theorem getElem?_findLongestCacheHit {p : BlockPool H} (hp : p.Cached) {ks : List H} {i b : Nat}
    (hb : (findLongestCacheHit p ks)[i]? = some b) :
    ∃ k, p.blockHash b = some k ∧ ks[i]? = some k := by
  induction ks generalizing i with
  | nil => simp [findLongestCacheHit] at hb
  | cons k ks ih =>
    rw [findLongestCacheHit] at hb
    cases hget : p.getCachedBlock k with
    | none => simp [hget] at hb
    | some a =>
      rw [hget] at hb
      cases i with
      | zero =>
        cases hb
        exact ⟨k,hp.getCachedBlock hget,rfl⟩
      | succ i => exact ih hb

omit [DecidableEq H] in
/-- Blocks with different hashes are different. -/
theorem nodup_of_hashes {p : BlockPool H} {ks : List H} {hits : List Nat} (hks : ks.Nodup)
    (hhits : ∀ (i b : Nat), hits[i]? = some b → ∃ k, p.blockHash b = some k ∧ ks[i]? = some k) :
    hits.Nodup := by
  refine List.nodup_iff_getElem?_ne_getElem?.mpr fun i j hij hj heq => ?_
  obtain ⟨b,hjb⟩ : ∃ b, hits[j]? = some b := ⟨_,List.getElem?_eq_getElem hj⟩
  obtain ⟨k,hk,hik⟩ := hhits i b (heq.trans hjb)
  obtain ⟨k',hk',hjk⟩ := hhits j b hjb
  rw [hk,Option.some.injEq] at hk'
  subst hk'
  have hi := (List.getElem?_eq_some_iff.mp hik).1
  exact hij.ne ((List.getElem?_inj hi hks).mp (hik.trans hjk.symm))

/-- A new request gets the blocks of its hits. -/
theorem Ok.allocateNewComputedBlocks (h : m.Ok hashes l) (hempty : m.blocksOf requestId = [])
    {hits : List Nat} (hne : hits ≠ []) (hon : m.blockPool.enableCaching) (hnodup : hits.Nodup)
    (hhits : ∀ (i b : Nat), hits[i]? = some b →
      ∃ k, m.blockPool.blockHash b = some k ∧ (hashes requestId)[i]? = some k) :
    Returns (m.allocateNewComputedBlocks requestId hits) fun m' => m'.Ok hashes (l.diff hits) ∧
      BlockPool.Same m.blockPool m'.blockPool ∧
      m'.blockPool.blockHash = m.blockPool.blockHash ∧
      ∀ id, m'.blocksOf id = if id = requestId then hits else m.blocksOf id := by
  have hout : requestId ∉ m.numCachedBlock := fun hmem => h.started requestId hmem hempty
  have hblocks : ∀ b ∈ hits, m.blockPool.IsBlock b := fun b hb => by
    obtain ⟨i,hi⟩ := List.mem_iff_getElem?.mp hb
    obtain ⟨k,hk,-⟩ := hhits i b hi
    exact h.hashed b k hk
  rw [KvCacheManager.allocateNewComputedBlocks,if_neg hout]
  refine (Returns.check_of hempty).bind fun _ _ => (Returns.check_of (.inl hon)).bind fun _ _ => ?_
  refine (h.pool.touch hblocks).bind fun pool ⟨hpool,hsame,href,hhash⟩ => ?_
  obtain ⟨m',hm'⟩ : ∃ m', m' = (⟨pool,m.reqToBlocks.set requestId hits,
    m.numCachedBlock.set requestId hits.length⟩ : KvCacheManager H) := ⟨_,rfl⟩
  have hof : ∀ id, m'.blocksOf id = if id = requestId then hits else m.blocksOf id := fun id =>
    hm' ▸ blocksOf_set m pool requestId id hits _
  have hnum : ∀ id, m'.numCached id = if id = requestId then hits.length else m.numCached id :=
    fun id => hm' ▸ numCached_set m pool requestId id _ hits.length
  obtain rfl : m'.blockPool = pool := by rw [hm']
  refine .ok (hm' ▸ ⟨⟨hpool,?_,fun b k hk => ?_,fun id => ?_,fun id b hb => ?_,fun b => ?_,
    fun id hid => ?_,fun id => ?_,fun id i b hi hb => ?_,fun id i b hi hb => ?_⟩,hsame,hhash,hof⟩)
  · rw [hsame.nullBlock,hsame.numGpuBlocks]
    exact h.null
  · exact hsame.isBlock.mpr (h.hashed b k (hhash ▸ hk))
  · rw [hof]
    split
    · exact hnodup
    · exact h.nodup id
  · rw [hof] at hb
    refine hsame.isBlock.mpr ?_
    split at hb
    · exact hblocks b hb
    · exact h.isBlock id b hb
  · by_cases hb : b ∈ hits
    · refine (h.held b).take (by rw [hempty]; exact List.not_mem_nil) (fun id => ?_) ?_
      · rw [hof]
        by_cases hid : id = requestId <;> simp [hid,hb]
      · rw [href,List.count_eq_one_of_mem hnodup hb]
        rfl
    · refine (h.held b).congr (fun id => ?_) ?_
      · rw [hof]
        by_cases hid : id = requestId <;> simp [hid,hb,hempty]
      · rw [href,List.count_eq_zero_of_not_mem hb]
        exact Int.add_zero _
  · rw [hof]
    split
    · exact hne
    · rename_i hid'
      rw [hm',Dict.mem_set] at hid
      exact h.started id (hid.resolve_left hid')
  · rw [hof,hnum]
    split
    · exact le_rfl
    · exact h.cachedLe id
  · rw [hnum] at hi
    rw [hof] at hb
    rw [hhash]
    by_cases hid : id = requestId
    · rw [if_pos hid] at hb
      exact hid ▸ hhits i b hb
    · rw [if_neg hid] at hi hb
      exact h.cached id i b hi hb
  · rw [hnum] at hi
    rw [hof] at hb
    by_cases hid : id = requestId
    · rw [if_pos hid] at hi hb
      rw [List.getElem?_eq_none hi] at hb
      cases hb
    · rw [if_neg hid] at hi hb
      obtain ⟨hnone,honly⟩ := h.fresh id i b hi hb
      refine ⟨hhash ▸ hnone,fun id' hb' => ?_⟩
      rw [hof] at hb'
      by_cases hid' : id' = requestId
      · rw [if_pos hid'] at hb'
        obtain ⟨j,hj⟩ := List.mem_iff_getElem?.mp hb'
        obtain ⟨k,hk,-⟩ := hhits j b hj
        rw [hnone] at hk
        cases hk
      · rw [if_neg hid'] at hb'
        exact honly id' hb'

end Hits

section Slots

/-- New blocks, if any are needed. -/
theorem Ok.newBlocks (h : m.Ok hashes l) {n : Nat} (hroom : n ≤ l.length) :
    Returns (if n = 0 then .ok ([],m.blockPool) else m.blockPool.getNewBlocks n)
      fun out : List Nat × BlockPool H => out.1 = l.take n ∧ out.2.Ok (l.drop n) ∧
        BlockPool.Same m.blockPool out.2 ∧
        (∀ b, out.2.refCnt b = if b ∈ l.take n then 1 else m.blockPool.refCnt b) ∧
        ∀ b, out.2.blockHash b = if b ∈ l.take n then none else m.blockPool.blockHash b := by
  by_cases hzero : n = 0
  · rw [if_pos hzero,hzero]
    exact .ok ⟨rfl,h.pool,.refl _,fun b => rfl,fun b => rfl⟩
  · rw [if_neg hzero]
    exact h.pool.getNewBlocks hroom

/-- A request gets the first free blocks, which nobody else has. -/
theorem Ok.allocateNewBlocks (h : m.Ok hashes l) (blockSize : Nat) (requestId : String)
    (numTokens : Nat)
    (hroom : (numTokens+(blockSize-1))/blockSize-(m.blocksOf requestId).length ≤ l.length) :
    Returns (m.allocateNewBlocks blockSize requestId numTokens) fun out =>
      (∃ l', out.2.Ok hashes l') ∧ BlockPool.Same m.blockPool out.2.blockPool ∧
      (∀ b k, out.2.blockPool.blockHash b = some k → m.blockPool.blockHash b = some k) ∧
      (numTokens+(blockSize-1))/blockSize ≤ (out.2.blocksOf requestId).length ∧
      ∀ id, out.2.blocksOf id =
        if id = requestId then m.blocksOf requestId ++ out.1 else m.blocksOf id := by
  rw [KvCacheManager.allocateNewBlocks]
  generalize hn : (numTokens+(blockSize-1))/blockSize-(m.blocksOf requestId).length = n at hroom
  refine (h.newBlocks hroom).bind fun ⟨new,pool⟩ ⟨hblocks,hpool,hsame,href,hhash⟩ => ?_
  simp only at hblocks hpool hsame href hhash
  subst hblocks
  have hfree : ∀ b ∈ l.take n, m.blockPool.IsBlock b ∧ ∀ id, b ∉ m.blocksOf id := fun b hb => by
    obtain ⟨hblock,hzero⟩ := (h.pool.free b).mp (List.mem_of_mem_take hb)
    exact ⟨hblock,(h.held b).zero_iff.mp hzero⟩
  obtain ⟨m',hm'⟩ : ∃ m', m' = ({ m with
    blockPool := pool
    reqToBlocks := m.reqToBlocks.set requestId (m.blocksOf requestId ++ l.take n) } :
      KvCacheManager H) := ⟨_,rfl⟩
  have hof : ∀ id, m'.blocksOf id =
      if id = requestId then m.blocksOf requestId ++ l.take n else m.blocksOf id := fun id =>
    hm' ▸ blocksOf_set m pool requestId id _ _
  have hnum : ∀ id, m'.numCached id = m.numCached id := fun id => by rw [hm']; rfl
  obtain rfl : m'.blockPool = pool := by rw [hm']
  have hkeep : ∀ {id b}, b ∈ m.blocksOf id → m'.blockPool.blockHash b = m.blockPool.blockHash b :=
    fun {id b} hb => by rw [hhash,if_neg fun hmem => (hfree b hmem).2 id hb]
  have hsub : ∀ {id b}, b ∈ m'.blocksOf id → b ∉ l.take n → b ∈ m.blocksOf id :=
    fun {id b} hb hout => by
      rw [hof] at hb
      split at hb
      · rename_i hid
        exact hid ▸ (List.mem_append.mp hb).resolve_right hout
      · exact hb
  refine .ok (hm' ▸ ⟨⟨l.drop n,⟨hpool,?_,fun b k hk => ?_,fun id => ?_,fun id b hb => ?_,fun b => ?_,
    fun id hid => ?_,fun id => ?_,fun id i b hi hb => ?_,fun id i b hi hb => ?_⟩⟩,hsame,
    fun b k hk => ?_,?_,hof⟩)
  · rw [hsame.nullBlock,hsame.numGpuBlocks]
    exact h.null
  · rw [hhash] at hk
    split at hk
    · cases hk
    · exact hsame.isBlock.mpr (h.hashed b k hk)
  · rw [hof]
    split
    · refine List.nodup_append.mpr ⟨h.nodup _,h.pool.lists.nodup.sublist (List.take_sublist _ _),
        fun a ha b hb => ?_⟩
      rintro rfl
      exact (hfree a hb).2 _ ha
    · exact h.nodup id
  · refine hsame.isBlock.mpr ?_
    by_cases hmem : b ∈ l.take n
    · exact (hfree b hmem).1
    · exact h.isBlock id b (hsub hb hmem)
  · by_cases hmem : b ∈ l.take n
    · refine (h.held b).take ((hfree b hmem).2 requestId) (fun id => ?_) ?_
      · rw [hof]
        by_cases hid : id = requestId <;> simp [hid,hmem]
      · rw [href,if_pos hmem,(h.held b).zero_iff.mpr (hfree b hmem).2]
        rfl
    · refine (h.held b).congr (fun id => ?_) (by rw [href,if_neg hmem])
      rw [hof]
      by_cases hid : id = requestId <;> simp [hid,hmem]
  · rw [hof]
    have hne := h.started id (by rw [hm'] at hid; exact hid)
    split
    · rename_i heq
      exact fun hnil => hne (heq ▸ (List.append_eq_nil_iff.mp hnil).1)
    · exact hne
  · rw [hof,hnum]
    have hle := h.cachedLe id
    split
    · rename_i heq
      rw [List.length_append,← heq]
      omega
    · exact hle
  · rw [hnum] at hi
    have hold : (m.blocksOf id)[i]? = some b := by
      rw [hof] at hb
      split at hb
      · rename_i heq
        rwa [← heq,List.getElem?_append_left (hi.trans_le (h.cachedLe id))] at hb
      · exact hb
    rw [hkeep (List.mem_of_getElem? hold)]
    exact h.cached id i b hi hold
  · rw [hnum] at hi
    by_cases hmem : b ∈ l.take n
    · refine ⟨by rw [hhash,if_pos hmem],fun id' hb' => ?_⟩
      have hown : ∀ id, b ∈ m'.blocksOf id → id = requestId := fun id hb => by
        by_contra hid
        rw [hof,if_neg hid] at hb
        exact (hfree b hmem).2 id hb
      rw [hown id' hb',hown id (List.mem_of_getElem? hb)]
    · have hold : (m.blocksOf id)[i]? = some b := by
        rw [hof] at hb
        split at hb
        · rename_i heq
          rw [List.getElem?_append] at hb
          split at hb
          · exact heq ▸ hb
          · exact absurd (List.mem_of_getElem? hb) hmem
        · exact hb
      obtain ⟨hnone,honly⟩ := h.fresh id i b hi hold
      exact ⟨(hkeep (List.mem_of_getElem? hold)).trans hnone,fun id' hb' => honly id' (hsub hb' hmem)⟩
  · rw [hhash] at hk
    split at hk
    · cases hk
    · exact hk
  · rw [hof,if_pos rfl,List.length_append,List.length_take_of_le hroom]
    omega

omit [DecidableEq H] in
/-- The blocks that are full and not cached yet, with their hashes. -/
theorem mem_zip_slice {blocks : List Nat} {ks : List H} {cached full : Nat} {x : Nat × H} :
    x ∈ ((blocks.take full).drop cached).zip (ks.drop cached) ↔
      ∃ i, cached ≤ i ∧ i < full ∧ blocks[i]? = some x.1 ∧ ks[i]? = some x.2 := by
  rw [List.mem_iff_getElem?]
  simp only [List.getElem?_zip_eq_some,List.getElem?_drop,List.getElem?_take]
  constructor
  · rintro ⟨i,hb,hk⟩
    split at hb
    · rename_i hi
      exact ⟨_,Nat.le_add_right _ _,hi,hb,hk⟩
    · cases hb
  · rintro ⟨i,hle,hi,hb,hk⟩
    refine ⟨i-cached,?_⟩
    rw [Nat.add_sub_cancel' hle,if_pos hi]
    exact ⟨hb,hk⟩

/-- A block gets its hash from a request that holds it in this place. -/
def Fills (m m' : KvCacheManager H) (r : Request H) : Prop :=
  ∀ b k, m'.blockPool.blockHash b = some k → m.blockPool.blockHash b = some k ∨
    ∃ i : Nat, (m'.blocksOf r.requestId)[i]? = some b ∧ r.blockHashes[i]? = some k

/-- The full blocks of a request get its hashes. -/
theorem Ok.cacheBlocks (h : m.Ok hashes l) {r : Request H} (hr : hashes r.requestId = r.blockHashes)
    (hon : m.blockPool.enableCaching) {numTokens : Nat}
    (hblocks : numTokens/blockSize ≤ (m.blocksOf r.requestId).length)
    (hhashes : numTokens/blockSize ≤ r.blockHashes.length) :
    Returns (m.cacheBlocks blockSize r numTokens) fun m' => m'.Ok hashes l ∧
      BlockPool.Same m.blockPool m'.blockPool ∧ m.Fills m' r ∧
      ∀ id, m'.blocksOf id = m.blocksOf id := by
  rw [KvCacheManager.cacheBlocks]
  generalize numTokens/blockSize = full at hblocks hhashes ⊢
  by_cases hdone : full ≤ m.numCached r.requestId
  · rw [if_pos hdone]
    exact .ok ⟨h,.refl _,fun b k hk => .inl hk,fun id => rfl⟩
  rw [if_neg hdone,BlockPool.cacheFullBlocks,if_neg hdone]
  obtain ⟨xs,hxs⟩ : ∃ xs, xs = (((m.blocksOf r.requestId).take full).drop
    (m.numCached r.requestId)).zip (r.blockHashes.drop (m.numCached r.requestId)) := ⟨_,rfl⟩
  have hat : ∀ x, x ∈ xs ↔ ∃ i, m.numCached r.requestId ≤ i ∧ i < full ∧
      (m.blocksOf r.requestId)[i]? = some x.1 ∧ r.blockHashes[i]? = some x.2 := fun x =>
    hxs ▸ mem_zip_slice
  have hfst : xs.map Prod.fst =
      ((m.blocksOf r.requestId).take full).drop (m.numCached r.requestId) := by
    rw [hxs,List.map_fst_zip]
    rw [List.length_drop,List.length_drop,List.length_take]
    omega
  have hnew : ∀ x ∈ xs, x.1 ≠ m.blockPool.nullBlock ∧ m.blockPool.blockHash x.1 = none :=
    fun x hx => by
      obtain ⟨i,hle,-,hb,-⟩ := (hat x).mp hx
      exact ⟨(h.isBlock _ _ (List.mem_of_getElem? hb)).2,(h.fresh _ i _ hle hb).1⟩
  have hnodup : (xs.map Prod.fst).Nodup := by
    rw [hfst]
    exact (h.nodup _).sublist ((List.drop_sublist _ _).trans (List.take_sublist _ _))
  refine (Returns.bind (P := fun pool => pool.Cached ∧ BlockPool.Same m.blockPool pool ∧
    pool.freeBlockQueue = m.blockPool.freeBlockQueue ∧ pool.refCnt = m.blockPool.refCnt ∧
    (∀ x ∈ xs, pool.blockHash x.1 = some x.2) ∧
    ∀ b, b ∉ xs.map Prod.fst → pool.blockHash b = m.blockPool.blockHash b)
    ((Returns.check_of hhashes).bind fun _ _ => hxs ▸ h.pool.cached.cacheBlocks hon (hxs ▸ hnodup)
      (hxs ▸ hnew))) fun pool ⟨hcached,hsame,hqueue,href,hset,hkeep⟩ => ?_
  obtain ⟨m',hm'⟩ : ∃ m', m' = ({ m with
    blockPool := pool
    numCachedBlock := m.numCachedBlock.set r.requestId full } : KvCacheManager H) := ⟨_,rfl⟩
  have hof : ∀ id, m'.blocksOf id = m.blocksOf id := fun id => by rw [hm']; rfl
  have hnum : ∀ id, m'.numCached id = if id = r.requestId then full else m.numCached id :=
    fun id => hm' ▸ numCached_set m pool r.requestId id _ full
  obtain rfl : m'.blockPool = pool := by rw [hm']
  have hold : ∀ {b k}, m.blockPool.blockHash b = some k → m'.blockPool.blockHash b = some k :=
    fun {b k} hk => by
      rw [hkeep b fun hmem => ?_,hk]
      obtain ⟨x,hx,rfl⟩ := List.mem_map.mp hmem
      rw [(hnew x hx).2] at hk
      cases hk
  refine .ok (hm' ▸ ⟨⟨h.pool.of_cached hcached hsame hqueue href,?_,fun b k hk => ?_,
    fun id => hof id ▸ h.nodup id,fun id b hb => ?_,fun b => ?_,
    fun id hid => ?_,fun id => ?_,fun id i b hi hb => ?_,fun id i b hi hb => ?_⟩,hsame,
    fun b k hk => ?_,hof⟩)
  · rw [hsame.nullBlock,hsame.numGpuBlocks]
    exact h.null
  · refine hsame.isBlock.mpr ?_
    by_cases hmem : b ∈ xs.map Prod.fst
    · obtain ⟨x,hx,rfl⟩ := List.mem_map.mp hmem
      obtain ⟨i,-,-,hb,-⟩ := (hat x).mp hx
      exact h.isBlock _ _ (List.mem_of_getElem? hb)
    · exact h.hashed b k (hkeep b hmem ▸ hk)
  · exact hsame.isBlock.mpr (h.isBlock id b (hof id ▸ hb))
  · exact (h.held b).congr (fun id => by rw [hof]) (congrFun href b)
  · rw [hof]
    rw [hm',Dict.mem_set] at hid
    rcases hid with rfl | hid
    · refine List.ne_nil_of_length_pos ?_
      omega
    · exact h.started id hid
  · rw [hof,hnum]
    split
    · rename_i heq
      exact heq ▸ hblocks
    · exact h.cachedLe id
  · rw [hnum] at hi
    rw [hof] at hb
    by_cases hlt : i < m.numCached id
    · obtain ⟨k,hk,hik⟩ := h.cached id i b hlt hb
      exact ⟨k,hold hk,hik⟩
    · split at hi
      · rename_i heq
        subst heq
        obtain ⟨k,hk⟩ : ∃ k, r.blockHashes[i]? = some k :=
          ⟨_,List.getElem?_eq_getElem (hi.trans_le hhashes)⟩
        exact ⟨k,hset (b,k) ((hat (b,k)).mpr ⟨i,not_lt.mp hlt,hi,hb,hk⟩),hr ▸ hk⟩
      · exact absurd hi hlt
  · rw [hnum] at hi
    rw [hof] at hb
    have hle : m.numCached id ≤ i := by
      split at hi
      · rename_i heq
        subst heq
        omega
      · exact hi
    obtain ⟨hnone,honly⟩ := h.fresh id i b hle hb
    refine ⟨(hkeep b fun hmem => ?_).trans hnone,fun id' hb' => honly id' (hof id' ▸ hb')⟩
    obtain ⟨x,hx,rfl⟩ := List.mem_map.mp hmem
    obtain ⟨j,-,hj,hjb,-⟩ := (hat x).mp hx
    have heq := honly _ (List.mem_of_getElem? hjb)
    subst heq
    rw [if_pos rfl] at hi
    have hlen := (List.getElem?_eq_some_iff.mp hjb).1
    have := (List.getElem?_inj hlen (h.nodup _)).mp (hjb.trans hb.symm)
    omega
  · by_cases hmem : b ∈ xs.map Prod.fst
    · obtain ⟨x,hx,rfl⟩ := List.mem_map.mp hmem
      obtain ⟨i,-,-,hb,hik⟩ := (hat x).mp hx
      rw [hset x hx] at hk
      exact .inr ⟨i,hof _ ▸ hb,hik.trans hk⟩
    · exact .inl (hkeep b hmem ▸ hk)

/-- What is asked for covers the new blocks and the hits that are free. -/
theorem Ok.getNumBlocksToAllocate (h : m.Ok hashes l) {hits : List Nat} (numTokens : Nat)
    (hhits : hits = [] ∨ m.blocksOf requestId = []) :
    Returns (m.getNumBlocksToAllocate blockSize requestId numTokens hits) fun n =>
      (numTokens+(blockSize-1))/blockSize-(hits.length+(m.blocksOf requestId).length)+
        hits.countP (· ∈ l) ≤ n := by
  rw [KvCacheManager.getNumBlocksToAllocate]
  split
  · rename_i hmem
    obtain rfl := hhits.resolve_right (h.started requestId hmem)
    refine (Returns.check_of rfl).bind fun _ _ => .ok ?_
    rw [List.length_nil,Nat.zero_add,List.countP_nil,Nat.add_zero]
  · refine .ok (Nat.add_le_add_left (List.countP_mono_left fun b _ hb => ?_) _)
    obtain ⟨hblock,hzero⟩ := (h.pool.free b).mp (of_decide_eq_true hb)
    exact decide_eq_true ⟨hzero,hblock.2⟩

/-- The hits of a request, or nothing. -/
def Hits (m : KvCacheManager H) (r : Request H) (hits : List Nat) : Prop :=
  hits = [] ∨ m.blocksOf r.requestId = [] ∧ m.blockPool.enableCaching ∧ hits.Nodup ∧
    ∀ (i b : Nat), hits[i]? = some b →
      ∃ k, m.blockPool.blockHash b = some k ∧ r.blockHashes[i]? = some k

/-- The last token is never a hit. -/
theorem getComputedBlocks_lt (blockSize : Nat) (m : KvCacheManager H) {r : Request H}
    (hpos : 0 < r.allTokenIds.length) :
    (m.getComputedBlocks blockSize r).2 < r.allTokenIds.length := by
  rw [KvCacheManager.getComputedBlocks]
  split
  · have hle : (findLongestCacheHit m.blockPool
        (r.blockHashes.take ((r.allTokenIds.length-1)/blockSize))).length ≤
        (r.allTokenIds.length-1)/blockSize :=
      (length_findLongestCacheHit_le _ _).trans (List.length_take_le _ _)
    have hmul := (Nat.mul_le_mul_right blockSize hle).trans (Nat.div_mul_le_self _ _)
    simp only
    omega
  · exact hpos

/-- What the scheduler's results suppose of the KV cache. -/
theorem forScheduler_ok (blockSize maxModelLen : Nat) {requestOf : Sched.Request → Request H}
    (hcount : ∀ r, (requestOf r).allTokenIds.length = r.numTokens) :
    (forScheduler blockSize maxModelLen requestOf).Ok := fun m r hr =>
  hcount r ▸ getComputedBlocks_lt blockSize m (hcount r ▸ hr)

/-- A hit has the hash that the request has in this place. -/
theorem Ok.hit (h : m.Ok hashes l) {blockSize : Nat} {r : Request H} {i b : Nat}
    (hb : (m.getComputedBlocks blockSize r).1[i]? = some b) :
    ∃ k, m.blockPool.blockHash b = some k ∧ r.blockHashes[i]? = some k := by
  rw [KvCacheManager.getComputedBlocks] at hb
  split at hb
  · obtain ⟨k,hk,hik⟩ := getElem?_findLongestCacheHit h.pool.cached hb
    rw [List.getElem?_take] at hik
    split at hik
    · exact ⟨k,hk,hik⟩
    · cases hik
  · cases hb

theorem Ok.getComputedBlocks (h : m.Ok hashes l) (blockSize : Nat) {r : Request H}
    (hks : r.blockHashes.Nodup) (hempty : m.blocksOf r.requestId = []) :
    m.Hits r (m.getComputedBlocks blockSize r).1 := by
  by_cases hon : m.blockPool.enableCaching
  · exact .inr ⟨hempty,hon,nodup_of_hashes hks fun _ _ => h.hit,fun _ _ => h.hit⟩
  · exact .inl (by rw [KvCacheManager.getComputedBlocks,if_neg hon])

/-- Slots for new tokens keep the accounts, and touch no other request. -/
theorem Ok.allocateSlots (h : m.Ok hashes l) {r : Request H}
    (hr : hashes r.requestId = r.blockHashes)
    (hlen : r.blockHashes.length = r.allTokenIds.length/blockSize)
    (hmax : r.allTokenIds.length ≤ maxModelLen) {hits : List Nat} (hhits : m.Hits r hits)
    (numComputedTokens : Nat) {numNewTokens : Nat} (hnew : 0 < numNewTokens)
    (numNewComputedTokens : Nat) :
    Returns (m.allocateSlots blockSize maxModelLen r numComputedTokens numNewTokens
      numNewComputedTokens hits) fun out => (∃ l', out.2.Ok hashes l') ∧
        m.Fills out.2 r ∧ ∀ id, id ≠ r.requestId → out.2.blocksOf id = m.blocksOf id := by
  rw [KvCacheManager.allocateSlots]
  generalize htotal : min (numComputedTokens+numNewComputedTokens) maxModelLen = total
  refine (Returns.check_of hnew).bind fun _ _ => ?_
  refine (h.getNumBlocksToAllocate _ (hhits.imp_right And.left)).bind fun n hn => ?_
  split
  · exact .ok ⟨⟨l,h⟩,fun b k hk => .inl hk,fun id _ => rfl⟩
  rename_i hroom
  rw [h.pool.numFreeBlocks] at hroom
  have hcomputed : Returns (if hits = [] then .ok m
      else m.allocateNewComputedBlocks r.requestId hits) fun m₁ => ∃ l₁, m₁.Ok hashes l₁ ∧
        m₁.blockPool.blockHash = m.blockPool.blockHash ∧
        (m₁.blocksOf r.requestId).length = hits.length+(m.blocksOf r.requestId).length ∧
        l.length ≤ l₁.length+hits.countP (· ∈ l) ∧
        ∀ id, id ≠ r.requestId → m₁.blocksOf id = m.blocksOf id := by
    by_cases hnil : hits = []
    · rw [if_pos hnil,hnil]
      exact .ok ⟨l,h,rfl,by simp,by simp,fun id _ => rfl⟩
    · rw [if_neg hnil]
      obtain ⟨hempty,hon,hnodup,hspec⟩ := hhits.resolve_left hnil
      refine (h.allocateNewComputedBlocks hempty hnil hon hnodup (hr ▸ hspec)).mono
        fun m₁ ⟨hm₁,_,hhash,hof⟩ => ⟨_,hm₁,hhash,?_,BlockPool.length_le_diff l hits,fun id hid => ?_⟩
      · rw [hof,if_pos rfl,hempty]
        simp
      · rw [hof,if_neg hid]
  refine Returns.bind (P := fun out => (∃ l', out.2.Ok hashes l') ∧ m.Fills out.2 r ∧
    ∀ id, id ≠ r.requestId → out.2.blocksOf id = m.blocksOf id) ?_ fun out hout => .ok hout
  rw [allocateBlocks]
  refine hcomputed.bind fun m₁ ⟨l₁,hm₁,hhash₁,hlength,hle,hof₁⟩ => ?_
  refine (hm₁.allocateNewBlocks blockSize r.requestId (min (total+numNewTokens) maxModelLen)
    (by omega)).bind
    fun out ⟨⟨l₂,hm₂⟩,_,hhash₂,hslots,hof₂⟩ => ?_
  have hother : ∀ id, id ≠ r.requestId → out.2.blocksOf id = m.blocksOf id := fun id hid => by
    rw [hof₂,if_neg hid,hof₁ id hid]
  have hold : ∀ b k, out.2.blockPool.blockHash b = some k → m.blockPool.blockHash b = some k :=
    fun b k hk => hhash₁ ▸ hhash₂ b k hk
  split
  · rename_i hon
    refine (hm₂.cacheBlocks hr hon (le_trans ?_ hslots) ?_).bind fun m₃ ⟨hm₃,_,hfills,hof₃⟩ =>
      .ok ⟨⟨l₂,hm₃⟩,fun b k hk => (hfills b k hk).imp_left (hold b k),
        fun id hid => (hof₃ id).trans (hother id hid)⟩
    · exact Nat.div_le_div_right (by omega)
    · rw [hlen]
      exact Nat.div_le_div_right (min_le_right _ _)
  · exact .ok ⟨⟨l₂,hm₂⟩,fun b k hk => .inl (hold b k hk),hother⟩

end Slots

section Free

/-- Of the blocks of a request that ends, those become free that nobody else has. -/
theorem Ok.free (h : m.Ok hashes l) (requestId : String) :
    Returns (m.free requestId) fun m' => (∃ l', m'.Ok hashes l') ∧
      m'.blockPool.blockHash = m.blockPool.blockHash ∧
      ∀ id, m'.blocksOf id = if id = requestId then [] else m.blocksOf id := by
  rw [KvCacheManager.free]
  refine (h.pool.freeBlocks (List.nodup_reverse.mpr (h.nodup requestId)) fun b hb => ?_).bind
    fun pool ⟨hpool,hsame,href,hhash⟩ => ?_
  · rw [List.mem_reverse] at hb
    exact ⟨h.isBlock _ b hb,(h.held b).pos hb⟩
  obtain ⟨m',hm'⟩ : ∃ m', m' = (⟨pool,m.reqToBlocks.erase requestId,
    m.numCachedBlock.erase requestId⟩ : KvCacheManager H) := ⟨_,rfl⟩
  have hof : ∀ id, m'.blocksOf id = if id = requestId then [] else m.blocksOf id := fun id =>
    hm' ▸ blocksOf_erase m pool requestId id _
  have hnum : ∀ id, m'.numCached id = if id = requestId then 0 else m.numCached id := fun id =>
    hm' ▸ numCached_erase m pool requestId id _
  obtain rfl : m'.blockPool = pool := by rw [hm']
  have hsub : ∀ {id b}, b ∈ m'.blocksOf id → b ∈ m.blocksOf id := fun {id b} hb => by
    rw [hof] at hb
    split at hb
    · cases hb
    · exact hb
  refine .ok (hm' ▸ ⟨⟨_,⟨hpool,?_,fun b k hk => ?_,fun id => ?_,
    fun id b hb => hsame.isBlock.mpr (h.isBlock id b (hsub hb)),fun b => ?_,
    fun id hid => ?_,fun id => ?_,fun id i b hi hb => ?_,fun id i b hi hb => ?_⟩⟩,hhash,hof⟩)
  · rw [hsame.nullBlock,hsame.numGpuBlocks]
    exact h.null
  · exact hsame.isBlock.mpr (h.hashed b k (hhash ▸ hk))
  · rw [hof]
    split
    · exact List.nodup_nil
    · exact h.nodup id
  · by_cases hb : b ∈ m.blocksOf requestId
    · refine (h.held b).release hb (fun id => ?_) (by rw [href,if_pos (List.mem_reverse.mpr hb)])
      rw [hof]
      by_cases hid : id = requestId <;> simp [hid]
    · refine (h.held b).congr (fun id => ?_) (by rw [href,if_neg (mt List.mem_reverse.mp hb)])
      rw [hof]
      by_cases hid : id = requestId
      · simp [hid,hb]
      · simp [hid]
  · rw [hm',Dict.mem_erase] at hid
    rw [hof,if_neg hid.1]
    exact h.started id hid.2
  · rw [hof,hnum]
    split
    · exact le_rfl
    · exact h.cachedLe id
  · rw [hnum] at hi
    rw [hof] at hb
    split at hb
    · cases hb
    · rename_i hid
      rw [if_neg hid] at hi
      rw [hhash]
      exact h.cached id i b hi hb
  · rw [hnum] at hi
    rw [hof] at hb
    split at hb
    · cases hb
    · rename_i hid
      rw [if_neg hid] at hi
      obtain ⟨hnone,honly⟩ := h.fresh id i b hi hb
      exact ⟨hhash ▸ hnone,fun id' hb' => honly id' (hsub hb')⟩

/-- All blocks that nobody holds are free. -/
theorem Ok.free_iff (h : m.Ok hashes l) {b : Nat} :
    b ∈ l ↔ m.blockPool.IsBlock b ∧ ∀ id, b ∉ m.blocksOf id := by
  rw [h.pool.free,(h.held b).zero_iff]

/-- If one block less than there are is free, nobody holds any. -/
theorem Ok.none_held (h : m.Ok hashes l) (hall : l.length+1 = m.blockPool.numGpuBlocks)
    (id : String) : m.blocksOf id = [] := by
  refine List.eq_nil_iff_forall_not_mem.mpr fun b hb => ?_
  have hblock := h.isBlock id b hb
  have hnull : m.blockPool.nullBlock ∉ l := fun hmem => ((h.free_iff).mp hmem).1.2 rfl
  have hnodup : (b :: m.blockPool.nullBlock :: l).Nodup := by
    rw [List.nodup_cons,List.nodup_cons,List.mem_cons,not_or]
    exact ⟨⟨hblock.2,h.not_free hb⟩,hnull,h.pool.lists.nodup⟩
  have hsub : (b :: m.blockPool.nullBlock :: l) ⊆ List.range m.blockPool.numGpuBlocks := by
    intro x hx
    rw [List.mem_range]
    rcases List.mem_cons.mp hx with rfl | hx
    · exact hblock.1
    · rcases List.mem_cons.mp hx with rfl | hx
      · exact h.null
      · exact (h.free_iff.mp hx).1.1
  have hle := (hnodup.subperm hsub).length_le
  simp only [List.length_cons,List.length_range] at hle
  omega

/-- If nobody holds any, all but the null block are free. -/
theorem Ok.all_free (h : m.Ok hashes l) (hnone : ∀ id, m.blocksOf id = []) :
    l.length+1 = m.blockPool.numGpuBlocks := by
  have hnull : m.blockPool.nullBlock ∈ List.range m.blockPool.numGpuBlocks :=
    List.mem_range.mpr h.null
  have hperm : l.Perm ((List.range m.blockPool.numGpuBlocks).erase m.blockPool.nullBlock) := by
    refine (List.perm_ext_iff_of_nodup h.pool.lists.nodup (List.nodup_range.erase _)).mpr fun b => ?_
    rw [h.free_iff,List.nodup_range.mem_erase_iff,List.mem_range,BlockPool.IsBlock]
    simp only [hnone,List.not_mem_nil,not_false_iff,implies_true,and_true]
    exact and_comm
  have hpos := List.length_pos_of_mem hnull
  rw [hperm.length_eq,List.length_erase_of_mem hnull,Nat.sub_add_cancel hpos,List.length_range]

theorem Ok.resetPrefixCache (h : m.Ok hashes l) : m.resetPrefixCache.2.Ok hashes l ∧
    ∀ b k, m.resetPrefixCache.2.blockPool.blockHash b = some k →
      m.blockPool.blockHash b = some k := by
  obtain ⟨hpool,hsame,href,⟨-,heq⟩ | ⟨-,hall,hnone⟩⟩ := h.pool.resetPrefixCache
  · rw [KvCacheManager.resetPrefixCache,heq]
    exact ⟨h,fun b k hk => hk⟩
  · have hempty := h.none_held hall
    have hof : ∀ id, m.resetPrefixCache.2.blocksOf id = [] := hempty
    have hnum : ∀ id, m.resetPrefixCache.2.numCached id = 0 := fun id =>
      Nat.eq_zero_of_le_zero ((h.cachedLe id).trans_eq (congrArg List.length (hempty id)))
    have hclean : ∀ b k, m.resetPrefixCache.2.blockPool.blockHash b ≠ some k := fun b k hk => by
      rw [show m.resetPrefixCache.2.blockPool.blockHash b = none from hnone b] at hk
      cases hk
    refine ⟨⟨hpool,?_,fun b k hk => absurd hk (hclean b k),fun id => ?_,fun id b hb => ?_,
      fun b => ?_,h.started,fun id => ?_,fun id i b hi => ?_,fun id i b _ hb => ?_⟩,
      fun b k hk => absurd hk (hclean b k)⟩
    · change m.blockPool.resetPrefixCache.2.nullBlock < m.blockPool.resetPrefixCache.2.numGpuBlocks
      rw [hsame.nullBlock,hsame.numGpuBlocks]
      exact h.null
    · rw [hof]
      exact List.nodup_nil
    · rw [hof] at hb
      cases hb
    · exact (h.held b).congr (fun _ => Iff.rfl) (congrFun href b)
    · rw [hnum]
      exact Nat.zero_le _
    · rw [hnum] at hi
      exact absurd hi (Nat.not_lt_zero _)
    · rw [hof] at hb
      cases hb

end Free
end KvCacheManager

end TLiveOmni.Kv
