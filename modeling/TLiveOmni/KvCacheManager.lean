import TLiveOmni.BlockHashes
import TLiveOmni.BlockPool
import TLiveOmni.Scheduler

/-! `KVCacheManager` with one group of full attention layers: the blocks of each request, the hits
in the prefix cache, and the slots for new tokens. -/
set_option autoImplicit false

namespace TLiveOmni.Kv
open Sched (Fault)

/-- The block pool, and what `FullAttentionManager` knows of the requests. -/
structure KvCacheManager (H : Type) where
  blockPool : BlockPool H
  reqToBlocks : Dict String (List Nat)
  numCachedBlock : Dict String Nat

/-- `find_longest_cache_hit`. -/
def findLongestCacheHit {H : Type} [DecidableEq H] (p : BlockPool H) : List H → List Nat
  | [] => []
  | blockHash :: blockHashes =>
    match p.getCachedBlock blockHash with
    | some block => block :: findLongestCacheHit p blockHashes
    | none => []

namespace KvCacheManager
variable {H : Type} [DecidableEq H] (blockSize maxModelLen : Nat) (m : KvCacheManager H)

def init (numGpuBlocks : Nat) (enableCaching : Bool) : Except Fault (KvCacheManager H) := do
  let pool ← BlockPool.init numGpuBlocks enableCaching
  pure ⟨pool,.empty,.empty⟩

/-- `req_to_blocks[request_id]`, which is a `defaultdict`. -/
def blocksOf (requestId : String) : List Nat := (m.reqToBlocks.get? requestId).getD []

/-- `num_cached_block.get(request_id, 0)`. -/
def numCached (requestId : String) : Nat := (m.numCachedBlock.get? requestId).getD 0

/-- The hits, and the tokens in them. The last token is computed in any case. -/
def getComputedBlocks (r : Request H) : List Nat × Nat :=
  if m.blockPool.enableCaching then
    let maxCacheHitLength := r.allTokenIds.length-1
    let hitBlocks :=
      findLongestCacheHit m.blockPool (r.blockHashes.take (maxCacheHitLength/blockSize))
    (hitBlocks,hitBlocks.length*blockSize)
  else ([],0)

def getNumBlocksToAllocate (requestId : String) (numTokens : Nat) (newComputedBlocks : List Nat) :
    Except Fault Nat :=
  let numRequiredBlocks := (numTokens+(blockSize-1))/blockSize
  let numReqBlocks := (m.blocksOf requestId).length
  if requestId ∈ m.numCachedBlock then do
    check (newComputedBlocks = []) .assertionError
    pure (numRequiredBlocks-numReqBlocks)
  else
    let numNewBlocks := numRequiredBlocks-(newComputedBlocks.length+numReqBlocks)
    let numEvictableBlocks := newComputedBlocks.countP fun block =>
      m.blockPool.refCnt block = 0 ∧ block ≠ m.blockPool.nullBlock
    pure (numNewBlocks+numEvictableBlocks)

def canFitFullSequence (r : Request H) (newComputedBlocks : List Nat) : Except Fault Bool := do
  let fullNumTokens := min r.allTokenIds.length maxModelLen
  let numBlocksToAllocate ←
    m.getNumBlocksToAllocate blockSize r.requestId fullNumTokens newComputedBlocks
  pure (decide ((numBlocksToAllocate : Int) ≤ m.blockPool.getNumFreeBlocks))

def allocateNewComputedBlocks (requestId : String) (newComputedBlocks : List Nat) :
    Except Fault (KvCacheManager H) :=
  if requestId ∈ m.numCachedBlock then do
    check (newComputedBlocks = []) .assertionError
    pure m
  else do
    check (m.blocksOf requestId = []) .assertionError
    check (m.blockPool.enableCaching ∨ newComputedBlocks = []) .assertionError
    let pool ← m.blockPool.touch newComputedBlocks
    pure ⟨pool,m.reqToBlocks.set requestId newComputedBlocks,
      m.numCachedBlock.set requestId newComputedBlocks.length⟩

def allocateNewBlocks (requestId : String) (numTokens : Nat) :
    Except Fault (List Nat × KvCacheManager H) := do
  let reqBlocks := m.blocksOf requestId
  let numNewBlocks := (numTokens+(blockSize-1))/blockSize-reqBlocks.length
  let newBlocks : Except Fault (List Nat × BlockPool H) :=
    if numNewBlocks = 0 then .ok ([],m.blockPool) else m.blockPool.getNewBlocks numNewBlocks
  let allocated ← newBlocks
  pure (allocated.1,
    { m with
      blockPool := allocated.2
      reqToBlocks := m.reqToBlocks.set requestId (reqBlocks ++ allocated.1) })

def cacheBlocks (r : Request H) (numTokens : Nat) : Except Fault (KvCacheManager H) :=
  let numCachedBlocks := m.numCached r.requestId
  let numFullBlocks := numTokens/blockSize
  if numFullBlocks ≤ numCachedBlocks then .ok m
  else do
    let pool ← m.blockPool.cacheFullBlocks r.blockHashes (m.blocksOf r.requestId) numCachedBlocks
      numFullBlocks
    pure { m with
      blockPool := pool
      numCachedBlock := m.numCachedBlock.set r.requestId numFullBlocks }

/-- `allocate_slots` behind the check for free blocks. -/
def allocateBlocks (r : Request H) (numTokensNeedSlot numTokensToCache : Nat)
    (newComputedBlocks : List Nat) : Except Fault (List Nat × KvCacheManager H) := do
  let computed : Except Fault (KvCacheManager H) :=
    if newComputedBlocks = [] then .ok m
    else m.allocateNewComputedBlocks r.requestId newComputedBlocks
  let m ← computed
  let allocated ← m.allocateNewBlocks blockSize r.requestId numTokensNeedSlot
  if allocated.2.blockPool.enableCaching then do
    let m ← allocated.2.cacheBlocks blockSize r numTokensToCache
    pure (allocated.1,m)
  else pure allocated

def allocateSlots (r : Request H) (numComputedTokens numNewTokens numNewComputedTokens : Nat)
    (newComputedBlocks : List Nat) : Except Fault (Option (List Nat) × KvCacheManager H) := do
  check (0 < numNewTokens) (.valueError
    "num_new_tokens must be greater than 0 when there are no external computed tokens")
  let totalComputedTokens := min (numComputedTokens+numNewComputedTokens) maxModelLen
  let numTokensNeedSlot := min (totalComputedTokens+numNewTokens) maxModelLen
  let numBlocksToAllocate ←
    m.getNumBlocksToAllocate blockSize r.requestId numTokensNeedSlot newComputedBlocks
  if m.blockPool.getNumFreeBlocks < numBlocksToAllocate then pure (none,m)
  else do
    let numTokensToCache := min (totalComputedTokens+numNewTokens) r.allTokenIds.length
    let allocated ← m.allocateBlocks blockSize r numTokensNeedSlot numTokensToCache newComputedBlocks
    pure (some allocated.1,allocated.2)

/-- The last blocks are freed first. -/
def free (requestId : String) : Except Fault (KvCacheManager H) := do
  let pool ← m.blockPool.freeBlocks (m.blocksOf requestId).reverse
  pure ⟨pool,m.reqToBlocks.erase requestId,m.numCachedBlock.erase requestId⟩

def resetPrefixCache : Bool × KvCacheManager H :=
  let reset := m.blockPool.resetPrefixCache
  (reset.1,{ m with blockPool := reset.2 })

/-- The KV cache as the scheduler sees it. `requestOf` gives the tokens and hashes of a request, of
which the scheduler itself reads the counts only; a call that raises gives nothing. -/
def forScheduler (requestOf : Sched.Request → Request H) :
    Sched.KvCacheManager (KvCacheManager H) where
  newStepStarts m := m
  getComputedBlocks m r := ((m.getComputedBlocks blockSize (requestOf r)).2,m)
  canFitFullSequence m r numNewComputedTokens :=
    let hits := if numNewComputedTokens = 0 then []
      else (m.getComputedBlocks blockSize (requestOf r)).1
    (m.canFitFullSequence blockSize maxModelLen (requestOf r) hits).toOption.getD false
  allocateSlots m r numNewTokens numNewComputedTokens :=
    let hits := if numNewComputedTokens = 0 then []
      else (m.getComputedBlocks blockSize (requestOf r)).1
    match m.allocateSlots blockSize maxModelLen (requestOf r) r.numComputedTokens
      numNewTokens.toNat numNewComputedTokens hits with
    | .ok (some _,m') => some m'
    | _ => none
  free m r := (m.free r.requestId).toOption.getD m
  resetPrefixCache m := m.resetPrefixCache

end KvCacheManager
end TLiveOmni.Kv
