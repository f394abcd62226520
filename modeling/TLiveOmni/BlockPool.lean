import TLiveOmni.FreeBlockQueue
import TLiveOmni.Lib.Dict

/-! `BlockPool`: the blocks of the KV cache with their reference counts, the queue of the free
ones, and the map by which full blocks are found again. One group of layers. -/
set_option autoImplicit false

namespace TLiveOmni.Kv
open Sched (Fault)

/-- `KVCacheBlock | dict[int, KVCacheBlock]`. -/
inductive CachedBlocks where
  | block (blockId : Nat)
  | blocks (blockIds : List Nat)

/-- `BlockHashToBlockMap`. -/
abbrev BlockHashToBlockMap (H : Type) := Dict H CachedBlocks

namespace BlockHashToBlockMap
variable {H : Type} [DecidableEq H]

def getOneBlock (cache : BlockHashToBlockMap H) (key : H) : Option Nat :=
  match cache.get? key with
  | none => none
  | some (.block blockId) => some blockId
  | some (.blocks blockIds) => blockIds.head?

def insert (cache : BlockHashToBlockMap H) (key : H) (blockId : Nat) : BlockHashToBlockMap H :=
  match cache.get? key with
  | none => cache.set key (.block blockId)
  | some (.block other) =>
    cache.set key (.blocks (if other = blockId then [blockId] else [other,blockId]))
  | some (.blocks blockIds) =>
    cache.set key (.blocks (if blockId ∈ blockIds then blockIds else blockIds ++ [blockId]))

def pop (cache : BlockHashToBlockMap H) (key : H) (blockId : Nat) :
    Option Nat × BlockHashToBlockMap H :=
  match cache.get? key with
  | none => (none,cache)
  | some (.block other) =>
    if other = blockId then (some other,cache.erase key)
    else (none,(cache.erase key).set key (.block other))
  | some (.blocks blockIds) =>
    let left := blockIds.erase blockId
    (if blockId ∈ blockIds then some blockId else none,
      if left = [] then cache.erase key else (cache.erase key).set key (.blocks left))

end BlockHashToBlockMap

structure BlockPool (H : Type) where
  numGpuBlocks : Nat
  enableCaching : Bool
  freeBlockQueue : FreeKvCacheBlockQueue
  nullBlock : Nat
  refCnt : Nat → Int
  blockHash : Nat → Option H
  cachedBlockHashToBlock : BlockHashToBlockMap H

namespace BlockPool
variable {H : Type} [DecidableEq H]

/-- `__init__`. -/
def init (numGpuBlocks : Nat) (enableCaching : Bool) : Except Fault (BlockPool H) := do
  check (0 < numGpuBlocks) .assertionError
  let popped ← (FreeKvCacheBlockQueue.init numGpuBlocks).popleft
  pure {
    numGpuBlocks := numGpuBlocks
    enableCaching := enableCaching
    freeBlockQueue := popped.2
    nullBlock := popped.1
    refCnt := fun _ => 0
    blockHash := fun _ => none
    cachedBlockHashToBlock := .empty }

section Operations
variable (p : BlockPool H)

def getCachedBlock (blockHash : H) : Option Nat := p.cachedBlockHashToBlock.getOneBlock blockHash

def getNumFreeBlocks : Int := p.freeBlockQueue.numFreeBlocks

/-- A round of the loop of `cache_full_blocks`. -/
def cacheBlock (p : BlockPool H) (x : Nat × H) : Except Fault (BlockPool H) :=
  if x.1 = p.nullBlock then .ok p
  else do
    check (p.blockHash x.1 = none) .assertionError
    pure { p with
      blockHash := Function.update p.blockHash x.1 (some x.2)
      cachedBlockHashToBlock := p.cachedBlockHashToBlock.insert x.2 x.1 }

def cacheFullBlocks (blockHashes : List H) (blocks : List Nat)
    (numCachedBlocks numFullBlocks : Nat) : Except Fault (BlockPool H) :=
  if numFullBlocks ≤ numCachedBlocks then .ok p
  else do
    let newFullBlocks := (blocks.take numFullBlocks).drop numCachedBlocks
    check (numFullBlocks ≤ blockHashes.length) .assertionError
    let newBlockHashes := blockHashes.drop numCachedBlocks
    (newFullBlocks.zip newBlockHashes).foldlM cacheBlock p

/-- `_maybe_evict_cached_block`. -/
def maybeEvictCachedBlock (block : Nat) : BlockPool H :=
  match p.blockHash block with
  | none => p
  | some blockHash =>
    let popped := p.cachedBlockHashToBlock.pop blockHash block
    match popped.1 with
    | none => { p with cachedBlockHashToBlock := popped.2 }
    | some _ => { p with
        cachedBlockHashToBlock := popped.2
        blockHash := Function.update p.blockHash block none }

/-- A round of the loop of `get_new_blocks`. -/
def takeBlock (p : BlockPool H) (block : Nat) : Except Fault (BlockPool H) := do
  let p := if p.enableCaching then p.maybeEvictCachedBlock block else p
  check (p.refCnt block = 0) .assertionError
  pure { p with refCnt := Function.update p.refCnt block (p.refCnt block+1) }

def getNewBlocks (numBlocks : Nat) : Except Fault (List Nat × BlockPool H) :=
  if p.getNumFreeBlocks < numBlocks then
    .error (.valueError s!"Cannot get {numBlocks} free blocks from the pool")
  else do
    let popped ← p.freeBlockQueue.popleftN numBlocks
    let p ← popped.1.foldlM takeBlock { p with freeBlockQueue := popped.2 }
    pure (popped.1,p)

/-- A round of the loop of `touch`. -/
def touchBlock (p : BlockPool H) (block : Nat) : Except Fault (BlockPool H) := do
  let removed : Except Fault FreeKvCacheBlockQueue :=
    if p.refCnt block = 0 ∧ block ≠ p.nullBlock then p.freeBlockQueue.remove block
    else .ok p.freeBlockQueue
  let queue ← removed
  pure { p with
    freeBlockQueue := queue
    refCnt := Function.update p.refCnt block (p.refCnt block+1) }

def touch (blocks : List Nat) : Except Fault (BlockPool H) := blocks.foldlM touchBlock p

/-- The first loop of `free_blocks`. -/
def release (refCnt : Nat → Int) (blocks : List Nat) : Nat → Int :=
  blocks.foldl (fun refCnt block => Function.update refCnt block (refCnt block-1)) refCnt

def freeBlocks (orderedBlocks : List Nat) : Except Fault (BlockPool H) := do
  let refCnt := release p.refCnt orderedBlocks
  let queue ← p.freeBlockQueue.appendN
    (orderedBlocks.filter fun block => refCnt block = 0 ∧ block ≠ p.nullBlock)
  pure { p with freeBlockQueue := queue, refCnt := refCnt }

def resetPrefixCache : Bool × BlockPool H :=
  let numUsedBlocks := p.numGpuBlocks-p.getNumFreeBlocks
  if numUsedBlocks ≠ 1 then (false,p)
  else (true,{ p with cachedBlockHashToBlock := .empty, blockHash := fun _ => none })

end Operations
end BlockPool
end TLiveOmni.Kv
