import TLiveOmni.EncoderSchedule
import TLiveOmni.Lib.HashChain

/-! The hashes under which the KV cache finds the blocks of a request: each is taken of the tokens
of a block, of the media that lie in it, and of the hash of the block before. -/
set_option autoImplicit false

namespace TLiveOmni.Kv
open Vllm (Feature)
open Sched (Fault Apart)

/-- A LoRA name or a cache salt, or a media item with its offset from the start of the block. -/
inductive ExtraKey where
  | text (s : String)
  | media (identifier : String) (offset : Int)
  deriving DecidableEq, Repr

/-- What `BlockPool` and `hash_block_tokens` read of a request. -/
structure Request (H : Type) where
  requestId : String
  allTokenIds : List Nat
  mmFeatures : List Feature
  loraName : Option String
  cacheSalt : Option String
  blockHashes : List H

/-- The arguments of `get_request_block_hasher`, and `NONE_HASH`. -/
structure BlockHasher (H : Type) where
  blockSize : Nat
  pos : 0 < blockSize
  cachingHashFn : H → List Nat × Option (List ExtraKey) → H
  noneHash : H

section Keys
variable (startTokenIdx endTokenIdx : Nat)

/-- The loop over the features from `curr_mm_idx` on. -/
def scanFeatures : List Feature → (currMmIdx : Nat) → List ExtraKey × Nat
  | [], currMmIdx => ([],currMmIdx)
  | f :: mmFeatures, currMmIdx =>
    if f.offset < endTokenIdx then
      if f.offset+f.length ≤ startTokenIdx then scanFeatures mmFeatures (currMmIdx+1)
      else
        let key := ExtraKey.media f.identifier ((f.offset : Int)-startTokenIdx)
        if f.offset+f.length ≤ endTokenIdx then
          let rest := scanFeatures mmFeatures (currMmIdx+1)
          (key :: rest.1,rest.2)
        else ([key],currMmIdx)
    else ([],currMmIdx)

/-- `_gen_mm_extra_hash_keys`. -/
def genMmExtraHashKeys (mmFeatures : List Feature) (startMmIdx : Int) :
    Except Fault (List ExtraKey × Int) :=
  match mmFeatures.getLast? with
  | none => .ok ([],startMmIdx)
  | some last =>
    if last.offset+last.length ≤ startTokenIdx then .ok ([],startMmIdx)
    else if startMmIdx < 0 then
      if -startMmIdx ≤ mmFeatures.length then
        let currMmIdx := ((mmFeatures.length : Int)+startMmIdx).toNat
        let found := scanFeatures startTokenIdx endTokenIdx (mmFeatures.drop currMmIdx) currMmIdx
        .ok (found.1,found.2)
      else .error .assertionError
    else
      let currMmIdx := startMmIdx.toNat
      let found := scanFeatures startTokenIdx endTokenIdx (mmFeatures.drop currMmIdx) currMmIdx
      .ok (found.1,found.2)

variable {H : Type} (r : Request H)

/-- `_gen_lora_extra_hash_keys`. -/
def Request.genLoraExtraHashKeys : List ExtraKey := r.loraName.toList.map .text

/-- `request.cache_salt`, if it is there and not empty. -/
def Request.salts : List String := r.cacheSalt.toList.filter (· ≠ "")

/-- `cache_salt_keys` of the first block. -/
def Request.saltKeys : List ExtraKey := r.salts.map .text

/-- `generate_block_hash_extra_keys`. -/
def Request.generateBlockHashExtraKeys (startMmIdx : Int) :
    Except Fault (Option (List ExtraKey) × Int) := do
  let found ← genMmExtraHashKeys startTokenIdx endTokenIdx r.mmFeatures startMmIdx
  let extraKeys := r.genLoraExtraHashKeys ++ found.1 ++
    (if startTokenIdx = 0 then r.saltKeys else [])
  pure (if extraKeys = [] then none else some extraKeys,found.2)

end Keys

namespace BlockHasher
variable {H : Type} (hasher : BlockHasher H)

/-- `hash_block_tokens`. -/
def hashBlockTokens (parentBlockHash : Option H) (currBlockTokenIds : List Nat)
    (extraKeys : Option (List ExtraKey)) : H :=
  hasher.cachingHashFn (parentBlockHash.getD hasher.noneHash) (currBlockTokenIds,extraKeys)

/-- The loop of `request_block_hasher`, which ends after at most as many rounds as there are
tokens. -/
def hashBlocks (r : Request H) : (rounds startTokenIdx : Nat) → (currMmIdx : Int) →
    (prevBlockHashValue : Option H) → Except Fault (List H)
  | 0, _, _, _ => .ok []
  | rounds+1, startTokenIdx, currMmIdx, prevBlockHashValue =>
    let endTokenIdx := startTokenIdx+hasher.blockSize
    if r.allTokenIds.length < endTokenIdx then .ok []
    else do
      let found ← r.generateBlockHashExtraKeys startTokenIdx endTokenIdx currMmIdx
      let blockTokens := (r.allTokenIds.drop startTokenIdx).take hasher.blockSize
      let blockHash := hasher.hashBlockTokens prevBlockHashValue blockTokens found.1
      let newBlockHashes ← hashBlocks r rounds endTokenIdx found.2 (some blockHash)
      pure (blockHash :: newBlockHashes)

/-- `request_block_hasher`. -/
def requestBlockHasher (r : Request H) : Except Fault (List H) :=
  let startTokenIdx := r.blockHashes.length*hasher.blockSize
  if r.allTokenIds.length < startTokenIdx+hasher.blockSize then .ok []
  else
    let currMmIdx : Int := if 0 < startTokenIdx then -1 else 0
    hasher.hashBlocks r r.allTokenIds.length startTokenIdx currMmIdx r.blockHashes.getLast?

/-- `update_block_hashes`. -/
def updateBlockHashes (r : Request H) : Except Fault (Request H) := do
  let newBlockHashes ← hasher.requestBlockHasher r
  pure { r with blockHashes := r.blockHashes ++ newBlockHashes }

/-- `Request.__init__`. -/
def newRequest (requestId : String) (promptTokenIds : List Nat) (mmFeatures : List Feature)
    (loraName cacheSalt : Option String) : Except Fault (Request H) :=
  hasher.updateBlockHashes ⟨requestId,promptTokenIds,mmFeatures,loraName,cacheSalt,[]⟩

/-- `append_output_token_ids`. -/
def appendOutputTokenIds (tokenIds : List Nat) (r : Request H) : Except Fault (Request H) :=
  hasher.updateBlockHashes { r with allTokenIds := r.allTokenIds ++ tokenIds }

end BlockHasher
end TLiveOmni.Kv
