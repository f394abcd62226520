import Mathlib.Data.List.Infix
import TLiveOmni.BlockHashes

/-! What a block hash stands for: the tokens up to the end of the block and the media at them. -/
set_option autoImplicit false

namespace TLiveOmni.Kv
open Vllm (Feature)
open Sched (Fault Apart)
open HashChain

/-- The keys of the features that have a token in the block. -/
def mediaKeys (s e : Nat) (mmFeatures : List Feature) : List ExtraKey :=
  (mmFeatures.filter fun f => f.offset < e ∧ s < f.offset+f.length).map
    fun f => .media f.identifier ((f.offset : Int)-s)

/-- The features of a request lie in its prompt, one behind the other. -/
structure Placed (mmFeatures : List Feature) (numPromptTokens : Nat) : Prop where
  apart : Apart mmFeatures
  pos : ∀ f ∈ mmFeatures, 0 < f.length
  within : ∀ f ∈ mmFeatures, f.offset+f.length ≤ numPromptTokens

section Scan
variable {s e : Nat} {mmFeatures : List Feature}

theorem mediaKeys_nil_of_before (h : ∀ f ∈ mmFeatures, f.offset+f.length ≤ s) :
    mediaKeys s e mmFeatures = [] := by
  rw [mediaKeys,List.map_eq_nil_iff,List.filter_eq_nil_iff]
  intro f hf
  have := h f hf
  simp only [decide_eq_true_eq]
  omega

theorem mediaKeys_nil_of_behind (h : ∀ f ∈ mmFeatures, e ≤ f.offset) :
    mediaKeys s e mmFeatures = [] := by
  rw [mediaKeys,List.map_eq_nil_iff,List.filter_eq_nil_iff]
  intro f hf
  have := h f hf
  simp only [decide_eq_true_eq]
  omega

theorem mediaKeys_append (s e : Nat) (l l' : List Feature) :
    mediaKeys s e (l ++ l') = mediaKeys s e l ++ mediaKeys s e l' := by
  rw [mediaKeys,List.filter_append,List.map_append]
  rfl

/-- The features that the scan leaves behind. -/
def passed (e : Nat) (mmFeatures : List Feature) : Nat :=
  (mmFeatures.takeWhile fun f => f.offset+f.length ≤ e).length

theorem scanFeatures_eq (hse : s ≤ e) (hapart : Apart mmFeatures)
    (hpos : ∀ f ∈ mmFeatures, 0 < f.length) (i : Nat) :
    scanFeatures s e mmFeatures i = (mediaKeys s e mmFeatures,i+passed e mmFeatures) := by
  induction mmFeatures generalizing i with
  | nil => rfl
  | cons f mmFeatures ih =>
    obtain ⟨hfirst,hrest⟩ := List.pairwise_cons.mp hapart
    have ih := ih hrest (fun g hg => hpos g (List.mem_cons_of_mem _ hg)) (i+1)
    have hf := hpos f List.mem_cons_self
    have hcons : mediaKeys s e (f :: mmFeatures) = mediaKeys s e [f] ++ mediaKeys s e mmFeatures :=
      mediaKeys_append s e [f] mmFeatures
    rw [scanFeatures,hcons,passed,List.takeWhile_cons]
    by_cases hin : f.offset < e
    · rw [if_pos hin]
      by_cases hover : f.offset+f.length ≤ s
      · rw [if_pos hover,ih,if_pos (decide_eq_true (hover.trans hse)),
          (mediaKeys_nil_of_before (by simpa using hover) : mediaKeys s e [f] = []),List.nil_append,
          List.length_cons,passed,Nat.add_assoc,Nat.add_comm 1]
      · have hkey : mediaKeys s e [f] = [.media f.identifier ((f.offset : Int)-s)] := by
          simp [mediaKeys,hin,not_le.mp hover]
        rw [if_neg hover,hkey]
        by_cases hends : f.offset+f.length ≤ e
        · simp only [if_pos hends,if_pos (decide_eq_true hends),ih,passed,List.length_cons,
            List.cons_append,List.nil_append,Nat.add_assoc,Nat.add_comm 1]
        · have hnone : mediaKeys s e mmFeatures = [] := mediaKeys_nil_of_behind fun g hg => by
            have := hfirst g hg
            omega
          simp [hends,hnone]
    · have hnone : mediaKeys s e mmFeatures = [] := mediaKeys_nil_of_behind fun g hg => by
        have := hfirst g hg
        omega
      have hends : ¬ f.offset+f.length ≤ e := by omega
      have hself : mediaKeys s e [f] = [] := mediaKeys_nil_of_behind (by simpa using not_lt.mp hin)
      rw [if_neg hin,hself,hnone]
      simp [hends]

/-- What is left behind at the end of a block has no token in later blocks. -/
theorem mediaKeys_drop_passed {s' e' : Nat} (hes : e ≤ s') :
    mediaKeys s' e' (mmFeatures.drop (passed e mmFeatures)) = mediaKeys s' e' mmFeatures := by
  conv_rhs => rw [← List.take_append_drop (passed e mmFeatures) mmFeatures,mediaKeys_append]
  have hnone : mediaKeys s' e' (mmFeatures.take (passed e mmFeatures)) = [] := by
    refine mediaKeys_nil_of_before fun f hf => ?_
    rw [passed,← List.prefix_iff_eq_take.mp (List.takeWhile_prefix _)] at hf
    have := List.mem_takeWhile_imp hf
    simp only [decide_eq_true_eq] at this
    omega
  rw [hnone,List.nil_append]

/-- The features from an index on, which counts from the end if it is negative. -/
def fromIdx (mmFeatures : List Feature) (i : Int) : List Feature :=
  mmFeatures.drop (if i < 0 then ((mmFeatures.length : Int)+i).toNat else i.toNat)

theorem Apart.le_last (hapart : Apart mmFeatures) {f last : Feature}
    (hlast : mmFeatures.getLast? = some last) (hf : f ∈ mmFeatures) :
    f.offset+f.length ≤ last.offset+last.length := by
  obtain ⟨init,rfl⟩ := List.getLast?_eq_some_iff.mp hlast
  rcases List.mem_append.mp hf with hf | hf
  · have := (List.pairwise_append.mp hapart).2.2 f hf last (List.mem_singleton_self _)
    omega
  · rw [List.mem_singleton.mp hf]

/-- The keys of a block, and from where on the next blocks may look. -/
theorem genMmExtraHashKeys_spec (hse : s ≤ e) (hapart : Apart mmFeatures)
    (hpos : ∀ f ∈ mmFeatures, 0 < f.length) {i : Int}
    (hi : mmFeatures ≠ [] → -(mmFeatures.length : Int) ≤ i) :
    Returns (genMmExtraHashKeys s e mmFeatures i) fun found =>
      found.1 = mediaKeys s e (fromIdx mmFeatures i) ∧
      (mmFeatures ≠ [] → -(mmFeatures.length : Int) ≤ found.2) ∧
      ∀ s' e', e ≤ s' → mediaKeys s' e' (fromIdx mmFeatures found.2) =
        mediaKeys s' e' (fromIdx mmFeatures i) := by
  have hscan : ∀ n : Nat, fromIdx mmFeatures i = mmFeatures.drop n →
      Returns (.ok ((scanFeatures s e (mmFeatures.drop n) n).1,
        ((scanFeatures s e (mmFeatures.drop n) n).2 : Int)) : Except Fault (List ExtraKey × Int))
        fun found => found.1 = mediaKeys s e (fromIdx mmFeatures i) ∧
          (mmFeatures ≠ [] → -(mmFeatures.length : Int) ≤ found.2) ∧
          ∀ s' e', e ≤ s' → mediaKeys s' e' (fromIdx mmFeatures found.2) =
            mediaKeys s' e' (fromIdx mmFeatures i) := by
    intro n hn
    rw [scanFeatures_eq hse (List.Pairwise.sublist (List.drop_sublist _ _) hapart)
      (fun f hf => hpos f (List.mem_of_mem_drop hf)),hn]
    refine .ok ⟨rfl,fun _ => by simp only; omega,fun s' e' hes => ?_⟩
    have hidx : fromIdx mmFeatures ((n+passed e (mmFeatures.drop n) : Nat) : Int) =
        (mmFeatures.drop n).drop (passed e (mmFeatures.drop n)) := by
      rw [fromIdx,if_neg (by omega),Int.toNat_natCast,List.drop_drop]
    rw [hidx,mediaKeys_drop_passed hes]
  rw [genMmExtraHashKeys]
  cases hlast : mmFeatures.getLast? with
  | none =>
    rw [List.getLast?_eq_none_iff] at hlast
    subst hlast
    exact .ok ⟨by simp [fromIdx,mediaKeys],fun h => absurd rfl h,fun _ _ _ => rfl⟩
  | some last =>
    have hne : mmFeatures ≠ [] := by
      rintro rfl
      cases hlast
    simp only
    by_cases hdone : last.offset+last.length ≤ s
    · rw [if_pos hdone]
      refine .ok ⟨?_,hi,fun _ _ _ => rfl⟩
      rw [mediaKeys_nil_of_before]
      exact fun f hf => (Apart.le_last hapart hlast (List.mem_of_mem_drop hf)).trans hdone
    · rw [if_neg hdone]
      by_cases hneg : i < 0
      · rw [if_pos hneg,if_pos (by have := hi hne; omega)]
        exact hscan _ (by rw [fromIdx,if_pos hneg])
      · rw [if_neg hneg]
        exact hscan _ (by rw [fromIdx,if_neg hneg])

end Scan

variable {H : Type}

/-- The extra keys of a block, if the given features are looked at. -/
def Request.blockKeys (r : Request H) (seen : List Feature) (s e : Nat) : Option (List ExtraKey) :=
  let extraKeys := r.genLoraExtraHashKeys ++ mediaKeys s e seen ++ (if s = 0 then r.saltKeys else [])
  if extraKeys = [] then none else some extraKeys

namespace BlockHasher
variable (hasher : BlockHasher H)

/-- What is hashed of the block with the index `k`. -/
def piece (r : Request H) (seen : List Feature) (k : Nat) : List Nat × Option (List ExtraKey) :=
  ((r.allTokenIds.drop (k*hasher.blockSize)).take hasher.blockSize,
    r.blockKeys seen (k*hasher.blockSize) (k*hasher.blockSize+hasher.blockSize))

/-- The number of full blocks. -/
def numBlocks (r : Request H) : Nat := r.allTokenIds.length/hasher.blockSize

variable {hasher} {r : Request H}

theorem numBlocks_le_iff {k : Nat} :
    k < hasher.numBlocks r ↔ k*hasher.blockSize+hasher.blockSize ≤ r.allTokenIds.length := by
  rw [numBlocks,Nat.lt_iff_add_one_le,Nat.le_div_iff_mul_le hasher.pos,Nat.succ_mul]

theorem piece_congr {seen seen' : List Feature} {k : Nat}
    (h : mediaKeys (k*hasher.blockSize) (k*hasher.blockSize+hasher.blockSize) seen =
      mediaKeys (k*hasher.blockSize) (k*hasher.blockSize+hasher.blockSize) seen') :
    hasher.piece r seen k = hasher.piece r seen' k := by
  simp only [piece,Request.blockKeys,h]

theorem generateBlockHashExtraKeys_spec {s e : Nat} (hse : s ≤ e) (hapart : Apart r.mmFeatures)
    (hpos : ∀ f ∈ r.mmFeatures, 0 < f.length) {i : Int}
    (hi : r.mmFeatures ≠ [] → -(r.mmFeatures.length : Int) ≤ i) :
    Returns (r.generateBlockHashExtraKeys s e i) fun found =>
      found.1 = r.blockKeys (fromIdx r.mmFeatures i) s e ∧
      (r.mmFeatures ≠ [] → -(r.mmFeatures.length : Int) ≤ found.2) ∧
      ∀ s' e', e ≤ s' → mediaKeys s' e' (fromIdx r.mmFeatures found.2) =
        mediaKeys s' e' (fromIdx r.mmFeatures i) := by
  refine (genMmExtraHashKeys_spec hse hapart hpos hi).bind fun found hfound => .ok ⟨?_,hfound.2⟩
  rw [hfound.1]
  rfl

/-- The rounds of the loop hash the blocks one after the other. -/
theorem hashBlocks_spec (hapart : Apart r.mmFeatures) (hpos : ∀ f ∈ r.mmFeatures, 0 < f.length)
    {rounds k : Nat} {i : Int} {prev : Option H} (hrounds : hasher.numBlocks r ≤ k+rounds)
    (hi : r.mmFeatures ≠ [] → -(r.mmFeatures.length : Int) ≤ i) :
    hasher.hashBlocks r rounds (k*hasher.blockSize) i prev =
      .ok (chain hasher.cachingHashFn (prev.getD hasher.noneHash)
        ((List.range' k (hasher.numBlocks r-k)).map (hasher.piece r (fromIdx r.mmFeatures i)))) := by
  induction rounds generalizing k i prev with
  | zero =>
    rw [hashBlocks,Nat.sub_eq_zero_of_le (Nat.add_zero k ▸ hrounds)]
    rfl
  | succ rounds ih =>
    rw [hashBlocks]
    by_cases hfull : r.allTokenIds.length < k*hasher.blockSize+hasher.blockSize
    · have hdone : hasher.numBlocks r ≤ k :=
        Nat.le_of_not_lt fun h => by have := numBlocks_le_iff.mp h; omega
      simp only [if_pos hfull,Nat.sub_eq_zero_of_le hdone]
      rfl
    · have hk : k < hasher.numBlocks r := numBlocks_le_iff.mpr (not_lt.mp hfull)
      obtain ⟨found,heq,hkeys,hi',hlater⟩ := generateBlockHashExtraKeys_spec (r := r)
        (s := k*hasher.blockSize) (e := k*hasher.blockSize+hasher.blockSize) (by omega) hapart hpos hi
      have hstep : hasher.numBlocks r-k = hasher.numBlocks r-(k+1)+1 := by omega
      simp only [if_neg hfull]
      rw [heq]
      change (hasher.hashBlocks r rounds _ _ _ >>= _) = _
      rw [← Nat.succ_mul,ih (by omega) hi',hstep,List.range'_succ,List.map_cons,chain]
      have hpieces : (List.range' (k+1) (hasher.numBlocks r-(k+1))).map
          (hasher.piece r (fromIdx r.mmFeatures found.2)) =
          (List.range' (k+1) (hasher.numBlocks r-(k+1))).map
            (hasher.piece r (fromIdx r.mmFeatures i)) := by
        refine List.map_congr_left fun k' hk' => piece_congr (hlater _ _ ?_)
        have hle := (List.mem_range'_1.mp hk').1
        calc k*hasher.blockSize+hasher.blockSize = (k+1)*hasher.blockSize := (Nat.succ_mul _ _).symm
          _ ≤ k'*hasher.blockSize := Nat.mul_le_mul_right _ hle
      rw [hpieces,hkeys]
      rfl

/-- The features that a hasher looks at which starts behind `k` hashes. -/
def seenFrom (mmFeatures : List Feature) (k : Nat) : List Feature :=
  if k = 0 then mmFeatures else mmFeatures.drop (mmFeatures.length-1)

theorem requestBlockHasher_eq (hapart : Apart r.mmFeatures)
    (hpos : ∀ f ∈ r.mmFeatures, 0 < f.length) :
    hasher.requestBlockHasher r = .ok (chain hasher.cachingHashFn
      (r.blockHashes.getLast?.getD hasher.noneHash)
      ((List.range' r.blockHashes.length (hasher.numBlocks r-r.blockHashes.length)).map
        (hasher.piece r (seenFrom r.mmFeatures r.blockHashes.length)))) := by
  rw [requestBlockHasher]
  by_cases hfull : r.allTokenIds.length < r.blockHashes.length*hasher.blockSize+hasher.blockSize
  · have hdone : hasher.numBlocks r ≤ r.blockHashes.length :=
      Nat.le_of_not_lt fun h => by have := numBlocks_le_iff.mp h; omega
    simp only [if_pos hfull,Nat.sub_eq_zero_of_le hdone]
    rfl
  · have hseen : ∀ i : Int, i = (if 0 < r.blockHashes.length*hasher.blockSize then -1 else 0) →
        fromIdx r.mmFeatures i = seenFrom r.mmFeatures r.blockHashes.length := by
      rintro i rfl
      obtain hzero | hpos := Nat.eq_zero_or_pos r.blockHashes.length
      · simp [hzero,fromIdx,seenFrom]
      · have := Nat.mul_pos hpos hasher.pos
        simp only [if_pos this,fromIdx,seenFrom,if_neg hpos.ne']
        rw [if_pos (by omega)]
        congr 1
        omega
    simp only [if_neg hfull]
    rw [hashBlocks_spec hapart hpos,hseen _ rfl]
    · have := Nat.div_le_self r.allTokenIds.length hasher.blockSize
      rw [numBlocks]
      omega
    · intro hne
      have := List.length_pos_iff.mpr hne
      split <;> omega

/-- What is hashed for a request with so many prompt tokens: only the blocks of the prompt, or of
the first output that fills a block, are looked through for all features. -/
def pieces (hasher : BlockHasher H) (numPromptTokens : Nat) (r : Request H) :
    List (List Nat × Option (List ExtraKey)) :=
  (List.range (hasher.numBlocks r)).map fun k => hasher.piece r
    (if k < numPromptTokens/hasher.blockSize then r.mmFeatures
      else seenFrom r.mmFeatures (numPromptTokens/hasher.blockSize)) k

/-- The request has its features in its prompt, and its hashes are those of its pieces. -/
structure Hashed (hasher : BlockHasher H) (numPromptTokens : Nat) (r : Request H) : Prop where
  placed : Placed r.mmFeatures numPromptTokens
  le : numPromptTokens ≤ r.allTokenIds.length
  hashes : r.blockHashes = chain hasher.cachingHashFn hasher.noneHash (hasher.pieces numPromptTokens r)

theorem Hashed.length {numPromptTokens : Nat} (h : hasher.Hashed numPromptTokens r) :
    r.blockHashes.length = hasher.numBlocks r := by
  rw [h.hashes,length_chain,pieces,List.length_map,List.length_range]

/-- A full block stays as it is. -/
theorem piece_append {tokenIds : List Nat} {seen : List Feature} {k : Nat}
    (hk : k < hasher.numBlocks r) :
    hasher.piece { r with allTokenIds := r.allTokenIds ++ tokenIds } seen k =
      hasher.piece r seen k := by
  have hle := numBlocks_le_iff.mp hk
  have hslice : ((r.allTokenIds ++ tokenIds).drop (k*hasher.blockSize)).take hasher.blockSize =
      (r.allTokenIds.drop (k*hasher.blockSize)).take hasher.blockSize := by
    rw [List.drop_append_of_le_length (by omega),
      List.take_append_of_le_length (by rw [List.length_drop]; omega)]
  exact Prod.ext hslice rfl

/-- Behind the prompt there is nothing to see. -/
theorem piece_behind {numPromptTokens k : Nat} {seen : List Feature}
    (hplaced : Placed r.mmFeatures numPromptTokens) (hseen : seen ⊆ r.mmFeatures)
    (hk : numPromptTokens ≤ k*hasher.blockSize) : hasher.piece r seen k = hasher.piece r [] k :=
  piece_congr (mediaKeys_nil_of_before fun f hf => (hplaced.within f (hseen hf)).trans hk)

theorem seenFrom_subset (mmFeatures : List Feature) (k : Nat) :
    seenFrom mmFeatures k ⊆ mmFeatures := by
  rw [seenFrom]
  split
  · exact fun _ => id
  · exact List.drop_subset _ _

theorem le_mul_of_lt {n k : Nat} (hk : n/hasher.blockSize < k) : n ≤ k*hasher.blockSize := by
  exact (Nat.lt_mul_of_div_lt hk hasher.pos).le

/-- The new hashes are those of the new blocks. -/
theorem updateBlockHashes_spec {numPromptTokens m : Nat} (hplaced : Placed r.mmFeatures numPromptTokens)
    (hle : numPromptTokens ≤ r.allTokenIds.length) (hm : m ≤ hasher.numBlocks r)
    (hstart : m = 0 ∧ (numPromptTokens/hasher.blockSize = 0 ∨
      hasher.numBlocks r = numPromptTokens/hasher.blockSize) ∨
      0 < m ∧ numPromptTokens/hasher.blockSize ≤ m)
    (hold : r.blockHashes = chain hasher.cachingHashFn hasher.noneHash
      ((hasher.pieces numPromptTokens r).take m)) :
    Returns (hasher.updateBlockHashes r) fun r' => hasher.Hashed numPromptTokens r' ∧
      r' = { r with blockHashes := r'.blockHashes } := by
  have hlen : r.blockHashes.length = m := by
    rw [hold,length_chain,List.length_take,pieces,List.length_map,List.length_range]
    omega
  have hnew : (hasher.pieces numPromptTokens r).drop m =
      (List.range' m (hasher.numBlocks r-m)).map (hasher.piece r (seenFrom r.mmFeatures m)) := by
    rw [pieces,← List.map_drop,List.range_eq_range',List.drop_range',Nat.mul_one,Nat.zero_add]
    refine List.map_congr_left fun k hk => ?_
    have hk := List.mem_range'_1.mp hk
    obtain ⟨rfl,hprompt⟩ | ⟨hpos,hprompt⟩ := hstart
    · obtain hzero | hall := hprompt
      · simp [hzero,seenFrom]
      · rw [if_pos (by omega)]
        rfl
    · rw [if_neg (by omega)]
      obtain hzero | hsome := Nat.eq_zero_or_pos (numPromptTokens/hasher.blockSize)
      · have hbehind : numPromptTokens ≤ k*hasher.blockSize := le_mul_of_lt (by omega)
        rw [piece_behind hplaced (seenFrom_subset _ _) hbehind,
          piece_behind hplaced (seenFrom_subset _ _) hbehind]
      · rw [seenFrom,seenFrom,if_neg hsome.ne',if_neg hpos.ne']
  have hroot : r.blockHashes.getLast?.getD hasher.noneHash =
      ((hasher.pieces numPromptTokens r).take m).foldl hasher.cachingHashFn hasher.noneHash := by
    rw [hold]
    by_cases hnil : (hasher.pieces numPromptTokens r).take m = []
    · rw [hnil]
      rfl
    · rw [getLast?_chain hnil,Option.getD_some]
  rw [updateBlockHashes,requestBlockHasher_eq hplaced.apart hplaced.pos,hroot,hlen,← hnew]
  refine .ok ⟨⟨hplaced,hle,?_⟩,rfl⟩
  change r.blockHashes ++ _ = _
  conv_lhs => rw [hold,← chain_append,List.take_append_drop]
  rfl

theorem newRequest_spec (hasher : BlockHasher H) (requestId : String) {promptTokenIds : List Nat}
    {mmFeatures : List Feature} (loraName cacheSalt : Option String)
    (hplaced : Placed mmFeatures promptTokenIds.length) :
    Returns (hasher.newRequest requestId promptTokenIds mmFeatures loraName cacheSalt) fun r =>
      hasher.Hashed promptTokenIds.length r ∧
      r = ⟨requestId,promptTokenIds,mmFeatures,loraName,cacheSalt,r.blockHashes⟩ :=
  updateBlockHashes_spec (m := 0) hplaced le_rfl (Nat.zero_le _) (.inl ⟨rfl,.inr rfl⟩) rfl

/-- An output adds the hashes of the blocks that it fills. -/
theorem appendOutputTokenIds_spec {numPromptTokens : Nat} (h : hasher.Hashed numPromptTokens r)
    (tokenIds : List Nat) :
    Returns (hasher.appendOutputTokenIds tokenIds r) fun r' => hasher.Hashed numPromptTokens r' ∧
      r' = { r with allTokenIds := r.allTokenIds ++ tokenIds, blockHashes := r'.blockHashes } := by
  have hgrows : hasher.numBlocks r ≤
      hasher.numBlocks { r with allTokenIds := r.allTokenIds ++ tokenIds } :=
    Nat.div_le_div_right (by simp)
  have hprompt : numPromptTokens/hasher.blockSize ≤ hasher.numBlocks r := Nat.div_le_div_right h.le
  refine updateBlockHashes_spec (m := hasher.numBlocks r) h.placed
    (h.le.trans (by simp)) hgrows ?_ ?_
  · obtain hzero | hpos := Nat.eq_zero_or_pos (hasher.numBlocks r)
    · exact .inl ⟨hzero,.inl (Nat.eq_zero_of_le_zero (hzero ▸ hprompt))⟩
    · exact .inr ⟨hpos,hprompt⟩
  · refine h.hashes.trans (congrArg _ ?_)
    rw [pieces,pieces,← List.map_take,List.take_range,Nat.min_eq_left hgrows]
    exact List.map_congr_left fun k hk => (piece_append (List.mem_range.mp hk)).symm

/-- A request as it is made from its prompt and gets its outputs. -/
inductive Built (hasher : BlockHasher H) : (numPromptTokens : Nat) → Request H → Prop
  | new {requestId : String} {promptTokenIds : List Nat} {mmFeatures : List Feature}
      {loraName cacheSalt : Option String} {r : Request H}
      (placed : Placed mmFeatures promptTokenIds.length)
      (made : hasher.newRequest requestId promptTokenIds mmFeatures loraName cacheSalt = .ok r) :
      Built hasher promptTokenIds.length r
  | append {numPromptTokens : Nat} {r r' : Request H} {tokenIds : List Nat}
      (built : Built hasher numPromptTokens r)
      (appended : hasher.appendOutputTokenIds tokenIds r = .ok r') : Built hasher numPromptTokens r'

/-- Whatever a request got, its hashes are those of all its full blocks. -/
theorem Built.hashed {numPromptTokens : Nat} (h : hasher.Built numPromptTokens r) :
    hasher.Hashed numPromptTokens r := by
  induction h with
  | new placed made => exact ((newRequest_spec hasher _ _ _ placed).of_eq made).1
  | append _ appended ih => exact ((appendOutputTokenIds_spec ih _).of_eq appended).1

/-- In the last, incomplete block of the prompt only the last feature goes on. -/
def Settled (hasher : BlockHasher H) (numPromptTokens : Nat) (mmFeatures : List Feature) : Prop :=
  numPromptTokens/hasher.blockSize = 0 ∨ ∀ f ∈ mmFeatures.dropLast,
    f.offset+f.length ≤ numPromptTokens/hasher.blockSize*hasher.blockSize

theorem mediaKeys_last {mmFeatures : List Feature} {s e : Nat}
    (h : ∀ f ∈ mmFeatures.dropLast, f.offset+f.length ≤ s) :
    mediaKeys s e (mmFeatures.drop (mmFeatures.length-1)) = mediaKeys s e mmFeatures := by
  conv_rhs => rw [← List.take_append_drop (mmFeatures.length-1) mmFeatures,mediaKeys_append]
  rw [← List.dropLast_eq_take,mediaKeys_nil_of_before h,List.nil_append]

/-- In a settled request every block is hashed with all features that lie in it. -/
theorem pieces_settled {numPromptTokens : Nat} (h : hasher.Settled numPromptTokens r.mmFeatures) :
    hasher.pieces numPromptTokens r =
      (List.range (hasher.numBlocks r)).map (hasher.piece r r.mmFeatures) := by
  refine List.map_congr_left fun k _ => ?_
  by_cases hprompt : k < numPromptTokens/hasher.blockSize
  · rw [if_pos hprompt]
  · rw [if_neg hprompt,seenFrom]
    obtain hzero | hends := h
    · rw [if_pos hzero]
    · split
      · rfl
      · exact piece_congr (mediaKeys_last fun f hf => (hends f hf).trans
          (Nat.mul_le_mul_right _ (not_lt.mp hprompt)))

end BlockHasher
end TLiveOmni.Kv
