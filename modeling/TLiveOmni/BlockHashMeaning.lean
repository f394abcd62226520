import Mathlib.Data.List.Sort
import TLiveOmni.BlockHashSound

/-! When two blocks have the same hash: exactly when they have the same place, and the requests
agree on the tokens and media up to their end and on their labels. -/
set_option autoImplicit false

namespace TLiveOmni.Kv
open Vllm (Feature)
open Sched (Fault Apart)
open HashChain

/-- The token at `p` stands for the row `k` of the media item `x`. -/
def Shows (mmFeatures : List Feature) (p : Nat) (x : String) (k : Nat) : Prop :=
  ∃ f ∈ mmFeatures, f.identifier = x ∧ f.offset+k = p ∧ k < f.length

section Media
variable {s e : Nat} {mmFeatures mmFeatures' : List Feature} {numPromptTokens : Nat}

theorem mem_mediaKeys {x : String} {d : Int} : ExtraKey.media x d ∈ mediaKeys s e mmFeatures ↔
    ∃ f ∈ mmFeatures, f.identifier = x ∧ (f.offset : Int)-s = d ∧
      f.offset < e ∧ s < f.offset+f.length := by
  simp only [mediaKeys,List.mem_map,List.mem_filter,decide_eq_true_eq,ExtraKey.media.injEq]
  constructor
  · rintro ⟨f,⟨hf,hin⟩,hx,hd⟩
    exact ⟨f,hf,hx,hd,hin⟩
  · rintro ⟨f,hf,hx,hd,hin⟩
    exact ⟨f,⟨hf,hin⟩,hx,hd⟩

/-- One media key is before another. -/
def ExtraKey.Before : ExtraKey → ExtraKey → Prop
  | .media _ d, .media _ d' => d < d'
  | _, _ => False

instance : Std.Irrefl ExtraKey.Before := ⟨fun a => by cases a <;> simp [ExtraKey.Before]⟩

instance : Std.Antisymm ExtraKey.Before := ⟨fun a b h h' => by
  cases a <;> cases b <;> simp only [ExtraKey.Before] at h h'
  omega⟩

theorem pairwise_mediaKeys (h : Placed mmFeatures numPromptTokens) :
    (mediaKeys s e mmFeatures).Pairwise ExtraKey.Before := by
  rw [mediaKeys,List.pairwise_map]
  refine List.Pairwise.filter _ ((List.Pairwise.and_mem.mp h.apart).imp fun {f g} hfg => ?_)
  have := h.pos f hfg.1
  simp only [ExtraKey.Before]
  omega

/-- The keys of a block are the same exactly when the media at its tokens are, if the number of
tokens belongs to the item. -/
theorem mediaKeys_eq_iff {numPromptTokens' : Nat} (hse : s < e) (h : Placed mmFeatures numPromptTokens)
    (h' : Placed mmFeatures' numPromptTokens')
    (hlen : ∀ f ∈ mmFeatures, ∀ g ∈ mmFeatures', f.identifier = g.identifier → f.length = g.length) :
    mediaKeys s e mmFeatures = mediaKeys s e mmFeatures' ↔
      ∀ p, s ≤ p → p < e → ∀ x k, Shows mmFeatures p x k ↔ Shows mmFeatures' p x k := by
  constructor
  · intro heq p hs he x k
    have hto : ∀ {l l' : List Feature}, mediaKeys s e l = mediaKeys s e l' →
        (∀ f ∈ l, ∀ g ∈ l', f.identifier = g.identifier → f.length = g.length) →
        Shows l p x k → Shows l' p x k := by
      rintro l l' heq hlen ⟨f,hf,rfl,hp,hk⟩
      have hmem : ExtraKey.media f.identifier ((f.offset : Int)-s) ∈ mediaKeys s e l :=
        mem_mediaKeys.mpr ⟨f,hf,rfl,rfl,by omega,by omega⟩
      rw [heq] at hmem
      obtain ⟨g,hg,hid,hoff,-⟩ := mem_mediaKeys.mp hmem
      exact ⟨g,hg,hid,by omega,hlen f hf g hg hid.symm ▸ hk⟩
    exact ⟨hto heq hlen,hto heq.symm fun f hf g hg hid => (hlen g hg f hf hid.symm).symm⟩
  · intro hshows
    have hto : ∀ {l l' : List Feature} {n : Nat}, Placed l n →
        (∀ p, s ≤ p → p < e → ∀ x k, Shows l p x k → Shows l' p x k) →
        ∀ x d, ExtraKey.media x d ∈ mediaKeys s e l → ExtraKey.media x d ∈ mediaKeys s e l' := by
      intro l l' n hl hto x d hmem
      obtain ⟨f,hf,rfl,rfl,hbefore,hafter⟩ := mem_mediaKeys.mp hmem
      have hpos := hl.pos f hf
      obtain ⟨g,hg,hid,hoff,hlt⟩ := hto (max s f.offset) (le_max_left _ _) (by omega) f.identifier
        (max s f.offset-f.offset) ⟨f,hf,rfl,by omega,by omega⟩
      exact mem_mediaKeys.mpr ⟨g,hg,hid,by omega,by omega,by omega⟩
    refine (pairwise_mediaKeys h).eq_of_mem_iff (pairwise_mediaKeys h') fun a => ?_
    cases a with
    | text t => simp [mediaKeys]
    | media x d =>
      exact ⟨hto h (fun p hs he x k => (hshows p hs he x k).mp) x d,
        hto h' (fun p hs he x k => (hshows p hs he x k).mpr) x d⟩

/-- The first block has no media key if no feature starts in it. -/
theorem mediaKeys_first (h : Placed mmFeatures numPromptTokens) :
    mediaKeys 0 e mmFeatures = [] ↔ ∀ f ∈ mmFeatures, e ≤ f.offset := by
  refine ⟨fun hnone f hf => ?_,mediaKeys_nil_of_behind⟩
  rw [mediaKeys,List.map_eq_nil_iff,List.filter_eq_nil_iff] at hnone
  have hout := hnone f hf
  have hpos := h.pos f hf
  simp only [decide_eq_true_eq] at hout
  omega

end Media

section Labels
variable {H : Type} {r r' : Request H} {s e : Nat} {seen seen' : List Feature}

def ExtraKey.isMedia : ExtraKey → Bool
  | .media _ _ => true
  | .text _ => false

theorem filter_text (l : List String) : (l.map ExtraKey.text).filter ExtraKey.isMedia = [] := by
  induction l with
  | nil => rfl
  | cons t l ih => exact ih

theorem filter_mediaKeys (s e : Nat) (l : List Feature) :
    (mediaKeys s e l).filter ExtraKey.isMedia = mediaKeys s e l := by
  rw [List.filter_eq_self]
  intro a ha
  obtain ⟨f,-,rfl⟩ := List.mem_map.mp ha
  rfl

theorem map_text_inj {l l' : List String} : l.map ExtraKey.text = l'.map ExtraKey.text ↔ l = l' :=
  (List.map_injective_iff.mpr fun _ _ h => ExtraKey.text.inj h).eq_iff

/-- Texts around media keys: the media keys are the same, and so are the texts before and those
behind, unless there is no media key to part them. -/
theorem texts_media_texts (a b a' b' : List String) {m m' : List ExtraKey}
    (hm : m.filter ExtraKey.isMedia = m) (hm' : m'.filter ExtraKey.isMedia = m') :
    a.map ExtraKey.text ++ m ++ b.map ExtraKey.text =
      a'.map ExtraKey.text ++ m' ++ b'.map ExtraKey.text ↔
    m = m' ∧ (a = a' ∧ b = b' ∨ m = [] ∧ a ++ b = a' ++ b') := by
  constructor
  · intro h
    have hmedia := congrArg (List.filter ExtraKey.isMedia) h
    simp only [List.filter_append,filter_text,hm,hm',List.nil_append,List.append_nil] at hmedia
    subst hmedia
    refine ⟨rfl,?_⟩
    cases m with
    | nil => exact .inr ⟨rfl,by simpa [← List.map_append,map_text_inj] using h⟩
    | cons k m =>
      have hk : k.isMedia := by
        have hmem : k ∈ (k :: m).filter ExtraKey.isMedia := by
          rw [hm]
          exact List.mem_cons_self
        exact (List.mem_filter.mp hmem).2
      have htake : ∀ c d : List String, (c.map ExtraKey.text ++ (k :: m) ++ d.map ExtraKey.text).takeWhile
          (fun x => !x.isMedia) = c.map ExtraKey.text := by
        intro c d
        rw [List.append_assoc,List.takeWhile_append_of_pos]
        · simp [hk]
        · intro x hx
          obtain ⟨t,-,rfl⟩ := List.mem_map.mp hx
          rfl
      have hfirst := congrArg (List.takeWhile fun x => !x.isMedia) h
      rw [htake,htake,map_text_inj] at hfirst
      subst hfirst
      rw [List.append_cancel_left_eq,map_text_inj] at h
      exact .inl ⟨rfl,h⟩
  · rintro ⟨rfl,⟨rfl,rfl⟩ | ⟨rfl,h⟩⟩
    · rfl
    · rw [List.append_nil,List.append_nil,← List.map_append,← List.map_append,h]

theorem Request.blockKeys_eq_iff : r.blockKeys seen s e = r'.blockKeys seen' s e ↔
    mediaKeys s e seen = mediaKeys s e seen' ∧
    (r.loraName = r'.loraName ∧ (s = 0 → r.salts = r'.salts) ∨
      s = 0 ∧ mediaKeys s e seen = [] ∧
        r.loraName.toList ++ r.salts = r'.loraName.toList ++ r'.salts) := by
  have hopt : ∀ l l' : List ExtraKey,
      (if l = [] then none else some l) = (if l' = [] then none else some l') ↔ l = l' := by
    intro l l'
    by_cases hl : l = [] <;> by_cases hl' : l' = [] <;> simp [hl,hl',eq_comm]
  have hlora : r.loraName.toList = r'.loraName.toList ↔ r.loraName = r'.loraName := by
    cases r.loraName <;> cases r'.loraName <;> simp
  have htexts := fun b b' => texts_media_texts r.loraName.toList b r'.loraName.toList b'
    (filter_mediaKeys s e seen) (filter_mediaKeys s e seen')
  rw [blockKeys,blockKeys,hopt]
  by_cases hs : s = 0
  · subst hs
    simp only [true_imp_iff,true_and,← hlora]
    exact htexts r.salts r'.salts
  · simp only [hs,false_imp_iff,false_and,and_true,or_false,← hlora]
    refine (htexts [] []).trans ?_
    simp only [List.append_nil,and_true]
    tauto

end Labels

namespace BlockHasher
variable {H : Type} {hasher : BlockHasher H} {r r' : Request H} {numPromptTokens numPromptTokens' : Nat}

/-- What is hashed for the request, each piece with the hash before it. -/
def hashed (hasher : BlockHasher H) (numPromptTokens : Nat) (r : Request H) :
    List (H × List Nat × Option (List ExtraKey)) :=
  links hasher.cachingHashFn hasher.noneHash (hasher.pieces numPromptTokens r)

/-- The hash function does not collide on what is hashed for the two requests. -/
def TellsApart (hasher : BlockHasher H) (numPromptTokens : Nat) (r : Request H)
    (numPromptTokens' : Nat) (r' : Request H) : Prop :=
  Separates hasher.cachingHashFn hasher.noneHash
    (hasher.hashed numPromptTokens r ++ hasher.hashed numPromptTokens' r')

theorem slice_take {l : List Nat} {a b n : Nat} (h : a+b ≤ n) :
    ((l.take n).drop a).take b = (l.drop a).take b := by
  rw [List.drop_take,List.take_take,Nat.min_eq_left (by omega)]

/-- The blocks up to one are the same if and only if all tokens up to its end are. -/
theorem blocks_eq_iff {l l' : List Nat} {b i : Nat} :
    (∀ k ≤ i, (l.drop (k*b)).take b = (l'.drop (k*b)).take b) ↔
      l.take ((i+1)*b) = l'.take ((i+1)*b) := by
  constructor
  · intro h
    induction i with
    | zero => simpa using h 0 le_rfl
    | succ i ih =>
      rw [Nat.succ_mul,List.take_add,List.take_add,ih fun k hk => h k (Nat.le_succ_of_le hk),
        h (i+1) le_rfl]
  · intro h k hk
    have hle : k*b+b ≤ (i+1)*b := by
      rw [← Nat.succ_mul]
      exact Nat.mul_le_mul_right _ (Nat.succ_le_succ hk)
    rw [← slice_take hle,h,slice_take hle]

/-- The requests agree on the first `n` tokens, and on the media rows that these stand for. -/
structure Agree (n : Nat) (r r' : Request H) : Prop where
  tokens : r.allTokenIds.take n = r'.allTokenIds.take n
  media : ∀ p < n, ∀ x k, Shows r.mmFeatures p x k ↔ Shows r'.mmFeatures p x k

/-- The requests have the same LoRA and cache salt. In a first block without media the LoRA name of
a request without a salt passes for the salt of one without a LoRA. -/
def SameLabels (hasher : BlockHasher H) (i : Nat) (r r' : Request H) : Prop :=
  r.loraName = r'.loraName ∧ r.salts = r'.salts ∨
  i = 0 ∧ (∀ f ∈ r.mmFeatures, hasher.blockSize ≤ f.offset) ∧
    r.loraName.toList ++ r.salts = r'.loraName.toList ++ r'.salts

/-- A block hash stands for everything up to the end of its block. -/
theorem Hashed.sameHash_iff (hr : hasher.Hashed numPromptTokens r)
    (hr' : hasher.Hashed numPromptTokens' r') (hs : hasher.Settled numPromptTokens r.mmFeatures)
    (hs' : hasher.Settled numPromptTokens' r'.mmFeatures)
    (hlen : ∀ f ∈ r.mmFeatures, ∀ g ∈ r'.mmFeatures, f.identifier = g.identifier → f.length = g.length)
    (hapart : hasher.TellsApart numPromptTokens r numPromptTokens' r') {i j : Nat}
    (hi : i < r.blockHashes.length) (hj : j < r'.blockHashes.length) :
    r.blockHashes[i]? = r'.blockHashes[j]? ↔
      i = j ∧ Agree ((i+1)*hasher.blockSize) r r' ∧ hasher.SameLabels i r r' := by
  rw [hr.length] at hi
  rw [hr'.length] at hj
  rw [hr.hashes,hr'.hashes,Separates.getElem?_eq_iff hapart (by simpa [pieces] using hi)
    (by simpa [pieces] using hj)]
  refine and_congr_right fun hij => ?_
  subst hij
  rw [pieces_settled hs,pieces_settled hs',← List.map_take,← List.map_take,List.take_range,
    List.take_range,Nat.min_eq_left hi,Nat.min_eq_left hj,List.map_inj_left]
  have hblock : ∀ k, hasher.piece r r.mmFeatures k = hasher.piece r' r'.mmFeatures k ↔
      (r.allTokenIds.drop (k*hasher.blockSize)).take hasher.blockSize =
        (r'.allTokenIds.drop (k*hasher.blockSize)).take hasher.blockSize ∧
      (∀ p, k*hasher.blockSize ≤ p → p < k*hasher.blockSize+hasher.blockSize → ∀ x k,
        Shows r.mmFeatures p x k ↔ Shows r'.mmFeatures p x k) ∧
      (r.loraName = r'.loraName ∧ (k*hasher.blockSize = 0 → r.salts = r'.salts) ∨
        k*hasher.blockSize = 0 ∧ mediaKeys (k*hasher.blockSize)
          (k*hasher.blockSize+hasher.blockSize) r.mmFeatures = [] ∧
          r.loraName.toList ++ r.salts = r'.loraName.toList ++ r'.salts) := fun k => by
    rw [← mediaKeys_eq_iff (Nat.lt_add_of_pos_right hasher.pos) hr.placed hr'.placed hlen,
      ← Request.blockKeys_eq_iff,piece,piece,Prod.mk.injEq]
  simp only [hblock,List.mem_range,Nat.lt_add_one_iff]
  constructor
  · intro h
    refine ⟨⟨blocks_eq_iff.mp fun k hk => (h k hk).1,fun p hp => ?_⟩,?_⟩
    · have hk : p/hasher.blockSize < i+1 := Nat.div_lt_of_lt_mul (by rwa [Nat.mul_comm])
      refine (h _ (Nat.lt_add_one_iff.mp hk)).2.1 p (Nat.div_mul_le_self _ _) ?_
      rw [← Nat.succ_mul]
      exact Nat.lt_mul_of_div_lt (Nat.lt_succ_self _) hasher.pos
    · obtain ⟨hlora,hsalts⟩ | ⟨-,hnone,hmixed⟩ := (h 0 (Nat.zero_le i)).2.2
      · exact .inl ⟨hlora,hsalts (Nat.zero_mul _)⟩
      · cases i with
        | zero =>
          rw [Nat.zero_mul,Nat.zero_add,mediaKeys_first hr.placed] at hnone
          exact .inr ⟨rfl,hnone,hmixed⟩
        | succ i =>
          obtain ⟨hlora,-⟩ | ⟨hzero,-⟩ := (h 1 (by omega)).2.2
          · rw [hlora,List.append_cancel_left_eq] at hmixed
            exact .inl ⟨hlora,hmixed⟩
          · rw [Nat.one_mul] at hzero
            exact absurd hzero hasher.pos.ne'
  · rintro ⟨⟨htokens,hmedia⟩,hlabels⟩ k hk
    refine ⟨blocks_eq_iff.mpr htokens k hk,fun p _ hp => hmedia p ?_,?_⟩
    · rw [← Nat.succ_mul] at hp
      exact hp.trans_le (Nat.mul_le_mul_right _ (Nat.succ_le_succ hk))
    · obtain ⟨hlora,hsalts⟩ | ⟨rfl,hnone,hmixed⟩ := hlabels
      · exact .inl ⟨hlora,fun _ => hsalts⟩
      · rw [Nat.le_zero.mp hk,Nat.zero_mul,Nat.zero_add,mediaKeys_first hr.placed]
        exact .inr ⟨rfl,hnone,hmixed⟩

/-- Hashes that keep all they are taken of. -/
inductive Digest where
  | root
  | block (parent : Digest) (tokenIds : List Nat) (extraKeys : Option (List ExtraKey))
  deriving DecidableEq

def digests (blockSize : Nat) (pos : 0 < blockSize) : BlockHasher Digest :=
  ⟨blockSize,pos,fun parent x => .block parent x.1 x.2,.root⟩

theorem digests_tellsApart {blockSize : Nat} (pos : 0 < blockSize) (n n' : Nat)
    (r r' : Request Digest) : (digests blockSize pos).TellsApart n r n' r' :=
  ⟨fun a _ b _ h => by
    obtain ⟨hparent,htokens,hkeys⟩ := Digest.block.inj h
    exact Prod.ext hparent (Prod.ext htokens hkeys),fun a _ h => Digest.noConfusion h⟩

/-- Fours of tokens. -/
abbrev fours : BlockHasher Digest := digests 4 (by decide)

def image (identifier : String) (offset length : Nat) : Feature :=
  ⟨.image,identifier,offset,length,none,by simp⟩

end BlockHasher

section Hidden
variable {H : Type} {hasher : BlockHasher H} {r r' : Request H} {pre rest rest' : List Feature}
  {v : Feature} {s e i : Nat}

/-- The scan does not get past a feature that ends behind the block. -/
theorem scanFeatures_stops (rest : List Feature) (hse : s ≤ e) (hv : e < v.offset+v.length) :
    scanFeatures s e (pre ++ v :: rest) i = scanFeatures s e (pre ++ [v]) i ∧
      (scanFeatures s e (pre ++ [v]) i).2 ≤ i+pre.length := by
  have hs : ¬ v.offset+v.length ≤ s := by omega
  have he : ¬ v.offset+v.length ≤ e := by omega
  induction pre generalizing i with
  | nil =>
    by_cases hin : v.offset < e
    · simp [scanFeatures,hin,hs,he]
    · simp [scanFeatures,hin]
  | cons f pre ih =>
    obtain ⟨heq,hle⟩ := ih (i := i+1)
    simp only [List.cons_append,scanFeatures,heq,List.length_cons,true_and]
    have hnext : i+1+pre.length = i+(pre.length+1) := by omega
    rw [hnext] at hle
    split
    · split
      · exact hle
      · split
        · exact hle
        · exact Nat.le_add_right _ _
    · exact Nat.le_add_right _ _

/-- The last feature ends no earlier than the given one. -/
def EndsLast (v : Feature) (rest : List Feature) : Prop :=
  ∀ last ∈ (v :: rest).getLast?, v.offset+v.length ≤ last.offset+last.length

theorem genMmExtraHashKeys_stops (hlast : EndsLast v rest) (hse : s ≤ e)
    (hv : e < v.offset+v.length) (hi : i ≤ pre.length) :
    genMmExtraHashKeys s e (pre ++ v :: rest) i =
      .ok ((scanFeatures s e (pre.drop i ++ [v]) i).1,(scanFeatures s e (pre.drop i ++ [v]) i).2) := by
  obtain ⟨last,hlast'⟩ : ∃ last, (v :: rest).getLast? = some last :=
    ⟨_,List.getLast?_eq_some_getLast (List.cons_ne_nil _ _)⟩
  have hends := hlast last hlast'
  have hall : (pre ++ v :: rest).getLast? = some last := by
    rw [List.getLast?_append,hlast']
    rfl
  rw [genMmExtraHashKeys,hall]
  simp only
  rw [if_neg (by omega),if_neg (by omega),Int.toNat_natCast,List.drop_append_of_le_length hi,
    (scanFeatures_stops rest hse hv).1]

namespace BlockHasher

/-- The requests have the same tokens and labels, and the same features up to one. -/
structure SameUpTo (pre : List Feature) (v : Feature) (rest rest' : List Feature)
    (r r' : Request H) : Prop where
  tokens : r.allTokenIds = r'.allTokenIds
  lora : r.loraName = r'.loraName
  salt : r.cacheSalt = r'.cacheSalt
  features : r.mmFeatures = pre ++ v :: rest
  features' : r'.mmFeatures = pre ++ v :: rest'

theorem SameUpTo.extraKeys (h : SameUpTo pre v rest rest' r r') (hlast : EndsLast v rest)
    (hlast' : EndsLast v rest') (hse : s ≤ e) (hv : e < v.offset+v.length) (hi : i ≤ pre.length) :
    ∃ keys, ∃ j : Nat, j ≤ pre.length ∧ r.generateBlockHashExtraKeys s e i = .ok (keys,j) ∧
      r'.generateBlockHashExtraKeys s e i = .ok (keys,j) := by
  have hj : (scanFeatures s e (pre.drop i ++ [v]) i).2 ≤ i+(pre.drop i).length :=
    (scanFeatures_stops [] hse hv).2
  rw [List.length_drop,Nat.add_sub_cancel' hi] at hj
  let extraKeys := r.genLoraExtraHashKeys ++ (scanFeatures s e (pre.drop i ++ [v]) i).1 ++
    (if s = 0 then r.saltKeys else [])
  refine ⟨if extraKeys = [] then none else some extraKeys,_,hj,?_,?_⟩
  · rw [Request.generateBlockHashExtraKeys,h.features,genMmExtraHashKeys_stops hlast hse hv hi]
    rfl
  · rw [Request.generateBlockHashExtraKeys,h.features',genMmExtraHashKeys_stops hlast' hse hv hi,
      Request.genLoraExtraHashKeys,Request.saltKeys,Request.salts,← h.lora,← h.salt]
    rfl

theorem SameUpTo.hashBlocks (h : SameUpTo pre v rest rest' r r') (hlast : EndsLast v rest)
    (hlast' : EndsLast v rest') {rounds start n : Nat} {prev : Option H} {l l' : List H}
    (hi : i ≤ pre.length) (heq : hasher.hashBlocks r rounds start i prev = .ok l)
    (heq' : hasher.hashBlocks r' rounds start i prev = .ok l')
    (hn : start+(n+1)*hasher.blockSize < v.offset+v.length) : l[n]? = l'[n]? := by
  induction rounds generalizing start n i prev l l' with
  | zero =>
    cases heq
    cases heq'
    rfl
  | succ rounds ih =>
    rw [BlockHasher.hashBlocks] at heq heq'
    rw [← h.tokens] at heq'
    by_cases hfull : r.allTokenIds.length < start+hasher.blockSize
    · simp only [if_pos hfull] at heq heq'
      cases heq
      cases heq'
      rfl
    · simp only [if_neg hfull] at heq heq'
      rw [Nat.succ_mul] at hn
      obtain ⟨keys,j,hj,hkeys,hkeys'⟩ := h.extraKeys hlast hlast' (s := start)
        (e := start+hasher.blockSize) (Nat.le_add_right _ _) (by omega) hi
      rw [hkeys] at heq
      rw [hkeys'] at heq'
      change (hasher.hashBlocks r rounds _ _ _ >>= _) = _ at heq
      change (hasher.hashBlocks r' rounds _ _ _ >>= _) = _ at heq'
      obtain ⟨news,hnews,hl⟩ := Returns.exists_of_bind heq
      obtain ⟨news',hnews',hl'⟩ := Returns.exists_of_bind heq'
      cases hl
      cases hl'
      cases n with
      | zero => rfl
      | succ n =>
        rw [List.getElem?_cons_succ,List.getElem?_cons_succ]
        refine ih hj hnews hnews' ?_
        rw [Nat.succ_mul] at hn ⊢
        omega

/-- A block that ends inside of a feature has the same hash whatever features are listed behind
that one, even if they cover the same tokens: this is so for the sound of a video. -/
theorem hidden_media {requestId requestId' : String} {tokenIds : List Nat}
    {loraName cacheSalt : Option String} (hlast : EndsLast v rest) (hlast' : EndsLast v rest')
    (h : hasher.newRequest requestId tokenIds (pre ++ v :: rest) loraName cacheSalt = .ok r)
    (h' : hasher.newRequest requestId' tokenIds (pre ++ v :: rest') loraName cacheSalt = .ok r')
    (hi : (i+1)*hasher.blockSize < v.offset+v.length) : r.blockHashes[i]? = r'.blockHashes[i]? := by
  obtain ⟨l,hl,heq⟩ := Returns.exists_of_bind h
  obtain ⟨l',hl',heq'⟩ := Returns.exists_of_bind h'
  cases heq
  cases heq'
  rw [requestBlockHasher] at hl hl'
  simp only [List.length_nil,Nat.zero_mul,Nat.zero_add] at hl hl'
  change l[i]? = l'[i]?
  by_cases hfull : tokenIds.length < hasher.blockSize
  · simp only [if_pos hfull] at hl hl'
    cases hl
    cases hl'
    rfl
  · simp only [if_neg hfull] at hl hl'
    have hsame : SameUpTo pre v rest rest'
        (⟨requestId,tokenIds,pre ++ v :: rest,loraName,cacheSalt,[]⟩ : Request H)
        ⟨requestId',tokenIds,pre ++ v :: rest',loraName,cacheSalt,[]⟩ := ⟨rfl,rfl,rfl,rfl,rfl⟩
    exact hsame.hashBlocks hlast hlast' (i := 0) (Nat.zero_le _) hl hl' (by omega)

/-- Two sounds of the same video. -/
theorem hidden_media_fours : ∃ r r' : Request Digest,
    r.mmFeatures = [image "v" 0 10,image "a" 0 10] ∧
    r'.mmFeatures = [image "v" 0 10,image "b" 0 10] ∧ r.blockHashes.length = 2 ∧
    r.blockHashes[1]? = r'.blockHashes[1]? := by
  have hmade : ∀ id x, ∃ r, fours.newRequest id (List.replicate 10 0) [image "v" 0 10,image x 0 10]
      none none = .ok r ∧ r.mmFeatures = [image "v" 0 10,image x 0 10] ∧ r.blockHashes.length = 2 :=
    fun id x => ⟨_,rfl,rfl,rfl⟩
  obtain ⟨r,hr,hfeatures,hlen⟩ := hmade "r" "a"
  obtain ⟨r',hr',hfeatures',-⟩ := hmade "s" "b"
  exact ⟨r,r',hfeatures,hfeatures',hlen,@hidden_media _ fours r r' [] [image "a" 0 10]
    [image "b" 0 10] (image "v" 0 10) 1 "r" "s" _ none none (by simp [EndsLast,image])
    (by simp [EndsLast,image]) hr hr' (by decide)⟩

end BlockHasher
end Hidden
end TLiveOmni.Kv
