import TLiveOmni.EncoderCache

/-! `_try_schedule_encoder_inputs`: which encoder inputs of a request run in a step, and how many
of its tokens. -/
set_option autoImplicit false

namespace TLiveOmni.Sched
open Vllm (Feature)

/-- Finished requests leave the scheduler, so their states are not among these. -/
inductive RequestStatus where
  | waiting | running | preempted
  deriving DecidableEq, Repr

/-- `__str__`. -/
def RequestStatus.str : RequestStatus → String
  | .waiting => "WAITING"
  | .running => "RUNNING"
  | .preempted => "PREEMPTED"

structure Request where
  requestId : String
  priority : Int
  arrivalTime : Nat
  numPromptTokens : Nat
  minTokens : Nat
  maxTokens : Nat
  mmFeatures : List Feature
  status : RequestStatus
  numOutputTokens : Nat
  numComputedTokens : Nat

/-- `num_tokens`. -/
def Request.numTokens (r : Request) : Nat := r.numPromptTokens+r.numOutputTokens

/-- The rows the encoder computes for the inputs. -/
def numEmbeds (inputs : List Feature) : Nat := (inputs.map Feature.getNumEmbeds).sum

/-- What the loop over the features of a request changes. -/
structure EncoderPass where
  numNewTokens : Int
  encoderComputeBudget : Int
  encoderInputs : List Feature
  cache : EncoderCacheManager

section Try
variable (disableChunkedMmInput : Bool) (requestId : String) (numComputedTokens : Nat)

/-- The loop over the features. The hashes and the embeddings that are scheduled so far are those
of the inputs. -/
def scheduleInputs : List Feature → EncoderPass → Except Fault EncoderPass
  | [], s => .ok s
  | f :: mmFeatures, s =>
    if numComputedTokens+s.numNewTokens ≤ f.offset then .ok s
    else if f.offset+f.length ≤ numComputedTokens then scheduleInputs mmFeatures s
    else if f.identifier ∈ s.encoderInputs.map Feature.identifier then scheduleInputs mmFeatures s
    else do
      let checked ← s.cache.checkAndUpdateCache requestId f
      if checked.1 then scheduleInputs mmFeatures { s with cache := checked.2 }
      else if disableChunkedMmInput ∧ numComputedTokens < f.offset ∧
          numComputedTokens+s.numNewTokens < (f.offset+f.length : Nat) then
        pure { s with cache := checked.2, numNewTokens := max 0 ((f.offset : Int)-numComputedTokens) }
      else do
        let allocated ← checked.2.canAllocate f s.encoderComputeBudget (numEmbeds s.encoderInputs)
        let s := { s with cache := allocated.2 }
        if allocated.1 then
          let startIdxRel := numComputedTokens-f.offset
          let endIdxRel := min ((numComputedTokens : Int)+s.numNewTokens-f.offset).toNat f.length
          let range := f.getEmbedsIndicesInRange startIdxRel endIdxRel
          if range.1 = range.2 then scheduleInputs mmFeatures s
          else scheduleInputs mmFeatures { s with
            encoderComputeBudget := s.encoderComputeBudget-f.getNumEmbeds
            encoderInputs := s.encoderInputs ++ [f] }
        else if numComputedTokens < f.offset then
          pure { s with numNewTokens := (f.offset : Int)-numComputedTokens }
        else pure { s with numNewTokens := 0 }

/-- `_try_schedule_encoder_inputs`. -/
def tryScheduleEncoderInputs (mmFeatures : List Feature) (numNewTokens encoderComputeBudget : Int)
    (cache : EncoderCacheManager) : Except Fault EncoderPass :=
  if numNewTokens = 0 ∨ mmFeatures = [] then .ok ⟨numNewTokens,encoderComputeBudget,[],cache⟩
  else scheduleInputs disableChunkedMmInput requestId numComputedTokens mmFeatures
    ⟨numNewTokens,encoderComputeBudget,[],cache⟩

end Try

/-- The features of a request as its maker promises them: none is empty, they are in the order of
their offsets, and their number of embeddings belongs to the identifier. -/
structure Features (size : String → Nat) (mmFeatures : List Feature) : Prop where
  sorted : mmFeatures.Pairwise fun f g => f.offset ≤ g.offset
  pos : ∀ f ∈ mmFeatures, 0 < f.length
  weight : ∀ f ∈ mmFeatures, size f.identifier = f.getNumEmbeds

section Spec
variable {size : String → Nat} {requestId : String} {numComputedTokens : Nat}
  {mmFeatures : List Feature} {m : EncoderCacheManager} {encoderComputeBudget : Int}
  {s s' : EncoderPass}

/-- What holds throughout the loop: the inputs it has chosen are new to the cache, fit into its
free slots, and are paid from the budget. -/
structure EncoderPass.Ok (size : String → Nat) (requestId : String) (mmFeatures : List Feature)
    (m : EncoderCacheManager) (encoderComputeBudget : Int) (s : EncoderPass) : Prop where
  accounts : s.cache.Ok size
  touched : EncoderCacheManager.Touched requestId (fun h => ∃ f ∈ mmFeatures, f.identifier = h)
    m s.cache
  fresh : ∀ f ∈ s.encoderInputs, f ∈ mmFeatures ∧ f.identifier ∉ s.cache.cached
  nodup : (s.encoderInputs.map Feature.identifier).Nodup
  room : (numEmbeds s.encoderInputs : Int) ≤ s.cache.numFreeSlots
  spent : s.encoderComputeBudget+numEmbeds s.encoderInputs = encoderComputeBudget
  budget : 0 ≤ s.encoderComputeBudget

/-- The feature's output will be in the cache: it runs now, or is referred to. -/
def EncoderPass.Covers (requestId : String) (s : EncoderPass) (f : Feature) : Prop :=
  f.identifier ∈ s.encoderInputs.map Feature.identifier ∨ requestId ∈ s.cache.refs f.identifier

theorem EncoderPass.Ok.step {cache : EncoderCacheManager} {ids : String → Prop}
    (h : s.Ok size requestId mmFeatures m encoderComputeBudget) (hok : cache.Ok size)
    (htouched : EncoderCacheManager.Touched requestId ids s.cache cache)
    (hids : ∀ k, ids k → ∃ f ∈ mmFeatures, f.identifier = k) (n : Int) :
    ({ s with cache := cache, numNewTokens := n } : EncoderPass).Ok size requestId mmFeatures m
      encoderComputeBudget := by
  obtain ⟨evicted,-,hkeys⟩ := htouched.freed
  refine ⟨hok,h.touched.trans (htouched.mono hids),fun f hf => ⟨(h.fresh f hf).1,fun hc => ?_⟩,
    h.nodup,h.room.trans htouched.slots,h.spent,h.budget⟩
  exact (h.fresh f hf).2 ((hkeys f.identifier).mp hc).1

theorem EncoderPass.Covers.step {cache : EncoderCacheManager} {ids : String → Prop} {f : Feature}
    (h : s.Covers requestId f) (htouched : EncoderCacheManager.Touched requestId ids s.cache cache)
    (n : Int) : ({ s with cache := cache, numNewTokens := n } : EncoderPass).Covers requestId f :=
  h.imp_right fun hx => htouched.kept f.identifier hx

theorem numEmbeds_append (inputs : List Feature) (f : Feature) :
    numEmbeds (inputs ++ [f]) = numEmbeds inputs+f.getNumEmbeds := by
  simp [numEmbeds]

theorem touches_mono {f : Feature} {n n' : Nat} (hn : n ≤ n')
    (h : f.touches numComputedTokens n) : f.touches numComputedTokens n' := by
  simp only [Feature.touches,decide_eq_true_eq] at h ⊢
  exact h.trans_le (f.rank_mono (by omega))

theorem touches_toNat {f : Feature} {n : Int} (hn : 0 ≤ n)
    (h : f.touches numComputedTokens n.toNat) :
    (f.offset : Int) < numComputedTokens+n ∧ numComputedTokens < f.offset+f.length := by
  constructor
  · by_contra hle
    exact Feature.not_touches_of_le (by omega) h
  · by_contra hle
    exact Feature.not_touches_of_done (not_lt.mp hle) h

/-- The loop chooses inputs that can be paid and held, and gives up no more tokens than it must:
the features of the tokens that are left are all covered. -/
theorem scheduleInputs_spec {disableChunkedMmInput : Bool} {rest : List Feature}
    (hfeatures : Features size mmFeatures) (hsub : rest.Sublist mmFeatures)
    (h : s.Ok size requestId mmFeatures m encoderComputeBudget) (hn : 0 < s.numNewTokens) :
    Returns (scheduleInputs disableChunkedMmInput requestId numComputedTokens rest s) fun s' =>
      s'.Ok size requestId mmFeatures m encoderComputeBudget ∧
      0 ≤ s'.numNewTokens ∧ s'.numNewTokens ≤ s.numNewTokens ∧
      (∀ f, s.Covers requestId f → s'.Covers requestId f) ∧
      ∀ f ∈ rest, f.touches numComputedTokens s'.numNewTokens.toNat → s'.Covers requestId f := by
  induction rest generalizing s with
  | nil => exact .ok ⟨h,hn.le,le_rfl,fun _ => id,by simp⟩
  | cons f rest ih =>
    have hsorted := List.pairwise_cons.mp (hfeatures.sorted.sublist hsub)
    have hmem : f ∈ mmFeatures := hsub.subset (by simp)
    have hrest : rest.Sublist mmFeatures := (List.sublist_cons_self f rest).trans hsub
    -- where the loop ends, the features from here on start behind the tokens
    have hbehind : ∀ (n : Int) (g : Feature), 0 ≤ n → numComputedTokens+n ≤ f.offset →
        g ∈ f :: rest → ¬ g.touches numComputedTokens n.toNat := by
      intro n g hn hle hg ht
      have hoff : f.offset ≤ g.offset := by
        rcases List.mem_cons.mp hg with rfl | hg
        · exact le_rfl
        · exact hsorted.1 g hg
      have := (touches_toNat hn ht).1
      omega
    have hskip : ∀ {s₀ : EncoderPass}, s₀.Ok size requestId mmFeatures m encoderComputeBudget →
        s₀.numNewTokens = s.numNewTokens → (∀ g, s.Covers requestId g → s₀.Covers requestId g) →
        (f.touches numComputedTokens s.numNewTokens.toNat → s₀.Covers requestId f) →
        Returns (scheduleInputs disableChunkedMmInput requestId numComputedTokens rest s₀) fun s' =>
          s'.Ok size requestId mmFeatures m encoderComputeBudget ∧
          0 ≤ s'.numNewTokens ∧ s'.numNewTokens ≤ s.numNewTokens ∧
          (∀ f, s.Covers requestId f → s'.Covers requestId f) ∧
          ∀ g ∈ f :: rest, g.touches numComputedTokens s'.numNewTokens.toNat →
            s'.Covers requestId g := by
      intro s₀ h₀ hn₀ hcov hf
      refine (ih hrest h₀ (hn₀ ▸ hn)).mono fun s' hs' => ?_
      obtain ⟨hok,hnonneg,hle,hkept,hall⟩ := hs'
      rw [hn₀] at hle
      refine ⟨hok,hnonneg,hle,fun g hg => hkept g (hcov g hg),fun g hg ht => ?_⟩
      rcases List.mem_cons.mp hg with rfl | hg
      · exact hkept g (hf (touches_mono (by omega) ht))
      · exact hall g hg ht
    rw [scheduleInputs]
    by_cases hbreak : numComputedTokens+s.numNewTokens ≤ f.offset
    · rw [if_pos hbreak]
      exact .ok ⟨h,hn.le,le_rfl,fun _ => id,fun g hg ht =>
        absurd ht (hbehind _ g hn.le hbreak hg)⟩
    rw [if_neg hbreak]
    by_cases hdone : f.offset+f.length ≤ numComputedTokens
    · rw [if_pos hdone]
      exact hskip h rfl (fun _ => id) fun ht => absurd ht (Feature.not_touches_of_done hdone)
    rw [if_neg hdone]
    by_cases htwice : f.identifier ∈ s.encoderInputs.map Feature.identifier
    · rw [if_pos htwice]
      exact hskip h rfl (fun _ => id) fun _ => .inl htwice
    rw [if_neg htwice]
    refine (EncoderCacheManager.checkAndUpdateCache_spec h.accounts requestId f).bind
      fun checked hchecked => ?_
    obtain ⟨hok,htouched,hkeys,hhit,hreferred⟩ := hchecked
    have hids : ∀ k, k = f.identifier → ∃ f ∈ mmFeatures, f.identifier = k :=
      fun k hk => ⟨f,hmem,hk.symm⟩
    by_cases hcached : checked.1
    · rw [if_pos hcached]
      exact hskip (h.step hok htouched hids s.numNewTokens) rfl (fun g hg => hg.step htouched _)
        fun _ => .inr (hreferred hcached)
    rw [if_neg hcached]
    have hmiss : f.identifier ∉ checked.2.cached := fun hc =>
      hcached (hhit.mpr ((hkeys f.identifier).mp hc))
    split
    · -- an item is not split: the step ends before it
      rename_i hchunk
      obtain ⟨-,hbefore,hshort⟩ := hchunk
      have hmax : max 0 ((f.offset : Int)-numComputedTokens) = f.offset-numComputedTokens := by omega
      refine .ok ⟨h.step hok htouched hids _,by simp,?_,fun g hg => hg.step htouched _,
        fun g hg ht => absurd ht (hbehind _ g (by simp) ?_ hg)⟩
      · simp only [hmax]
        omega
      · simp only [hmax]
        omega
    · refine (EncoderCacheManager.canAllocate_spec hok requestId f s.encoderComputeBudget
        (numEmbeds s.encoderInputs)).bind fun allocated hallocated => ?_
      obtain ⟨hok',htouched',hfits⟩ := hallocated
      have hstep := h.step hok' ((htouched.mono hids).trans (htouched'.mono (by simp)))
        (fun k hk => hk)
      have hcovers : ∀ (n : Int) g, s.Covers requestId g →
          ({ s with cache := allocated.2, numNewTokens := n } : EncoderPass).Covers requestId g :=
        fun n g hg => hg.step ((htouched.mono hids).trans (htouched'.mono (by simp))) n
      by_cases hroom : allocated.1
      · simp only [if_pos hroom]
        obtain ⟨hpay,hslots⟩ := hfits hroom
        have hend : ((numComputedTokens : Int)+s.numNewTokens-f.offset).toNat =
            numComputedTokens+s.numNewTokens.toNat-f.offset := by omega
        have hlength := hfeatures.pos f hmem
        rw [hend,Feature.getEmbedsIndicesInRange_eq (by omega)]
        split
        · -- none of the tokens takes an embedding of the feature
          rename_i hnone
          exact hskip (hstep s.numNewTokens) rfl (hcovers _) fun ht =>
            absurd hnone (Feature.touches_iff_ne.mp ht)
        · have hmiss' : f.identifier ∉ allocated.2.cached := by
            obtain ⟨evicted,-,hkeys'⟩ := htouched'.freed
            exact fun hc => hmiss ((hkeys' f.identifier).mp hc).1
          have hold := hstep s.numNewTokens
          refine hskip ⟨hok',hold.touched,?_,?_,?_,?_,?_⟩ rfl ?_ fun _ => .inl (by simp)
          · intro g hg
            rcases List.mem_append.mp hg with hg | hg
            · exact hold.fresh g hg
            · rw [List.mem_singleton.mp hg]
              exact ⟨hmem,hmiss'⟩
          · rw [List.map_append,List.nodup_append]
            refine ⟨h.nodup,by simp,fun k hk k' hk' heq => ?_⟩
            rw [List.map_singleton,List.mem_singleton] at hk'
            rw [heq,hk'] at hk
            exact htwice hk
          · rw [numEmbeds_append]
            push_cast
            omega
          · have := h.spent
            rw [numEmbeds_append]
            push_cast
            omega
          · simp only
            omega
          · intro g hg
            refine (hcovers s.numNewTokens g hg).imp_left fun hin => ?_
            rw [List.map_append]
            exact List.mem_append_left _ hin
      · simp only [if_neg hroom]
        split
        · rename_i hbefore
          exact .ok ⟨hstep _,by simp; omega,by simp; omega,hcovers _,fun g hg ht =>
            absurd ht (hbehind _ g (by simp; omega) (by simp) hg)⟩
        · refine .ok ⟨hstep _,le_rfl,hn.le,hcovers _,fun g _ ht => ?_⟩
          simp [Feature.touches] at ht

/-- No two of the features share a token. -/
def Apart (mmFeatures : List Feature) : Prop :=
  mmFeatures.Pairwise fun f g => f.offset+f.length ≤ g.offset

instance (mmFeatures : List Feature) : Decidable (Apart mmFeatures) :=
  inferInstanceAs (Decidable (mmFeatures.Pairwise _))

/-- Then no two of them hold the same token. -/
theorem Apart.eq_of_holds (h : Apart mmFeatures) {n : Nat} {f g : Feature} (hf : f ∈ mmFeatures)
    (hg : g ∈ mmFeatures) (hfn : f.offset ≤ n ∧ n < f.offset+f.length)
    (hgn : g.offset ≤ n ∧ n < g.offset+g.length) : f = g := by
  induction mmFeatures with
  | nil => cases hf
  | cons e mmFeatures ih =>
    obtain ⟨hfirst,hrest⟩ := List.pairwise_cons.mp h
    rcases List.mem_cons.mp hf with rfl | hf'
    · rcases List.mem_cons.mp hg with rfl | hg'
      · rfl
      · have := hfirst g hg'
        omega
    · rcases List.mem_cons.mp hg with rfl | hg'
      · have := hfirst f hf'
        omega
      · exact ih hrest hf' hg'

/-- How far the loop has come with features that share no token: what it holds or runs starts
before the tokens and before the features that are left, which are then all ahead. -/
structure EncoderPass.Reach (requestId : String) (numComputedTokens : Nat)
    (mmFeatures : List Feature) (m : EncoderCacheManager) (encoderComputeBudget : Int)
    (rest : List Feature) (s : EncoderPass) : Prop where
  added : ∀ h, requestId ∈ s.cache.refs h → requestId ∈ m.refs h ∨ ∃ g ∈ mmFeatures,
    g.identifier = h ∧ (g.offset : Int) < numComputedTokens+s.numNewTokens ∧
      ∀ f ∈ rest, g.offset < f.offset
  inputs : ∀ g ∈ s.encoderInputs, (g.offset : Int) < numComputedTokens+s.numNewTokens ∧
    ∀ f ∈ rest, g.offset < f.offset
  first : s.cache = m ∧ s.encoderInputs = [] ∧ s.encoderComputeBudget = encoderComputeBudget ∨
    ∀ f ∈ rest, numComputedTokens < f.offset

theorem EncoderPass.Reach.tail {rest : List Feature} {f : Feature}
    (h : s.Reach requestId numComputedTokens mmFeatures m encoderComputeBudget (f :: rest)) :
    s.Reach requestId numComputedTokens mmFeatures m encoderComputeBudget rest :=
  ⟨fun k hk => (h.added k hk).imp_right fun ⟨g,hg,hid,hlt,hrest⟩ =>
      ⟨g,hg,hid,hlt,fun f' hf' => hrest f' (List.mem_cons_of_mem f hf')⟩,
    fun g hg => ⟨(h.inputs g hg).1,fun f' hf' => (h.inputs g hg).2 f' (List.mem_cons_of_mem f hf')⟩,
    h.first.imp_right fun hall f' hf' => hall f' (List.mem_cons_of_mem f hf')⟩

/-- The tokens are cut at the next feature, or not at all. -/
theorem EncoderPass.Reach.stop {rest : List Feature} {cache : EncoderCacheManager} {n : Int}
    (h : s.Reach requestId numComputedTokens mmFeatures m encoderComputeBudget rest)
    (hrefs : ∀ k, requestId ∈ cache.refs k → requestId ∈ s.cache.refs k)
    (hn : n = s.numNewTokens ∨ ∃ f ∈ rest, numComputedTokens+n = f.offset) :
    ({ s with cache := cache, numNewTokens := n } : EncoderPass).Reach requestId numComputedTokens
      mmFeatures m encoderComputeBudget [] := by
  have hcut : ∀ g : Feature, (g.offset : Int) < numComputedTokens+s.numNewTokens →
      (∀ f ∈ rest, g.offset < f.offset) → (g.offset : Int) < numComputedTokens+n := by
    intro g hlt hrest
    rcases hn with rfl | ⟨f,hf,heq⟩
    · exact hlt
    · have := hrest f hf
      omega
  refine ⟨fun k hk => (h.added k (hrefs k hk)).imp_right fun ⟨g,hg,hid,hlt,hrest⟩ =>
    ⟨g,hg,hid,hcut g hlt hrest,by simp⟩,fun g hg => ?_,.inr (by simp)⟩
  obtain ⟨hlt,hrest⟩ := h.inputs g hg
  exact ⟨hcut g hlt hrest,by simp⟩

/-- Why a request gets no tokens: the next one belongs to a feature that is not in the cache and
that cannot be paid or held. -/
structure Blocks (numComputedTokens : Nat) (m : EncoderCacheManager) (encoderComputeBudget : Int)
    (f : Feature) : Prop where
  begun : f.offset ≤ numComputedTokens
  unfinished : numComputedTokens < f.offset+f.length
  missing : f.identifier ∉ m.cached
  short : encoderComputeBudget < f.getNumEmbeds ∨ m.numFreeableSlots < f.getNumEmbeds

/-- If no features share a token, the loop refers only to those that start before the tokens it
leaves, and if it leaves none it has changed nothing. -/
theorem scheduleInputs_reach {disableChunkedMmInput : Bool} {rest : List Feature}
    (hapart : Apart mmFeatures) (hpos : ∀ f ∈ mmFeatures, 0 < f.length)
    (hsub : rest.Sublist mmFeatures)
    (h : s.Reach requestId numComputedTokens mmFeatures m encoderComputeBudget rest)
    (hn : 0 < s.numNewTokens)
    (heq : scheduleInputs disableChunkedMmInput requestId numComputedTokens rest s = .ok s') :
    s'.Reach requestId numComputedTokens mmFeatures m encoderComputeBudget [] ∧
      (s'.numNewTokens = 0 → s'.cache = m ∧
        ∃ f ∈ mmFeatures, Blocks numComputedTokens m encoderComputeBudget f) := by
  induction rest generalizing s with
  | nil =>
    cases heq
    exact ⟨h,fun hzero => absurd hzero hn.ne'⟩
  | cons f rest ih =>
    have hmem : f ∈ mmFeatures := hsub.subset (by simp)
    have hrest : rest.Sublist mmFeatures := (List.sublist_cons_self f rest).trans hsub
    have hlength := hpos f hmem
    have hafter : ∀ f' ∈ rest, f.offset+f.length ≤ f'.offset :=
      (List.pairwise_cons.mp (hapart.sublist hsub)).1
    rw [scheduleInputs] at heq
    split at heq
    · cases heq
      exact ⟨h.stop (fun _ => id) (.inl rfl),fun hzero => absurd hzero hn.ne'⟩
    rename_i hstarts
    split at heq
    · exact ih hrest h.tail hn heq
    rename_i hopen
    split at heq
    · exact ih hrest h.tail hn heq
    obtain ⟨checked,hchecked,heq⟩ := Returns.exists_of_bind heq
    rcases EncoderCacheManager.checkAndUpdateCache_eq hchecked with ⟨hfalse,hsame,hmiss⟩ |
      ⟨htrue,hrefs⟩
    · rw [hfalse,hsame] at heq
      simp only [Bool.false_eq_true,if_false] at heq
      split at heq
      · rename_i hchunk
        cases heq
        have hmax : max 0 ((f.offset : Int)-numComputedTokens) = f.offset-numComputedTokens := by
          omega
        refine ⟨h.stop (fun _ => id) (.inr ⟨f,by simp,by omega⟩),fun hzero => ?_⟩
        simp only at hzero
        omega
      · obtain ⟨allocated,hallocated,heq⟩ := Returns.exists_of_bind heq
        rcases EncoderCacheManager.canAllocate_eq hallocated with ⟨hfalse,hsame,hshort⟩ |
          ⟨htrue,hrefs⟩
        · rw [hfalse,hsame] at heq
          simp only [Bool.false_eq_true,if_false] at heq
          split at heq
          · rename_i hbefore
            cases heq
            refine ⟨h.stop (fun _ => id) (.inr ⟨f,by simp,by omega⟩),fun hzero => ?_⟩
            simp only at hzero
            omega
          · rename_i hbegun
            cases heq
            -- nothing was ahead of the feature, so the loop has changed nothing yet
            obtain ⟨hcache,hinputs,hbudget⟩ := h.first.resolve_right fun hall =>
              hbegun (hall f (by simp))
            refine ⟨⟨fun k hk => .inl (hcache ▸ hk),by simp [hinputs],.inr (by simp)⟩,fun _ =>
              ⟨hcache,f,hmem,⟨not_lt.mp hbegun,not_le.mp hopen,hcache ▸ hmiss,?_⟩⟩⟩
            rw [hbudget,hinputs,hcache] at hshort
            simpa [numEmbeds] using hshort
        · rw [htrue] at heq
          simp only [if_true] at heq
          have hahead : ∀ f' ∈ rest, numComputedTokens < f'.offset := by
            intro f' hf'
            have := hafter f' hf'
            omega
          have hadded := fun k hk => h.tail.added k (hrefs k requestId hk)
          split at heq
          · exact ih (s := { s with cache := allocated.2 }) hrest ⟨hadded,h.tail.inputs,.inr hahead⟩
              hn heq
          · refine ih (s := { s with
              cache := allocated.2
              encoderComputeBudget := s.encoderComputeBudget-f.getNumEmbeds
              encoderInputs := s.encoderInputs ++ [f] }) hrest
                ⟨hadded,fun g hg => ?_,.inr hahead⟩ hn heq
            rcases List.mem_append.mp hg with hg | hg
            · exact h.tail.inputs g hg
            · rw [List.mem_singleton.mp hg]
              refine ⟨not_le.mp hstarts,fun f' hf' => ?_⟩
              have := hafter f' hf'
              omega
    · rw [htrue] at heq
      simp only [if_true] at heq
      refine ih (s := { s with cache := checked.2 }) hrest
        ⟨fun k hk => ?_,h.tail.inputs,.inr fun f' hf' => ?_⟩ hn heq
      · rcases hrefs k requestId hk with hk | rfl
        · exact h.tail.added k hk
        · refine .inr ⟨f,hmem,rfl,not_le.mp hstarts,fun f' hf' => ?_⟩
          have := hafter f' hf'
          omega
      · have := hafter f' hf'
        omega

end Spec
end TLiveOmni.Sched
