import TLiveOmni.MmOnlyCall
import TLiveOmni.PromptContents

/-! What the processor cache changes: a cached video keeps the audio tokens it was first written
with, and the missing videos and audios are paired anew. Where neither matters, the reply is the
one without the cache. -/
set_option autoImplicit false

namespace TLiveOmni.Vllm
open PySeq

section Contents
variable {κ ι : Type} (F : Front κ ι) (kw : κ) (x : Items ι)

/-- The timestamps that the metadata of a video gives. -/
def Front.times (v : ι) : List ℚ :=
  (calculateTimestamps (F.video kw v).metadata.framesIndices (F.video kw v).metadata.fps
    F.temporalPatchSize).toOption.getD []

theorem Front.times_ok (v : ι) : calculateTimestamps (F.video kw v).metadata.framesIndices
    (F.video kw v).metadata.fps F.temporalPatchSize = .ok (F.times kw v) := by
  simp only [Front.times,calculateTimestamps]
  rw [raiseIf_of_not fun hz => (F.video kw v).rated hz.1]
  rfl

def Front.args : UpdateArgs where
  audioFeatureLengths := x.audios.map fun a => numFrame (F.audioConfig kw) (F.audioSamples a)
  imageGridThw := x.images.map (F.image kw)
  videoGridThw := x.videos.map fun v => (F.video kw v).gridThw
  secondPerGridTs := some (x.videos.map fun v => (F.video kw v).secondPerGrid)
  timestamps := if F.returnMetadata kw then some (x.videos.map (F.times kw)) else none
  useAudioInVideo := true
  kwSecondPerGridTs := none
  kwVideoMetadata := F.kwVideoMetadata kw
  mergeSize := F.mergeSize
  temporalPatchSize := F.temporalPatchSize
  positionIdPerSeconds := F.positionIdPerSeconds
  audioText := fun i => (x.audios[i]?.map F.audioText).getD ""

theorem updateArgs_eq : F.updateArgs kw x = .ok (F.args kw x) := by
  have htimes : (x.videos.mapM fun v => calculateTimestamps (F.video kw v).metadata.framesIndices
      (F.video kw v).metadata.fps F.temporalPatchSize) = .ok (x.videos.map (F.times kw)) :=
    mapM_eq_ok fun v _ => F.times_ok kw v
  rw [Front.updateArgs,htimes]
  rfl

theorem args_counts : (F.args kw x).counts = x.counts := by
  funext m
  cases m <;> simp [UpdateArgs.counts,Front.args,Items.counts,Items.of]

theorem mmPromptUpdates_eq :
    F.mmPromptUpdates kw x = getMmPromptUpdates F.tk (F.args kw x) (F.args kw x).counts := by
  rw [Front.mmPromptUpdates,updateArgs_eq,args_counts]
  rfl

/-- What the items are replaced by; a video is written with a number of audio tokens. -/
def Front.audioContent (a : ι) : List Token := List.replicate (F.audioTokens kw a) .audioPad

def Front.imageContent (i : ι) : List Token :=
  List.replicate ((F.image kw i).prod/F.mergeSize^2) .imagePad

def Front.videoContent (v : ι) (audioLen : Nat) : List Token :=
  getUpdatesUseAudioInVideo F.tk (F.args kw ⟨[],[],[]⟩) audioLen (F.video kw v).gridThw
    (F.video kw v).secondPerGrid (if F.returnMetadata kw then some (F.times kw v) else none)

/-- The updates of items that are processed together. -/
def Front.updates : Updates :=
  [(.audio,resolved .audio none (x.audios.map (F.audioContent kw))),
    (.image,resolved .image none (x.images.map (F.imageContent kw))),
    (.video,resolved .video (some .videoPad) (List.zipWith
      (fun v a => F.videoContent kw v (F.audioTokens kw a)) x.videos x.audios))]

variable {F kw x} {i j : Nat} {a v : ι} {c : List Token}

theorem getReplacementAudio_args (h : x.audios[i]? = some a) :
    getReplacementAudio (F.args kw x) i 0 = .ok c ↔
      0 < F.audioTokens kw a ∧ c = F.audioContent kw a := by
  have hlen : getItem (F.args kw x).audioFeatureLengths i =
      .ok (numFrame (F.audioConfig kw) (F.audioSamples a)) := by
    rw [getItem_eq_ok]
    simp [Front.args,h]
  simp only [getReplacementAudio,Nat.add_zero,hlen,ok_bind,bind_eq_ok,raiseIf_eq_ok]
  constructor
  · rintro ⟨_,hne,hc⟩
    exact ⟨Nat.pos_of_ne_zero hne,(Except.ok.inj hc).symm⟩
  · rintro ⟨hpos,rfl⟩
    exact ⟨(),hpos.ne',rfl⟩

theorem getReplacementImage_args (h : x.images[i]? = some a) :
    getReplacementImage (F.args kw x) i = .ok (F.imageContent kw a) := by
  have hthw : getItem (F.args kw x).imageGridThw i = .ok (F.image kw a) := by
    rw [getItem_eq_ok]
    simp [Front.args,h]
  rw [getReplacementImage,hthw]
  rfl

theorem avTimestamps_args (hkw : F.kwVideoMetadata kw = none) (h : x.videos[i]? = some v) :
    avTimestamps (F.args kw x) i =
      .ok (if F.returnMetadata kw then some (F.times kw v) else none) := by
  have hnone : kwTimestamps (F.args kw x) i = .ok none := by simp [kwTimestamps,Front.args,hkw]
  rw [avTimestamps,hnone,ok_bind]
  cases hm : F.returnMetadata kw with
  | false => simp [Front.args,hm]
  | true =>
    have hget : getItem (x.videos.map (F.times kw)) i = .ok (F.times kw v) := by
      rw [getItem_eq_ok]
      simp [h]
    simp [Front.args,hm,hget]

theorem videoReplacementFn_args (hkw : F.kwVideoMetadata kw = none) (hv : x.videos[i]? = some v)
    (ha : x.audios[j]? = some a) : videoReplacementFn F.tk (F.args kw x) i j =
      .ok (F.videoContent kw v (F.audioTokens kw a)) := by
  have hlen : getItem (F.args kw x).audioFeatureLengths j =
      .ok (numFrame (F.audioConfig kw) (F.audioSamples a)) := by
    rw [getItem_eq_ok]
    simp [Front.args,ha]
  have hthw : getItem (F.args kw x).videoGridThw i = .ok (F.video kw v).gridThw := by
    rw [getItem_eq_ok]
    simp [Front.args,hv]
  have hsec : avSecondPerGrid (F.args kw x) i = .ok (F.video kw v).secondPerGrid := by
    rw [avSecondPerGrid]
    exact getItem_eq_ok.mpr (by simp [hv])
  have hflag : (F.args kw x).useAudioInVideo = true := rfl
  rw [videoReplacementFn,if_pos hflag,getReplacementUseAudioInVideo,hlen,ok_bind,hthw,ok_bind,hsec,
    ok_bind,avTimestamps_args hkw hv,ok_bind]
  rfl

theorem resolveVideos_args {tk : TokenizerLike} {d : UpdateArgs} (hd : d.useAudioInVideo = true)
    {l : List (List Token)}
    (h : ∀ k c, l[k]? = some c → videoReplacementFn tk d (i+k) (i+k) = .ok c) :
    resolveVideos tk d i i l.length = .ok l := by
  induction l generalizing i with
  | nil => rfl
  | cons c l ih =>
    have hrest := @ih (i+1) fun k c hc => by
      have := h (k+1) c (by simpa using hc)
      rwa [show i+(k+1) = i+1+k by omega] at this
    have hone : videoReplacementFn tk d i i = .ok c := h 0 c rfl
    rw [List.length_cons,resolveVideos,hone,ok_bind,if_pos hd,hrest]
    rfl

/-- Items with at least one token each: the videos take the audios in order. -/
theorem mmPromptUpdates_ok (hkw : F.kwVideoMetadata kw = none)
    (hlen : x.videos = [] ∨ x.videos.length = x.audios.length)
    (hpos : ∀ a ∈ x.audios, 0 < F.audioTokens kw a) :
    F.mmPromptUpdates kw x = .ok (F.updates kw x) := by
  have haud : ((List.range (x.counts .audio)).mapM fun i => getReplacementAudio (F.args kw x) i 0) =
      .ok (x.audios.map (F.audioContent kw)) := by
    refine mapM_range_eq (by simp [Items.counts,Items.of]) fun i c hc => ?_
    rw [List.getElem?_map] at hc
    obtain ⟨a,ha,rfl⟩ := Option.map_eq_some_iff.mp hc
    exact (getReplacementAudio_args ha).mpr ⟨hpos a (List.mem_of_getElem? ha),rfl⟩
  have himg : ((List.range (x.counts .image)).mapM fun i => getReplacementImage (F.args kw x) i) =
      .ok (x.images.map (F.imageContent kw)) := by
    refine mapM_range_eq (by simp [Items.counts,Items.of]) fun i c hc => ?_
    rw [List.getElem?_map] at hc
    obtain ⟨a,ha,rfl⟩ := Option.map_eq_some_iff.mp hc
    exact getReplacementImage_args ha
  have hvid : resolveVideos F.tk (F.args kw x) 0 0 (x.counts .video) = .ok (List.zipWith
      (fun v a => F.videoContent kw v (F.audioTokens kw a)) x.videos x.audios) := by
    have hcount : x.counts .video = (List.zipWith
        (fun v a => F.videoContent kw v (F.audioTokens kw a)) x.videos x.audios).length := by
      rcases hlen with hlen | hlen <;> simp [Items.counts,Items.of,hlen]
    rw [hcount]
    refine resolveVideos_args rfl fun k c hc => ?_
    obtain ⟨v,a,hv,ha,rfl⟩ := List.getElem?_zipWith_eq_some.mp hc
    rw [Nat.zero_add]
    exact videoReplacementFn_args hkw hv ha
  rw [mmPromptUpdates_eq,args_counts,getMmPromptUpdates,haud,ok_bind,himg,ok_bind,hvid]
  rfl

theorem audioTokens_pos {updates : Updates} (h : F.mmPromptUpdates kw x = .ok updates) :
    ∀ a ∈ x.audios, 0 < F.audioTokens kw a := by
  rw [mmPromptUpdates_eq] at h
  obtain ⟨audios,images,videos,hb⟩ := getMmPromptUpdates_ok h
  intro a ha
  obtain ⟨i,hi,hget⟩ := List.getElem_of_mem ha
  have hcount : i < audios.length := by
    rw [hb.audioCount,args_counts]
    exact hi
  have hok := hb.audio i _ (List.getElem?_eq_getElem hcount)
  exact ((getReplacementAudio_args (List.getElem?_eq_some_iff.mpr ⟨hi,hget⟩)).mp hok).1

end Contents

section Merge
variable {κ ι : Type}

/-- The update that the cache has for an item. -/
def Cache.updateOf (c : Cache κ ι) (mmHash : Key κ ι) (itemIdx : Nat) : Option Update :=
  (c mmHash).map fun e => { e.promptUpdate with itemIdx := itemIdx }

/-- The hashes that `c` lacks, with the processed items for them. -/
def missingItems (c : Cache κ ι) (hashes : List (Key κ ι)) (missing : List CacheItem) :
    List (Key κ ι × CacheItem) :=
  (hashes.filter fun k => (c k).isNone).zip missing

/-- The loop's results for the hashes, read from the cache `c`. -/
structure Reads (c : Cache κ ι) (hashes : List (Key κ ι)) (i : Nat)
    (out : List (Option Bool × Update)) : Prop where
  updates : out.map (fun y => some y.2) = (hashes.zipIdx i).map fun y => c.updateOf y.1 y.2
  flags : ∀ y ∈ out, ∀ b, y.1 = some b → ∃ k e, c k = some e ∧ e.useAudioInVideo = b

variable {c : Cache κ ι} {hashes : List (Key κ ι)} {i : Nat} {out : List (Option Bool × Update)}

theorem Reads.cons {k : Key κ ι} {e : CacheItem} (h : Reads c hashes (i+1) out) (hk : c k = some e)
    {flag : Option Bool} (hf : ∀ b, flag = some b → e.useAudioInVideo = b) :
    Reads c (k :: hashes) i ((flag,{ e.promptUpdate with itemIdx := i }) :: out) where
  updates := by
    rw [List.map_cons,h.updates,List.zipIdx_cons,List.map_cons]
    simp [Cache.updateOf,hk]
  flags := by
    intro y hy b hb
    rcases List.mem_cons.mp hy with rfl | hy
    · exact ⟨k,e,hk,hf b hb⟩
    · exact h.flags y hy b hb

theorem Reads.mono (h : Reads c hashes i out) {c' : Cache κ ι}
    (hext : ∀ k e, c k = some e → c' k = some e) : Reads c' hashes i out where
  updates := by
    rw [h.updates]
    refine List.map_congr_left fun y hy => ?_
    have hsome : c.updateOf y.1 y.2 ∈ out.map fun y => some y.2 := by
      rw [h.updates]
      exact List.mem_map_of_mem hy
    obtain ⟨z,-,hz⟩ := List.mem_map.mp hsome
    obtain ⟨e,he,-⟩ := Option.map_eq_some_iff.mp hz.symm
    rw [Cache.updateOf,Cache.updateOf,he,hext _ _ he]
  flags := by
    intro y hy b hb
    obtain ⟨k,e,he,hflag⟩ := h.flags y hy b hb
    exact ⟨k,e,hext k e he,hflag⟩

theorem Reads.length_eq (h : Reads c hashes i out) : out.length = hashes.length := by
  simpa using congrArg List.length h.updates

variable [DecidableEq κ] [DecidableEq ι] {F : Front κ ι}

/-- Every item reads its update from the cache behind the loop. `c₀` is the cache that
`mm_is_cached` was made from; entries have only been added since. -/
theorem mergeItems_ok {c₀ : Cache κ ι} {missing : List CacheItem} (i : Nat)
    (hlen : (hashes.filter fun k => (c₀ k).isNone).length = missing.length)
    (hext : ∀ k, (c₀ k).isSome → (c k).isSome) : ∃ out,
    mergeItems F i (hashes.map fun k => (k,(c₀ k).isSome)) missing c =
      .ok (out,Memo.putAll c (missingItems c₀ hashes missing)) ∧
    Reads (Memo.putAll c (missingItems c₀ hashes missing)) hashes i out := by
  have hsent : ∀ (e : CacheItem) (b : Bool),
      (if F.sender then none else some e.useAudioInVideo) = some b → e.useAudioInVideo = b := by
    intro e b hb
    cases hs : F.sender <;> simp_all
  induction hashes generalizing c missing i with
  | nil => exact ⟨[],rfl,rfl,by simp⟩
  | cons k hashes ih =>
    cases hk : c₀ k with
    | some e₀ =>
      obtain ⟨e,he⟩ := Option.isSome_iff_exists.mp (hext k (by simp [hk]))
      have hmiss : missingItems c₀ (k :: hashes) missing = missingItems c₀ hashes missing := by
        simp [missingItems,hk]
      obtain ⟨out,hout,hread⟩ := ih (i+1) (by simpa [hk] using hlen) hext
      rw [hmiss]
      refine ⟨_,?_,hread.cons (Memo.putAll_of_some he) (hsent e)⟩
      simp [mergeItems,hk,getAndUpdateItem,he,hout]
    | none =>
      obtain ⟨e,missing,rfl⟩ : ∃ e es, missing = e :: es := by
        refine List.exists_cons_of_ne_nil fun hnil => ?_
        simp [hk,hnil] at hlen
      have hlen' : (hashes.filter fun k => (c₀ k).isNone).length = missing.length := by
        simpa [hk] using hlen
      have hmiss : missingItems c₀ (k :: hashes) (e :: missing) =
          (k,e) :: missingItems c₀ hashes missing := by
        simp [missingItems,hk]
      rw [hmiss,Memo.putAll]
      cases hc : c k with
      | some e' =>
        -- the item stood in the request before
        obtain ⟨out,hout,hread⟩ := ih (i+1) hlen' hext
        rw [if_neg (by simp)]
        refine ⟨_,?_,hread.cons (Memo.putAll_of_some hc) (hsent e')⟩
        simp [mergeItems,hk,getAndUpdateItem,hc,hout,getItem]
      | none =>
        have hput : Memo.put c k e k = some e := Function.update_self ..
        have hext' : ∀ k', (c₀ k').isSome → (Memo.put c k e k').isSome := by
          intro k' hk'
          by_cases hne : k' = k
          · simp [hne,hput]
          · rw [Memo.put,Function.update_of_ne hne]
            exact hext k' hk'
        obtain ⟨out,hout,hread⟩ := ih (i+1) hlen' hext'
        rw [if_pos rfl]
        refine ⟨_,?_,hread.cons (Memo.putAll_of_some hput) fun b hb => Option.some.inj hb⟩
        simp [mergeItems,hk,getAndUpdateItem,hc,hout,getItem]

end Merge

section Invariant
variable {κ ι : Type} {F : Front κ ι} {kw : κ} {x : Items ι} {updates : Updates}

/-- What the processor makes of an item. The keyword argument `video_metadata` goes by the
position of a video, so nothing is said about videos that were written with it. -/
def Genuine (F : Front κ ι) (k : Key κ ι) (e : CacheItem) : Prop :=
  e.useAudioInVideo = true ∧ ∃ i, match k.modality with
    | .audio => 0 < F.audioTokens k.kwargs k.item ∧
        e.promptUpdate = ⟨.audio,i,F.audioContent k.kwargs k.item,none⟩
    | .image => e.promptUpdate = ⟨.image,i,F.imageContent k.kwargs k.item,none⟩
    | .video => F.kwVideoMetadata k.kwargs = none → ∃ n,
        e.promptUpdate = ⟨.video,i,F.videoContent k.kwargs k.item n,some .videoPad⟩

theorem getElem?_resolved (m : Modality) (t : Option Token) (contents : List (List Token)) (i : Nat) :
    (resolved m t contents)[i]? = contents[i]?.map fun c => ⟨m,i,c,t⟩ := by
  rw [resolved,List.getElem?_map,List.getElem?_zipIdx,Option.map_map]
  simp [Function.comp_def]

theorem videoReplacementFn_audio {i : Nat} {c : List Token}
    (h : videoReplacementFn F.tk (F.args kw x) i i = .ok c) : ∃ a, x.audios[i]? = some a := by
  have hflag : (F.args kw x).useAudioInVideo = true := rfl
  rw [videoReplacementFn,if_pos hflag,getReplacementUseAudioInVideo] at h
  obtain ⟨n,hn,-⟩ := bind_eq_ok.mp h
  have hget := getItem_eq_ok.mp hn
  rw [Front.args,List.getElem?_map] at hget
  obtain ⟨a,ha,-⟩ := Option.map_eq_some_iff.mp hget
  exact ⟨a,ha⟩

theorem processed_genuine (h : F.mmPromptUpdates kw x = .ok updates) (m : Modality) :
    (processed m updates).length = (x.of m).length ∧
    ∀ (i : Nat) item e, (x.of m)[i]? = some item → (processed m updates)[i]? = some e →
      Genuine F ⟨m,kw,item⟩ e := by
  rw [mmPromptUpdates_eq] at h
  obtain ⟨audios,images,videos,hb⟩ := getMmPromptUpdates_ok h
  have hproc (m : Modality) (t : Option Token) (contents : List (List Token))
      (hm : (updates.lookup m).getD [] = resolved m t contents) (i : Nat) (e : CacheItem)
      (he : (processed m updates)[i]? = some e) :
      ∃ c, contents[i]? = some c ∧ e = ⟨true,⟨m,i,c,t⟩⟩ := by
    rw [processed,hm,List.getElem?_map,getElem?_resolved,Option.map_map] at he
    obtain ⟨c,hc,rfl⟩ := Option.map_eq_some_iff.mp he
    exact ⟨c,hc,rfl⟩
  have hcounts := args_counts F kw x
  cases m with
  | audio =>
    have hlookup : (updates.lookup .audio).getD [] = resolved .audio none audios := by rw [hb.eq]; rfl
    refine ⟨?_,fun i a e ha he => ?_⟩
    · rw [processed,hlookup,List.length_map,resolved,List.length_map,List.length_zipIdx,
        hb.audioCount,hcounts]
      rfl
    · obtain ⟨c,hc,rfl⟩ := hproc _ _ _ hlookup i e he
      obtain ⟨hpos,rfl⟩ := (getReplacementAudio_args ha).mp (hb.audio i c hc)
      exact ⟨rfl,i,hpos,rfl⟩
  | image =>
    have hlookup : (updates.lookup .image).getD [] = resolved .image none images := by rw [hb.eq]; rfl
    refine ⟨?_,fun i a e ha he => ?_⟩
    · rw [processed,hlookup,List.length_map,resolved,List.length_map,List.length_zipIdx,
        hb.imageCount,hcounts]
      rfl
    · obtain ⟨c,hc,rfl⟩ := hproc _ _ _ hlookup i e he
      have hok := (getReplacementImage_args ha).symm.trans (hb.image i c hc)
      obtain rfl := Except.ok.inj hok
      exact ⟨rfl,i,rfl⟩
  | video =>
    have hlookup : (updates.lookup .video).getD [] = resolved .video (some .videoPad) videos := by
      rw [hb.eq]; rfl
    refine ⟨?_,fun i v e hv he => ?_⟩
    · rw [processed,hlookup,List.length_map,resolved,List.length_map,List.length_zipIdx,
        hb.videoCount,hcounts]
      rfl
    · obtain ⟨c,hc,rfl⟩ := hproc _ _ _ hlookup i e he
      refine ⟨rfl,i,fun hkw => ?_⟩
      obtain ⟨a,ha⟩ := videoReplacementFn_audio (hb.video i c hc)
      have hok := (videoReplacementFn_args hkw hv ha).symm.trans (hb.video i c hc)
      obtain rfl := Except.ok.inj hok
      exact ⟨_,rfl⟩

theorem missing_of (c : Cache κ ι) (r : AvRequest κ ι) (m : Modality) :
    (r.hashes m).filter (fun k => (c k).isNone) =
      ((getCacheMissingItems c r).of m).map fun item => ⟨m,r.kwargs,item⟩ := by
  rw [AvRequest.hashes,List.filter_map]
  cases m <;> rfl

variable {c : Cache κ ι} {r : AvRequest κ ι}

theorem missingItems_genuine
    (h : F.mmPromptUpdates r.kwargs (getCacheMissingItems c r) = .ok updates) (m : Modality) :
    ∀ y ∈ missingItems c (r.hashes m) (processed m updates), Genuine F y.1 y.2 := by
  intro y hy
  obtain ⟨i,hi⟩ := List.mem_iff_getElem?.mp hy
  rw [missingItems,missing_of] at hi
  obtain ⟨hk,he⟩ := List.getElem?_zip_eq_some.mp hi
  rw [List.getElem?_map] at hk
  obtain ⟨item,hitem,hk⟩ := Option.map_eq_some_iff.mp hk
  rw [← hk]
  exact (processed_genuine h m).2 i item y.2 hitem he

variable [DecidableEq κ] [DecidableEq ι]

/-- The cache behind `_merge_mm_kwargs`. -/
def filledCache (c : Cache κ ι) (r : AvRequest κ ι) (updates : Updates) : Cache κ ι :=
  Memo.putAll (Memo.putAll (Memo.putAll c
    (missingItems c (r.hashes .audio) (processed .audio updates)))
    (missingItems c (r.hashes .image) (processed .image updates)))
    (missingItems c (r.hashes .video) (processed .video updates))

theorem filledCache_genuine (hc : Memo.Holds (Genuine F) c)
    (h : F.mmPromptUpdates r.kwargs (getCacheMissingItems c r) = .ok updates) :
    Memo.Holds (Genuine F) (filledCache c r updates) :=
  ((hc.putAll (missingItems_genuine h .audio)).putAll (missingItems_genuine h .image)).putAll
    (missingItems_genuine h .video)

/-- The merged updates are those of the cache behind the request. -/
theorem mergeMmKwargs_ok
    (h : F.mmPromptUpdates r.kwargs (getCacheMissingItems c r) = .ok updates) :
    ∃ audios images videos, mergeMmKwargs F c r updates =
      .ok (⟨audios.length,images.length,videos.map Prod.fst⟩,
        [(.audio,audios.map Prod.snd),(.image,images.map Prod.snd),(.video,videos.map Prod.snd)],
        filledCache c r updates) ∧
      Reads (filledCache c r updates) (r.hashes .audio) 0 audios ∧
      Reads (filledCache c r updates) (r.hashes .image) 0 images ∧
      Reads (filledCache c r updates) (r.hashes .video) 0 videos := by
  have hlen (m : Modality) : ((r.hashes m).filter fun k => (c k).isNone).length =
      (processed m updates).length := by
    rw [missing_of,List.length_map,(processed_genuine h m).1]
  have hext {c₁ : Cache κ ι} {l : List (Key κ ι × CacheItem)}
      (h₁ : ∀ k, (c k).isSome → (c₁ k).isSome) (k : Key κ ι) (hk : (c k).isSome) :
      (Memo.putAll c₁ l k).isSome := by
    obtain ⟨e,he⟩ := Option.isSome_iff_exists.mp (h₁ k hk)
    rw [Memo.putAll_of_some he]
    rfl
  obtain ⟨audios,haud,hra⟩ := @mergeItems_ok κ ι c (r.hashes .audio) _ _ F c _ 0 (hlen .audio)
    fun _ hk => hk
  obtain ⟨images,himg,hri⟩ := @mergeItems_ok κ ι (Memo.putAll c
    (missingItems c (r.hashes .audio) (processed .audio updates))) (r.hashes .image) _ _ F c _ 0
    (hlen .image) (hext fun _ hk => hk)
  obtain ⟨videos,hvid,hrv⟩ := @mergeItems_ok κ ι _ (r.hashes .video) _ _ F c _ 0 (hlen .video)
    (hext (hext fun _ hk => hk))
  refine ⟨audios,images,videos,?_,?_,?_,hrv⟩
  · simp only [mergeMmKwargs,haud,himg,hvid,ok_bind]
    rfl
  · exact hra.mono fun k e he => Memo.putAll_of_some (Memo.putAll_of_some he)
  · exact hri.mono fun k e he => Memo.putAll_of_some he

theorem cachedApply_genuine (hc : Memo.Holds (Genuine F) c) (r : AvRequest κ ι) :
    Memo.Holds (Genuine F) (cachedApply F c r).2 := by
  rw [cachedApply]
  cases happ : cachedApplyHfProcessor F c r with
  | error e => exact hc
  | ok y =>
    obtain ⟨ids,-,happ⟩ := bind_eq_ok.mp happ
    obtain ⟨updates,hup,happ⟩ := bind_eq_ok.mp happ
    obtain ⟨audios,images,videos,hmerge,-⟩ := @mergeMmKwargs_ok κ ι F updates c r _ _ hup
    rw [hmerge] at happ
    obtain rfl := Except.ok.inj happ
    exact filledCache_genuine hc hup

/-- Whatever happened before, the cache holds what the processor makes of its items. -/
theorem cacheAfter_genuine (run : List (CacheEvent κ ι)) :
    Memo.Holds (Genuine F) (cacheAfter F run) := by
  have hrun : ∀ (run : List (CacheEvent κ ι)) (c : Cache κ ι), Memo.Holds (Genuine F) c →
      Memo.Holds (Genuine F) (run.foldl (CacheEvent.after F) c) := by
    intro run
    induction run with
    | nil => exact fun _ hc => hc
    | cons event run ih =>
      intro c hc
      refine ih _ ?_
      cases event with
      | request r => exact cachedApply_genuine hc r
      | evict k => exact hc.evict k
  exact hrun run _ Memo.holds_empty

end Invariant

section Transparency
variable {κ ι : Type} {F : Front κ ι} {kw : κ}

theorem count_encode_timestamp (tk : TokenizerLike) (q : ℚ) {t : Token} (ht : t.isText = false) :
    (tk.encode (timestampText q)).count t = 0 := by
  rw [encode_timestamp,List.count_eq_zero]
  intro hmem
  obtain ⟨n,-,rfl⟩ := List.mem_map.mp hmem
  cases ht

/-- The content of a video tells with how many audio tokens it was written. -/
theorem count_videoContent (v : ι) (n : Nat) : (F.videoContent kw v n).count .audioPad = n := by
  have hsum := sum_audioBoundaries (F.video kw v).timed n
    ((F.video kw v).secondPerGrid*F.positionIdPerSeconds)
  refine Eq.trans ?_ hsum
  simp only [Front.videoContent,getUpdatesUseAudioInVideo,List.count_flatMap]
  refine congrArg List.sum (List.map_congr_left fun i _ => ?_)
  have htext := fun q => count_encode_timestamp F.tk q (t := .audioPad) rfl
  simp [List.count_append,htext,List.count_replicate,Front.args]

variable {c : Cache κ ι} {hashes : List (Key κ ι)} {out : List (Option Bool × Update)}

theorem Reads.mem {i : Nat} (h : Reads c hashes i out) {k : Key κ ι} (hk : k ∈ hashes) :
    ∃ e, c k = some e := by
  obtain ⟨j,hj,rfl⟩ := List.getElem_of_mem hk
  have hsome : c.updateOf hashes[j] (i+j) ∈ out.map fun y => some y.2 := by
    rw [h.updates]
    refine List.mem_map.mpr ⟨(hashes[j],i+j),?_,rfl⟩
    exact List.mem_iff_getElem?.mpr ⟨j,by rw [List.getElem?_zipIdx,List.getElem?_eq_getElem hj]; rfl⟩
  obtain ⟨y,-,hy⟩ := List.mem_map.mp hsome
  obtain ⟨e,he,-⟩ := Option.map_eq_some_iff.mp hy.symm
  exact ⟨e,he⟩

theorem Reads.eq_resolved (h : Reads c hashes 0 out) {m : Modality} {t : Option Token}
    {content : Key κ ι → List Token}
    (hall : ∀ k ∈ hashes, ∀ e, c k = some e → ∃ i, e.promptUpdate = ⟨m,i,content k,t⟩) :
    out.map Prod.snd = resolved m t (hashes.map content) := by
  have hsome : (out.map Prod.snd).map some = (resolved m t (hashes.map content)).map some := by
    rw [List.map_map]
    refine Eq.trans h.updates ?_
    refine List.ext_getElem? fun i => ?_
    rw [List.getElem?_map,List.getElem?_map,getElem?_resolved,List.getElem?_map,List.getElem?_zipIdx]
    cases hk : hashes[i]? with
    | none => rfl
    | some k =>
      obtain ⟨e,he⟩ := h.mem (List.mem_of_getElem? hk)
      obtain ⟨j,hj⟩ := hall k (List.mem_of_getElem? hk) e he
      simp [Cache.updateOf,he,hj]
  exact List.map_injective_iff.mpr (Option.some_injective _) hsome

variable {r : AvRequest κ ι}

theorem mem_missing_videos {v : ι} (hv : v ∈ r.items.videos) (hc : c ⟨.video,r.kwargs,v⟩ = none) :
    v ∈ (getCacheMissingItems c r).videos := by
  have hmem : v ∈ r.items.of .video := hv
  simp [getCacheMissingItems,hmem,hc]

/-- The flag is found again, although the sender cache has dropped items. -/
theorem detect_sent {ids : List Token} {audios images : Nat} {videos : List (Option Bool)}
    (hlen : videos.length = r.pairs.length) (hflags : ∀ flag ∈ videos, ∀ b, flag = some b → b = true)
    (hseen : r.pairs ≠ [] → .videoPad ∈ ids ∨ ids.count .audioPad ≠ 2*r.pairs.length) :
    detectUseAudioInVideo r.items.counts ids ⟨audios,images,videos⟩ (F.updates r.kwargs r.items) =
      decide (r.pairs ≠ []) := by
  have hcount (m : Modality) (hm : m ≠ .image) :
      (((F.updates r.kwargs r.items).lookup m).getD []).length = r.pairs.length := by
    cases m with
    | image => exact absurd rfl hm
    | audio =>
      show (resolved .audio none _).length = _
      simp [resolved,AvRequest.items]
    | video =>
      show (resolved .video _ _).length = _
      simp [resolved,AvRequest.items]
  by_cases hp : r.pairs = []
  · have hnil : videos = [] := List.length_eq_zero_iff.mp (by rw [hlen,hp]; rfl)
    simp [detectUseAudioInVideo,hnil,hp]
  · have hpos : 0 < r.pairs.length := List.length_pos_iff.mpr hp
    have hne : videos ≠ [] := List.length_pos_iff.mp (hlen ▸ hpos)
    rw [detectUseAudioInVideo,if_neg hne,decide_eq_true hp]
    by_cases hany : (videos.any fun flag => flag = some true) = true
    · rw [if_pos hany]
    · -- nothing but dropped items: the prompt has to show the flag
      have hnone : none ∈ videos := by
        obtain ⟨flag,hflag⟩ := List.exists_mem_of_ne_nil _ hne
        cases flag with
        | none => exact hflag
        | some b =>
          obtain rfl := hflags _ hflag b rfl
          exact absurd (List.any_eq_true.mpr ⟨_,hflag,by simp⟩) hany
      have hvideos : 0 < r.items.counts .video := by
        simpa [Items.counts,Items.of,AvRequest.items] using hpos
      have haudios : 0 < r.items.counts .audio := by
        simpa [Items.counts,Items.of,AvRequest.items] using hpos
      have hkeys : ∀ m, (F.updates r.kwargs r.items).any (fun y => decide (y.1 = m)) = true := by
        intro m
        cases m <;> simp [Front.updates]
      rw [if_neg hany]
      by_cases hv : .videoPad ∈ ids
      · by_cases ha : .audioPad ∈ ids
        · simp [hv,ha,hkeys]
        · simp [hv,ha,hvideos,haudios]
      · have hmany := (hseen hp).resolve_left hv
        have hzero : ids.count .videoPad = 0 := List.count_eq_zero.mpr hv
        simp only [hcount .video (by decide),hcount .audio (by decide),hzero]
        have hsum : ids.count .audioPad ≠ r.pairs.length+r.pairs.length := by omega
        simp [hv,hnone,hsum]

theorem apply_tokens {ids : List Token} (hids : r.prompt = .tokens ids) :
    F.apply r = (do
      let updates ← F.mmPromptUpdates r.kwargs r.items
      maybeApplyPromptUpdates r.items.counts F.tk ids
        ⟨r.items.audios.length,r.items.images.length,r.items.videos.map fun _ => some true⟩
        updates false) := by
  have hpaired : r.items.videos = [] ∨ r.items.videos.length = r.items.audios.length :=
    .inr (by simp [AvRequest.items])
  rw [Front.apply,hids,Front.applyHfProcessorMain,
    (applyHfProcessorMmOnly_isOk F r.kwargs r.items).mpr hpaired]
  rfl

/-- An audio without tokens never gets into the cache. -/
theorem audioTokens_pos_missing (hc : Memo.Holds (Genuine F) c) {updates : Updates}
    (hup : F.mmPromptUpdates r.kwargs (getCacheMissingItems c r) = .ok updates) :
    ∀ a ∈ r.items.audios, 0 < F.audioTokens r.kwargs a := by
  intro a ha
  cases hk : c ⟨.audio,r.kwargs,a⟩ with
  | some e =>
    obtain ⟨-,i,hgen,-⟩ := hc _ _ hk
    exact hgen
  | none =>
    refine audioTokens_pos hup a ?_
    have hmem : a ∈ r.items.of .audio := ha
    simp [getCacheMissingItems,hmem,hk]

variable [DecidableEq κ] [DecidableEq ι]

/-- The audio tokens in the update that the request will read for a video: those of its cached
content, or those of the missing audio that stands where the video stands among the missing
videos. -/
def carried (F : Front κ ι) (c : Cache κ ι) (r : AvRequest κ ι) (v : ι) : Option Nat :=
  match c ⟨.video,r.kwargs,v⟩ with
  | some e => some (e.promptUpdate.full.count .audioPad)
  | none =>
      let x := getCacheMissingItems c r
      x.audios[x.videos.idxOf v]?.map (F.audioTokens r.kwargs)

/-- Where the cache does not show: a token prompt from which the flag can be told, no keyword
argument that goes by the positions of the videos, the HF processor is called with as many
videos as audios or without any video, and every video is read with the audio tokens of its own
audio. -/
structure Meets (F : Front κ ι) (c : Cache κ ι) (r : AvRequest κ ι) : Prop where
  prompt : ∃ ids, r.prompt = .tokens ids ∧
    (r.pairs ≠ [] → .videoPad ∈ ids ∨ ids.count .audioPad ≠ 2*r.pairs.length)
  keyword : F.kwVideoMetadata r.kwargs = none
  counts : (getCacheMissingItems c r).videos = [] ∨
    (getCacheMissingItems c r).videos.length = (getCacheMissingItems c r).audios.length
  own : ∀ p ∈ r.pairs, carried F c r p.1 = some (F.audioTokens r.kwargs p.2)

theorem idxOf_hashes (kw : κ) (l : List ι) (v : ι) :
    (l.map fun item => (⟨.video,kw,item⟩ : Key κ ι)).idxOf ⟨.video,kw,v⟩ = l.idxOf v := by
  induction l with
  | nil => rfl
  | cons w l ih =>
    by_cases hw : w = v
    · simp [hw]
    · have hne : (⟨.video,kw,w⟩ : Key κ ι) ≠ ⟨.video,kw,v⟩ := by simpa using hw
      rw [List.map_cons,List.idxOf_cons_ne _ hne,List.idxOf_cons_ne _ hw,ih]

theorem filledCache_video {v : ι} (hv : c ⟨.video,r.kwargs,v⟩ = none) (updates : Updates)
    (hlen : (getCacheMissingItems c r).videos.length = (processed .video updates).length) :
    filledCache c r updates ⟨.video,r.kwargs,v⟩ =
      (processed .video updates)[(getCacheMissingItems c r).videos.idxOf v]? := by
  have hother (m : Modality) (hm : m ≠ .video) :
      (⟨.video,r.kwargs,v⟩ : Key κ ι) ∉ (missingItems c (r.hashes m) (processed m updates)).map
        Prod.fst := by
    intro hmem
    obtain ⟨y,hy,hk⟩ := List.mem_map.mp hmem
    rw [missingItems,missing_of] at hy
    obtain ⟨item,-,hitem⟩ := List.mem_map.mp (List.of_mem_zip hy).1
    rw [hk] at hitem
    exact hm (congrArg Key.modality hitem)
  rw [filledCache,Memo.putAll_of_none,missingItems,missing_of]
  · rw [Memo.lookup_zip _ _ (by rw [List.length_map]; exact hlen)]
    congr 1
    exact idxOf_hashes _ _ _
  · rw [Memo.putAll_of_notMem (hother .image (by decide)),
      Memo.putAll_of_notMem (hother .audio (by decide)),hv]

theorem filledCache_of_some {k : Key κ ι} {e : CacheItem} (h : c k = some e) (updates : Updates) :
    filledCache c r updates k = some e :=
  Memo.putAll_of_some (Memo.putAll_of_some (Memo.putAll_of_some h))

/-- Every video reads the content with the tokens that `carried` counts. -/
theorem read_video (hc : Memo.Holds (Genuine F) c) (hm : Meets F c r) {v : ι}
    (hv : v ∈ r.items.videos) {e : CacheItem}
    (he : filledCache c r (F.updates r.kwargs (getCacheMissingItems c r)) ⟨.video,r.kwargs,v⟩ =
      some e) :
    ∃ i, e.promptUpdate =
      ⟨.video,i,F.videoContent r.kwargs v ((carried F c r v).getD 0),some .videoPad⟩ := by
  cases hk : c ⟨.video,r.kwargs,v⟩ with
  | some e' =>
    rw [filledCache_of_some hk] at he
    obtain rfl := Option.some.inj he
    obtain ⟨-,i,hgen⟩ := hc _ _ hk
    obtain ⟨n,hn⟩ := hgen hm.keyword
    have hcount : carried F c r v = some n := by
      rw [carried,hk]
      simp only [hn,count_videoContent]
    exact ⟨i,by rw [hn,hcount]; rfl⟩
  | none =>
    have hmem := mem_missing_videos hv hk
    have hlen := hm.counts.resolve_left (List.ne_nil_of_mem hmem)
    have hproc : processed .video (F.updates r.kwargs (getCacheMissingItems c r)) =
        (resolved .video (some .videoPad) (List.zipWith
          (fun v a => F.videoContent r.kwargs v (F.audioTokens r.kwargs a))
          (getCacheMissingItems c r).videos (getCacheMissingItems c r).audios)).map
            fun u => ⟨true,u⟩ := rfl
    rw [filledCache_video hk _ (by rw [hproc]; simp [resolved,hlen]),hproc,List.getElem?_map,
      getElem?_resolved,Option.map_map] at he
    obtain ⟨content,hcontent,rfl⟩ := Option.map_eq_some_iff.mp he
    obtain ⟨v',a,hv',ha,rfl⟩ := List.getElem?_zipWith_eq_some.mp hcontent
    obtain rfl : v = v' := Option.some.inj ((List.getElem?_idxOf hmem).symm.trans hv')
    have hcount : carried F c r v = some (F.audioTokens r.kwargs a) := by
      rw [carried,hk]
      simp [ha]
    exact ⟨_,by rw [hcount]; rfl⟩

theorem read_updates (hc : Memo.Holds (Genuine F) c) (hm : Meets F c r)
    (hup : F.mmPromptUpdates r.kwargs (getCacheMissingItems c r) =
      .ok (F.updates r.kwargs (getCacheMissingItems c r)))
    {audios images videos : List (Option Bool × Update)}
    (hra : Reads (filledCache c r (F.updates r.kwargs (getCacheMissingItems c r)))
      (r.hashes .audio) 0 audios)
    (hri : Reads (filledCache c r (F.updates r.kwargs (getCacheMissingItems c r)))
      (r.hashes .image) 0 images)
    (hrv : Reads (filledCache c r (F.updates r.kwargs (getCacheMissingItems c r)))
      (r.hashes .video) 0 videos) :
    [(Modality.audio,audios.map Prod.snd),(.image,images.map Prod.snd),(.video,videos.map Prod.snd)] =
      F.updates r.kwargs r.items := by
  have hgen := filledCache_genuine hc hup
  have haud : audios.map Prod.snd = resolved .audio none
      ((r.hashes .audio).map fun k => F.audioContent k.kwargs k.item) := by
    refine hra.eq_resolved fun k hk e he => ?_
    obtain ⟨item,-,rfl⟩ := List.mem_map.mp hk
    obtain ⟨-,i,-,hi⟩ := hgen _ _ he
    exact ⟨i,hi⟩
  have himg : images.map Prod.snd = resolved .image none
      ((r.hashes .image).map fun k => F.imageContent k.kwargs k.item) := by
    refine hri.eq_resolved fun k hk e he => ?_
    obtain ⟨item,-,rfl⟩ := List.mem_map.mp hk
    obtain ⟨-,i,hi⟩ := hgen _ _ he
    exact ⟨i,hi⟩
  have hvid : videos.map Prod.snd = resolved .video (some .videoPad)
      ((r.hashes .video).map fun k =>
        F.videoContent k.kwargs k.item ((carried F c r k.item).getD 0)) := by
    refine hrv.eq_resolved fun k hk e he => ?_
    obtain ⟨item,hitem,rfl⟩ := List.mem_map.mp hk
    exact read_video hc hm hitem he
  have hown : (r.hashes .video).map (fun k =>
      F.videoContent k.kwargs k.item ((carried F c r k.item).getD 0)) = List.zipWith
        (fun v a => F.videoContent r.kwargs v (F.audioTokens r.kwargs a)) r.items.videos
          r.items.audios := by
    rw [AvRequest.items,List.zipWith_map,List.zipWith_self,AvRequest.hashes,List.map_map]
    show (r.pairs.map Prod.fst).map _ = _
    rw [List.map_map]
    refine List.map_congr_left fun p hp => ?_
    simp [hm.own p hp]
  rw [haud,himg,hvid,hown]
  simp only [AvRequest.hashes,List.map_map]
  rfl

theorem maybeApplyPromptUpdates_congr {counts : Modality → Nat} {tk : TokenizerLike}
    {ids : List Token} {k k' : MmKwargs} {updates : Updates} {applied : Bool}
    (hcount : ∀ m, k.count m = k'.count m)
    (hflag : detectUseAudioInVideo counts ids k updates = detectUseAudioInVideo counts ids k' updates) :
    maybeApplyPromptUpdates counts tk ids k updates applied =
      maybeApplyPromptUpdates counts tk ids k' updates applied := by
  simp only [maybeApplyPromptUpdates,validateMmKwargs,hcount,hflag]

theorem cachedApplyHfProcessor_tokens {ids : List Token} (hids : r.prompt = .tokens ids)
    (hcounts : (getCacheMissingItems c r).videos = [] ∨
      (getCacheMissingItems c r).videos.length = (getCacheMissingItems c r).audios.length) :
    cachedApplyHfProcessor F c r = (do
      let updates ← F.mmPromptUpdates r.kwargs (getCacheMissingItems c r)
      let merged ← mergeMmKwargs F c r updates
      pure (ids,merged)) := by
  rw [cachedApplyHfProcessor,hids,Front.applyHfProcessorApart,
    (applyHfProcessorMmOnly_isOk F r.kwargs _).mpr hcounts]
  rfl

/-- In every state that requests and evictions can lead to, a request that meets the condition
gets the reply that it gets without the cache. -/
theorem cached_transparent (run : List (CacheEvent κ ι)) (hm : Meets F (cacheAfter F run) r)
    (out : List Token × Placeholders) :
    (cachedApply F (cacheAfter F run) r).1 = .ok out ↔ F.apply r = .ok out := by
  have hc := @cacheAfter_genuine κ ι F _ _ run
  generalize cacheAfter F run = c at hm hc
  obtain ⟨ids,hids,hseen⟩ := hm.prompt
  have hpaired : r.items.videos = [] ∨ r.items.videos.length = r.items.audios.length :=
    .inr (by simp [AvRequest.items])
  have hfull := apply_tokens (F := F) hids
  have hpart := cachedApplyHfProcessor_tokens (F := F) hids hm.counts
  by_cases hpos : ∀ a ∈ r.items.audios, 0 < F.audioTokens r.kwargs a
  · -- both ways get the same updates
    have hmissing : ∀ a ∈ (getCacheMissingItems c r).audios, 0 < F.audioTokens r.kwargs a :=
      fun a ha => hpos a (List.mem_of_mem_filter ha)
    have hup := mmPromptUpdates_ok hm.keyword hm.counts hmissing
    obtain ⟨audios,images,videos,hmerge,hra,hri,hrv⟩ := mergeMmKwargs_ok hup
    have hread := read_updates hc hm hup hra hri hrv
    rw [hread] at hmerge
    have hflags : ∀ flag ∈ videos.map Prod.fst, ∀ b, flag = some b → b = true := by
      intro flag hflag b hb
      obtain ⟨y,hy,rfl⟩ := List.mem_map.mp hflag
      obtain ⟨k,e,he,rfl⟩ := hrv.flags y hy b hb
      exact (filledCache_genuine hc hup k e he).1
    have hlenv : (videos.map Prod.fst).length = r.pairs.length := by
      rw [List.length_map,hrv.length_eq]
      simp [AvRequest.hashes,Items.of,AvRequest.items]
    have hsame : maybeApplyPromptUpdates r.items.counts F.tk ids
        ⟨audios.length,images.length,videos.map Prod.fst⟩ (F.updates r.kwargs r.items) false =
      maybeApplyPromptUpdates r.items.counts F.tk ids
        ⟨r.items.audios.length,r.items.images.length,r.items.videos.map fun _ => some true⟩
        (F.updates r.kwargs r.items) false := by
      refine maybeApplyPromptUpdates_congr (fun m => ?_) ?_
      · cases m with
        | audio => simpa [MmKwargs.count,AvRequest.hashes,Items.of] using hra.length_eq
        | image => simpa [MmKwargs.count,AvRequest.hashes,Items.of] using hri.length_eq
        | video => simpa [MmKwargs.count,AvRequest.hashes,Items.of] using hrv.length_eq
      · rw [detect_sent hlenv hflags hseen,detect_sent (by simp [AvRequest.items]) (by simp) hseen]
    rw [hfull,mmPromptUpdates_ok hm.keyword hpaired hpos,cachedApply,hpart,hup,ok_bind,hmerge]
    exact iff_of_eq (congrArg (· = _) hsame)
  · -- an audio without tokens is refused either way, as it never gets into the cache
    have hfail : ∀ out, F.apply r ≠ .ok out := by
      intro out hok
      rw [hfull] at hok
      obtain ⟨updates,hup,-⟩ := bind_eq_ok.mp hok
      exact hpos (audioTokens_pos hup)
    have hcached : ∀ out, (cachedApply F c r).1 ≠ .ok out := by
      intro out hok
      rw [cachedApply,hpart] at hok
      cases hup : F.mmPromptUpdates r.kwargs (getCacheMissingItems c r) with
      | error e =>
        rw [hup] at hok
        cases hok
      | ok updates =>
        exact hpos (audioTokens_pos_missing hc hup)
    exact ⟨fun h => absurd h (hcached out),fun h => absurd h (hfail out)⟩

end Transparency

section Instances

/-- Items are numbers: an audio of that many samples, a video of that many grids and one more. -/
def numberFront (sender : Bool) : Front Unit Nat where
  tk := ⟨charTokenizer,fun _ => []⟩
  mergeSize := 2
  temporalPatchSize := 2
  positionIdPerSeconds := 13
  audioConfig := fun _ => ⟨160,480000,false⟩
  audioSamples := id
  maskSum := fun _ n => (n+159)/160
  image := fun _ _ => ⟨1,2,2⟩
  video := fun _ n => ⟨⟨n+1,2,2⟩,1,⟨[0,1],2⟩,Nat.succ_pos n,by decide⟩
  returnMetadata := fun _ => false
  kwVideoMetadata := fun _ => none
  audioText := fun _ => ""
  sender := sender

/-- One video with its audio. -/
def onePair (video audio : Nat) : AvRequest Unit Nat :=
  ⟨.tokens [.visionStart,.videoPad,.visionEnd],(),[],[(video,audio)]⟩

/-- The audio tokens of a reply. -/
def soundTokens (reply : Py (List Token × Placeholders)) : Py Nat :=
  reply.map fun out => out.1.count .audioPad

/-- The same pair again. -/
theorem samePair_transparent :
    Meets (numberFront true) (cacheAfter (numberFront true) [.request (onePair 0 1600)])
      (onePair 0 1600) ∧
    soundTokens ((numberFront true).apply (onePair 0 1600)) = .ok 2 ∧
    ∀ out, (cachedApply (numberFront true) (cacheAfter (numberFront true)
      [.request (onePair 0 1600)]) (onePair 0 1600)).1 = .ok out ↔
        (numberFront true).apply (onePair 0 1600) = .ok out := by
  have hm : Meets (numberFront true) (cacheAfter (numberFront true) [.request (onePair 0 1600)])
      (onePair 0 1600) :=
    ⟨⟨_,rfl,fun _ => .inl (by decide)⟩,rfl,by decide +kernel,by decide +kernel⟩
  exact ⟨hm,by decide +kernel,fun out => cached_transparent _ hm out⟩

/-- Replies that are the same have the same audio tokens. -/
theorem soundTokens_iff {reply reply' : Py (List Token × Placeholders)}
    (h : ∀ out, reply = .ok out ↔ reply' = .ok out) (n : Nat) :
    soundTokens reply = .ok n ↔ soundTokens reply' = .ok n := by
  have hone : ∀ {x y : Py (List Token × Placeholders)}, (∀ out, x = .ok out → y = .ok out) →
      soundTokens x = .ok n → soundTokens y = .ok n := by
    intro x y hxy hx
    cases hout : x with
    | error e =>
      rw [hout] at hx
      cases hx
    | ok out =>
      rw [hxy out hout]
      rwa [hout] at hx
  exact ⟨hone fun out => (h out).mp,hone fun out => (h out).mpr⟩

/-- A video with another audio keeps the tokens of the first one, and an audio with another video
is an error. -/
theorem reused_shows :
    (∀ r ∈ [onePair 0 16000,onePair 1 1600], ¬ ∀ out,
      (cachedApply (numberFront true) (cacheAfter (numberFront true) [.request (onePair 0 1600)])
        r).1 = .ok out ↔ (numberFront true).apply r = .ok out) ∧
    soundTokens (cachedApply (numberFront true) (cacheAfter (numberFront true)
      [.request (onePair 0 1600)]) (onePair 0 16000)).1 = .ok 2 ∧
    soundTokens ((numberFront true).apply (onePair 0 16000)) = .ok 13 ∧
    soundTokens (cachedApply (numberFront true) (cacheAfter (numberFront true)
      [.request (onePair 0 1600)]) (onePair 1 1600)).1 = .error (.raised .valueError
        ("use_audio_in_video=True requires an audio input for each video. " ++
          "apply_chat_template(tokenize=True, use_audio_in_video=True) loads video audio " ++
          "automatically.")) ∧
    soundTokens ((numberFront true).apply (onePair 1 1600)) = .ok 2 := by
  have hvideo : soundTokens (cachedApply (numberFront true) (cacheAfter (numberFront true)
      [.request (onePair 0 1600)]) (onePair 0 16000)).1 = .ok 2 := by decide +kernel
  have hvideo' : soundTokens ((numberFront true).apply (onePair 0 16000)) = .ok 13 := by
    decide +kernel
  have haudio : soundTokens (cachedApply (numberFront true) (cacheAfter (numberFront true)
      [.request (onePair 0 1600)]) (onePair 1 1600)).1 = .error (.raised .valueError
        ("use_audio_in_video=True requires an audio input for each video. " ++
          "apply_chat_template(tokenize=True, use_audio_in_video=True) loads video audio " ++
          "automatically.")) := by decide +kernel
  have haudio' : soundTokens ((numberFront true).apply (onePair 1 1600)) = .ok 2 := by
    decide +kernel
  refine ⟨fun r hr h => ?_,hvideo,hvideo',haudio,haudio'⟩
  simp only [List.mem_cons,List.not_mem_nil,or_false] at hr
  rcases hr with rfl | rfl
  · have := (soundTokens_iff h 2).mp hvideo
    rw [hvideo'] at this
    cases this
  · have := (soundTokens_iff h 2).mpr haudio'
    rw [haudio] at this
    cases this

end Instances
end TLiveOmni.Vllm
