import TLiveOmni.ProcessorBatch
import TLiveOmni.PromptUpdatesWire

/-! What the contents of the updates are made of: how many tokens of each medium they have, and
that they can be found again. -/
set_option autoImplicit false

namespace TLiveOmni
namespace Vllm
open PySeq Words Expand

theorem encode_plain (tk : Tokenizer) {cs : List Char} (h : Plain Word.spell cs) :
    tk.encode cs = wireText (tk.encodePlain cs) := by
  have := @encode_chunks 1 tk [] cs (by simp) h
  simpa [chunkSyms,wireItems] using this

theorem encode_timestamp (tk : Tokenizer) (q : ℚ) :
    tk.encode (timestampText q) = wireText (tk.encodePlain (timestampText q)) :=
  encode_plain tk (plain_timestampText q)

theorem count_wireItems {m : Nat} {t : Token} (ht : t.isText = false) (items : List (Item m)) :
    (wireItems items).count t = (items.map fun it => it.media.wire.count t).sum := by
  induction items with
  | nil => rfl
  | cons it items ih =>
    have htext : (wireText it.text).count t = 0 := List.count_eq_zero.mpr (notMem_wireText ht _)
    have hsplit : wireItems (it :: items) =
        wireText it.text ++ (it.media.wire ++ wireItems items) := by
      simp [wireItems,Item.wire]
    rw [hsplit,List.count_append,List.count_append,htext,ih,List.map_cons,List.sum_cons]
    omega

section Boundaries

theorem sum_gaps (audioLen : Nat) (factor : ℚ) (n i : Nat) {last : Int} (h₀ : 0 ≤ last)
    (h₁ : last ≤ audioLen) :
    ((List.range (n+1)).map fun k : Nat =>
      ((last :: boundariesFrom audioLen factor i n last).getD (k+1) 0-
        (last :: boundariesFrom audioLen factor i n last).getD k 0).toNat).sum =
      ((audioLen : Int)-last).toNat := by
  induction n generalizing i last with
  | zero => simp [boundariesFrom]
  | succ n ih =>
    set b := min (audioLen : Int) (max (truncate (i*factor+1/1000000)) last) with hb
    have hrec := ih (i+1) (show 0 ≤ b by omega) (show b ≤ audioLen by omega)
    have hlist : boundariesFrom audioLen factor i (n+1) last =
        b :: boundariesFrom audioLen factor (i+1) n b := rfl
    rw [hlist,List.range_succ_eq_map,List.map_cons,List.map_map,List.sum_cons]
    have hshift : ((List.range (n+1)).map ((fun k : Nat =>
        ((last :: b :: boundariesFrom audioLen factor (i+1) n b).getD (k+1) 0-
          (last :: b :: boundariesFrom audioLen factor (i+1) n b).getD k 0).toNat) ∘ Nat.succ)).sum =
        ((audioLen : Int)-b).toNat := hrec
    rw [hshift]
    simp only [List.getD_cons_succ,List.getD_cons_zero]
    omega

theorem sum_audioBoundaries {gridT : Nat} (h : 0 < gridT) (audioLen : Nat) (factor : ℚ) :
    ((List.range gridT).map fun k : Nat =>
      ((audioBoundaries gridT audioLen factor).getD (k+1) 0-
        (audioBoundaries gridT audioLen factor).getD k 0).toNat).sum = audioLen := by
  obtain ⟨n,rfl⟩ : ∃ n, gridT = n+1 := ⟨gridT-1,by omega⟩
  have := @sum_gaps audioLen factor n 1 0 (by omega) (by omega)
  simpa [audioBoundaries] using this

end Boundaries

section Contents
variable (tk : TokenizerLike) (d : UpdateArgs) {m : Nat}

/-- The spans of a silent video, one for each timestamp. -/
def silentItems (g : Grid m) (timestamps : List ℚ) : List (Item m) :=
  timestamps.map fun ts => ⟨tk.encodePlain (timestampText ts),.grid g.toFrame false⟩

/-- The spans of a video with `audioLen` audio tokens. -/
def avItems (g : Grid m) (audioLen : Nat) (second : ℚ) (timestamps : Option (List ℚ)) :
    List (Item m) :=
  let times := timestamps.getD
    ((List.range g.t).map fun i : Nat => (i : ℚ)*second+second/2*(1/2))
  let boundaries := audioBoundaries g.t audioLen (second*d.positionIdPerSeconds)
  (List.range g.t).map fun i : Nat =>
    ⟨tk.encodePlain (timestampText (if times = [] then (i : ℚ)
        else times.getD (min i (times.length-1)) 0)),
      .avGrid g.toFrame (boundaries.getD (i+1) 0-boundaries.getD i 0).toNat none⟩

theorem wireItems_map {β : Type} (l : List β) (f : β → Item m) :
    wireItems (l.map f) = l.flatMap fun b => (f b).wire := by
  simp [wireItems,List.flatMap_map]

variable {tk d} {i j : Nat} {c : List Token}

theorem getReplacementAudio_ok (h : getReplacementAudio d i 0 = .ok c) :
    ∃ n, d.audioFeatureLengths[i]? = some n ∧
      c = List.replicate (getFeatExtractOutputLengths n).toNat .audioPad ∧ c ≠ [] := by
  simp only [getReplacementAudio,Nat.add_zero] at h
  obtain ⟨n,hn,h⟩ := bind_eq_ok.mp h
  obtain ⟨_,hpos,h⟩ := bind_eq_ok.mp h
  obtain rfl := Except.ok.inj h
  refine ⟨n,getItem_eq_ok.mp hn,rfl,?_⟩
  have hne := raiseIf_eq_ok.mp hpos
  simpa using hne

theorem getReplacementImage_ok {g : Grid m} (hm : d.mergeSize = m)
    (hg : d.imageGridThw[i]? = some g.thw) (h : getReplacementImage d i = .ok c) :
    c = List.replicate (g.t*g.toFrame.tokens) .imagePad := by
  simp only [getReplacementImage] at h
  obtain ⟨thw,hthw,h⟩ := bind_eq_ok.mp h
  obtain rfl : g.thw = thw := Option.some.inj (hg.symm.trans (getItem_eq_ok.mp hthw))
  obtain rfl := Except.ok.inj h
  rw [hm,g.prod_div_sq]

theorem getReplacementVideo_ok {g : Grid m} (hm : d.mergeSize = m)
    (hg : d.videoGridThw[i]? = some g.thw) (h : getReplacementVideo tk d i = .ok c) :
    ∃ times, silentTimestamps d i g.t = .ok times ∧ c = wireItems (silentItems tk g times) := by
  simp only [getReplacementVideo] at h
  obtain ⟨thw,hthw,h⟩ := bind_eq_ok.mp h
  obtain rfl : g.thw = thw := Option.some.inj (hg.symm.trans (getItem_eq_ok.mp hthw))
  obtain ⟨times,htimes,h⟩ := bind_eq_ok.mp h
  obtain rfl := Except.ok.inj h
  refine ⟨times,htimes,?_⟩
  rw [silentItems,wireItems_map]
  simp [Item.wire,Media.wire,Grid.thw,hm,g.toFrame.mul_div_sq,encode_timestamp]

theorem getReplacementUseAudioInVideo_ok {g : Grid m} (hm : d.mergeSize = m)
    (hg : d.videoGridThw[i]? = some g.thw)
    (h : getReplacementUseAudioInVideo tk d i j = .ok c) :
    ∃ n second times, d.audioFeatureLengths[j]? = some n ∧
      c = wireItems (avItems tk d g (getFeatExtractOutputLengths n).toNat second times) := by
  simp only [getReplacementUseAudioInVideo] at h
  obtain ⟨n,hn,h⟩ := bind_eq_ok.mp h
  obtain ⟨thw,hthw,h⟩ := bind_eq_ok.mp h
  obtain rfl : g.thw = thw := Option.some.inj (hg.symm.trans (getItem_eq_ok.mp hthw))
  obtain ⟨second,-,h⟩ := bind_eq_ok.mp h
  obtain ⟨times,-,h⟩ := bind_eq_ok.mp h
  obtain rfl := Except.ok.inj h
  refine ⟨n,second,times,getItem_eq_ok.mp hn,?_⟩
  simp only [avItems,wireItems_map]
  simp [getUpdatesUseAudioInVideo,Item.wire,Media.wire,Grid.thw,hm,Frame.tokens,Frame.rows,
    Frame.cols,encode_timestamp]

theorem count_silentItems (g : Grid m) (times : List ℚ) :
    (wireItems (silentItems tk g times)).count .videoPad = times.length*g.toFrame.tokens ∧
      (wireItems (silentItems tk g times)).count .audioPad = 0 ∧
      (wireItems (silentItems tk g times)).count .imagePad = 0 := by
  refine ⟨?_,?_,?_⟩ <;> rw [count_wireItems rfl] <;>
    simp [silentItems,Media.wire,List.count_append,List.count_replicate,Function.comp_def,
      List.map_const']

theorem count_avItems (g : Grid m) (audioLen : Nat) (second : ℚ) (times : Option (List ℚ)) :
    (wireItems (avItems tk d g audioLen second times)).count .videoPad = g.t*g.toFrame.tokens ∧
      (wireItems (avItems tk d g audioLen second times)).count .audioPad = audioLen ∧
      (wireItems (avItems tk d g audioLen second times)).count .imagePad = 0 := by
  have hsum := sum_audioBoundaries g.tPos audioLen (second*d.positionIdPerSeconds)
  refine ⟨?_,?_,?_⟩ <;> rw [count_wireItems rfl]
  · simp [avItems,Media.wire,List.count_append,List.count_replicate,Function.comp_def,
      List.map_const']
  · refine Eq.trans ?_ hsum
    simp [avItems,Media.wire,List.count_append,List.count_replicate,Function.comp_def]
  · simp [avItems,Media.wire,List.count_append,List.count_replicate,Function.comp_def,
      List.map_const']

end Contents

section Request
variable {m : Nat} (tk : TokenizerLike) (d : UpdateArgs)

/-- The grids of the request, of sides divisible by the merge size. -/
structure Describes (d : UpdateArgs) (images videos : List (Grid m)) : Prop where
  mergeSize : d.mergeSize = m
  images : d.imageGridThw = images.map Grid.thw
  videos : d.videoGridThw = videos.map Grid.thw

/-- The number of processed items of each modality. -/
def UpdateArgs.counts : Modality → Nat
  | .audio => d.audioFeatureLengths.length
  | .image => d.imageGridThw.length
  | .video => d.videoGridThw.length

/-- Every video item carries the flag of the request. -/
def UpdateArgs.kwargs : MmKwargs :=
  ⟨d.audioFeatureLengths.length,d.imageGridThw.length,
    List.replicate d.videoGridThw.length (some d.useAudioInVideo)⟩

/-- The updates of a request, with the contents of its items. -/
structure Bound (updates : Updates) (audios images videos : List (List Token)) : Prop where
  eq : updates = [(.audio,resolved .audio none audios),(.image,resolved .image none images),
    (.video,resolved .video (some .videoPad) videos)]
  audioCount : audios.length = d.counts .audio
  imageCount : images.length = d.counts .image
  videoCount : videos.length = d.counts .video
  audio : ∀ i c, audios[i]? = some c → getReplacementAudio d i 0 = .ok c
  image : ∀ i c, images[i]? = some c → getReplacementImage d i = .ok c
  video : ∀ i c, videos[i]? = some c → videoReplacementFn tk d i i = .ok c

variable {tk d}

/-- The counter of used audios and the index of the video run together. -/
theorem resolveVideos_ok {i n : Nat} {l : List (List Token)}
    (h : resolveVideos tk d i (if d.useAudioInVideo then i else 0) n = .ok l) :
    l.length = n ∧ ∀ k c, l[k]? = some c → videoReplacementFn tk d (i+k) (i+k) = .ok c := by
  induction n generalizing i l with
  | zero =>
    obtain rfl : [] = l := by simpa [resolveVideos] using h
    simp
  | succ n ih =>
    simp only [resolveVideos] at h
    obtain ⟨full,hfull,h⟩ := bind_eq_ok.mp h
    obtain ⟨rest,hrest,h⟩ := bind_eq_ok.mp h
    obtain rfl := Except.ok.inj h
    have hcounter : (if d.useAudioInVideo then (if d.useAudioInVideo then i else 0)+1
        else if d.useAudioInVideo then i else 0) = if d.useAudioInVideo then i+1 else 0 := by
      split <;> simp_all
    rw [hcounter] at hrest
    obtain ⟨hlen,hall⟩ := ih hrest
    refine ⟨by simp [hlen],fun k c hk => ?_⟩
    cases k with
    | zero =>
      obtain rfl : full = c := by simpa using hk
      rw [← hfull,videoReplacementFn,videoReplacementFn]
      split <;> simp_all
    | succ k =>
      have := hall k c (by simpa using hk)
      rwa [show i+1+k = i+(k+1) by omega] at this

theorem getMmPromptUpdates_ok {updates : Updates}
    (h : getMmPromptUpdates tk d d.counts = .ok updates) :
    ∃ audios images videos, Bound tk d updates audios images videos := by
  simp only [getMmPromptUpdates] at h
  obtain ⟨audios,haud,h⟩ := bind_eq_ok.mp h
  obtain ⟨images,himg,h⟩ := bind_eq_ok.mp h
  obtain ⟨videos,hvid,h⟩ := bind_eq_ok.mp h
  obtain rfl := Except.ok.inj h
  obtain ⟨hal,ha⟩ := mapM_range haud
  obtain ⟨hil,hi⟩ := mapM_range himg
  have hstart : resolveVideos tk d 0 (if d.useAudioInVideo then 0 else 0) (d.counts .video) =
      .ok videos := by simpa using hvid
  obtain ⟨hvl,hv⟩ := resolveVideos_ok hstart
  exact ⟨audios,images,videos,rfl,hal,hil,hvl,ha,hi,fun i c hc => by simpa using hv i c hc⟩

theorem mem_resolved {m : Modality} {e : Option Token} {contents : List (List Token)}
    {u : Update} (h : u ∈ resolved m e contents) :
    u.modality = m ∧ u.embedToken = e ∧ contents[u.itemIdx]? = some u.full := by
  obtain ⟨x,hx,rfl⟩ := List.mem_map.mp h
  exact ⟨rfl,rfl,List.mem_zipIdx_iff_getElem?.mp hx⟩

theorem resolved_sound (audios images videos : List (List Token)) :
    Updates.Sound [(.audio,resolved .audio none audios),(.image,resolved .image none images),
      (.video,resolved .video (some .videoPad) videos)] := by
  refine ⟨by simp,?_⟩
  intro x hx u hu
  simp only [List.mem_cons,List.not_mem_nil,or_false] at hx
  rcases hx with rfl | rfl | rfl <;> exact (mem_resolved hu).1

end Request
end Vllm
end TLiveOmni
