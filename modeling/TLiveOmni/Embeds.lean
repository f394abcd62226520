import TLiveOmni.PromptContents

/-! How many positions of the prompt receive an embedding: for every item as many as the encoder
returns rows, as long as the branch for videos with audio is not taken by mistake. -/
set_option autoImplicit false

namespace TLiveOmni
namespace Vllm
open PySeq Words Expand

/-- The positions of a placeholder that receive an embedding. -/
def Placeholder.embedCount (p : Placeholder) : Nat :=
  match p.isEmbed with
  | some mask => mask.count true
  | none => p.tokens.length

def Update.embedCount (u : Update) : Nat :=
  match u.embedToken with
  | some t => u.full.count t
  | none => u.full.length

theorem count_mask (l : List Token) (t : Token) :
    (l.map fun x => decide (x = t)).count true = l.count t := by
  induction l with
  | nil => rfl
  | cons x l ih =>
    by_cases hx : x = t
    · simp [hx,ih]
    · simp [hx,ih]

theorem embedCount_placeholder (u : Update) (n : Nat) :
    (u.placeholder n).embedCount = u.embedCount := by
  cases h : u.embedToken with
  | none => simp [Placeholder.embedCount,Update.placeholder,Update.isEmbed,Update.embedCount,h]
  | some t =>
    simp [Placeholder.embedCount,Update.placeholder,Update.isEmbed,Update.embedCount,h,count_mask]

section Scan
variable {updates : Updates}

theorem matchAt_some {tokens : List Token} {u : Update} (h : matchAt tokens updates = some u) :
    ∃ x ∈ updates, x.2.head? = some u ∧ u.full ≠ [] := by
  obtain ⟨before,x,after,hup,hx,-⟩ := List.findSome?_eq_some_iff.mp h
  obtain ⟨hhead,hu⟩ := Option.filter_eq_some_iff.mp hx
  refine ⟨x,by rw [hup]; simp,hhead,?_⟩
  simp only [Bool.and_eq_true,decide_eq_true_eq] at hu
  exact hu.1

theorem mem_unique (h : updates.Sound) {x y : Modality × List Update} (hx : x ∈ updates)
    (hy : y ∈ updates) (e : x.1 = y.1) : x = y :=
  List.inj_on_of_nodup_map h.keys hx hy e

/-- No item behind one with an empty content is ever found. -/
theorem iterFrom_le (h : updates.Sound) {x : Modality × List Update} (hx : x ∈ updates)
    (skip startIdx : Nat) (tokens : List Token) :
    ((iterFrom skip startIdx updates tokens).filter fun p => decide (p.modality = x.1)).length ≤
      (x.2.takeWhile fun u => decide (u.full ≠ [])).length := by
  induction tokens generalizing updates x skip startIdx with
  | nil => simp [iterFrom]
  | cons t tokens ih =>
    cases skip with
    | succ skip => exact ih h hx _ _
    | zero =>
      rw [iterFrom]
      cases hm : matchAt (t :: tokens) updates with
      | none => exact ih h hx _ _
      | some u =>
        obtain ⟨y,hy,hhead,hne⟩ := matchAt_some hm
        have hmod := h.modality y hy u (List.mem_of_head? hhead)
        have hx' : (x.1,if x.1 = u.modality then x.2.tail else x.2) ∈
            updates.advance u.modality := List.mem_map_of_mem hx
        have hrec := ih (h.advance u.modality) hx' (u.full.length-1) (startIdx+1)
        by_cases he : x.1 = u.modality
        · obtain rfl := mem_unique h hx hy (he.trans hmod)
          obtain ⟨l,hl⟩ := List.head?_eq_some_iff.mp hhead
          simp only [he,if_true,hl,List.tail_cons] at hrec
          simp only [he,hl,Update.placeholder,decide_true,List.filter_cons_of_pos,
            List.length_cons]
          rw [List.takeWhile_cons_of_pos (by simpa using hne),List.length_cons]
          omega
        · simp only [if_neg he] at hrec
          have hskip : decide ((u.placeholder startIdx).modality = x.1) = false :=
            decide_eq_false (Ne.symm he)
          simp only [List.filter_cons,hskip]
          exact hrec

theorem findMmPlaceholders_lt (h : updates.Sound) {x : Modality × List Update} (hx : x ∈ updates)
    {u : Update} (hu : u ∈ x.2) (hempty : u.full = []) (tokens : List Token) :
    (findMmPlaceholders tokens updates x.1).length < x.2.length := by
  have hle := iterFrom_le h hx 0 0 tokens
  have hlt : (x.2.takeWhile fun u => decide (u.full ≠ [])).length < x.2.length := by
    by_contra hge
    have hall := (List.takeWhile_prefix (fun u : Update => decide (u.full ≠ []))).eq_of_length_le
      (Nat.le_of_not_lt hge)
    have := List.takeWhile_eq_self_iff.mp hall u hu
    simp [hempty] at this
  exact Nat.lt_of_le_of_lt hle hlt

theorem applyPromptUpdates_found {tk : TokenizerLike} {prompt ids : List Token}
    {ph : Placeholders} (h : applyPromptUpdates tk prompt updates = .ok (ids,ph)) :
    ph = findMmPlaceholders ids updates := by
  simp only [applyPromptUpdates] at h
  split at h
  · cases h
  · obtain ⟨rfl,rfl⟩ := Prod.mk.inj (Except.ok.inj h)
    rfl

theorem Updates.Sound.unused_eq_nil (h : updates.Sound) {prompt : List Token}
    (hc : ∀ x ∈ updates, x.2.length ≤ prompt.count x.1.pad) :
    unused Update.mark updates.items prompt = [] := by
  refine Expand.unused_eq_nil fun a => ?_
  rw [List.countP_eq_length_filter]
  by_cases ha : ∃ x ∈ updates, x.1.pad = a
  · obtain ⟨x,hx,rfl⟩ := ha
    rw [h.filter_items hx]
    exact hc x hx
  · have hnil : updates.items.filter (fun u => decide (u.mark = a)) = [] := by
      rw [List.filter_eq_nil_iff]
      intro u hu
      obtain ⟨x,hx,hu⟩ := List.mem_flatMap.mp hu
      have hne : x.1.pad ≠ a := fun e => ha ⟨x,hx,e⟩
      simpa [Update.mark,h.modality x hx u hu] using hne
    simp [hnil]

end Scan

section Rows
variable (d : UpdateArgs)

/-- The rows the encoder returns for each item. -/
def UpdateArgs.rows : Modality → List Nat
  | .audio => d.audioFeatureLengths.map fun n : Nat => (getFeatExtractOutputLengths n).toNat
  | .image => d.imageGridThw.map fun g => g.prod/d.mergeSize^2
  | .video => d.videoGridThw.map fun g => g.prod/d.mergeSize^2

/-- Every item has one position for each row. -/
def EveryItemEmbeds (ph : Placeholders) : Prop :=
  ∀ m, (ph m).map Placeholder.embedCount = d.rows m

variable {m : Nat} {tk : TokenizerLike} {d} {images videos : List (Grid m)} {updates : Updates}
  {auds imgs vids : List (List Token)}

theorem map_resolved {β : Type} (m : Modality) (e : Option Token) (contents : List (List Token))
    (f : List Token → β) : ((resolved m e contents).map fun u => f u.full) = contents.map f := by
  rw [resolved,List.map_map]
  nth_rewrite 2 [← List.zipIdx_map_fst 0 contents]
  rw [List.map_map]
  rfl

theorem map_resolved_none (m : Modality) (contents : List (List Token)) :
    (resolved m none contents).map Update.embedCount = contents.map List.length := by
  rw [← map_resolved m none contents List.length]
  refine List.map_congr_left fun u hu => ?_
  simp [Update.embedCount,(mem_resolved hu).2.1]

theorem map_resolved_some (m : Modality) (t : Token) (contents : List (List Token)) :
    (resolved m (some t) contents).map Update.embedCount = contents.map (List.count t) := by
  rw [← map_resolved m (some t) contents (List.count t)]
  refine List.map_congr_left fun u hu => ?_
  simp [Update.embedCount,(mem_resolved hu).2.1]

theorem length_resolved (m : Modality) (e : Option Token) (contents : List (List Token)) :
    (resolved m e contents).length = contents.length := by simp [resolved]

theorem Bound.grid (hb : Bound tk d updates auds imgs vids) (hd : Describes d images videos)
    {i : Nat} {c : List Token} (hc : vids[i]? = some c) :
    ∃ g, videos[i]? = some g ∧ d.videoGridThw[i]? = some g.thw := by
  have hi : i < videos.length := by
    have := (List.getElem?_eq_some_iff.mp hc).1
    rw [hb.videoCount,UpdateArgs.counts,hd.videos,List.length_map] at this
    exact this
  refine ⟨videos[i],List.getElem?_eq_getElem hi,?_⟩
  rw [hd.videos,List.getElem?_map,List.getElem?_eq_getElem hi]
  rfl

theorem Bound.silent (hb : Bound tk d updates auds imgs vids) (hd : Describes d images videos)
    (hflag : d.useAudioInVideo = false) {i : Nat} {c : List Token} (hc : vids[i]? = some c) :
    ∃ g times, videos[i]? = some g ∧ silentTimestamps d i g.t = .ok times ∧
      c = wireItems (silentItems tk g times) := by
  obtain ⟨g,hg,hthw⟩ := hb.grid hd hc
  have hok := hb.video i c hc
  rw [videoReplacementFn,hflag,if_neg (by simp)] at hok
  obtain ⟨times,htimes,hc⟩ := getReplacementVideo_ok hd.mergeSize hthw hok
  exact ⟨g,times,hg,htimes,hc⟩

theorem Bound.sounding (hb : Bound tk d updates auds imgs vids) (hd : Describes d images videos)
    (hflag : d.useAudioInVideo = true) {i : Nat} {c : List Token} (hc : vids[i]? = some c) :
    ∃ g n second times, videos[i]? = some g ∧ d.audioFeatureLengths[i]? = some n ∧
      c = wireItems (avItems tk d g (getFeatExtractOutputLengths n).toNat second times) := by
  obtain ⟨g,hg,hthw⟩ := hb.grid hd hc
  have hok := hb.video i c hc
  rw [videoReplacementFn,hflag,if_pos rfl] at hok
  obtain ⟨n,second,times,hn,hc⟩ := getReplacementUseAudioInVideo_ok hd.mergeSize hthw hok
  exact ⟨g,n,second,times,hg,hn,hc⟩

theorem Bound.still (hb : Bound tk d updates auds imgs vids) (hd : Describes d images videos)
    {i : Nat} {c : List Token} (hc : imgs[i]? = some c) :
    ∃ g, images[i]? = some g ∧ c = List.replicate (g.t*g.toFrame.tokens) .imagePad := by
  have hi : i < images.length := by
    have := (List.getElem?_eq_some_iff.mp hc).1
    rw [hb.imageCount,UpdateArgs.counts,hd.images,List.length_map] at this
    exact this
  have hthw : d.imageGridThw[i]? = some (images[i]).thw := by
    rw [hd.images,List.getElem?_map,List.getElem?_eq_getElem hi]
    rfl
  exact ⟨images[i],List.getElem?_eq_getElem hi,
    getReplacementImage_ok hd.mergeSize hthw (hb.image i c hc)⟩

theorem pad_replicate {modality : Modality} {n : Nat} (hn : 0 < n) :
    modality.pad ∈ List.replicate n modality.pad ∧
      ∀ v : Modality, v.pad ∈ List.replicate n modality.pad → v = modality :=
  ⟨List.mem_replicate.mpr ⟨hn.ne',rfl⟩,fun _ hv => pad_injective (List.eq_of_mem_replicate hv)⟩

theorem Bound.content_silent (hb : Bound tk d updates auds imgs vids)
    (hd : Describes d images videos) (hflag : d.useAudioInVideo = false) {i : Nat} {c : List Token}
    (hc : vids[i]? = some c) (hne : c ≠ []) :
    .videoPad ∈ c ∧ ∀ v : Modality, v.pad ∈ c → v = .video := by
  obtain ⟨g,times,-,-,rfl⟩ := hb.silent hd hflag hc
  obtain ⟨hv,ha,hi⟩ := @count_silentItems tk m g times
  have htimes : times ≠ [] := fun e => hne (by rw [e]; rfl)
  refine ⟨List.count_pos_iff.mp ?_,fun v hmem => ?_⟩
  · rw [hv]
    exact Nat.mul_pos (List.length_pos_of_ne_nil htimes) g.toFrame.tokens_pos
  · cases v with
    | video => rfl
    | audio => exact absurd hmem (List.count_eq_zero.mp ha)
    | image => exact absurd hmem (List.count_eq_zero.mp hi)

theorem Bound.content_sounding (hb : Bound tk d updates auds imgs vids)
    (hd : Describes d images videos) (hflag : d.useAudioInVideo = true) {i : Nat} {c : List Token}
    (hc : vids[i]? = some c) : .videoPad ∈ c ∧ .imagePad ∉ c := by
  obtain ⟨g,n,second,times,-,-,rfl⟩ := hb.sounding hd hflag hc
  obtain ⟨hv,-,hi⟩ := @count_avItems tk d m g (getFeatExtractOutputLengths n).toNat second times
  refine ⟨List.count_pos_iff.mp ?_,List.count_eq_zero.mp hi⟩
  rw [hv]
  exact Nat.mul_pos g.tPos g.toFrame.tokens_pos

/-- A content has the media token it replaces, and apart from the audio in a video no other. -/
theorem Bound.content (hb : Bound tk d updates auds imgs vids) (hd : Describes d images videos)
    (hne : ∀ c ∈ vids, c ≠ []) {u : Update} (hu : u ∈ updates.items) :
    u.mark ∈ u.full ∧ ∀ v : Modality, v.pad ∈ u.full → v = u.modality ∨
      (v = .audio ∧ u.modality = .video ∧ d.useAudioInVideo = true) := by
  obtain ⟨x,hx,hu⟩ := List.mem_flatMap.mp hu
  rw [hb.eq] at hx
  simp only [List.mem_cons,List.not_mem_nil,or_false] at hx
  rcases hx with rfl | rfl | rfl
  · obtain ⟨hm,-,hfull⟩ := mem_resolved hu
    obtain ⟨n,-,hc,hpos⟩ := getReplacementAudio_ok (hb.audio _ _ hfull)
    rw [hc,← List.length_pos_iff,List.length_replicate] at hpos
    obtain ⟨hmem,hown⟩ := @pad_replicate .audio _ hpos
    rw [Update.mark,hm,hc]
    exact ⟨hmem,fun v hv => .inl (hown v hv)⟩
  · obtain ⟨hm,-,hfull⟩ := mem_resolved hu
    obtain ⟨g,-,hc⟩ := hb.still hd hfull
    obtain ⟨hmem,hown⟩ := @pad_replicate .image _
      (Nat.mul_pos g.tPos g.toFrame.tokens_pos)
    rw [Update.mark,hm,hc]
    exact ⟨hmem,fun v hv => .inl (hown v hv)⟩
  · obtain ⟨hm,-,hfull⟩ := mem_resolved hu
    rw [Update.mark,hm]
    cases hflag : d.useAudioInVideo with
    | false =>
      obtain ⟨hmem,hown⟩ := hb.content_silent hd hflag hfull (hne _ (List.mem_of_getElem? hfull))
      exact ⟨hmem,fun v hv => .inl (hown v hv)⟩
    | true =>
      obtain ⟨hmem,himage⟩ := hb.content_sounding hd hflag hfull
      refine ⟨hmem,fun v hv => ?_⟩
      cases v with
      | video => exact .inl rfl
      | audio => exact .inr ⟨rfl,rfl,rfl⟩
      | image => exact absurd hv himage

/-- The contents can be found again where no audio is waited for next to a video with audio. -/
theorem Bound.findable (hb : Bound tk d updates auds imgs vids) (hd : Describes d images videos)
    (hne : ∀ c ∈ vids, c ≠ []) {q : List Update} (hq : ∀ u ∈ q, u ∈ updates.items)
    (hapart : d.useAudioInVideo = true → ∀ u ∈ q, ∀ v ∈ q,
      u.modality = .video → v.modality ≠ .audio) :
    Findable Update.mark Update.full q := by
  intro u hu
  obtain ⟨hown,hother⟩ := hb.content hd hne (hq u hu)
  refine ⟨hown,fun v hv hm hmem => ?_⟩
  rcases hother v.modality hmem with he | ⟨he,hvideo,hflag⟩
  · exact hm (by rw [Update.mark,Update.mark,he])
  · exact hapart hflag u hu v hv hvideo he

theorem Bound.rows_audio (hb : Bound tk d updates auds imgs vids) :
    auds.map List.length = d.rows .audio := by
  refine (map_eq_map_iff hb.audioCount).mpr fun i c n hc hn => ?_
  obtain ⟨n',hn',rfl,-⟩ := getReplacementAudio_ok (hb.audio i c hc)
  obtain rfl : n = n' := Option.some.inj (hn.symm.trans hn')
  exact List.length_replicate

theorem Bound.rows_image (hb : Bound tk d updates auds imgs vids) (hd : Describes d images videos) :
    imgs.map List.length = d.rows .image := by
  refine (map_eq_map_iff hb.imageCount).mpr fun i c thw hc hthw => ?_
  obtain ⟨g,hg,rfl⟩ := hb.still hd hc
  rw [hd.images,List.getElem?_map,hg] at hthw
  obtain rfl : g.thw = thw := Option.some.inj hthw
  rw [List.length_replicate,hd.mergeSize,g.prod_div_sq]

/-- A silent video has enough positions exactly if it has a timestamp for each grid. -/
theorem Bound.rows_silent_iff (hb : Bound tk d updates auds imgs vids)
    (hd : Describes d images videos) (hflag : d.useAudioInVideo = false) :
    vids.map (List.count .videoPad) = d.rows .video ↔ ∀ i g times, videos[i]? = some g →
      silentTimestamps d i g.t = .ok times → times.length = g.t := by
  have hcount (i : Nat) (c : List Token) (hc : vids[i]? = some c) : ∃ g times,
      videos[i]? = some g ∧ silentTimestamps d i g.t = .ok times ∧
      (c.count .videoPad = g.thw.prod/d.mergeSize^2 ↔ times.length = g.t) := by
    obtain ⟨g,times,hg,htimes,rfl⟩ := hb.silent hd hflag hc
    refine ⟨g,times,hg,htimes,?_⟩
    rw [hd.mergeSize,g.prod_div_sq,(count_silentItems g times).1]
    exact Nat.mul_left_inj g.toFrame.tokens_pos.ne'
  rw [UpdateArgs.rows,map_eq_map_iff hb.videoCount]
  constructor
  · intro h i g times hg htimes
    have hi : i < vids.length := by
      have := (List.getElem?_eq_some_iff.mp hg).1
      rwa [hb.videoCount,UpdateArgs.counts,hd.videos,List.length_map]
    obtain ⟨g',times',hg',htimes',hiff⟩ := hcount i vids[i] (List.getElem?_eq_getElem hi)
    obtain rfl : g = g' := Option.some.inj (hg.symm.trans hg')
    obtain rfl : times = times' := Except.ok.inj (htimes.symm.trans htimes')
    refine hiff.mp (h i _ _ (List.getElem?_eq_getElem hi) ?_)
    rw [hd.videos,List.getElem?_map,hg]
    rfl
  · intro h i c thw hc hthw
    obtain ⟨g,times,hg,htimes,hiff⟩ := hcount i c hc
    rw [hd.videos,List.getElem?_map,hg] at hthw
    obtain rfl : g.thw = thw := Option.some.inj hthw
    exact hiff.mpr (h i g times hg htimes)

theorem Bound.rows_sounding (hb : Bound tk d updates auds imgs vids)
    (hd : Describes d images videos) (hflag : d.useAudioInVideo = true) :
    vids.map (List.count .videoPad) = d.rows .video := by
  refine (map_eq_map_iff hb.videoCount).mpr fun i c thw hc hthw => ?_
  obtain ⟨g,n,second,times,hg,-,rfl⟩ := hb.sounding hd hflag hc
  rw [hd.videos,List.getElem?_map,hg] at hthw
  obtain rfl : g.thw = thw := Option.some.inj hthw
  rw [hd.mergeSize,g.prod_div_sq,(count_avItems g _ second times).1]

/-- The audio tokens in the videos are those of the paired audios. -/
theorem Bound.rows_tracks (hb : Bound tk d updates auds imgs vids)
    (hd : Describes d images videos) (hflag : d.useAudioInVideo = true)
    (hpaired : d.counts .audio = d.counts .video) :
    vids.map (List.count .audioPad) = d.rows .audio := by
  refine (map_eq_map_iff (hb.videoCount.trans hpaired.symm)).mpr fun i c n hc hn => ?_
  obtain ⟨g,n',second,times,-,hn',rfl⟩ := hb.sounding hd hflag hc
  obtain rfl : n = n' := Option.some.inj (hn.symm.trans hn')
  exact (count_avItems g _ second times).2.1

/-- Silent videos have no audio tokens, so audios derived from them embed nothing. -/
theorem Bound.rows_lost (hb : Bound tk d updates auds imgs vids) (hd : Describes d images videos)
    (hflag : d.useAudioInVideo = false) (haudio : 0 < d.counts .audio)
    (hpaired : d.counts .audio = d.counts .video) :
    vids.map (List.count .audioPad) ≠ d.rows .audio := by
  intro h
  have hv : 0 < vids.length := by rwa [hb.videoCount,← hpaired]
  have ha : 0 < auds.length := by rwa [hb.audioCount]
  rw [← hb.rows_audio,map_eq_map_iff (by rw [hb.videoCount,hb.audioCount,hpaired])] at h
  have heq := h 0 vids[0] auds[0] (List.getElem?_eq_getElem hv) (List.getElem?_eq_getElem ha)
  obtain ⟨g,times,-,-,hc⟩ := hb.silent hd hflag (List.getElem?_eq_getElem hv)
  obtain ⟨n,-,-,hne⟩ := getReplacementAudio_ok (hb.audio 0 _ (List.getElem?_eq_getElem ha))
  rw [hc,(count_silentItems g times).2.1] at heq
  exact hne (List.eq_nil_of_length_eq_zero heq.symm)

end Rows

section Branches
variable {m : Nat} {tk : TokenizerLike} {d : UpdateArgs} {images videos : List (Grid m)}
  {updates : Updates} {auds imgs vids : List (List Token)} {prompt ids : List Token}
  {ph : Placeholders}

/-- One media token for each image, video and standalone audio. -/
structure Asked (d : UpdateArgs) (prompt : List Token) : Prop where
  images : prompt.count .imagePad = d.counts .image
  videos : prompt.count .videoPad = d.counts .video
  audios : prompt.count .audioPad =
    if d.useAudioInVideo then d.counts .audio-d.counts .video else d.counts .audio

theorem validateMmKwargs_ok (d : UpdateArgs) : validateMmKwargs d.counts d.kwargs = .ok () := by
  simp [validateMmKwargs,UpdateArgs.kwargs,UpdateArgs.counts,MmKwargs.count,raiseIf]

theorem validateMmPlaceholders_eq_ok {counts : Modality → Nat} {a : Unit} :
    validateMmPlaceholders counts ph = .ok a ↔ ∀ m, (ph m).length = counts m := by
  rw [validateMmPlaceholders,forM_raiseIf]
  constructor
  · intro h m
    have hm : m ∈ [Modality.audio,.image,.video] := by cases m <;> simp
    exact not_not.mp (h m hm)
  · intro h m _
    exact not_not.mpr (h m)

/-- `_maybe_apply_prompt_updates` returns what its branch returns, if that has a placeholder for
each item. -/
theorem maybeApplyPromptUpdates_eq_ok {counts : Modality → Nat} {kwargs : MmKwargs}
    {isUpdateApplied : Bool} :
    maybeApplyPromptUpdates counts tk prompt kwargs updates isUpdateApplied = .ok (ids,ph) ↔
      validateMmKwargs counts kwargs = .ok () ∧
      (if isUpdateApplied then applyToExpanded counts tk prompt updates
        else applyToTokens counts tk prompt (detectUseAudioInVideo counts prompt kwargs updates)
          updates) = .ok (ids,ph) ∧
      ∀ m, (ph m).length = counts m := by
  have hbind : maybeApplyPromptUpdates counts tk prompt kwargs updates isUpdateApplied =
      validateMmKwargs counts kwargs >>= fun _ =>
        (if isUpdateApplied then applyToExpanded counts tk prompt updates
          else applyToTokens counts tk prompt (detectUseAudioInVideo counts prompt kwargs updates)
            updates) >>= fun x => validateMmPlaceholders counts x.2 >>= fun _ => pure x := by
    cases isUpdateApplied with
    | true => rfl
    | false => rfl
  rw [hbind]
  constructor
  · intro h
    obtain ⟨_,hkwargs,h⟩ := bind_eq_ok.mp h
    obtain ⟨x,happly,h⟩ := bind_eq_ok.mp h
    obtain ⟨_,hvalid,h⟩ := bind_eq_ok.mp h
    obtain rfl := Except.ok.inj h
    exact ⟨hkwargs,happly,validateMmPlaceholders_eq_ok.mp hvalid⟩
  · intro h
    obtain ⟨hkwargs,happly,hlen⟩ := h
    have hvalid : validateMmPlaceholders counts ph = .ok () := validateMmPlaceholders_eq_ok.mpr hlen
    exact bind_eq_ok.mpr ⟨(),hkwargs,bind_eq_ok.mpr ⟨(ids,ph),happly,
      bind_eq_ok.mpr ⟨(),hvalid,rfl⟩⟩⟩

/-- The branch for videos with audio is taken whenever there are videos and audios. -/
theorem Bound.detect (hb : Bound tk d updates auds imgs vids) (hp : Asked d prompt) :
    detectUseAudioInVideo d.counts prompt d.kwargs updates =
      decide (0 < d.counts .video ∧ (d.useAudioInVideo = true ∨ 0 < d.counts .audio)) := by
  have hkeys : (updates.any fun x => decide (x.1 = .audio)) = true ∧
      (updates.any fun x => decide (x.1 = .video)) = true := by
    rw [hb.eq]
    exact ⟨rfl,rfl⟩
  have hv : prompt.contains .videoPad = decide (0 < d.counts .video) := by
    rw [← hp.videos,List.contains_eq_mem]
    simp only [List.count_pos_iff]
  by_cases hvideo : d.counts .video = 0
  · have hnone : d.videoGridThw = [] := List.eq_nil_of_length_eq_zero hvideo
    simp [detectUseAudioInVideo,UpdateArgs.kwargs,hnone,hvideo]
  · have hsome : 0 < d.videoGridThw.length := Nat.pos_of_ne_zero hvideo
    cases hflag : d.useAudioInVideo with
    | true =>
      simp [detectUseAudioInVideo,UpdateArgs.kwargs,UpdateArgs.counts,hflag,
        List.length_pos_iff.mp hsome,hsome]
    | false =>
      have ha : prompt.contains .audioPad = decide (0 < d.counts .audio) := by
        have hcount := hp.audios
        rw [hflag,if_neg (by simp)] at hcount
        rw [← hcount,List.contains_eq_mem]
        simp only [List.count_pos_iff]
      have hvp : 0 < d.counts .video := Nat.pos_of_ne_zero hvideo
      simp only [detectUseAudioInVideo,hkeys.1,hkeys.2,hv,ha]
      by_cases haudio : 0 < d.counts .audio
      · simp [UpdateArgs.kwargs,hflag,List.length_pos_iff.mp hsome,hvp,haudio]
      · simp [UpdateArgs.kwargs,hflag,List.length_pos_iff.mp hsome,hvp,haudio]

theorem Bound.maybeApply_eq_ok (hb : Bound tk d updates auds imgs vids) (hp : Asked d prompt) :
    maybeApplyPromptUpdates d.counts tk prompt d.kwargs updates false = .ok (ids,ph) ↔
      applyToTokens d.counts tk prompt (decide (0 < d.counts .video ∧
        (d.useAudioInVideo = true ∨ 0 < d.counts .audio))) updates = .ok (ids,ph) ∧
      ∀ m, (ph m).length = d.counts m := by
  rw [maybeApplyPromptUpdates_eq_ok,validateMmKwargs_ok,hb.detect hp]
  simp

/-- The groups without the audios. -/
def visual (imgs vids : List (List Token)) : Updates :=
  [(.image,resolved .image none imgs),(.video,resolved .video (some .videoPad) vids)]

theorem Bound.filtered (hb : Bound tk d updates auds imgs vids) :
    (updates.filter fun x => decide (x.1 ≠ .audio)) = visual imgs vids := by
  rw [hb.eq]
  rfl

theorem Bound.sound (hb : Bound tk d updates auds imgs vids) : updates.Sound := by
  rw [hb.eq]
  exact resolved_sound auds imgs vids

theorem visual_sound (imgs vids : List (List Token)) : (visual imgs vids).Sound :=
  (resolved_sound [] imgs vids).tail

/-- All updates are applied, and the scan finds them. -/
theorem Bound.apply_plain (hb : Bound tk d updates auds imgs vids) (hd : Describes d images videos)
    (hp : Asked d prompt) (hne : ∀ c ∈ vids, c ≠ [])
    (hplain : d.counts .video = 0 ∨ d.useAudioInVideo = false) :
    unused Update.mark updates.items prompt = [] ∧ applyPromptUpdates tk prompt updates =
      .ok (expand Update.mark Update.full updates.items prompt,placeholdersIn updates prompt) := by
  have haudio : prompt.count .audioPad = d.counts .audio := by
    have hcount := hp.audios
    rcases hplain with h | h
    · rwa [h,Nat.sub_zero,ite_self] at hcount
    · rwa [h,if_neg (by simp)] at hcount
  have hall : unused Update.mark updates.items prompt = [] := by
    refine hb.sound.unused_eq_nil fun x hx => ?_
    rw [hb.eq] at hx
    simp only [List.mem_cons,List.not_mem_nil,or_false] at hx
    rcases hx with rfl | rfl | rfl
    · exact (length_resolved _ _ _ |>.trans hb.audioCount |>.trans haudio.symm).le
    · exact (length_resolved _ _ _ |>.trans hb.imageCount |>.trans hp.images.symm).le
    · exact (length_resolved _ _ _ |>.trans hb.videoCount |>.trans hp.videos.symm).le
  refine ⟨hall,applyPromptUpdates_ok tk hb.sound (hb.findable hd hne (fun _ h => h) ?_) hall⟩
  intro hflag u hu _ _ hvideo
  rcases hplain with h | h
  · obtain ⟨x,hx,hu⟩ := List.mem_flatMap.mp hu
    rw [hb.eq] at hx
    have hnil : vids = [] := List.eq_nil_of_length_eq_zero (hb.videoCount.trans h)
    simp only [List.mem_cons,List.not_mem_nil,or_false,hnil] at hx
    rcases hx with rfl | rfl | rfl
    · rw [(mem_resolved hu).1] at hvideo
      cases hvideo
    · rw [(mem_resolved hu).1] at hvideo
      cases hvideo
    · cases hu
  · rw [h] at hflag
    cases hflag

theorem Bound.apply_visual (hb : Bound tk d updates auds imgs vids) (hd : Describes d images videos)
    (himages : prompt.count .imagePad = d.counts .image)
    (hvideos : prompt.count .videoPad = d.counts .video) (hne : ∀ c ∈ vids, c ≠ []) :
    unused Update.mark (visual imgs vids).items prompt = [] ∧
      applyPromptUpdates tk prompt (visual imgs vids) =
        .ok (expand Update.mark Update.full (visual imgs vids).items prompt,
          placeholdersIn (visual imgs vids) prompt) := by
  have hsound := visual_sound imgs vids
  have hall : unused Update.mark (visual imgs vids).items prompt = [] := by
    refine hsound.unused_eq_nil fun x hx => ?_
    simp only [visual,List.mem_cons,List.not_mem_nil,or_false] at hx
    rcases hx with rfl | rfl
    · exact (length_resolved _ _ _ |>.trans hb.imageCount |>.trans himages.symm).le
    · exact (length_resolved _ _ _ |>.trans hb.videoCount |>.trans hvideos.symm).le
  refine ⟨hall,applyPromptUpdates_ok tk hsound (hb.findable hd hne ?_ ?_) hall⟩
  · intro u hu
    rw [hb.eq,Updates.items_cons]
    exact List.mem_append_right _ hu
  · intro _ _ _ v hv _ haudio
    obtain ⟨x,hx,hv⟩ := List.mem_flatMap.mp hv
    simp only [visual,List.mem_cons,List.not_mem_nil,or_false] at hx
    rcases hx with rfl | rfl
    · rw [(mem_resolved hv).1] at haudio
      cases haudio
    · rw [(mem_resolved hv).1] at haudio
      cases haudio

theorem placeholdersIn_length (h : updates.Sound) {x : Modality × List Update} (hx : x ∈ updates)
    (hall : unused Update.mark updates.items prompt = []) :
    (placeholdersIn updates prompt x.1).length = x.2.length := by
  have := @placeholdersIn_map updates prompt Unit h x hx hall (fun _ => ()) (fun _ => ())
    fun _ _ => rfl
  simpa using congrArg List.length this

theorem Bound.length_plain (hb : Bound tk d updates auds imgs vids)
    (hall : unused Update.mark updates.items prompt = []) (modality : Modality) :
    (placeholdersIn updates prompt modality).length = d.counts modality := by
  have hlen := fun x hx => @placeholdersIn_length updates prompt hb.sound x hx hall
  simp only [hb.eq,List.mem_cons,List.not_mem_nil,or_false] at hlen ⊢
  cases modality with
  | audio => exact (hlen _ (.inl rfl)).trans (length_resolved _ _ _ |>.trans hb.audioCount)
  | image => exact (hlen _ (.inr (.inl rfl))).trans (length_resolved _ _ _ |>.trans hb.imageCount)
  | video => exact (hlen _ (.inr (.inr rfl))).trans (length_resolved _ _ _ |>.trans hb.videoCount)

theorem Bound.embeds_plain (hb : Bound tk d updates auds imgs vids) (hd : Describes d images videos)
    (hall : unused Update.mark updates.items prompt = []) :
    EveryItemEmbeds d (placeholdersIn updates prompt) ↔
      vids.map (List.count .videoPad) = d.rows .video := by
  have hmap := fun x hx => @placeholdersIn_map updates prompt Nat hb.sound x hx hall
    Placeholder.embedCount Update.embedCount embedCount_placeholder
  have haudio := hmap (.audio,resolved .audio none auds) (by simp [hb.eq])
  have himage := hmap (.image,resolved .image none imgs) (by simp [hb.eq])
  have hvideo := hmap (.video,resolved .video (some .videoPad) vids) (by simp [hb.eq])
  dsimp only at haudio himage hvideo
  rw [map_resolved_none,hb.rows_audio] at haudio
  rw [map_resolved_none,hb.rows_image hd] at himage
  rw [map_resolved_some] at hvideo
  rw [← hvideo]
  refine ⟨fun h => h .video,fun h m => ?_⟩
  cases m with
  | audio => exact haudio
  | image => exact himage
  | video => exact h

theorem derive_spec {counts : Modality → Nat} (hv : ph .video ≠ []) :
    (counts .audio ≠ (ph .video).length →
      ∃ e, deriveAudioFromVideoPlaceholders counts ph = .error e) ∧
    (counts .audio = (ph .video).length → ∃ ph',
      deriveAudioFromVideoPlaceholders counts ph = .ok ph' ∧ ph' .image = ph .image ∧
      ph' .video = ph .video ∧ (ph' .audio).map Placeholder.embedCount =
        (ph .video).map fun p => p.tokens.count .audioPad) := by
  constructor
  · intro h
    simp [deriveAudioFromVideoPlaceholders,hv,raiseIf,h]
  · intro h
    simp only [deriveAudioFromVideoPlaceholders,hv,if_false,raiseIf,h,ne_eq,not_true,ok_bind]
    refine ⟨_,rfl,rfl,rfl,?_⟩
    simp only [if_true,List.map_map]
    nth_rewrite 2 [← List.zipIdx_map_fst 0 (ph .video)]
    rw [List.map_map]
    refine List.map_congr_left fun x _ => ?_
    exact count_mask x.1.tokens .audioPad

/-- What the branch for videos with audio finds before it derives the audios. -/
theorem Bound.found_visual (hb : Bound tk d updates auds imgs vids)
    (hd : Describes d images videos)
    (hall : unused Update.mark (visual imgs vids).items prompt = []) :
    (placeholdersIn (visual imgs vids) prompt .image).map Placeholder.embedCount =
        d.rows .image ∧
      (placeholdersIn (visual imgs vids) prompt .video).map Placeholder.embedCount =
        vids.map (List.count .videoPad) ∧
      ((placeholdersIn (visual imgs vids) prompt .video).map fun p => p.tokens.count .audioPad) =
        vids.map (List.count .audioPad) ∧
      (placeholdersIn (visual imgs vids) prompt .video).length = d.counts .video := by
  have hsound := visual_sound imgs vids
  have hmap := fun x hx => @placeholdersIn_map _ prompt Nat hsound x hx hall
    Placeholder.embedCount Update.embedCount embedCount_placeholder
  have himage := hmap (.image,resolved .image none imgs) (by simp [visual])
  have hvideo := hmap (.video,resolved .video (some .videoPad) vids) (by simp [visual])
  have htracks := @placeholdersIn_map _ prompt Nat hsound
    (.video,resolved .video (some .videoPad) vids) (by simp [visual]) hall
    (fun p => p.tokens.count .audioPad) (fun u => u.full.count .audioPad) fun _ _ => rfl
  have hlen := @placeholdersIn_length _ prompt hsound
    (.video,resolved .video (some .videoPad) vids) (by simp [visual]) hall
  dsimp only at himage hvideo htracks hlen
  rw [map_resolved_none,hb.rows_image hd] at himage
  rw [map_resolved_some] at hvideo
  exact ⟨himage,hvideo,htracks.trans (map_resolved _ _ _ (List.count .audioPad)),
    hlen.trans (length_resolved _ _ _ |>.trans hb.videoCount)⟩

theorem derive_video {counts : Modality → Nat} {ph' : Placeholders}
    (h : deriveAudioFromVideoPlaceholders counts ph = .ok ph') : ph' .video = ph .video := by
  simp only [deriveAudioFromVideoPlaceholders] at h
  split at h
  · exact congrFun (Except.ok.inj h) .video ▸ rfl
  · obtain ⟨_,-,h⟩ := bind_eq_ok.mp h
    exact congrFun (Except.ok.inj h) .video ▸ rfl

theorem Bound.falls_short (hb : Bound tk d updates auds imgs vids) (hempty : [] ∈ vids)
    {groups : Updates} (hs : groups.Sound)
    (hmem : (.video,resolved .video (some .videoPad) vids) ∈ groups) (tokens : List Token) :
    (findMmPlaceholders tokens groups .video).length < d.counts .video := by
  obtain ⟨i,hi⟩ := List.mem_iff_getElem?.mp hempty
  have hu : ⟨.video,i,[],some .videoPad⟩ ∈ resolved .video (some .videoPad) vids :=
    List.mem_map.mpr ⟨([],i),List.mem_zipIdx_iff_getElem?.mpr hi,rfl⟩
  have hlt := findMmPlaceholders_lt hs hmem hu rfl tokens
  rwa [length_resolved,hb.videoCount] at hlt

/-- A video without any content is never found, and the request fails. -/
theorem Bound.not_returns (hb : Bound tk d updates auds imgs vids) (hp : Asked d prompt)
    (hempty : [] ∈ vids) :
    maybeApplyPromptUpdates d.counts tk prompt d.kwargs updates false ≠ .ok (ids,ph) := by
  intro h
  obtain ⟨happly,hlen⟩ := (hb.maybeApply_eq_ok hp).mp h
  have hfound {start : List Token} (h : applyPromptUpdates tk start updates = .ok (ids,ph)) :
      False := by
    have hlt := hb.falls_short hempty hb.sound (by simp [hb.eq]) ids
    rw [← applyPromptUpdates_found h,hlen .video] at hlt
    exact Nat.lt_irrefl _ hlt
  simp only [applyToTokens,hb.filtered] at happly
  split at happly
  · obtain ⟨⟨ids',ph₁⟩,hvisual,happly⟩ := bind_eq_ok.mp happly
    obtain ⟨ph₂,hderive,happly⟩ := bind_eq_ok.mp happly
    split at happly
    · exact hfound happly
    · rename_i hcount
      have hlt := hb.falls_short hempty (visual_sound imgs vids) (by simp [visual]) ids'
      have hsame : ph₂ .video = ph₁ .video := derive_video hderive
      rw [← applyPromptUpdates_found hvisual,← hsame] at hlt
      exact hcount hlt.ne
  · exact hfound happly

/-- With all contents there and no mixed branch, the result is that of applying all updates. -/
theorem Bound.returns_plain (hb : Bound tk d updates auds imgs vids)
    (hd : Describes d images videos) (hp : Asked d prompt) (hne : ∀ c ∈ vids, c ≠ [])
    (hplain : d.counts .video = 0 ∨ (d.useAudioInVideo = false ∧ d.counts .audio = 0)) :
    (∀ ids ph, maybeApplyPromptUpdates d.counts tk prompt d.kwargs updates false = .ok (ids,ph) →
      EveryItemEmbeds d ph) ↔ vids.map (List.count .videoPad) = d.rows .video := by
  have hbranch : decide (0 < d.counts .video ∧
      (d.useAudioInVideo = true ∨ 0 < d.counts .audio)) = false := by
    rcases hplain with h | ⟨hflag,h⟩
    · simp [h]
    · simp [hflag,h]
  obtain ⟨hall,happly⟩ := hb.apply_plain hd hp hne (hplain.imp_right And.left)
  rw [← hb.embeds_plain hd hall]
  constructor
  · intro h
    have htokens : applyToTokens d.counts tk prompt (decide (0 < d.counts .video ∧
        (d.useAudioInVideo = true ∨ 0 < d.counts .audio))) updates =
        applyPromptUpdates tk prompt updates := by
      rw [hbranch,applyToTokens,if_neg (by simp)]
    exact h _ _ ((hb.maybeApply_eq_ok hp).mpr ⟨htokens.trans happly,hb.length_plain hall⟩)
  · intro h ids ph hok
    have htokens := ((hb.maybeApply_eq_ok hp).mp hok).1
    rw [hbranch,applyToTokens,if_neg (by simp),happly] at htokens
    obtain ⟨-,rfl⟩ := Prod.mk.inj (Except.ok.inj htokens)
    exact h

/-- In the branch for videos with audio the numbers of videos and audios must agree, and the
audios embed the audio tokens inside the videos. -/
theorem Bound.returns_visual (hb : Bound tk d updates auds imgs vids)
    (hd : Describes d images videos) (hp : Asked d prompt) (hne : ∀ c ∈ vids, c ≠ [])
    (hvideo : 0 < d.counts .video) (hbranch : d.useAudioInVideo = true ∨ 0 < d.counts .audio) :
    (∀ ids ph, maybeApplyPromptUpdates d.counts tk prompt d.kwargs updates false = .ok (ids,ph) →
      EveryItemEmbeds d ph) ↔ (d.counts .audio = d.counts .video →
        vids.map (List.count .videoPad) = d.rows .video ∧
          vids.map (List.count .audioPad) = d.rows .audio) := by
  obtain ⟨hall,happly⟩ := hb.apply_visual hd hp.images hp.videos hne
  obtain ⟨himages,hvideos,htracks,hlen⟩ := hb.found_visual hd hall
  have hfound : placeholdersIn (visual imgs vids) prompt .video ≠ [] := by
    rw [← List.length_pos_iff,hlen]
    exact hvideo
  have hderive := @derive_spec (placeholdersIn (visual imgs vids) prompt) d.counts hfound
  rw [hlen] at hderive
  have htrue : decide (0 < d.counts .video ∧
      (d.useAudioInVideo = true ∨ 0 < d.counts .audio)) = true := by
    simp [hvideo,hbranch]
  have happlied : applyToTokens d.counts tk prompt (decide (0 < d.counts .video ∧
      (d.useAudioInVideo = true ∨ 0 < d.counts .audio))) updates =
      (deriveAudioFromVideoPlaceholders d.counts (placeholdersIn (visual imgs vids) prompt) >>=
        fun placeholders => if (placeholders .video).length ≠ d.counts .video then
          applyPromptUpdates tk (expand Update.mark Update.full (visual imgs vids).items prompt)
            updates
        else pure (expand Update.mark Update.full (visual imgs vids).items prompt,
          placeholders)) := by
    simp only [htrue,applyToTokens,if_true,hb.filtered,happly]
    rfl
  by_cases hpaired : d.counts .audio = d.counts .video
  · obtain ⟨ph',hph',himage',hvideo',haudio'⟩ := hderive.2 hpaired
    rw [hph',ok_bind,hvideo',hlen,if_neg (by simp)] at happlied
    have hembeds : EveryItemEmbeds d ph' ↔ vids.map (List.count .videoPad) = d.rows .video ∧
        vids.map (List.count .audioPad) = d.rows .audio := by
      rw [← hvideos,← htracks,← haudio',← hvideo']
      refine ⟨fun h => ⟨h .video,h .audio⟩,fun h m => ?_⟩
      cases m with
      | audio => exact h.2
      | image => rw [himage']; exact himages
      | video => exact h.1
    have hcounts : ∀ m, (ph' m).length = d.counts m := by
      intro m
      cases m with
      | audio =>
        have := congrArg List.length haudio'
        simpa [hlen,hpaired] using this
      | image =>
        have := congrArg List.length himages
        simpa [himage',UpdateArgs.rows,UpdateArgs.counts] using this
      | video => rw [hvideo',hlen]
    rw [← hembeds]
    constructor
    · intro h _
      exact h _ _ ((hb.maybeApply_eq_ok hp).mpr ⟨happlied,hcounts⟩)
    · intro h ids ph hok
      have htokens := ((hb.maybeApply_eq_ok hp).mp hok).1
      rw [happlied] at htokens
      obtain ⟨-,rfl⟩ := Prod.mk.inj (Except.ok.inj htokens)
      exact h hpaired
  · refine ⟨fun _ h => absurd h hpaired,fun _ ids ph hok => ?_⟩
    obtain ⟨e,he⟩ := hderive.1 hpaired
    have htokens := ((hb.maybeApply_eq_ok hp).mp hok).1
    rw [happlied,he] at htokens
    cases htokens

end Branches

section Request
variable {m : Nat} {tk : TokenizerLike} {d : UpdateArgs} {images videos : List (Grid m)}
  {updates : Updates} {prompt : List Token}

/-- When every item keeps its embeddings: videos with audio, no videos, or silent videos without
audios and with a timestamp for each grid. The other two cases raise. -/
def Keeps (d : UpdateArgs) (videos : List (Grid m)) : Prop :=
  d.useAudioInVideo = true ∨ d.counts .video = 0 ∨
  (d.counts .audio = 0 ∧ ∀ i g times, videos[i]? = some g →
    silentTimestamps d i g.t = .ok times → times.length = g.t) ∨
  (0 < d.counts .audio ∧ d.counts .audio ≠ d.counts .video) ∨
  ∃ i g, videos[i]? = some g ∧ silentTimestamps d i g.t = .ok []

theorem everyItemEmbeds_iff (hd : Describes d images videos)
    (hup : getMmPromptUpdates tk d d.counts = .ok updates) (hp : Asked d prompt) :
    (∀ ids ph, maybeApplyPromptUpdates d.counts tk prompt d.kwargs updates false = .ok (ids,ph) →
      EveryItemEmbeds d ph) ↔ Keeps d videos := by
  obtain ⟨auds,imgs,vids,hb⟩ := getMmPromptUpdates_ok hup
  by_cases hempty : [] ∈ vids
  · -- only a silent video can be without content
    refine ⟨fun _ => ?_,fun _ ids ph hok => absurd hok (hb.not_returns hp hempty)⟩
    cases hflag : d.useAudioInVideo with
    | true => exact .inl hflag
    | false =>
      obtain ⟨i,hi⟩ := List.mem_iff_getElem?.mp hempty
      obtain ⟨g,times,hg,htimes,hc⟩ := hb.silent hd hflag hi
      have hnil : times = [] := by
        have hcount := (@count_silentItems tk m g times).1
        rw [← hc,List.count_nil,eq_comm,Nat.mul_eq_zero] at hcount
        exact List.eq_nil_of_length_eq_zero (hcount.resolve_right g.toFrame.tokens_pos.ne')
      exact .inr (.inr (.inr (.inr ⟨i,g,hg,hnil ▸ htimes⟩)))
  have hne : ∀ c ∈ vids, c ≠ [] := fun c hc e => hempty (e ▸ hc)
  by_cases hvideo : d.counts .video = 0
  · rw [hb.returns_plain hd hp hne (.inl hvideo)]
    have hnil : vids = [] := List.eq_nil_of_length_eq_zero (hb.videoCount.trans hvideo)
    have hnone : d.videoGridThw = [] := List.eq_nil_of_length_eq_zero hvideo
    exact ⟨fun _ => .inr (.inl hvideo),fun _ => by simp [hnil,UpdateArgs.rows,hnone]⟩
  have hpos : 0 < d.counts .video := Nat.pos_of_ne_zero hvideo
  cases hflag : d.useAudioInVideo with
  | true =>
    rw [hb.returns_visual hd hp hne hpos (.inl hflag)]
    exact ⟨fun _ => .inl hflag,fun _ hpaired =>
      ⟨hb.rows_sounding hd hflag,hb.rows_tracks hd hflag hpaired⟩⟩
  | false =>
    have hsome : ¬ ∃ i g, videos[i]? = some g ∧ silentTimestamps d i g.t = .ok [] := by
      rintro ⟨i,g,hg,hnil⟩
      have hi : i < vids.length := by
        have := (List.getElem?_eq_some_iff.mp hg).1
        rwa [hb.videoCount,UpdateArgs.counts,hd.videos,List.length_map]
      obtain ⟨g',times,hg',htimes,hc⟩ := hb.silent hd hflag (List.getElem?_eq_getElem hi)
      obtain rfl : g = g' := Option.some.inj (hg.symm.trans hg')
      obtain rfl : [] = times := Except.ok.inj (hnil.symm.trans htimes)
      exact hne _ (List.getElem_mem hi) hc
    by_cases haudio : d.counts .audio = 0
    · rw [hb.returns_plain hd hp hne (.inr ⟨hflag,haudio⟩),hb.rows_silent_iff hd hflag]
      simp [Keeps,hflag,hvideo,haudio,hsome]
    · rw [hb.returns_visual hd hp hne hpos (.inr (Nat.pos_of_ne_zero haudio))]
      have hlost := hb.rows_lost hd hflag (Nat.pos_of_ne_zero haudio)
      constructor
      · intro h
        refine .inr (.inr (.inr (.inl ⟨Nat.pos_of_ne_zero haudio,fun hpaired => ?_⟩)))
        exact hlost hpaired (h hpaired).2
      · rintro (h | h | h | h | h)
        · rw [hflag] at h
          cases h
        · exact absurd h hvideo
        · exact absurd h.1 haudio
        · exact fun hpaired => absurd hpaired h.2
        · exact absurd h hsome

/-- A silent video and an audio of its own, without metadata. -/
def silentAndAudio (useAudioInVideo : Bool) : UpdateArgs where
  audioFeatureLengths := [50]
  imageGridThw := []
  videoGridThw := [⟨1,2,2⟩]
  secondPerGridTs := none
  timestamps := none
  useAudioInVideo := useAudioInVideo
  kwSecondPerGridTs := none
  kwVideoMetadata := none
  mergeSize := 2
  temporalPatchSize := 2
  positionIdPerSeconds := 13
  audioText := fun _ => ""

def charTokenizerLike : TokenizerLike where
  toTokenizer := charTokenizer
  decode := List.flatMap fun
    | .text n => [Char.ofNat n]
    | t => ((Word.specials.find? fun w => w.token? = some t).map Word.spell).getD []

def silentAndAudioPrompt : List Token :=
  [.visionStart,.videoPad,.visionEnd,.audioStart,.audioPad,.audioEnd]

/-- The audio as the track of the video. -/
theorem soundingVideo_embeds : ∃ updates,
    getMmPromptUpdates charTokenizerLike (silentAndAudio true) (silentAndAudio true).counts =
      .ok updates ∧
    ∀ ids ph, maybeApplyPromptUpdates (silentAndAudio true).counts charTokenizerLike
      [.visionStart,.videoPad,.visionEnd] (silentAndAudio true).kwargs updates false =
        .ok (ids,ph) → EveryItemEmbeds (silentAndAudio true) ph := by
  have hd : Describes (silentAndAudio true) [] [Grid.ofSides 1 1 1] := ⟨rfl,rfl,rfl⟩
  obtain ⟨updates,hup⟩ : ∃ updates, getMmPromptUpdates charTokenizerLike (silentAndAudio true)
      (silentAndAudio true).counts = .ok updates := ⟨_,rfl⟩
  exact ⟨updates,hup,(everyItemEmbeds_iff hd hup ⟨rfl,rfl,rfl⟩).mpr (.inl rfl)⟩

/-- The audio has a placeholder, and none of its seven rows a position. -/
theorem silentAndAudio_drops : ∃ updates ids ph,
    getMmPromptUpdates charTokenizerLike (silentAndAudio false) (silentAndAudio false).counts =
      .ok updates ∧
    Asked (silentAndAudio false) silentAndAudioPrompt ∧
    maybeApplyPromptUpdates (silentAndAudio false).counts charTokenizerLike silentAndAudioPrompt
      (silentAndAudio false).kwargs updates false = .ok (ids,ph) ∧
    (ph .audio).map Placeholder.embedCount = [0] ∧ (silentAndAudio false).rows .audio = [7] ∧
    ¬ EveryItemEmbeds (silentAndAudio false) ph := by
  have hrun : (do
      let updates ← getMmPromptUpdates charTokenizerLike (silentAndAudio false)
        (silentAndAudio false).counts
      let out ← maybeApplyPromptUpdates (silentAndAudio false).counts charTokenizerLike
        silentAndAudioPrompt (silentAndAudio false).kwargs updates false
      pure ((out.2 .audio).map Placeholder.embedCount)) = .ok [0] := by decide +kernel
  obtain ⟨updates,hup,hrun⟩ := bind_eq_ok.mp hrun
  obtain ⟨⟨ids,ph⟩,hok,hrun⟩ := bind_eq_ok.mp hrun
  have hzero : (ph .audio).map Placeholder.embedCount = [0] := Except.ok.inj hrun
  have hrows : (silentAndAudio false).rows .audio = [7] := rfl
  refine ⟨updates,ids,ph,hup,⟨rfl,rfl,rfl⟩,hok,hzero,hrows,fun h => ?_⟩
  have := h .audio
  rw [hzero,hrows] at this
  cases this

end Request
end Vllm
end TLiveOmni
