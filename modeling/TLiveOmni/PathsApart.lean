import TLiveOmni.PathsAgree

/-! Where the two ways of a prompt through the vLLM processor part at once: at audios next to videos
or in them. -/
set_option autoImplicit false

namespace TLiveOmni.Vllm
open PySeq Words Expand

namespace ProcessorInputs
variable {m : Nat} {r : ProcessorInputs m} {prompt : List Char}

section Mixed
variable {updates : Updates} {auds imgs vids : List (List Token)} {ids tokens : List Token}
  {ph : Placeholders}

theorem mem_iterFrom {p : Placeholder} {skip startIdx : Nat}
    (hp : p ∈ iterFrom skip startIdx updates tokens) :
    ∃ u ∈ updates.items, u.modality = p.modality ∧ u.full = p.tokens := by
  induction tokens generalizing updates skip startIdx with
  | nil => cases hp
  | cons t tokens ih =>
    cases skip with
    | succ skip => exact ih hp
    | zero =>
      unfold iterFrom at hp
      split at hp
      · exact ih hp
      · next u hu =>
        rcases List.mem_cons.mp hp with rfl | hp
        · obtain ⟨x,hx,hhead,-⟩ := matchAt_some hu
          exact ⟨u,List.mem_flatMap.mpr ⟨x,hx,List.mem_of_head? hhead⟩,rfl,rfl⟩
        · obtain ⟨v,hv,hmo⟩ := ih hp
          refine ⟨v,?_,hmo⟩
          obtain ⟨y,hy,hv⟩ := List.mem_flatMap.mp hv
          obtain ⟨x,hx,rfl⟩ := List.mem_map.mp hy
          refine List.mem_flatMap.mpr ⟨x,hx,?_⟩
          dsimp only at hv
          split at hv
          · exact List.mem_of_mem_tail hv
          · exact hv

theorem mem_findMmPlaceholders {p : Placeholder} {mo : Modality}
    (hp : p ∈ findMmPlaceholders tokens updates mo) :
    ∃ u ∈ updates.items, u.modality = mo ∧ u.full = p.tokens := by
  obtain ⟨hmem,hmo⟩ := List.mem_filter.mp hp
  obtain ⟨u,hu,hmodality,hfull⟩ := mem_iterFrom hmem
  exact ⟨u,hu,hmodality.trans (of_decide_eq_true hmo),hfull⟩

theorem detect_mixed (hb : Bound r.tk r.args updates auds imgs vids) (hvideo : .videoPad ∈ tokens)
    (hv : r.videos ≠ []) (ha : r.audios ≠ []) :
    detectUseAudioInVideo r.args.counts tokens r.args.kwargs updates = true := by
  have hkeys : (updates.any fun x => decide (x.1 = .audio)) = true ∧
      (updates.any fun x => decide (x.1 = .video)) = true := by
    rw [hb.eq]
    exact ⟨rfl,rfl⟩
  have hcv : 0 < r.videos.length := List.length_pos_iff.mpr hv
  have hca : 0 < r.audios.length := List.length_pos_iff.mpr ha
  have hcontains : tokens.contains .videoPad = true := by simpa using hvideo
  unfold detectUseAudioInVideo
  rw [args_kwargs,args_counts]
  simp only [hkeys.1,hkeys.2,hcontains,mmKwargs,counts,hcv,hca]
  cases r.useAudioInVideo with
  | true => simp [hv]
  | false => cases tokens.contains .audioPad <;> simp [hv]

/-- The audios are given the tokens of the videos. -/
theorem derived_audios {counts : Modality → Nat} {ph' : Placeholders} (hv : ph .video ≠ [])
    (h : deriveAudioFromVideoPlaceholders counts ph = .ok ph') {p : Placeholder}
    (hp : p ∈ ph' .audio) : ∃ q ∈ ph .video, p.tokens = q.tokens := by
  unfold deriveAudioFromVideoPlaceholders at h
  rw [if_neg hv] at h
  obtain ⟨_,-,h⟩ := bind_eq_ok.mp h
  rw [← Except.ok.inj h] at hp
  obtain ⟨x,hx,rfl⟩ := List.mem_map.mp hp
  exact ⟨x.1,List.fst_mem_of_mem_zipIdx hx,rfl⟩

/-- On the token side the audios are put into the videos. -/
theorem mixed_tokens (hasks : r.Asks prompt) (hup : r.promptUpdates = .ok updates)
    (hb : Bound r.tk r.args updates auds imgs vids) (hv : r.videos ≠ []) (ha : r.audios ≠ [])
    (hok : r.applyTokens (r.tk.encode prompt) = .ok (ids,ph)) :
    ∀ p ∈ ph .audio, .videoPad ∈ p.tokens := by
  have hpos : 0 < r.args.counts .video := by
    rw [args_counts]
    exact List.length_pos_iff.mpr hv
  have hmem : .videoPad ∈ r.tk.encode prompt := by
    rw [← List.count_pos_iff]
    exact (hasks.count .video).symm ▸ hpos
  unfold ProcessorInputs.applyTokens at hok
  obtain ⟨_,-,hok⟩ := bind_eq_ok.mp hok
  rw [hup,ok_bind,← args_counts,← args_kwargs] at hok
  obtain ⟨-,happly,hlen⟩ := maybeApplyPromptUpdates_eq_ok.mp hok
  rw [if_neg (by simp),detect_mixed hb hmem hv ha,applyToTokens,if_pos rfl] at happly
  dsimp only at happly
  rw [hb.filtered] at happly
  obtain ⟨⟨ids₀,ph₀⟩,hvisual,happly⟩ := bind_eq_ok.mp happly
  obtain ⟨ph₂,hderive,happly⟩ := bind_eq_ok.mp happly
  have hsame : ph₂ .video = ph₀ .video := derive_video hderive
  have hscan : ph₀ = findMmPlaceholders ids₀ (visual imgs vids) := applyPromptUpdates_found hvisual
  by_cases hempty : [] ∈ vids
  · -- such a video is not found, neither now nor when all updates are applied again
    have hshort := hb.falls_short hempty (visual_sound imgs vids) (by simp [visual]) ids₀
    rw [← hscan,← hsame] at hshort
    rw [if_pos hshort.ne] at happly
    have hagain := hb.falls_short hempty hb.sound (by simp [hb.eq]) ids
    rw [← applyPromptUpdates_found happly,hlen .video] at hagain
    exact absurd hagain (Nat.lt_irrefl _)
  · have hne : ∀ c ∈ vids, c ≠ [] := fun c hc e => hempty (e ▸ hc)
    obtain ⟨hall,happlied⟩ := hb.apply_visual r.describes (hasks.count .image) (hasks.count .video) hne
    obtain ⟨-,-,-,hcount⟩ := hb.found_visual r.describes hall
    obtain ⟨rfl,rfl⟩ := Prod.mk.inj (Except.ok.inj (hvisual.symm.trans happlied))
    rw [hsame,if_neg (not_not.mpr hcount)] at happly
    obtain ⟨rfl,rfl⟩ := Prod.mk.inj (Except.ok.inj happly)
    intro p hp
    obtain ⟨q,hq,hpq⟩ := derived_audios (List.ne_nil_of_length_pos (hcount ▸ hpos)) hderive hp
    rw [hscan] at hq
    obtain ⟨u,hu,hmo,hfull⟩ := mem_findMmPlaceholders hq
    have hitem : u ∈ updates.items := by
      rw [hb.eq,Updates.items_cons]
      exact List.mem_append_right _ hu
    have hmark := (hb.content r.describes hne hitem).1
    rw [Update.mark,hmo] at hmark
    rwa [hpq,← hfull]

/-- On the text side the audios are what the scan finds. -/
theorem mixed_text (hup : r.promptUpdates = .ok updates)
    (hb : Bound r.tk r.args updates auds imgs vids) (hok : r.applyText prompt = .ok (ids,ph)) :
    (ph .audio).length = r.audios.length ∧ ∀ p ∈ ph .audio, .videoPad ∉ p.tokens := by
  unfold ProcessorInputs.applyText at hok
  obtain ⟨text,-,hok⟩ := bind_eq_ok.mp hok
  rw [hup,ok_bind] at hok
  obtain ⟨-,happly,hlen⟩ := maybeApplyPromptUpdates_eq_ok.mp hok
  refine ⟨hlen .audio,fun p hp => ?_⟩
  have hscan : ∃ tokens, ph = findMmPlaceholders tokens updates := by
    rw [if_pos rfl] at happly
    unfold applyToExpanded at happly
    dsimp only at happly
    split at happly
    · exact ⟨_,applyPromptUpdates_found happly⟩
    · exact ⟨_,(Prod.mk.inj (Except.ok.inj happly)).2.symm⟩
  obtain ⟨tokens,rfl⟩ := hscan
  obtain ⟨u,hu,hmo,hfull⟩ := mem_findMmPlaceholders hp
  obtain ⟨x,hx,hu⟩ := List.mem_flatMap.mp hu
  rw [hb.eq] at hx
  simp only [List.mem_cons,List.not_mem_nil,or_false] at hx
  rcases hx with rfl | rfl | rfl
  · obtain ⟨n,-,hc,-⟩ := getReplacementAudio_ok (hb.audio _ _ (mem_resolved hu).2.2)
    rw [← hfull,hc]
    simp [List.mem_replicate]
  · rw [(mem_resolved hu).1] at hmo
    cases hmo
  · rw [(mem_resolved hu).1] at hmo
    cases hmo

theorem updates_of_text {reply : List Token × Placeholders}
    (h : r.applyText prompt = .ok reply) : ∃ updates auds imgs vids,
      r.promptUpdates = .ok updates ∧ Bound r.tk r.args updates auds imgs vids := by
  unfold ProcessorInputs.applyText at h
  obtain ⟨_,-,h⟩ := bind_eq_ok.mp h
  obtain ⟨updates,hup,-⟩ := bind_eq_ok.mp h
  have hbound := hup
  rw [promptUpdates_eq] at hbound
  obtain ⟨auds,imgs,vids,hb⟩ := getMmPromptUpdates_ok hbound
  exact ⟨updates,auds,imgs,vids,hup,hb⟩

/-- The two ways never agree where videos are to come with audio, or next to audios. -/
theorem alone_of_agreement (hasks : r.Asks prompt) {reply : List Token × Placeholders}
    (htext : r.applyText prompt = .ok reply)
    (htokens : r.applyTokens (r.tk.encode prompt) = .ok reply) (hv : r.videos ≠ []) :
    r.audios = [] ∧ r.useAudioInVideo = false := by
  obtain ⟨updates,auds,imgs,vids,hup,hb⟩ := updates_of_text htext
  have haudios : r.audios = [] := by
    by_contra ha
    obtain ⟨hlen,hpads⟩ := mixed_text hup hb htext
    obtain ⟨p,hp⟩ := List.exists_mem_of_length_pos (hlen ▸ List.length_pos_iff.mpr ha)
    exact hpads p hp (mixed_tokens hasks hup hb hv ha htokens p hp)
  refine ⟨haudios,?_⟩
  by_contra hu
  have hraise : r.videos ≠ [] ∧ r.useAudioInVideo = true ∧ r.audios = [] :=
    ⟨hv,by simpa using hu,haudios⟩
  unfold ProcessorInputs.applyText ProcessorInputs.callHf raiseIf at htext
  simp [hraise] at htext

theorem audible_of_bound (hb : Bound r.tk r.args updates auds imgs vids) : r.Audible := by
  intro a ha
  obtain ⟨i,hi⟩ := List.mem_iff_getElem?.mp ha
  have hlt : i < auds.length := by
    rw [hb.audioCount,args_counts]
    exact (List.getElem?_eq_some_iff.mp hi).1
  obtain ⟨n,hn,hc,hne⟩ := getReplacementAudio_ok (hb.audio i _ (List.getElem?_eq_getElem hlt))
  have hsame : n = a.wholeFrames := by
    have hget : r.args.audioFeatureLengths[i]? = some a.wholeFrames := by simp [args,argsWith,hi]
    exact Option.some.inj (hn.symm.trans hget)
  rw [hc,hsame] at hne
  by_contra hzero
  rw [Int.toNat_of_nonpos (by omega)] at hne
  exact hne rfl

theorem framed_of_bound (hquiet : r.Quiet) (hb : Bound r.tk r.args updates auds imgs vids)
    (hframes : ∀ i v, r.videos[i]? = some v → (r.updateTimes i v).length = v.grid.t) :
    r.Framed := by
  intro i v hv
  refine ⟨fun hreturn entry hentry hindices hfps => ?_,hframes i v hv⟩
  obtain ⟨indices,hindices⟩ := Option.ne_none_iff_exists'.mp hindices
  obtain ⟨frames,fps⟩ := entry
  obtain rfl : frames = some indices := hindices
  obtain rfl : fps = some 0 := hfps
  have hlt : i < vids.length := by
    rw [hb.videoCount,args_counts]
    exact (List.getElem?_eq_some_iff.mp hv).1
  have hu : r.args.useAudioInVideo = false :=
    hquiet (List.ne_nil_of_mem (List.mem_of_getElem? hv))
  have hok := hb.video i _ (List.getElem?_eq_getElem hlt)
  have hthw : r.args.videoGridThw[i]? = some v.grid.thw := by simp [args,argsWith,hv]
  rw [videoReplacementFn,hu,if_neg (by simp)] at hok
  obtain ⟨times,htimes,-⟩ := getReplacementVideo_ok rfl hthw hok
  have hnone : r.args.timestamps = none := by simp [args,argsWith,hreturn]
  unfold silentTimestamps at htimes
  rw [hnone] at htimes
  dsimp only at htimes
  rw [r.kwTimestamps_some hentry] at htimes
  obtain ⟨_,hcalc,-⟩ := bind_eq_ok.mp htimes
  obtain ⟨_,hcalc,-⟩ := bind_eq_ok.mp hcalc
  unfold calculateTimestamps at hcalc
  dsimp only at hcalc
  obtain ⟨_,hraise,-⟩ := bind_eq_ok.mp hcalc
  have hnil : padIndices indices r.temporalPatchSize = [] := by
    by_contra hne
    exact raiseIf_eq_ok.mp hraise ⟨rfl,hne⟩
  have hlen := hframes i v hv
  have hpos := v.grid.tPos
  unfold updateTimes at hlen
  rw [hreturn,hentry] at hlen
  simp [midpoints,hnil] at hlen
  omega

end Mixed

end ProcessorInputs
end TLiveOmni.Vllm
