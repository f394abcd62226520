import Mathlib.Algebra.Order.BigOperators.Group.List
import TLiveOmni.PathsApart

/-! The tokens that both ways of a prompt through the vLLM processor lead to, counted against each
other, and where the two agree. -/
set_option autoImplicit false

namespace TLiveOmni.Vllm
open PySeq Words Expand

namespace ProcessorInputs
variable {m : Nat} {r : ProcessorInputs m} {prompt : List Char}

section Counted
variable {ids : List Token} {ph : Placeholders}

/-- The tokens of a span behind its timestamp. -/
def spanTokens (n : Nat) : List Token := .visionStart :: (List.replicate n .videoPad ++ [.visionEnd])

theorem count_spans (tk : Tokenizer) {t : Token} (ht : t.isText = false) (ts : List ℚ) (n : Nat) :
    (ts.flatMap fun u => spanOf tk u n).count t = ts.length*(spanTokens n).count t := by
  have htext : ∀ ids : List Nat, (wireText ids).count t = 0 :=
    fun ids => List.count_eq_zero.mpr (notMem_wireText ht ids)
  induction ts with
  | nil => simp
  | cons u ts ih =>
    rw [List.flatMap_cons,List.count_append,ih,spanOf,encode_timestamp,List.count_append,htext,
      List.length_cons,Nat.succ_mul,Nat.zero_add,Nat.add_comm]
    rfl

theorem Framed.count_video (h : r.Framed) {t : Token} (ht : t.isText = false) :
    (r.contents .video).map (List.count t) = r.videos.map fun v =>
      v.grid.t*(spanTokens (v.grid.h*v.grid.w/m^2)).count t := by
  refine List.ext_getElem (by simp [contents]) fun i hi hi' => ?_
  have hlt : i < r.videos.length := by simpa using hi'
  have hv : r.videos[i]? = some r.videos[i] := List.getElem?_eq_getElem hlt
  obtain ⟨hrate,hlen⟩ := h i _ hv
  have hcontent := video_content hv hrate
  simp only [contents,List.getElem_map,List.getElem_range]
  rw [hcontent]
  exact (count_spans _ ht _ _).trans (by rw [hlen])

/-- The tokens of one kind in all contents. -/
def total (r : ProcessorInputs m) (t : Token) : Nat := ((r.contents .audio).map (List.count t)).sum+
  (((r.contents .image).map (List.count t)).sum+((r.contents .video).map (List.count t)).sum)

theorem sum_items (r : ProcessorInputs m) (t : Token) :
    (r.updates.items.map fun u => u.full.count t).sum = r.total t := by
  unfold updates total
  simp only [Updates.items_cons,List.map_append,List.sum_append,map_resolved _ _ _ (List.count t)]
  rfl

theorem countP_items (r : ProcessorInputs m) (mo : Modality) :
    r.updates.items.countP (fun u => decide (u.mark = mo.pad)) = r.counts mo := by
  have hlen := congrArg List.length (r.waiting mo)
  rw [List.length_map] at hlen
  rw [List.countP_eq_length_filter,hlen]
  cases mo <;> simp [contents,counts,Indices.of]

theorem Plain.count_pads (h : r.Plain) (hasks : r.Asks prompt) (mo : Modality) :
    (r.expanded prompt).count mo.pad = r.total mo.pad := by
  have hcount := @count_expand _ _ _ Update.mark Update.full _ _ (h.applied hasks).1 mo.pad
  rw [sum_items,countP_items,hasks.count,args_counts] at hcount
  unfold expanded
  omega

theorem Plain.count_opens (h : r.Plain) (hasks : r.Asks prompt) :
    (r.expanded prompt).count .visionStart =
      occurrences .visionStart prompt+r.total .visionStart := by
  have hcount := @count_expand _ _ _ Update.mark Update.full _ _ (h.applied hasks).1 .visionStart
  have hnone : r.updates.items.countP (fun u => decide (u.mark = .visionStart)) = 0 := by
    rw [List.countP_eq_zero]
    intro u _
    unfold Update.mark
    cases u.modality <;> decide
  have htext := count_encode r.tk.toTokenizer prompt (show Word.token? .visionStart = _ from rfl) rfl
  rw [sum_items,hnone,htext] at hcount
  exact hcount

theorem Plain.total_eq (h : r.Plain) :
    r.total .audioPad = (r.audios.map fun a => aftercnnLen a.wholeFrames).sum ∧
      r.total .imagePad = (r.images.map fun g => g.thw.prod/m^2).sum ∧
      r.total .videoPad = (r.videos.map fun v => v.grid.t*v.grid.toFrame.tokens).sum ∧
      r.total .visionStart = (r.videos.map fun v => v.grid.t).sum := by
  have hsize : ∀ v : VideoItem m r.temporalPatchSize,
      v.grid.h*v.grid.w/m^2 = v.grid.toFrame.tokens := fun v => v.grid.toFrame.mul_div_sq
  unfold total
  refine ⟨?_,?_,?_,?_⟩ <;> rw [h.framed.count_video rfl] <;>
    simp [contents,Function.comp_def,List.count_replicate,spanTokens,hsize]

theorem silent_divisible (r : ProcessorInputs m) : Divisible r.silentArgs := by
  intro thw hthw
  obtain ⟨v,-,rfl⟩ := List.mem_map.mp hthw
  exact ⟨v.grid.hDvd,v.grid.wDvd⟩

theorem silent_past (hasks : r.Asks prompt) (mo : Modality) :
    ((⟨0,0,0⟩ : Indices).past r.silentArgs (found prompt)).of mo = supply r.silentArgs mo := by
  have hall := matches_iff.mp (silent_matches hasks) mo
  rwa [List.flatMap_singleton] at hall

theorem silent_within (hasks : r.Asks prompt) :
    Within r.silentArgs ((⟨0,0,0⟩ : Indices).past r.silentArgs (found prompt)) :=
  ⟨(silent_past hasks .audio).le,(silent_past hasks .image).le,(silent_past hasks .video).le⟩

theorem Audible.count_written (h : r.Audible) (hasks : r.Asks prompt) (mo : Modality) :
    (r.written prompt).count mo.pad =
      occurrences mo.placeholder prompt+(totals r.silentArgs mo).sum := by
  have hcount := count_rewritten r.silent_supplied.timed r.silent_divisible
    (h.noEmptyRun.seamlessAt ⟨0,0,0⟩ prompt) (silent_within hasks) mo
  have hstart : consumed r.silentArgs ⟨0,0,0⟩ mo = 0 := by cases mo <;> rfl
  have hend : consumed r.silentArgs ((⟨0,0,0⟩ : Indices).past r.silentArgs (found prompt)) mo =
      (totals r.silentArgs mo).sum := by
    rw [consumed,silent_past hasks,List.take_of_length_le]
    cases mo <;> simp [totals,supply]
  have htoken : mo.word.token? = some mo.pad := by cases mo <;> rfl
  unfold written
  rw [count_encode _ _ htoken (by cases mo <;> rfl)]
  omega

theorem totals_eq (r : ProcessorInputs m) :
    (totals r.silentArgs .audio).sum = (r.audios.map fun a => aftercnnLen a.paddedFrames).sum ∧
      (totals r.silentArgs .image).sum = (r.images.map fun g => g.thw.prod/m^2).sum ∧
      (totals r.silentArgs .video).sum =
        (r.videos.map fun v => v.grid.t*v.grid.toFrame.tokens).sum := by
  have himages : totals r.silentArgs .image = (r.images.map Grid.thw).map fun thw => thw.prod/m^2 :=
    rfl
  have hvideos : totals r.silentArgs .video = (r.videos.map fun v => v.grid.thw).map fun thw =>
      thw.t*(thw.h/m)*(thw.w/m) := rfl
  refine ⟨rfl,?_,?_⟩
  · rw [himages,List.map_map]
    rfl
  · rw [hvideos,List.map_map]
    refine congrArg List.sum (List.map_congr_left fun v _ => ?_)
    exact Nat.mul_assoc _ _ _

theorem count_le_totals (h : r.Audible) (mo : Modality) :
    r.counts mo ≤ (totals r.silentArgs mo).sum := by
  have hne := h.noEmptyRun
  have hlen : (totals r.silentArgs mo).length = r.counts mo := by
    cases mo <;> simp [totals,silentArgs,unvoiced,writerArgs,counts]
  rw [← hlen]
  refine List.length_le_sum_of_one_le _ fun n hn => ?_
  cases mo with
  | audio => exact hne.audio n hn
  | image =>
    obtain ⟨thw,hthw,rfl⟩ := List.mem_map.mp hn
    exact hne.image thw hthw
  | video =>
    obtain ⟨thw,hthw,rfl⟩ := List.mem_map.mp hn
    obtain ⟨v,-,rfl⟩ := List.mem_map.mp hthw
    have hpos := Nat.mul_pos v.grid.tPos v.grid.toFrame.tokens_pos
    exact hpos.trans_eq (Nat.mul_assoc _ _ _).symm

/-- The text side returns what the HF processor has written, or applies the updates to it. -/
theorem Plain.text_ids (h : r.Plain) (hasks : r.Asks prompt)
    (hok : r.applyText prompt = .ok (ids,ph)) : ids = r.written prompt ∨
      (unused Update.mark r.updates.items (r.written prompt) = [] ∧
        ids = expand Update.mark Update.full r.updates.items (r.written prompt)) := by
  unfold ProcessorInputs.applyText at hok
  rw [h.quiet.callHf_ok hasks (h.audible.noEmptyRun.seamlessAt _ _),ok_bind,h.promptUpdates,
    ok_bind] at hok
  obtain ⟨-,happly,-⟩ := maybeApplyPromptUpdates_eq_ok.mp hok
  rw [if_pos rfl] at happly
  unfold applyToExpanded at happly
  dsimp only at happly
  split at happly
  · have hall : unused Update.mark r.updates.items (r.written prompt) = [] := by
      refine h.bound.sound.unused_eq_nil fun x hx => ?_
      have hlen : x.2.length = r.counts x.1 := by
        unfold updates at hx
        simp only [List.mem_cons,List.not_mem_nil,or_false] at hx
        rcases hx with rfl | rfl | rfl <;> simp [length_resolved,contents,counts]
      have hle := count_le_totals h.audible x.1
      rw [hlen,h.audible.count_written hasks]
      omega
    unfold written at hall
    simp only [applyPromptUpdates,applyMatches_eq,hall,if_true] at happly
    obtain ⟨rfl,-⟩ := Prod.mk.inj (Except.ok.inj happly)
    exact .inr ⟨hall,rfl⟩
  · obtain ⟨rfl,-⟩ := Prod.mk.inj (Except.ok.inj happly)
    exact .inl rfl

theorem Plain.count_le_text (h : r.Plain) (hasks : r.Asks prompt)
    (hok : r.applyText prompt = .ok (ids,ph)) (mo : Modality) :
    occurrences mo.placeholder prompt+(totals r.silentArgs mo).sum ≤ ids.count mo.pad := by
  rw [← h.audible.count_written hasks]
  rcases h.text_ids hasks hok with rfl | ⟨hall,rfl⟩
  · exact Nat.le_refl _
  · exact count_le_expand hall
      (fun u hu => (h.bound.content r.describes h.contents_ne hu).1) mo.pad

end Counted

section Opened
variable {args : WriterArgs} {idx : Indices} {w : Word} {ws : List Word}
  {cur : List (Sym Char Word)}

/-- The grids of the videos in front of the cursor. -/
def openings (args : WriterArgs) (idx : Indices) : Nat :=
  ((args.videoGridThw.map Thw.t).take idx.videoIdx).sum

theorem count_silentSpan_open (time : ℚ) (v : Nat) :
    (silentSpan time v).count (.word .visionStart) = 1 := by
  simp [silentSpan,List.count_append,count_chars,List.count_replicate]

theorem count_voicedSpan_open (time : ℚ) (v a : Nat) :
    (voicedSpan time v a).count (.word .visionStart) = 1 := by
  simp [voicedSpan,List.count_append,count_chars,List.count_replicate]

theorem count_draft_open (hw : w ∈ Word.media) (h : Has args idx w) :
    (draft args idx w).count (.word .visionStart)+openings args idx =
      openings args (idx.next args w) := by
  rcases mem_media.mp hw with rfl | rfl | rfl
  · simp [draft,List.count_replicate,openings,Indices.next]
  · simp [draft,List.count_replicate,openings,Indices.next]
  · have hspans : (draft args idx .videoPad).count (.word .visionStart) = (videoThw args idx).t := by
      rw [draft,videoSyms,List.count_flatMap]
      cases hu : args.useAudioInVideo <;>
        simp [Function.comp_def,count_silentSpan_open,count_voicedSpan_open]
    have hthw : (videoThw args idx).t = (args.videoGridThw.map Thw.t).getD idx.videoIdx 0 := by
      have hlt := h.1
      simp [videoThw,hlt]
    rw [hspans,hthw]
    simp only [openings,Indices.next,sum_take_succ]
    exact Nat.add_comm _ _

theorem infix_of_notMem {β : Type} {l a b : List β} {x : β} (hx : x ∉ l)
    (h : l <:+: a ++ x :: b) : l <:+: a ∨ l <:+: b := by
  obtain ⟨s,t,h⟩ := h
  rw [List.append_assoc] at h
  rcases List.append_eq_append_iff.mp h with ⟨e,ha,hb⟩ | ⟨e,hs,hb⟩
  · rcases List.append_eq_append_iff.mp hb with ⟨d,he,-⟩ | ⟨d,hl,hd⟩
    · exact .inl ⟨s,d,by rw [ha,he,List.append_assoc]⟩
    · cases d with
      | nil => exact .inl ⟨s,[],by rw [ha,hl]; simp⟩
      | cons y d =>
        obtain ⟨rfl,-⟩ := List.cons.inj hd
        exact absurd (by rw [hl]; simp) hx
  · cases e with
    | nil =>
      cases l with
      | nil => exact .inl (List.nil_infix)
      | cons y l =>
        obtain ⟨rfl,-⟩ := List.cons.inj hb
        exact absurd (List.mem_cons_self ..) hx
    | cons y e =>
      obtain ⟨-,hb⟩ := List.cons.inj hb
      exact .inr ⟨e,t,by rw [hb,List.append_assoc]; rfl⟩

/-- A round puts as many spans as the medium has, and takes the opening of a wrapped token. -/
theorem opens_step (hmem : (.word w) ∈ cur) (hw : w ∈ Word.media) (h : Has args idx w) :
    (stepSyms args idx w cur).count (.word .visionStart)+openings args idx+
      (if w = .videoPad ∧ wrapped <:+: cur then 1 else 0) =
        cur.count (.word .visionStart)+openings args (idx.next args w) := by
  have hdraft := count_draft_open hw h
  by_cases hin : w = .videoPad ∧ wrapped <:+: cur
  · obtain ⟨a,b,hcur,hrep⟩ := replaceFirst_of_infix (draft args idx w) (by decide) hin.2
    have hone : wrapped.count (.word .visionStart) = 1 := by decide
    rw [stepSyms,if_pos hin,hrep,if_pos hin,hcur]
    simp only [List.count_append,hone]
    omega
  · obtain ⟨a,b,rfl,ha⟩ := List.eq_append_cons_of_mem hmem
    have hne : (.word w : Sym Char Word) ≠ .word .visionStart := by
      rintro e
      rw [Sym.word.inj e] at hw
      exact absurd hw (by decide)
    rw [stepSyms,if_neg hin,replaceFirst_one _ _ ha,if_neg hin]
    simp only [List.count_append,List.count_cons_of_ne hne]
    omega

/-- Another round leaves a wrapped token as it is. -/
theorem wrapped_step (hmem : (.word w) ∈ cur) (hw : w ∈ Word.media) (hne : w ≠ .videoPad)
    (h : wrapped <:+: cur) : wrapped <:+: stepSyms args idx w cur := by
  obtain ⟨a,b,rfl,ha⟩ := List.eq_append_cons_of_mem hmem
  have hx : (.word w : Sym Char Word) ∉ wrapped := by
    rcases mem_media.mp hw with rfl | rfl | rfl
    · decide
    · decide
    · exact absurd rfl hne
  rw [stepSyms,if_neg fun e => hne e.1,replaceFirst_one _ _ ha]
  rcases infix_of_notMem hx h with h | h
  · exact h.trans (List.prefix_append _ _).isInfix
  · exact h.trans ((List.suffix_append _ _).trans (List.suffix_append _ _)).isInfix

/-- The loop opens the spans of all media; a wrapped token costs an opening. -/
theorem opens_run (ha : Afoot args idx ws cur) (hws : ∀ w ∈ ws, w ∈ Word.media)
    (ht : Timed args) (h : Within args (idx.past args ws)) :
    (runSyms args idx ws cur).count (.word .visionStart)+openings args idx+
      (if wrapped <:+: cur then 1 else 0) ≤
        cur.count (.word .visionStart)+openings args (idx.past args ws) := by
  induction ws generalizing idx cur with
  | nil =>
    have hnone : ¬ wrapped <:+: cur := by
      intro hin
      have hmem : (.word .videoPad) ∈ cur := hin.subset (by decide)
      have hzero := ha.pads .videoPad (by decide)
      exact absurd hmem (List.count_eq_zero.mp hzero)
    rw [if_neg hnone]
    exact Nat.le_refl _
  | cons w ws ih =>
    have hw := hws w (by simp)
    have hcons : idx.past args (w :: ws) = (idx.next args w).past args ws := rfl
    rw [hcons] at h ⊢
    have hhas := (has_iff (@within_of_past args idx (w :: ws) h) hw).mpr (within_of_past h)
    have hstep := opens_step (ha.mem hw) hw hhas
    have hrest := ih (ha.step hw ht) (fun v hv => hws v (by simp [hv])) h
    rw [runSyms]
    by_cases hin : wrapped <:+: cur
    · by_cases hv : w = .videoPad
      · rw [if_pos ⟨hv,hin⟩] at hstep
        rw [if_pos hin]
        split at hrest <;> omega
      · rw [if_pos (wrapped_step (ha.mem hw) hw hv hin)] at hrest
        rw [if_neg fun e => hv e.1] at hstep
        rw [if_pos hin]
        omega
    · rw [if_neg fun e => hin e.2] at hstep
      rw [if_neg hin]
      split at hrest <;> omega

end Opened

section Needed
variable {ids : List Token} {ph : Placeholders}

/-- A wrapped video token shows in the number of the openings. -/
theorem Plain.bare_of_eq (h : r.Plain) (hasks : r.Asks prompt)
    (heq : r.written prompt = r.expanded prompt) : ¬ wrapped <:+: syms prompt := by
  intro hin
  have hseam := h.audible.noEmptyRun.seamlessAt ⟨0,0,0⟩ prompt
  have hrun := opens_run hseam.afoot found_media r.silent_supplied.timed (silent_within hasks)
  have hstart : openings r.silentArgs ⟨0,0,0⟩ = 0 := rfl
  have hend : openings r.silentArgs ((⟨0,0,0⟩ : Indices).past r.silentArgs (found prompt)) =
      (r.videos.map fun v => v.grid.t).sum := by
    have hpast : ((⟨0,0,0⟩ : Indices).past r.silentArgs (found prompt)).videoIdx =
        r.videos.length := (silent_past hasks .video).trans (by simp [supply,silentArgs,unvoiced,
          writerArgs])
    rw [openings,hpast,List.take_of_length_le (by simp [silentArgs,unvoiced,writerArgs])]
    simp [silentArgs,unvoiced,writerArgs,Grid.thw,Function.comp_def]
  have hwritten : (r.written prompt).count .visionStart =
      (runSyms r.silentArgs ⟨0,0,0⟩ (found prompt) (syms prompt)).count (.word .visionStart) := by
    unfold written
    rw [count_encode _ _ (show Word.token? .visionStart = _ from rfl) rfl,
      occurrences_flat _ (hseam.clean_rewritten r.silent_supplied.timed),rewritten,
      count_settle (by decide) rfl]
  have hopens := h.count_opens hasks
  rw [← heq,hwritten,h.total_eq.2.2.2,occurrences_eq] at hopens
  rw [if_pos hin,hstart,hend] at hrun
  omega

theorem seams_of_none {run : List Char} {i : Nat} {l : List (Sym Char Word)}
    (h : (.word .videoPad) ∉ l) : r.Seams run i l := by
  induction l generalizing run with
  | nil => trivial
  | cons x l ih =>
    have hrest : (.word .videoPad) ∉ l := fun e => h (by simp [e])
    cases x with
    | ch c => exact ih hrest
    | word w =>
      cases w with
      | videoPad => exact absurd (List.mem_cons_self ..) h
      | _ => exact ih hrest

/-- The updates have a timestamp for each grid, and some video has more than one token. -/
structure Ordinary (r : ProcessorInputs m) : Prop where
  frames : ∀ i v, r.videos[i]? = some v → (r.updateTimes i v).length = v.grid.t
  long : r.videos ≠ [] → ∃ v ∈ r.videos, 1 < v.grid.t*v.grid.toFrame.tokens

/-- Where the two ways agree, what is written is not expanded again. -/
theorem Plain.written_eq_expanded (h : r.Plain) (hasks : r.Asks prompt)
    (hlong : ∃ v ∈ r.videos, 1 < v.grid.t*v.grid.toFrame.tokens)
    (hok : r.applyText prompt = .ok (r.expanded prompt,ph)) :
    r.written prompt = r.expanded prompt := by
  rcases h.text_ids hasks hok with heq | ⟨hall,heq⟩
  · exact heq.symm
  · have hcount := @count_expand _ _ _ Update.mark Update.full _ _ hall (Modality.pad .video)
    rw [← heq,h.count_pads hasks,countP_items,h.audible.count_written hasks,sum_items] at hcount
    have hlt : (r.videos.map fun _ => 1).sum <
        (r.videos.map fun v => v.grid.t*v.grid.toFrame.tokens).sum :=
      List.sum_lt_sum _ _ (fun v _ => Nat.mul_pos v.grid.tPos v.grid.toFrame.tokens_pos) hlong
    have hlen : (r.videos.map fun _ => 1).sum = r.videos.length := by simp
    have hvideos : r.counts .video = r.videos.length := rfl
    rw [(totals_eq r).2.2,hvideos] at hcount
    omega

theorem Plain.agrees_of_same (h : r.Plain) (hord : r.Ordinary) (hasks : r.Asks prompt)
    (hok : r.applyText prompt = .ok (r.expanded prompt,ph)) : r.Agrees prompt := by
  have hle := h.count_le_text hasks hok
  obtain ⟨ha,hi,hv,-⟩ := h.total_eq
  obtain ⟨hta,hti,htv⟩ := totals_eq r
  have haudio := hle .audio
  have himage := hle .image
  have hvideo := hle .video
  rw [h.count_pads hasks] at haudio himage hvideo
  simp only [Modality.pad] at haudio himage hvideo
  rw [ha,hta] at haudio
  rw [hi,hti] at himage
  rw [hv,htv] at hvideo
  have hmono : ∀ a ∈ r.audios, aftercnnLen a.wholeFrames ≤ aftercnnLen a.paddedFrames :=
    fun a _ => Int.toNat_le_toNat (whole_le_padded a)
  have hsum := List.sum_le_sum hmono
  have hfree : ∀ mo : Modality, occurrences mo.placeholder prompt = 0 := by
    intro mo
    cases mo <;> omega
  have hruns : r.SameRuns := by
    intro b hb
    refine ⟨?_,h.audible b hb⟩
    by_contra hne
    have hlt : aftercnnLen b.wholeFrames < aftercnnLen b.paddedFrames := by
      have hwhole := whole_le_padded b
      have hpos := h.audible b hb
      unfold aftercnnLen
      omega
    have := List.sum_lt_sum _ _ hmono ⟨b,hb,hlt⟩
    omega
  by_cases hnone : r.videos = []
  · have hpad : (.word .videoPad) ∉ syms prompt := by
      rw [← List.count_eq_zero,← occurrences_eq]
      exact (hasks .video).trans (by rw [counts,hnone]; rfl)
    exact ⟨hfree,hruns,h.alone,fun hin => hpad (hin.subset (by decide)),seams_of_none hpad⟩
  · have heq := h.written_eq_expanded hasks (hord.long hnone) hok
    have hbare := h.bare_of_eq hasks heq
    exact ⟨hfree,hruns,h.alone,hbare,
      (h.written_iff hasks hruns hbare (free_of_occurrences hfree)).mp heq⟩

end Needed

section Instances

/-- Two frames in one grid of one token, at half a second. -/
def oneVideo : VideoItem 2 2 where
  grid := .ofSides 1 1 1
  secondPerGrid := 1
  metadata := ⟨[0,1],1⟩
  rated := by decide
  sampled := by decide +kernel

/-- A silent video, with its metadata returned. -/
def videoRequest : ProcessorInputs 2 where
  tk := charTokenizerLike
  temporalPatchSize := 2
  patchPos := Nat.two_pos
  positionIdPerSeconds := 13
  useAudioInVideo := false
  returnMetadata := true
  kwVideoMetadata := none
  audios := []
  images := []
  videos := [oneVideo]

/-- A bare video token. -/
def barePrompt : List Char := "a<|video_pad|>b".toList

/-- A video token as `get_placeholder_str` writes it. -/
def wrappedPrompt : List Char := "a<|vision_start|><|video_pad|><|vision_end|>".toList

end Instances
end ProcessorInputs
end TLiveOmni.Vllm
