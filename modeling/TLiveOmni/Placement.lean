import TLiveOmni.Conservation

/-! Where `replace_multimodal_special_tokens` puts the media: each one in the place of its own
token, as long as no bare video token stands before a wrapped one. -/
set_option autoImplicit false

namespace TLiveOmni
open PySeq Words

section Expansion
variable (args : WriterArgs)

/-- What a word of the text is replaced by: the run of its medium, or itself. -/
def mediaText (idx : Indices) : Word → List Char
  | .audioPad => repeated .audioPad (audioRun args idx)
  | .imagePad => repeated .imagePad (imageRun args idx)
  | .videoPad => finishText (videoPlaceholder args idx)
  | w => Word.spell w

/-- The text with every media token replaced in place; a video token takes its wrapping along. -/
def expanded : Indices → List (Sym Char Word) → List Char
  | _, [] => []
  | idx, .word .visionStart :: .word .videoPad :: .word .visionEnd :: l =>
      mediaText args idx .videoPad ++ expanded (idx.next args .videoPad) l
  | idx, .word w :: l => mediaText args idx w ++ expanded (idx.next args w) l
  | idx, .ch c :: l => c :: expanded idx l

def expandedTexts : Indices → List (List Char) → List (List Char)
  | _, [] => []
  | idx, sample :: text => expanded args idx (syms sample) ::
      expandedTexts (idx.past args (found sample)) text

/-- The same on symbols, before the placeholders get their final words. -/
def filled : Indices → List (Sym Char Word) → List (Sym Char Word)
  | _, [] => []
  | idx, .word .visionStart :: .word .videoPad :: .word .visionEnd :: l =>
      draft args idx .videoPad ++ filled (idx.next args .videoPad) l
  | idx, .word w :: l => draft args idx w ++ filled (idx.next args w) l
  | idx, .ch c :: l => .ch c :: filled idx l

/-- No bare video token stands before a wrapped one. -/
def wrappedFirst : List (Sym Char Word) → Bool
  | [] => true
  | .word .visionStart :: .word .videoPad :: .word .visionEnd :: l => wrappedFirst l
  | .word .videoPad :: l => !decide (wrapped <:+: l) && wrappedFirst l
  | _ :: l => wrappedFirst l

/-- No bare video token is wrapped once the tokens of empty runs before it are gone; `opened`
says that what is written in front ends with a start token. -/
def staysBare : Indices → (opened : Bool) → List (Sym Char Word) → Bool
  | _, _, [] => true
  | idx, _, .word .visionStart :: .word .videoPad :: .word .visionEnd :: l =>
      staysBare (idx.next args .videoPad) false l
  | idx, opened, .word .videoPad :: l =>
      !(opened && decide (l.head? = some (.word .visionEnd))) &&
        staysBare (idx.next args .videoPad) false l
  | idx, opened, .word .audioPad :: l =>
      staysBare (idx.next args .audioPad) (opened && decide (audioRun args idx = 0)) l
  | idx, opened, .word .imagePad :: l =>
      staysBare (idx.next args .imagePad) (opened && decide (imageRun args idx = 0)) l
  | idx, _, x :: l => staysBare idx (decide (x = .word .visionStart)) l

def StaysBare : Indices → List (List Char) → Prop
  | _, [] => True
  | idx, sample :: text => staysBare args idx false (syms sample) = true ∧
      StaysBare (idx.past args (found sample)) text

end Expansion

section Final
variable {args : WriterArgs} {idx : Indices}

/-- No internal placeholder is among the symbols. -/
def Free (l : List (Sym Char Word)) : Prop := ∀ w, (.word w) ∈ l → settleWord w = w

theorem settle_replicate (n : Nat) (v : Word) :
    (List.replicate n (.word v : Sym Char Word)).map settle = List.replicate n (.word (settleWord v)) := by
  simp [settle]

theorem flat_settle_draft (ht : Timed args) {w : Word} (hw : settleWord w = w) :
    flat Word.spell ((draft args idx w).map settle) = mediaText args idx w := by
  have hother : flat Word.spell (([.word w] : List (Sym Char Word)).map settle) = Word.spell w := by
    rw [List.map_cons,List.map_nil,settle,hw,flat_one]
  cases w with
  | audioPad => rw [draft,settle_replicate,flat_replicate]; rfl
  | imagePad => rw [draft,settle_replicate,flat_replicate]; rfl
  | videoPad =>
    rw [draft,← finishText_flat (sealed_videoSyms ht).clean,flat_videoSyms]
    rfl
  | _ => exact hother

theorem flat_settle_filled (ht : Timed args) {l : List (Sym Char Word)} (hl : Free l) :
    flat Word.spell ((filled args idx l).map settle) = expanded args idx l := by
  induction idx, l using filled.induct args with
  | case1 idx => rfl
  | case2 idx l ih =>
    rw [filled,expanded,List.map_append,flat_append,flat_settle_draft ht rfl,
      ih fun w hw => hl w (by simp [hw])]
  | case3 idx w l hnot ih =>
    have hw : settleWord w = w := hl w (by simp)
    rw [filled,expanded,List.map_append,flat_append,flat_settle_draft ht hw,
      ih fun v hv => hl v (by simp [hv])]
    · exact hnot
    · exact hnot
  | case4 idx c l ih =>
    rw [filled,expanded,List.map_cons,settle,flat_ch,ih fun w hw => hl w (by simp [hw])]

end Final

section Walk
variable {args : WriterArgs} {idx : Indices} {opened : Bool} {done l : List (Sym Char Word)}

/-- The media tokens among the symbols. -/
def mediaWords (l : List (Sym Char Word)) : List Word :=
  (l.filterMap Sym.word?).filter fun w => decide (w ∈ Word.media)

theorem mediaWords_media {w : Word} (hw : w ∈ Word.media) :
    mediaWords (.word w :: l) = w :: mediaWords l := by
  simp [mediaWords,Sym.word?,hw]

theorem mediaWords_other {x : Sym Char Word} (hx : ∀ w ∈ Word.media, x ≠ .word w) :
    mediaWords (x :: l) = mediaWords l := by
  cases x with
  | ch c => rfl
  | word w =>
    have hw : w ∉ Word.media := fun h => hx w h rfl
    simp [mediaWords,Sym.word?,hw]

theorem mediaWords_wrapped : mediaWords (.word .visionStart :: .word .videoPad ::
    .word .visionEnd :: l) = .videoPad :: mediaWords l := by
  rw [mediaWords_other (by decide),mediaWords_media (by decide),mediaWords_other (by decide)]

/-- The loop has written `done`, and the rest of the text is still as it was. -/
structure Ahead (args : WriterArgs) (idx : Indices) (opened : Bool) (done l : List (Sym Char Word)) :
    Prop where
  afoot : Afoot args idx (mediaWords l) (done ++ l)
  media : ∀ w ∈ Word.media, (.word w) ∉ done
  last : done.getLast? = some (.word .visionStart) → opened = true
  bare : staysBare args idx opened l = true

theorem silentSpan_last (time : ℚ) (v : Nat) :
    ∃ r, silentSpan time v = r ++ [.word .visionEnd] :=
  ⟨(timestampText time).map .ch ++ (.word .visionStart ::
    List.replicate v (.word .videoPlaceholder)),by simp [silentSpan]⟩

theorem voicedSpan_last (time : ℚ) (v a : Nat) :
    ∃ r, voicedSpan time v a = r ++ [.word .visionEnd] :=
  ⟨(timestampText time).map .ch ++ (.word .visionStart :: .word .audioStart ::
    (List.replicate v (.word .videoPlaceholder) ++ (List.replicate a (.word .audioPlaceholder) ++
      [.word .audioEnd]))),by simp [voicedSpan]⟩

theorem videoSyms_last (ht : Timed args) : ∃ r, videoSyms args idx = r ++ [.word .visionEnd] := by
  obtain ⟨n,hn⟩ : ∃ n, (videoThw args idx).t = n+1 := ⟨_,(Nat.succ_pred_eq_of_pos (ht.pos idx)).symm⟩
  rw [videoSyms,hn,List.range_succ,List.flatMap_append,List.flatMap_singleton]
  cases args.useAudioInVideo with
  | true =>
    obtain ⟨r,hr⟩ := voicedSpan_last _ _ _
    rw [if_pos rfl,hr,← List.append_assoc]
    exact ⟨_,rfl⟩
  | false =>
    obtain ⟨r,hr⟩ := silentSpan_last _ _
    rw [if_neg (by simp),hr,← List.append_assoc]
    exact ⟨_,rfl⟩

theorem notMem_append_draft (h : Ahead args idx opened done l) {w : Word} (hw : w ∈ Word.media) :
    ∀ v ∈ Word.media, (.word v : Sym Char Word) ∉ done ++ draft args idx w := by
  intro v hv hmem
  rcases List.mem_append.mp hmem with hd | hd
  · exact h.media v hv hd
  · exact word_notMem_draft_media hw hv hd

theorem video_last (ht : Timed args) :
    (done ++ draft args idx .videoPad).getLast? ≠ some (.word .visionStart) := by
  obtain ⟨r,hr⟩ := @videoSyms_last args idx ht
  rw [draft,hr,← List.append_assoc,List.getLast?_concat]
  simp

theorem run_last {n : Nat} {v : Word} (hv : v ≠ .visionStart)
    (h : done.getLast? = some (.word .visionStart) → opened = true)
    (hlast : (done ++ List.replicate n (Sym.word v)).getLast? = some (.word .visionStart)) :
    (opened && decide (n = 0)) = true := by
  cases n with
  | zero => simpa using h (by simpa using hlast)
  | succ n =>
    rw [List.replicate_succ',← List.append_assoc,List.getLast?_concat] at hlast
    exact absurd (Sym.word.inj (Option.some.inj hlast)) hv

/-- A wrapped video token that is next is the one that is replaced. -/
theorem Ahead.wrapped_step (h : Ahead args idx opened done
      (.word .visionStart :: .word .videoPad :: .word .visionEnd :: l)) (ht : Timed args) :
    stepSyms args idx .videoPad
        (done ++ .word .visionStart :: .word .videoPad :: .word .visionEnd :: l) =
      (done ++ draft args idx .videoPad) ++ l ∧
    Ahead args (idx.next args .videoPad) false (done ++ draft args idx .videoPad) l := by
  have hstep : stepSyms args idx .videoPad
        (done ++ .word .visionStart :: .word .videoPad :: .word .visionEnd :: l) =
      (done ++ draft args idx .videoPad) ++ l := by
    rw [stepSyms,if_pos ⟨rfl,done,l,by simp [wrapped]⟩,wrapped,
      replaceFirst_three _ _ (by decide) (h.media _ (by decide)),List.append_assoc]
  have hafoot := h.afoot
  rw [mediaWords_wrapped] at hafoot
  have hnext := hafoot.step (by decide) ht
  rw [hstep] at hnext
  exact ⟨hstep,hnext,notMem_append_draft h (by decide),fun e => absurd e (video_last ht),by
    simpa [staysBare] using h.bare⟩

/-- No occurrence of a wrapped token starts in front of the rest. -/
theorem no_wrapped_behind {r : List (Sym Char Word)} (hm : (.word .videoPad) ∉ done)
    (hlast : done.getLast? ≠ some (.word .visionStart)) :
    ∀ s, s ≠ [] → s <:+ done → ¬ wrapped <+: s ++ r := by
  rintro s hs ⟨p,rfl⟩ hpre
  cases s with
  | nil => exact hs rfl
  | cons x s =>
    obtain ⟨rfl,hrest⟩ := List.cons_prefix_cons.mp hpre
    cases s with
    | nil => exact hlast (by simp)
    | cons y s =>
      obtain ⟨rfl,-⟩ := List.cons_prefix_cons.mp hrest
      exact hm (by simp)

theorem no_wrapped_bare {r : List (Sym Char Word)} (hm : (.word .videoPad) ∉ done)
    (hbare : ¬ (done.getLast? = some (.word .visionStart) ∧ r.head? = some (.word .visionEnd))) :
    ∀ s, s ≠ [] → s <:+ done ++ [.word .videoPad] → ¬ wrapped <+: s ++ r := by
  rintro s hs ⟨p,hp⟩ hpre
  cases s with
  | nil => exact hs rfl
  | cons x s =>
    obtain ⟨rfl,hrest⟩ := List.cons_prefix_cons.mp hpre
    rcases List.eq_nil_or_concat' s with rfl | ⟨s,z,rfl⟩
    · -- the occurrence would start with the video token itself
      have := (List.append_inj' hp rfl).2
      cases this
    · rw [← List.cons_append,← List.append_assoc] at hp
      obtain ⟨hd,hz⟩ := List.append_inj' hp rfl
      cases s with
      | nil =>
        obtain rfl := List.cons.inj hz |>.1
        have hend := (List.cons_prefix_cons.mp hrest).2
        refine hbare ⟨by rw [← hd]; simp,?_⟩
        obtain ⟨t,ht⟩ := hend
        have hr : .word .visionEnd :: t = r := ht
        rw [← hr]
        rfl
      | cons y s =>
        obtain ⟨rfl,-⟩ := List.cons_prefix_cons.mp hrest
        exact hm (by rw [← hd]; simp)

theorem Ahead.not_wrapped (h : Ahead args idx opened done (.word .videoPad :: l)) :
    ¬ (done.getLast? = some (.word .visionStart) ∧ l.head? = some (.word .visionEnd)) := by
  rintro ⟨hlast,hhead⟩
  have hbare := h.bare
  rw [h.last hlast] at hbare
  simp [staysBare,hhead] at hbare

theorem Ahead.wrapped_iff (h : Ahead args idx opened done (.word .videoPad :: l)) :
    wrapped <:+: done ++ .word .videoPad :: l ↔ wrapped <:+: l := by
  have hbehind := (replaceFirst_behind [] (no_wrapped_bare (h.media _ (by decide)) h.not_wrapped)).2
  rwa [List.append_assoc] at hbehind

theorem Ahead.token_step {w : Word} (h : Ahead args idx opened done (.word w :: l))
    (hw : w ∈ Word.media) (hnot : w = .videoPad → ¬ wrapped <:+: l) (ht : Timed args) :
    stepSyms args idx w (done ++ .word w :: l) = (done ++ draft args idx w) ++ l ∧
    Afoot args (idx.next args w) (mediaWords l) ((done ++ draft args idx w) ++ l) := by
  have hstep : stepSyms args idx w (done ++ .word w :: l) = (done ++ draft args idx w) ++ l := by
    have hno : ¬ (w = .videoPad ∧ wrapped <:+: done ++ .word w :: l) := by
      rintro ⟨rfl,hin⟩
      exact hnot rfl (h.wrapped_iff.mp hin)
    rw [stepSyms,if_neg hno,replaceFirst_one _ _ (h.media w hw),List.append_assoc]
  have hafoot := h.afoot
  rw [mediaWords_media hw] at hafoot
  have hnext := hafoot.step hw ht
  rw [hstep] at hnext
  exact ⟨hstep,hnext⟩

/-- A bare video token that is next is replaced if no wrapped one follows. -/
theorem Ahead.bare_step (h : Ahead args idx opened done (.word .videoPad :: l))
    (hnot : ¬ wrapped <:+: l) (ht : Timed args) :
    stepSyms args idx .videoPad (done ++ .word .videoPad :: l) =
      (done ++ draft args idx .videoPad) ++ l ∧
    Ahead args (idx.next args .videoPad) false (done ++ draft args idx .videoPad) l := by
  obtain ⟨hstep,hafoot⟩ := h.token_step (by decide) (fun _ => hnot) ht
  refine ⟨hstep,hafoot,notMem_append_draft h (by decide),fun e => absurd e (video_last ht),?_⟩
  have hbare := h.bare
  simp only [staysBare,Bool.and_eq_true] at hbare
  exact hbare.2

theorem Ahead.audio_step (h : Ahead args idx opened done (.word .audioPad :: l)) (ht : Timed args) :
    stepSyms args idx .audioPad (done ++ .word .audioPad :: l) =
      (done ++ draft args idx .audioPad) ++ l ∧
    Ahead args (idx.next args .audioPad) (opened && decide (audioRun args idx = 0))
      (done ++ draft args idx .audioPad) l := by
  obtain ⟨hstep,hafoot⟩ := h.token_step (by decide) (fun e => by cases e) ht
  refine ⟨hstep,hafoot,notMem_append_draft h (by decide),run_last (by decide) h.last,?_⟩
  simpa [staysBare] using h.bare

theorem Ahead.image_step (h : Ahead args idx opened done (.word .imagePad :: l)) (ht : Timed args) :
    stepSyms args idx .imagePad (done ++ .word .imagePad :: l) =
      (done ++ draft args idx .imagePad) ++ l ∧
    Ahead args (idx.next args .imagePad) (opened && decide (imageRun args idx = 0))
      (done ++ draft args idx .imagePad) l := by
  obtain ⟨hstep,hafoot⟩ := h.token_step (by decide) (fun e => by cases e) ht
  refine ⟨hstep,hafoot,notMem_append_draft h (by decide),run_last (by decide) h.last,?_⟩
  simpa [staysBare] using h.bare

theorem Ahead.skip {x : Sym Char Word} (h : Ahead args idx opened done (x :: l))
    (hx : ∀ w ∈ Word.media, x ≠ .word w)
    (hnot : ∀ l', x = .word .visionStart → l = .word .videoPad :: .word .visionEnd :: l' → False) :
    Ahead args idx (decide (x = .word .visionStart)) (done ++ [x]) l where
  afoot := by
    have hafoot := h.afoot
    rw [mediaWords_other hx] at hafoot
    simpa using hafoot
  media := by
    intro w hw hmem
    rcases List.mem_append.mp hmem with hd | hd
    · exact h.media w hw hd
    · exact hx w hw (List.mem_singleton.mp hd).symm
  last := by
    intro hlast
    rw [List.getLast?_concat] at hlast
    simpa using hlast
  bare := by
    have hbare := h.bare
    rw [staysBare] at hbare
    · exact hbare
    · exact hnot
    · exact hx .videoPad (by decide)
    · exact hx .audioPad (by decide)
    · exact hx .imagePad (by decide)

theorem draft_other {w : Word} (hw : w ∉ Word.media) : draft args idx w = [.word w] := by
  cases w <;> first | rfl | exact absurd (by decide) hw

theorem next_other {w : Word} (hw : w ∉ Word.media) : idx.next args w = idx := by
  cases w <;> first | rfl | exact absurd (by decide) hw

/-- The loop fills in the rest of the text in place. -/
theorem run_filled (ht : Timed args) (h : Ahead args idx opened done l)
    (hfirst : wrappedFirst l = true) :
    runSyms args idx (mediaWords l) (done ++ l) = done ++ filled args idx l := by
  induction idx, l using filled.induct args generalizing opened done with
  | case1 idx => rfl
  | case2 idx l ih =>
    obtain ⟨hstep,hnext⟩ := h.wrapped_step ht
    rw [mediaWords_wrapped,runSyms,hstep,ih hnext (by simpa [wrappedFirst] using hfirst),filled,
      List.append_assoc]
  | case3 idx w l hnot ih =>
    rw [filled]
    swap
    · exact hnot
    by_cases hw : w ∈ Word.media
    · rw [mediaWords_media hw,runSyms]
      rcases mem_media.mp hw with rfl | rfl | rfl
      · obtain ⟨hstep,hnext⟩ := h.audio_step ht
        rw [hstep,ih hnext (by simpa [wrappedFirst] using hfirst),List.append_assoc]
      · obtain ⟨hstep,hnext⟩ := h.image_step ht
        rw [hstep,ih hnext (by simpa [wrappedFirst] using hfirst),List.append_assoc]
      · simp only [wrappedFirst,Bool.and_eq_true,Bool.not_eq_true',decide_eq_false_iff_not] at hfirst
        obtain ⟨hstep,hnext⟩ := h.bare_step hfirst.1 ht
        rw [hstep,ih hnext hfirst.2,List.append_assoc]
    · have hother : ∀ v ∈ Word.media, (.word w : Sym Char Word) ≠ .word v :=
        fun v hv e => hw (Sym.word.inj e ▸ hv)
      have hnext := h.skip hother fun l' e e' => hnot l' e' (Sym.word.inj e)
      have hrest : wrappedFirst l = true := by
        rw [wrappedFirst] at hfirst
        · exact hfirst
        · exact fun l' e e' => hnot l' e' (Sym.word.inj e)
        · exact hother .videoPad (by decide)
      rw [next_other hw] at ih ⊢
      rw [mediaWords_other hother,draft_other hw,← List.append_assoc,← ih hnext hrest,
        List.append_assoc]
      rfl
  | case4 idx c l ih =>
    have hother : ∀ v ∈ Word.media, (.ch c : Sym Char Word) ≠ .word v := by simp
    have hnext := h.skip hother fun l' e => by cases e
    have happend : done ++ .ch c :: l = (done ++ [.ch c]) ++ l := by simp
    rw [mediaWords_other hother,filled,happend,ih hnext (by simpa [wrappedFirst] using hfirst),
      List.append_assoc]
    rfl

end Walk

section Misplaced
variable {args : WriterArgs} {idx : Indices} {opened : Bool} {done l p r : List (Sym Char Word)}
variable {w : Word} {ws : List Word}

theorem no_token_behind (hw : (.word w) ∉ p) :
    ∀ s, s ≠ [] → s <:+ p → ¬ [(.word w : Sym Char Word)] <+: s ++ r := by
  rintro s hs ⟨q,rfl⟩ hpre
  cases s with
  | nil => exact hs rfl
  | cons x s =>
    obtain ⟨rfl,-⟩ := List.cons_prefix_cons.mp hpre
    exact hw (by simp)

/-- A round acts behind what holds neither its token nor the start of a wrapped one. -/
theorem step_behind (hw : (.word w) ∉ p)
    (hwrap : ∀ s, s ≠ [] → s <:+ p → ¬ wrapped <+: s ++ r) :
    stepSyms args idx w (p ++ r) = p ++ stepSyms args idx w r := by
  obtain ⟨hone,-⟩ := @replaceFirst_behind _ _ _ p r (draft args idx w) (no_token_behind hw)
  obtain ⟨hwrapped,hin⟩ := replaceFirst_behind (draft args idx w) hwrap
  by_cases hc : w = .videoPad ∧ wrapped <:+: r
  · rw [stepSyms,stepSyms,if_pos ⟨hc.1,hin.mpr hc.2⟩,if_pos hc,hwrapped]
  · rw [stepSyms,stepSyms,if_neg fun e => hc ⟨e.1,hin.mp e.2⟩,if_neg hc,hone]

theorem run_behind (hm : ∀ w ∈ Word.media, (.word w) ∉ p)
    (hlast : p.getLast? ≠ some (.word .visionStart)) (hws : ∀ w ∈ ws, w ∈ Word.media) :
    runSyms args idx ws (p ++ r) = p ++ runSyms args idx ws r := by
  induction ws generalizing idx r with
  | nil => rfl
  | cons w ws ih =>
    rw [runSyms,step_behind (hm w (hws w (by simp)))
      (no_wrapped_behind (hm _ (by decide)) hlast),ih fun v hv => hws v (by simp [hv])]
    rfl

theorem draft_head (hne : NoEmptyRun args) (ht : Timed args) (hw : w ∈ Word.media) :
    ∃ x r, draft args idx w = x :: r ∧ x ≠ .word .visionEnd := by
  rcases mem_media.mp hw with rfl | rfl | rfl
  · obtain ⟨n,hn⟩ := Nat.exists_eq_add_of_lt (hne.audioRun_pos idx)
    exact ⟨_,_,by rw [draft,hn,Nat.zero_add,List.replicate_succ],by decide⟩
  · obtain ⟨n,hn⟩ := Nat.exists_eq_add_of_lt (hne.imageRun_pos idx)
    exact ⟨_,_,by rw [draft,hn,Nat.zero_add,List.replicate_succ],by decide⟩
  · obtain ⟨n,hn⟩ := Nat.exists_eq_add_of_lt (ht.pos idx)
    rw [draft,videoSyms,hn,Nat.zero_add,List.range_succ_eq_map,List.flatMap_cons]
    cases args.useAudioInVideo with
    | true => exact ⟨_,_,rfl,by simp⟩
    | false => exact ⟨_,_,rfl,by simp⟩

/-- Without empty runs no end token comes to stand first. -/
theorem step_head (hne : NoEmptyRun args) (ht : Timed args) (hw : w ∈ Word.media)
    (hmem : (.word w) ∈ r) (h : (stepSyms args idx w r).head? = some (.word .visionEnd)) :
    r.head? = some (.word .visionEnd) := by
  obtain ⟨x,t,hdraft,hx⟩ := @draft_head args idx w hne ht hw
  obtain ⟨a,b,hstep,hr⟩ := @stepSyms_cases args idx w r hmem
  rw [hstep,hdraft] at h
  cases a with
  | nil => exact absurd (Option.some.inj h) hx
  | cons y a =>
    rcases hr with ⟨rfl,-⟩ | ⟨-,rfl⟩
    · exact h
    · exact h

/-- A bare token is passed over while a wrapped one stands behind it. -/
theorem step_passes (hdone : (.word .videoPad) ∉ done)
    (hbare : ¬ (done.getLast? = some (.word .visionStart) ∧ r.head? = some (.word .visionEnd)))
    (hin : wrapped <:+: r) : stepSyms args idx .videoPad (done ++ .word .videoPad :: r) =
      done ++ .word .videoPad :: stepSyms args idx .videoPad r := by
  obtain ⟨hwrapped,hiff⟩ := replaceFirst_behind (draft args idx .videoPad)
    (no_wrapped_bare hdone hbare)
  have happend : done ++ .word .videoPad :: r = (done ++ [.word .videoPad]) ++ r := by simp
  rw [happend,stepSyms,if_pos ⟨rfl,hiff.mpr hin⟩,hwrapped,stepSyms,if_pos ⟨rfl,hin⟩]
  simp

theorem media_of_mediaWords : ∀ v ∈ mediaWords l, v ∈ Word.media := by
  intro v hv
  simpa using (List.mem_filter.mp hv).2

/-- A bare token that is passed over gets the placeholder of a later video. -/
theorem run_later (hne : NoEmptyRun args) (ht : Timed args) (hws : ∀ w ∈ ws, w ∈ Word.media)
    (hafoot : Afoot args idx ws (done ++ .word .videoPad :: r))
    (hm : ∀ w ∈ Word.media, (.word w) ∉ done)
    (hbare : ¬ (done.getLast? = some (.word .visionStart) ∧ r.head? = some (.word .visionEnd))) :
    ∃ idx' r', idx.videoIdx ≤ idx'.videoIdx ∧ idx'.videoIdx < (idx.past args ws).videoIdx ∧
      runSyms args idx ws (done ++ .word .videoPad :: r) =
        done ++ (draft args idx' .videoPad ++ r') := by
  induction ws generalizing idx r with
  | nil =>
    have hpads := hafoot.pads .videoPad (by decide)
    simp at hpads
  | cons w ws ih =>
    have hw := hws w (by simp)
    have hrest : ∀ v ∈ ws, v ∈ Word.media := fun v hv => hws v (by simp [hv])
    have happend : done ++ .word .videoPad :: r = (done ++ [.word .videoPad]) ++ r := by simp
    have hnone := no_wrapped_bare (hm _ (by decide)) hbare
    obtain ⟨-,hin⟩ := replaceFirst_behind (draft args idx w) hnone
    by_cases hhere : w = .videoPad ∧ ¬ wrapped <:+: r
    · obtain ⟨rfl,hno⟩ := hhere
      -- now the bare token is the one that is found
      have hstep : stepSyms args idx .videoPad (done ++ .word .videoPad :: r) =
          (done ++ draft args idx .videoPad) ++ r := by
        rw [stepSyms,if_neg fun e => hno (hin.mp (happend ▸ e.2)),
          replaceFirst_one _ _ (hm _ (by decide)),List.append_assoc]
      have hmedia : ∀ v ∈ Word.media, (.word v : Sym Char Word) ∉ done ++ draft args idx .videoPad := by
        intro v hv hmem
        rcases List.mem_append.mp hmem with hd | hd
        · exact hm v hv hd
        · exact word_notMem_draft_media (by decide) hv hd
      refine ⟨idx,runSyms args (idx.next args .videoPad) ws r,le_rfl,?_,?_⟩
      · rw [past_eq]
        simp
      · rw [runSyms,hstep,run_behind hmedia (video_last ht) hrest,List.append_assoc]
    · have hmem : (.word w) ∈ r := by
        by_cases hv : w = .videoPad
        · subst hv
          have hinside : wrapped <:+: r := by_contra fun hno => hhere ⟨rfl,hno⟩
          exact hinside.subset (by decide)
        · have := hafoot.mem hw
          simpa [hm w hw,hv] using this
      have hstep : stepSyms args idx w (done ++ .word .videoPad :: r) =
          done ++ .word .videoPad :: stepSyms args idx w r := by
        by_cases hv : w = .videoPad
        · subst hv
          have hinside : wrapped <:+: r := by_contra fun hno => hhere ⟨rfl,hno⟩
          exact step_passes (hm _ (by decide)) hbare hinside
        · rw [happend,step_behind (by simp [hm w hw,hv]) hnone]
          simp
      have hnext := hafoot.step hw ht
      rw [hstep] at hnext
      obtain ⟨idx',r',hle,hlt,hrun⟩ := ih hrest hnext fun e =>
        hbare ⟨e.1,step_head hne ht hw hmem e.2⟩
      refine ⟨idx',r',le_trans ?_ hle,hlt,by rw [runSyms,hstep,hrun]⟩
      rcases mem_media.mp hw with rfl | rfl | rfl <;> simp [Indices.next]

/-- With a bare token before a wrapped one, the loop and the text in place part where a video's
placeholder should stand. -/
theorem run_misplaced (hne : NoEmptyRun args) (ht : Timed args) (h : Ahead args idx opened done l)
    (hfirst : wrappedFirst l = false) :
    ∃ p r r' idx₁ idx₂, idx₁.videoIdx < idx₂.videoIdx ∧
      idx₂.videoIdx < (idx.past args (mediaWords l)).videoIdx ∧
      runSyms args idx (mediaWords l) (done ++ l) = p ++ (draft args idx₂ .videoPad ++ r) ∧
      done ++ filled args idx l = p ++ (draft args idx₁ .videoPad ++ r') := by
  induction idx, l using filled.induct args generalizing opened done with
  | case1 idx => cases hfirst
  | case2 idx l ih =>
    obtain ⟨hstep,hnext⟩ := h.wrapped_step ht
    obtain ⟨p,r,r',idx₁,idx₂,hlt,hend,hrun,hfill⟩ := ih hnext (by simpa [wrappedFirst] using hfirst)
    refine ⟨p,r,r',idx₁,idx₂,hlt,?_,?_,by rw [filled,← List.append_assoc,hfill]⟩
    · rw [mediaWords_wrapped]
      exact hend
    · rw [mediaWords_wrapped,runSyms,hstep,hrun]
  | case3 idx w l hnot ih =>
    rw [filled]
    swap
    · exact hnot
    by_cases hw : w ∈ Word.media
    · rw [mediaWords_media hw,runSyms]
      rcases mem_media.mp hw with rfl | rfl | rfl
      · obtain ⟨hstep,hnext⟩ := h.audio_step ht
        rw [hstep,← List.append_assoc]
        exact ih hnext (by simpa [wrappedFirst] using hfirst)
      · obtain ⟨hstep,hnext⟩ := h.image_step ht
        rw [hstep,← List.append_assoc]
        exact ih hnext (by simpa [wrappedFirst] using hfirst)
      · by_cases hin : wrapped <:+: l
        · -- the wrapped token gets this video, and the bare one a later video
          have hstep := @step_passes args idx _ _ (h.media _ (by decide)) h.not_wrapped hin
          have hafoot := h.afoot
          rw [mediaWords_media hw] at hafoot
          have hnext := hafoot.step hw ht
          rw [hstep] at hnext
          obtain ⟨idx',r',hle,hlt,hrun⟩ := run_later hne ht media_of_mediaWords hnext h.media fun e =>
            h.not_wrapped ⟨e.1,step_head hne ht hw (hin.subset (by decide)) e.2⟩
          refine ⟨done,r',_,idx,idx',?_,hlt,by rw [hstep,hrun],rfl⟩
          have : (idx.next args .videoPad).videoIdx = idx.videoIdx+1 := rfl
          omega
        · obtain ⟨hstep,hnext⟩ := h.bare_step hin ht
          rw [hstep,← List.append_assoc]
          exact ih hnext (by simpa [wrappedFirst,hin] using hfirst)
    · have hother : ∀ v ∈ Word.media, (.word w : Sym Char Word) ≠ .word v :=
        fun v hv e => hw (Sym.word.inj e ▸ hv)
      have hnext := h.skip hother fun l' e e' => hnot l' e' (Sym.word.inj e)
      have hrest : wrappedFirst l = false := by
        rw [wrappedFirst] at hfirst
        · exact hfirst
        · exact fun l' e e' => hnot l' e' (Sym.word.inj e)
        · exact hother .videoPad (by decide)
      rw [next_other hw] at ih ⊢
      have happend : done ++ .word w :: l = (done ++ [.word w]) ++ l := by simp
      rw [mediaWords_other hother,draft_other hw,happend,← List.append_assoc]
      exact ih hnext hrest
  | case4 idx c l ih =>
    have hother : ∀ v ∈ Word.media, (.ch c : Sym Char Word) ≠ .word v := by simp
    have hnext := h.skip hother fun l' e => by cases e
    have happend : done ++ .ch c :: l = (done ++ [.ch c]) ++ l := by simp
    have hfill : done ++ .ch c :: filled args idx l = (done ++ [.ch c]) ++ filled args idx l := by simp
    rw [mediaWords_other hother,filled,happend,hfill]
    exact ih hnext (by simpa [wrappedFirst] using hfirst)

end Misplaced

section Texts
variable {args : WriterArgs} {idx : Indices} {text out : List (List Char)} {tk : Tokenizer}

theorem SeamlessAt.ahead {sample : List Char} (h : SeamlessAt args idx sample)
    (hbare : staysBare args idx false (syms sample) = true) :
    Ahead args idx false [] (syms sample) where
  afoot := by
    have hafoot := h.afoot
    rw [found_eq] at hafoot
    exact hafoot
  media := by simp
  last := by simp
  bare := hbare

theorem run_found (sample : List Char) :
    runSyms args idx (found sample) (syms sample) =
      runSyms args idx (mediaWords (syms sample)) ([] ++ syms sample) := by
  rw [found_eq]
  rfl

theorem rewrittenTexts_expanded (ht : Timed args) (hseam : Seamless args idx text)
    (hbare : StaysBare args idx text) (hfirst : ∀ sample ∈ text, wrappedFirst (syms sample) = true)
    (hfree : ∀ sample ∈ text, Free (syms sample)) :
    rewrittenTexts args idx text = expandedTexts args idx text := by
  induction text generalizing idx with
  | nil => rfl
  | cons sample text ih =>
    have hone := run_filled ht (hseam.1.ahead hbare.1) (hfirst sample (by simp))
    rw [rewrittenTexts,expandedTexts,rewritten,run_found,hone,List.nil_append,
      flat_settle_filled ht (hfree sample (by simp)),
      ih hseam.2 hbare.2 (fun t h => hfirst t (by simp [h])) fun t h => hfree t (by simp [h])]

theorem free_of_occurrences {sample : List Char}
    (h : ∀ m : Modality, occurrences m.placeholder sample = 0) : Free (syms sample) := by
  intro w hw
  have hnot : ∀ m : Modality, w ≠ m.placeholder := by
    rintro m rfl
    have hzero := h m
    rw [occurrences_eq] at hzero
    exact List.count_eq_zero.mp hzero hw
  cases w with
  | audioPlaceholder => exact absurd rfl (hnot .audio)
  | imagePlaceholder => exact absurd rfl (hnot .image)
  | videoPlaceholder => exact absurd rfl (hnot .video)
  | _ => rfl

theorem NoEmptyRun.staysBare (h : NoEmptyRun args) {opened : Bool} {l : List (Sym Char Word)}
    (hl : ¬ (opened = true ∧ ∃ l', l = .word .videoPad :: .word .visionEnd :: l')) :
    staysBare args idx opened l = true := by
  induction idx, opened, l using staysBare.induct args with
  | case1 => rfl
  | case2 idx opened l ih =>
    rw [TLiveOmni.staysBare]
    exact ih (by simp)
  | case3 idx opened l ih =>
    rw [TLiveOmni.staysBare,ih (by simp)]
    have : ¬ (opened = true ∧ l.head? = some (.word .visionEnd)) := by
      rintro ⟨ho,hhead⟩
      obtain ⟨l',rfl⟩ := List.head?_eq_some_iff.mp hhead
      exact hl ⟨ho,l',rfl⟩
    cases opened <;> simp_all
  | case4 idx opened l ih =>
    rw [TLiveOmni.staysBare]
    exact ih (by simp [(h.audioRun_pos idx).ne'])
  | case5 idx opened l ih =>
    rw [TLiveOmni.staysBare]
    exact ih (by simp [(h.imageRun_pos idx).ne'])
  | case6 idx opened x l hnot hv ha hi ih =>
    rw [TLiveOmni.staysBare]
    · refine ih ?_
      rintro ⟨hx,l',rfl⟩
      exact hnot l' (by simpa using hx) rfl
    · exact hnot
    · exact hv
    · exact ha
    · exact hi

theorem NoEmptyRun.staysBareTexts (h : NoEmptyRun args) (idx : Indices)
    (text : List (List Char)) : StaysBare args idx text := by
  induction text generalizing idx with
  | nil => trivial
  | cons sample text ih => exact ⟨h.staysBare (by simp),ih _⟩

/-- Silent videos of one grid, the next one always longer, for all tokens of a batch. -/
def graded (text : List (List Char)) : WriterArgs where
  mergeSize := 1
  temporalPatchSize := 1
  audioLengths := List.replicate (text.map (occurrences .audioPad)).sum 1
  imageGridThw := List.replicate (text.map (occurrences .imagePad)).sum ⟨1,1,1⟩
  videoGridThw := (List.range (text.map (occurrences .videoPad)).sum).map fun i => ⟨1,1,i+1⟩
  videoSecondPerGrid := []
  useAudioInVideo := false
  positionIdPerSeconds := 0
  videoMetadatas := none

theorem graded_noEmptyRun (text : List (List Char)) : NoEmptyRun (graded text) where
  audio := fun n hn => by rw [List.eq_of_mem_replicate hn]; decide
  image := fun thw hthw => by
    have hone : (⟨1,1,1⟩ : Thw).prod / 1^2 = 1 := by decide
    rw [List.eq_of_mem_replicate hthw]
    exact hone ▸ Nat.one_pos

theorem graded_supplied (text : List (List Char)) : Supplied (graded text) where
  timed := by
    intro thw hthw
    obtain ⟨i,-,rfl⟩ := List.mem_map.mp hthw
    exact Nat.one_pos
  seconds := by simp [graded]
  metadata := by simp [graded]
  rated := by simp [graded]

theorem graded_matches (text : List (List Char)) : Matches (graded text) text where
  images := by simp [supply,graded]
  videos := by simp [supply,graded]
  audios := by simp [supply,graded]

theorem graded_draft (h : idx.videoIdx < (graded text).videoGridThw.length) :
    draft (graded text) idx .videoPad = silentSpan 0 (idx.videoIdx+1) := by
  have hthw : videoThw (graded text) idx = ⟨1,1,idx.videoIdx+1⟩ := by
    have hlen : idx.videoIdx < (text.map (occurrences .videoPad)).sum := by
      simpa [graded] using h
    simp [videoThw,graded,hlen]
  have htimes : videoTimes (graded text) idx = [0] := by
    rw [videoTimes,hthw]
    rfl
  rw [draft,videoSyms,hthw,htimes]
  simp [graded]

theorem repeated_add (w : Word) (m n : Nat) : repeated w (m+n) = repeated w m ++ repeated w n := by
  rw [repeated,repeated,repeated,List.replicate_add,List.flatten_append]

theorem flat_settle_silentSpan (time : ℚ) (v : Nat) :
    flat Word.spell ((silentSpan time v).map settle) = timestampText time ++
      (Word.spell .visionStart ++ (repeated .videoPad v ++ Word.spell .visionEnd)) := by
  have hchars : ((timestampText time).map (Sym.ch : Char → Sym Char Word)).map settle =
      (timestampText time).map .ch := by simp [settle]
  rw [silentSpan,List.map_append,hchars]
  simp [settle,settleWord,flat_replicate]

/-- Spans of different lengths do not start the same text. -/
theorem spans_differ {time : ℚ} {m n : Nat} (h : m < n) (r r' : List (Sym Char Word)) :
    flat Word.spell ((silentSpan time n ++ r).map settle) ≠
      flat Word.spell ((silentSpan time m ++ r').map settle) := by
  intro heq
  obtain ⟨d,rfl⟩ := Nat.exists_eq_add_of_lt h
  rw [List.map_append,List.map_append,flat_append,flat_append,flat_settle_silentSpan,
    flat_settle_silentSpan,Nat.add_assoc,repeated_add] at heq
  simp only [List.append_assoc,List.append_cancel_left_eq] at heq
  have hsplit : repeated .videoPad (d+1) = Word.spell .videoPad ++ repeated .videoPad d := by
    simp [repeated,List.replicate_succ]
  rw [hsplit,List.append_assoc] at heq
  have hpre : Word.spell .visionEnd <+: Word.spell .videoPad ++ _ := ⟨_,heq.symm⟩
  exact absurd (spell_bracketed.eq_of_prefix hpre) (by decide)

theorem graded_differs {all : List (List Char)} {sample : List Char}
    (hin : Within (graded all) (idx.past (graded all) (found sample)))
    (hfree : Free (syms sample)) (hfirst : wrappedFirst (syms sample) = false) :
    flat Word.spell (rewritten (graded all) idx sample) ≠
      expanded (graded all) idx (syms sample) := by
  have hne := graded_noEmptyRun all
  have ht := (graded_supplied all).timed
  have hahead := (hne.seamlessAt idx sample).ahead (hne.staysBare (by simp))
  obtain ⟨p,r,r',idx₁,idx₂,hlt,hend,hrun,hfill⟩ := run_misplaced hne ht hahead hfirst
  have hlen : idx₂.videoIdx < (graded all).videoGridThw.length := by
    have := hin.2.2
    rw [found_eq] at this
    exact lt_of_lt_of_le hend this
  rw [List.nil_append] at hfill
  have hcut (x : List (Sym Char Word)) : flat Word.spell ((p ++ x).map settle) =
      flat Word.spell (p.map settle) ++ flat Word.spell (x.map settle) := by
    rw [List.map_append,flat_append]
  rw [rewritten,run_found,hrun,← flat_settle_filled ht hfree,hfill,graded_draft hlen,
    graded_draft (hlt.trans hlen),hcut,hcut]
  intro heq
  exact spans_differ (Nat.succ_lt_succ hlt) r r' (List.append_cancel_left heq)

theorem wrappedFirst_of_expanded {all : List (List Char)}
    (hin : Within (graded all) (idx.past (graded all) (text.flatMap found)))
    (hfree : ∀ sample ∈ text, Free (syms sample))
    (h : rewrittenTexts (graded all) idx text = expandedTexts (graded all) idx text) :
    ∀ sample ∈ text, wrappedFirst (syms sample) = true := by
  induction text generalizing idx with
  | nil => simp
  | cons sample text ih =>
    rw [List.flatMap_cons,past_append] at hin
    obtain ⟨hone,hrest⟩ := List.cons.inj h
    intro t ht
    rcases List.mem_cons.mp ht with rfl | ht
    · by_contra hfirst
      exact graded_differs (within_of_past hin) (hfree t (by simp)) (by simpa using hfirst) hone
    · exact ih hin (fun t' ht' => hfree t' (by simp [ht'])) hrest t ht

/-- For a batch without internal placeholders the loop puts all media in the place of their own
tokens, whatever the media are, exactly when in no text a bare video token stands before a
wrapped one. Tokens of empty runs must not leave text behind that reads as a token, nor wrap a
bare video token. -/
theorem placed_iff (hfree : ∀ sample ∈ text, ∀ m : Modality, occurrences m.placeholder sample = 0) :
    (∀ (args : WriterArgs) (tk : Tokenizer) (out : List (List Char)), Timed args →
      Seamless args ⟨0,0,0⟩ text → StaysBare args ⟨0,0,0⟩ text →
      replaceMultimodalSpecialTokens args tk text = .ok out →
        out = expandedTexts args ⟨0,0,0⟩ text) ↔
    ∀ sample ∈ text, wrappedFirst (syms sample) = true := by
  have hfree' : ∀ sample ∈ text, Free (syms sample) := fun t ht => free_of_occurrences (hfree t ht)
  constructor
  · intro h
    have hne := graded_noEmptyRun text
    have hs := graded_supplied text
    have hzero : Within (graded text) ⟨0,0,0⟩ := ⟨Nat.zero_le _,Nat.zero_le _,Nat.zero_le _⟩
    have hall := matches_iff.mp (graded_matches text)
    have hin : Within (graded text)
        ((⟨0,0,0⟩ : Indices).past (graded text) (text.flatMap found)) :=
      ⟨(hall .audio).le,(hall .image).le,(hall .video).le⟩
    have hrun := (@replaceSamples_within (graded text) ⟨0,0,0⟩ charTokenizer hs text
      (by simp [graded]) (hne.seamless _ _) hzero).1 hin
    have hok := (replaceMultimodalSpecialTokens_within hrun).1 (.inl (graded_matches text))
    exact wrappedFirst_of_expanded hin hfree' (h (graded text) charTokenizer _ hs.timed
      (hne.seamless _ _) (hne.staysBareTexts _ _) hok)
  · intro hfirst args tk out ht hseam hbare hok
    obtain ⟨rfl,-⟩ := replaceMultimodalSpecialTokens_eq ht hseam hok
    exact rewrittenTexts_expanded ht hseam hbare hfirst hfree'

end Texts

section Instances

def bareText : List Char := "<|video_pad|>".toList

theorem wrappedText_placed :
    (∀ (args : WriterArgs) (tk : Tokenizer) (out : List (List Char)), Timed args →
      Seamless args ⟨0,0,0⟩ [wrappedText ++ bareText] →
      StaysBare args ⟨0,0,0⟩ [wrappedText ++ bareText] →
      replaceMultimodalSpecialTokens args tk [wrappedText ++ bareText] = .ok out →
        out = expandedTexts args ⟨0,0,0⟩ [wrappedText ++ bareText]) ↔
    ∀ sample ∈ [wrappedText ++ bareText], wrappedFirst (syms sample) = true := by
  refine placed_iff ?_
  intro sample hs m
  rw [List.mem_singleton.mp hs]
  cases m <;> decide +kernel

/-- Two silent videos of one grid each, of one and of two tokens. -/
def shortAndLong : WriterArgs where
  mergeSize := 2
  temporalPatchSize := 2
  audioLengths := []
  imageGridThw := []
  videoGridThw := [⟨1,2,2⟩,⟨1,2,4⟩]
  videoSecondPerGrid := []
  useAudioInVideo := false
  positionIdPerSeconds := 13
  videoMetadatas := none

/-- A bare token before a wrapped one: the first video takes the second place. -/
theorem bareThenWrapped_swaps :
    NoEmptyRun shortAndLong ∧ Timed shortAndLong ∧ Matches shortAndLong [bareText ++ wrappedText] ∧
    (∀ m : Modality, occurrences m.placeholder (bareText ++ wrappedText) = 0) ∧
    replaceMultimodalSpecialTokens shortAndLong charTokenizer [bareText ++ wrappedText] =
      .ok ["<0.0 seconds><|vision_start|><|video_pad|><|video_pad|><|vision_end|><0.0 seconds><|vision_start|><|video_pad|><|vision_end|>".toList] ∧
    expandedTexts shortAndLong ⟨0,0,0⟩ [bareText ++ wrappedText] =
      ["<0.0 seconds><|vision_start|><|video_pad|><|vision_end|><0.0 seconds><|vision_start|><|video_pad|><|video_pad|><|vision_end|>".toList] := by
  refine ⟨⟨by simp [shortAndLong],by simp [shortAndLong]⟩,by simp [Timed,shortAndLong],
    ⟨by decide +kernel,by decide +kernel,by decide +kernel⟩,?_,by decide +kernel,by decide +kernel⟩
  intro m
  cases m <;> decide +kernel

end Instances
end TLiveOmni
