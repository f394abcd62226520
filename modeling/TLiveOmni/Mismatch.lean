import TLiveOmni.RewrittenText

/-! When `replace_multimodal_special_tokens` returns: the media tokens of the batch and the
supplied media have to match. -/
set_option autoImplicit false

namespace TLiveOmni
open PySeq Words

section Supply
variable {args : WriterArgs} {s s' : Progress} {idx : Indices} {w : Word} {ws : List Word}

/-- Every video comes with what the video processor gives for it. -/
structure Supplied (args : WriterArgs) : Prop where
  timed : Timed args
  seconds : args.useAudioInVideo = true → args.videoGridThw.length ≤ args.videoSecondPerGrid.length
  metadata : ∀ l, args.videoMetadatas = some l → l ≠ [] → args.videoGridThw.length ≤ l.length
  rated : ∀ l, args.videoMetadatas = some l → ∀ md ∈ l, md.fps ≠ 0

/-- The media that a media token asks for are supplied. -/
def Has (args : WriterArgs) (idx : Indices) : Word → Prop
  | .audioPad => idx.audioIdx < args.audioLengths.length
  | .imagePad => idx.imageIdx < args.imageGridThw.length
  | .videoPad => idx.videoIdx < args.videoGridThw.length ∧
      (args.useAudioInVideo = true → idx.audioIdx < args.audioLengths.length)
  | _ => True

theorem replaceOne_next (hw : w ∈ Word.media) (h : replaceOne args s w = .ok s') :
    s'.toIndices = s.toIndices.next args w := by
  rcases mem_media.mp hw with rfl | rfl | rfl
  · rw [replaceAudio_ok h]
  · rw [replaceImage_ok h]
  · rw [replaceVideo_ok h]

theorem metadataAt_isOk (hs : Supplied args) {i : Nat} (hi : i < args.videoGridThw.length) :
    ∃ md, metadataAt args i = .ok md ∧ ∀ d, md = some d → d.fps ≠ 0 := by
  cases hmd : args.videoMetadatas with
  | none => exact ⟨none,by simp [metadataAt,hmd],by simp⟩
  | some l =>
    cases l with
    | nil => exact ⟨none,by simp [metadataAt,hmd],by simp⟩
    | cons d ds =>
      have hlen := hs.metadata _ hmd (by simp)
      have hget : (d :: ds)[i]? = some (d :: ds)[i] := List.getElem?_eq_getElem (by omega)
      refine ⟨some (d :: ds)[i],?_,?_⟩
      · simp only [metadataAt,hmd,getItem_eq_ok.mpr hget]
        rfl
      · intro d' hd
        exact hs.rated _ hmd _ (Option.some.inj hd ▸ List.getElem_mem _)

theorem replaceVideo_isOk (hs : Supplied args) (h : Has args s.toIndices .videoPad) :
    ∃ s', replaceVideo args s = .ok s' := by
  obtain ⟨hv,ha⟩ := h
  obtain ⟨md,hmd,hfps⟩ := metadataAt_isOk hs hv
  have hthw := List.getElem?_eq_getElem hv
  have htimes := fun gridT => gridTimestamps_ok args gridT md hfps
  cases hu : args.useAudioInVideo with
  | false => exact ⟨_,replaceVideo_silent hu hthw hmd (htimes _)⟩
  | true =>
    have hsec := hs.seconds hu
    have hlt : s.videoIdx < args.videoSecondPerGrid.length := by omega
    exact ⟨_,replaceVideo_voiced hu hthw (List.getElem?_eq_getElem (ha hu))
      (List.getElem?_eq_getElem hlt) hmd (htimes _)⟩

theorem replaceOne_has (hs : Supplied args) (hw : w ∈ Word.media) (h : Has args s.toIndices w) :
    ∃ s', replaceOne args s w = .ok s' := by
  rcases mem_media.mp hw with rfl | rfl | rfl
  · exact ⟨_,by simp only [replaceOne,replaceAudio,List.getElem?_eq_getElem h]; rfl⟩
  · exact ⟨_,by simp only [replaceOne,replaceImage,List.getElem?_eq_getElem h]; rfl⟩
  · exact replaceVideo_isOk hs h

/-- Over-use is a `ValueError`. -/
theorem replaceOne_lacks (hw : w ∈ Word.media) (h : ¬ Has args s.toIndices w) :
    ∃ msg, replaceOne args s w = .error (.raised .valueError msg) := by
  rcases mem_media.mp hw with rfl | rfl | rfl
  · have hnone := List.getElem?_eq_none (not_lt.mp h)
    exact ⟨_,by simp only [replaceOne,replaceAudio,hnone]; rfl⟩
  · have hnone := List.getElem?_eq_none (not_lt.mp h)
    exact ⟨_,by simp only [replaceOne,replaceImage,hnone]; rfl⟩
  · by_cases hv : s.videoIdx < args.videoGridThw.length
    · have hneed : args.useAudioInVideo = true ∧ args.audioLengths.length ≤ s.audioIdx := by
        simpa [Has,hv] using h
      simp only [replaceOne,replaceVideo,List.getElem?_eq_getElem hv,pure_eq_ok,ok_bind,raiseIf,
        if_pos hneed]
      exact ⟨_,rfl⟩
    · simp only [replaceOne,replaceVideo,List.getElem?_eq_none (not_lt.mp hv)]
      exact ⟨_,rfl⟩

/-- No cursor is past the end of its list. -/
def Within (args : WriterArgs) (idx : Indices) : Prop :=
  idx.audioIdx ≤ args.audioLengths.length ∧ idx.imageIdx ≤ args.imageGridThw.length ∧
    idx.videoIdx ≤ args.videoGridThw.length

theorem has_iff (h : Within args idx) (hw : w ∈ Word.media) :
    Has args idx w ↔ Within args (idx.next args w) := by
  obtain ⟨ha,hi,hv⟩ := h
  rcases mem_media.mp hw with rfl | rfl | rfl
  · simp only [Has,Within,Indices.next]
    omega
  · simp only [Has,Within,Indices.next]
    omega
  · cases hu : args.useAudioInVideo <;> simp [Has,Within,Indices.next,hu] <;> omega

theorem past_eq (idx : Indices) (ws : List Word) : idx.past args ws =
    ⟨idx.audioIdx+ws.count .audioPad+(if args.useAudioInVideo then ws.count .videoPad else 0),
      idx.imageIdx+ws.count .imagePad,idx.videoIdx+ws.count .videoPad⟩ := by
  induction ws generalizing idx with
  | nil => simp [Indices.past]
  | cons w ws ih =>
    have hcons : idx.past args (w :: ws) = (idx.next args w).past args ws := rfl
    rw [hcons,ih]
    cases hu : args.useAudioInVideo <;> cases w <;>
      simp [Indices.next,hu] <;> omega

theorem past_append (idx : Indices) (ws vs : List Word) :
    idx.past args (ws ++ vs) = (idx.past args ws).past args vs := by
  simp [Indices.past,List.foldl_append]

theorem within_of_past (h : Within args (idx.past args ws)) : Within args idx := by
  rw [past_eq] at h
  obtain ⟨ha,hi,hv⟩ := h
  simp only at ha hi hv
  exact ⟨by omega,by omega,by omega⟩

/-- The loop gets through exactly when there are enough media for all tokens. -/
theorem fold_within (hs : Supplied args) (hws : ∀ w ∈ ws, w ∈ Word.media)
    (h : Within args s.toIndices) :
    (Within args (s.toIndices.past args ws) → ∃ s', ws.foldlM (replaceOne args) s = .ok s') ∧
    (¬ Within args (s.toIndices.past args ws) →
      ∃ msg, ws.foldlM (replaceOne args) s = .error (.raised .valueError msg)) := by
  induction ws generalizing s with
  | nil => exact ⟨fun _ => ⟨s,rfl⟩,fun hn => absurd h hn⟩
  | cons w ws ih =>
    have hw := hws w (by simp)
    have hcons : s.toIndices.past args (w :: ws) = (s.toIndices.next args w).past args ws := rfl
    rw [List.foldlM_cons,hcons]
    by_cases hhas : Has args s.toIndices w
    · obtain ⟨s₁,hone⟩ := replaceOne_has hs hw hhas
      have hnext := replaceOne_next hw hone
      have := @ih s₁ (fun v hv => hws v (by simp [hv])) (hnext ▸ (has_iff h hw).mp hhas)
      rw [hone,ok_bind,← hnext]
      exact this
    · obtain ⟨msg,hone⟩ := replaceOne_lacks hw hhas
      rw [hone]
      exact ⟨fun hp => absurd ((has_iff h hw).mpr (within_of_past hp)) hhas,fun _ => ⟨msg,rfl⟩⟩

theorem within_of_fold (hws : ∀ w ∈ ws, w ∈ Word.media) (h : Within args s.toIndices)
    (hok : ws.foldlM (replaceOne args) s = .ok s') : Within args (s.toIndices.past args ws) := by
  induction ws generalizing s with
  | nil => exact h
  | cons w ws ih =>
    have hw := hws w (by simp)
    rw [List.foldlM_cons] at hok
    obtain ⟨s₁,hone,hok⟩ := bind_eq_ok.mp hok
    have hhas : Has args s.toIndices w := by
      by_contra hlacks
      obtain ⟨msg,herr⟩ := replaceOne_lacks hw hlacks
      rw [herr] at hone
      cases hone
    have hnext := replaceOne_next hw hone
    have := @ih s₁ (fun v hv => hws v (by simp [hv])) (hnext ▸ (has_iff h hw).mp hhas) hok
    rwa [hnext] at this

end Supply

section Delimiters
variable {args : WriterArgs} {idx : Indices} {w : Word} {ws : List Word}
variable {cur : List (Sym Char Word)}

/-- Pairs of delimiters. -/
def Word.pairs : List (Word × Word) := [(.visionStart,.visionEnd),(.audioStart,.audioEnd)]

/-- The span opens and closes each delimiter equally often. -/
def Even (l : List (Sym Char Word)) : Prop :=
  ∀ p ∈ Word.pairs, l.count (.word p.1) = l.count (.word p.2)

theorem even_iff {l : List (Sym Char Word)} : Even l ↔
    l.count (.word .visionStart) = l.count (.word .visionEnd) ∧
      l.count (.word .audioStart) = l.count (.word .audioEnd) := by
  simp [Even,Word.pairs]

theorem Even.append {a b : List (Sym Char Word)} (ha : Even a) (hb : Even b) : Even (a ++ b) := by
  intro p hp
  rw [List.count_append,List.count_append,ha p hp,hb p hp]

/-- Taking out or putting in an even part keeps the balance. -/
theorem even_exchange {a b old new : List (Sym Char Word)} (ho : Even old) (hn : Even new) :
    Even (a ++ (old ++ b)) ↔ Even (a ++ (new ++ b)) := by
  refine forall₂_congr fun p hp => ?_
  have hop := ho p hp
  have hnp := hn p hp
  simp only [List.count_append]
  omega

theorem count_chars (w : Word) (cs : List Char) :
    (cs.map (Sym.ch : Char → Sym Char Word)).count (.word w) = 0 := by
  simp [List.count_eq_zero]

theorem even_silentSpan (time : ℚ) (v : Nat) : Even (silentSpan time v) := by
  rw [even_iff]
  simp [silentSpan,List.count_append,count_chars,List.count_replicate]

theorem even_voicedSpan (time : ℚ) (v a : Nat) : Even (voicedSpan time v a) := by
  rw [even_iff]
  simp [voicedSpan,List.count_append,count_chars,List.count_replicate]

theorem even_draft (hw : w ∈ Word.media) : Even (draft args idx w) := by
  rcases mem_media.mp hw with rfl | rfl | rfl
  · rw [even_iff]
    simp [draft,List.count_replicate]
  · rw [even_iff]
    simp [draft,List.count_replicate]
  · rw [draft,videoSyms]
    induction List.range (videoThw args idx).t with
    | nil => rw [even_iff]; simp
    | cons i l ih =>
      rw [List.flatMap_cons]
      refine Even.append ?_ ih
      cases args.useAudioInVideo with
      | true => exact even_voicedSpan _ _ _
      | false => exact even_silentSpan _ _

theorem even_media (hw : w ∈ Word.media) : Even [.word w] := by
  rcases mem_media.mp hw with rfl | rfl | rfl <;> simp [even_iff]

theorem even_wrapped : Even wrapped := by simp [even_iff,wrapped]

theorem even_stepSyms (hw : w ∈ Word.media) (hmem : (.word w) ∈ cur) (h : Even cur) :
    Even (stepSyms args idx w cur) := by
  obtain ⟨a,b,hstep,⟨rfl,-⟩ | ⟨rfl,rfl⟩⟩ := @stepSyms_cases args idx w cur hmem
  · rw [hstep]
    exact (even_exchange (even_media hw) (even_draft hw)).mp h
  · rw [hstep]
    exact (even_exchange even_wrapped (even_draft hw)).mp h

theorem even_runSyms (ha : Afoot args idx ws cur) (hws : ∀ w ∈ ws, w ∈ Word.media)
    (ht : Timed args) (h : Even cur) : Even (runSyms args idx ws cur) := by
  induction ws generalizing idx cur with
  | nil => exact h
  | cons w ws ih =>
    have hw := hws w (by simp)
    exact ih (ha.step hw ht) (fun v hv => hws v (by simp [hv])) (even_stepSyms hw (ha.mem hw) h)

theorem count_settle {v : Word} (hv : v ∉ Word.media) (hp : settleWord v = v)
    (l : List (Sym Char Word)) : (l.map settle).count (.word v) = l.count (.word v) := by
  induction l with
  | nil => rfl
  | cons x l ih =>
    have hx : settle x = .word v ↔ x = .word v := by
      cases x with
      | ch c => simp [settle]
      | word u => cases u <;> cases v <;> simp_all [settle,settleWord,Word.media]
    rw [List.map_cons,List.count_cons,List.count_cons,ih]
    simp only [beq_iff_eq,hx]

theorem Even.settle {l : List (Sym Char Word)} (h : Even l) : Even (l.map settle) := by
  rw [even_iff] at h ⊢
  rwa [count_settle (by decide) rfl,count_settle (by decide) rfl,count_settle (by decide) rfl,
    count_settle (by decide) rfl]

theorem count_encodeSyms (tk : Tokenizer) {v : Word} {t : Token} (hv : v.token? = some t)
    (ht : t.isText = false) (l : List (Sym Char Word)) (run : List Char) :
    (tk.encodeSyms run l).count t = l.count (.word v) := by
  have htext : ∀ ids : List Nat, (ids.map Token.text).count t = 0 := by
    intro ids
    rw [List.count_eq_zero]
    intro hmem
    obtain ⟨n,-,rfl⟩ := List.mem_map.mp hmem
    cases ht
  induction l generalizing run with
  | nil => rw [Tokenizer.encodeSyms,htext]; rfl
  | cons x l ih =>
    cases x with
    | ch c => rw [Tokenizer.encodeSyms,ih,List.count_cons_of_ne (by simp)]
    | word u =>
      rw [Tokenizer.encodeSyms,List.count_append,List.count_append,htext,ih,List.count_cons]
      by_cases hu : u = v
      · subst hu
        simp [hv,Nat.add_comm]
      · have hne : u.token?.toList.count t = 0 := by
          cases u <;> cases v <;> simp_all [Word.token?] <;> (subst hv; decide)
        simp [hu,hne]

theorem settled_specials (l : List (Sym Char Word)) :
    ∀ w, (.word w) ∈ l.map settle → w ∈ Word.specials := by
  intro w hw
  obtain ⟨x,-,hx⟩ := List.mem_map.mp hw
  cases x with
  | ch c => cases hx
  | word u =>
    obtain rfl := Sym.word.inj hx
    cases u <;> simp [settleWord,Word.specials]

theorem validate_settled (tk : Tokenizer) {l : List (Sym Char Word)}
    (hc : Clean Word.spell (l.map settle)) (h : Even (l.map settle)) :
    validateVideoAudioTokens (tk.encode (flat Word.spell (l.map settle))) = .ok () := by
  have hlex := lex_flat_of_mem spell_bracketed hc (settled_specials l)
  obtain ⟨hv,ha⟩ := even_iff.mp h
  simp only [validateVideoAudioTokens,Tokenizer.encode,hlex]
  rw [count_encodeSyms tk (show Word.token? .visionStart = _ from rfl) rfl,
    count_encodeSyms tk (show Word.token? .visionEnd = _ from rfl) rfl,
    count_encodeSyms tk (show Word.token? .audioStart = _ from rfl) rfl,
    count_encodeSyms tk (show Word.token? .audioEnd = _ from rfl) rfl,
    raiseIf_of_not (not_not.mpr hv),raiseIf_of_not (not_not.mpr ha)]
  rfl

end Delimiters

section Batch
variable {args : WriterArgs} {idx : Indices} {tk : Tokenizer}

/-- The delimiters of a text are balanced. -/
def Balanced (sample : List Char) : Prop :=
  occurrences .visionStart sample = occurrences .visionEnd sample ∧
    occurrences .audioStart sample = occurrences .audioEnd sample

theorem Balanced.even {sample : List Char} (h : Balanced sample) : Even (syms sample) := by
  rw [Balanced,occurrences_eq,occurrences_eq,occurrences_eq,occurrences_eq] at h
  exact even_iff.mpr h

theorem replaceSample_within (hs : Supplied args) {sample : List Char}
    (hbal : args.useAudioInVideo = true → Balanced sample) (hseam : SeamlessAt args idx sample) (h : Within args idx) :
    (Within args (idx.past args (found sample)) → replaceSample args tk idx sample =
      .ok (flat Word.spell (rewritten args idx sample),idx.past args (found sample))) ∧
    (¬ Within args (idx.past args (found sample)) →
      ∃ msg, replaceSample args tk idx sample = .error (.raised .valueError msg)) := by
  obtain ⟨hgood,hbad⟩ := @fold_within args ⟨idx,sample,0⟩ (found sample) hs found_media h
  refine ⟨fun hp => ?_,fun hp => ?_⟩
  · obtain ⟨s,hok⟩ := hgood hp
    rw [replaceSample_fold hseam hs.timed hok]
    split
    · next hu =>
      have hvalid := validate_settled tk (hseam.clean_rewritten hs.timed)
        (even_runSyms hseam.afoot found_media hs.timed (hbal hu.1).even).settle
      rw [rewritten,hvalid]
      rfl
    · rfl
  · obtain ⟨msg,herr⟩ := hbad hp
    refine ⟨msg,?_⟩
    change (do
      let s ← (found sample).foldlM (replaceOne args) ⟨idx,sample,0⟩
      _) = _
    rw [herr]
    rfl

theorem replaceSamples_within (hs : Supplied args) {text : List (List Char)}
    (hbal : args.useAudioInVideo = true → ∀ sample ∈ text, Balanced sample)
    (hseam : Seamless args idx text) (h : Within args idx) :
    (Within args (idx.past args (text.flatMap found)) → replaceSamples args tk idx text =
      .ok (rewrittenTexts args idx text,idx.past args (text.flatMap found))) ∧
    (¬ Within args (idx.past args (text.flatMap found)) →
      ∃ msg, replaceSamples args tk idx text = .error (.raised .valueError msg)) := by
  induction text generalizing idx with
  | nil => exact ⟨fun _ => rfl,fun hp => absurd h hp⟩
  | cons sample text ih =>
    obtain ⟨hgood,hbad⟩ := @replaceSample_within args idx tk hs sample
      (fun hu => hbal hu sample (by simp)) hseam.1 h
    rw [List.flatMap_cons,past_append]
    by_cases hone : Within args (idx.past args (found sample))
    · obtain ⟨hrest,hfail⟩ := ih (fun hu t ht => hbal hu t (by simp [ht])) hseam.2 hone
      simp only [replaceSamples,hgood hone,ok_bind]
      refine ⟨fun hp => ?_,fun hp => ?_⟩
      · rw [hrest hp]
        rfl
      · obtain ⟨msg,herr⟩ := hfail hp
        exact ⟨msg,by rw [herr]; rfl⟩
    · obtain ⟨msg,herr⟩ := hbad hone
      refine ⟨fun hp => absurd (within_of_past hp) hone,fun _ => ⟨msg,?_⟩⟩
      simp only [replaceSamples,herr]
      rfl

theorem replaceSample_eq (ht : Timed args) {sample out : List Char} {idx' : Indices}
    (hseam : SeamlessAt args idx sample) (h : Within args idx)
    (hok : replaceSample args tk idx sample = .ok (out,idx')) :
    out = flat Word.spell (rewritten args idx sample) ∧ idx' = idx.past args (found sample) ∧
      Within args (idx.past args (found sample)) := by
  have hfold : ∃ s, (found sample).foldlM (replaceOne args) ⟨idx,sample,0⟩ = .ok s := by
    obtain ⟨s,hs,-⟩ := bind_eq_ok.mp hok
    exact ⟨s,hs⟩
  obtain ⟨s,hs⟩ := hfold
  have hin := @within_of_fold args ⟨idx,sample,0⟩ s (found sample) found_media h hs
  rw [replaceSample_fold hseam ht hs] at hok
  have hpair : (flat Word.spell (rewritten args idx sample),idx.past args (found sample)) =
      (out,idx') := by
    split at hok
    · obtain ⟨_,-,hok⟩ := bind_eq_ok.mp hok
      exact Except.ok.inj hok
    · exact Except.ok.inj hok
  obtain ⟨rfl,rfl⟩ := Prod.mk.inj hpair
  exact ⟨rfl,rfl,hin⟩

theorem replaceSamples_eq (ht : Timed args) {text out : List (List Char)} {idx' : Indices}
    (hseam : Seamless args idx text) (h : Within args idx)
    (hok : replaceSamples args tk idx text = .ok (out,idx')) :
    out = rewrittenTexts args idx text ∧ idx' = idx.past args (text.flatMap found) ∧
      Within args (idx.past args (text.flatMap found)) := by
  induction text generalizing idx out idx' with
  | nil =>
    obtain ⟨rfl,rfl⟩ := Prod.mk.inj (Except.ok.inj hok)
    exact ⟨rfl,rfl,h⟩
  | cons sample text ih =>
    obtain ⟨⟨out₁,idx₁⟩,hone,hok⟩ := bind_eq_ok.mp hok
    obtain ⟨⟨out₂,idx₂⟩,hrest,hok⟩ := bind_eq_ok.mp hok
    obtain ⟨rfl,rfl⟩ := Prod.mk.inj (Except.ok.inj hok)
    obtain ⟨rfl,rfl,hin⟩ := replaceSample_eq ht hseam.1 h hone
    obtain ⟨rfl,rfl,hend⟩ := ih hseam.2 hin hrest
    rw [List.flatMap_cons,past_append]
    exact ⟨rfl,rfl,hend⟩

theorem replaceMultimodalSpecialTokens_eq (ht : Timed args) {text out : List (List Char)}
    (hseam : Seamless args ⟨0,0,0⟩ text)
    (hok : replaceMultimodalSpecialTokens args tk text = .ok out) :
    out = rewrittenTexts args ⟨0,0,0⟩ text ∧
      Within args ((⟨0,0,0⟩ : Indices).past args (text.flatMap found)) := by
  obtain ⟨⟨processed,idx⟩,hrun,hok⟩ := bind_eq_ok.mp hok
  obtain ⟨_,-,hok⟩ := bind_eq_ok.mp hok
  obtain rfl := Except.ok.inj hok
  obtain ⟨rfl,-,hin⟩ := replaceSamples_eq ht hseam ⟨Nat.zero_le _,Nat.zero_le _,Nat.zero_le _⟩ hrun
  exact ⟨rfl,hin⟩

end Batch

section Use
variable {args : WriterArgs} {idx : Indices} {ws : List Word}

/-- The media that the loop reads at a media token. -/
def reads (args : WriterArgs) (idx : Indices) : Word → List (Modality × Nat)
  | .audioPad => [(.audio,idx.audioIdx)]
  | .imagePad => [(.image,idx.imageIdx)]
  | .videoPad => (.video,idx.videoIdx) ::
      (if args.useAudioInVideo then [(.audio,idx.audioIdx)] else [])
  | _ => []

/-- The media that the loop reads at the tokens `ws`. -/
def uses (args : WriterArgs) (idx : Indices) : List Word → List (Modality × Nat)
  | [] => []
  | w :: ws => reads args idx w ++ uses args (idx.next args w) ws

def Indices.of (idx : Indices) : Modality → Nat
  | .audio => idx.audioIdx
  | .image => idx.imageIdx
  | .video => idx.videoIdx

/-- A round reads the media that the cursors pass. -/
theorem count_reads {w : Word} (hw : w ∈ Word.media) (m : Modality) (i : Nat) :
    idx.of m ≤ (idx.next args w).of m ∧ (reads args idx w).count (m,i) =
      if idx.of m ≤ i ∧ i < (idx.next args w).of m then 1 else 0 := by
  have hone : ∀ n : Nat, (n ≤ i ∧ i ≤ n) ↔ n = i := by omega
  have hnone : ∀ n : Nat, ¬ (n ≤ i ∧ i < n) := by omega
  rcases mem_media.mp hw with rfl | rfl | rfl <;> cases m <;> cases hu : args.useAudioInVideo <;>
    simp [reads,Indices.next,Indices.of,hu,List.count_cons,Nat.lt_add_one_iff,hone,hnone]

/-- The cursors only move forward, and each medium they pass is read once. -/
theorem count_uses (hws : ∀ w ∈ ws, w ∈ Word.media) (m : Modality) (i : Nat) :
    idx.of m ≤ (idx.past args ws).of m ∧ (uses args idx ws).count (m,i) =
      if idx.of m ≤ i ∧ i < (idx.past args ws).of m then 1 else 0 := by
  induction ws generalizing idx with
  | nil =>
    have hfalse : ¬ (idx.of m ≤ i ∧ i < idx.of m) := by omega
    exact ⟨le_rfl,by simp only [Indices.past,List.foldl_nil,hfalse,if_false]; rfl⟩
  | cons w ws ih =>
    obtain ⟨hle₁,hcount₁⟩ := @count_reads args idx w (hws w (by simp)) m i
    obtain ⟨hle₂,hcount₂⟩ := @ih (idx.next args w) fun v hv => hws v (by simp [hv])
    have hcons : idx.past args (w :: ws) = (idx.next args w).past args ws := rfl
    rw [hcons,uses,List.count_append,hcount₁,hcount₂]
    refine ⟨hle₁.trans hle₂,?_⟩
    split <;> split <;> split <;> omega

end Use

section Detection
variable {args : WriterArgs} {tk : Tokenizer} {text : List (List Char)}

/-- The numbers of supplied media. -/
def supply (args : WriterArgs) : Modality → Nat
  | .audio => args.audioLengths.length
  | .image => args.imageGridThw.length
  | .video => args.videoGridThw.length

/-- As many media as tokens, and an audio for each video that carries one. -/
structure Matches (args : WriterArgs) (text : List (List Char)) : Prop where
  images : supply args .image = (text.map (occurrences .imagePad)).sum
  videos : supply args .video = (text.map (occurrences .videoPad)).sum
  audios : supply args .audio = (text.map (occurrences .audioPad)).sum+
    (if args.useAudioInVideo then (text.map (occurrences .videoPad)).sum else 0)

theorem matches_iff : Matches args text ↔
    ∀ m, ((⟨0,0,0⟩ : Indices).past args (text.flatMap found)).of m = supply args m := by
  have ha := count_found_texts (show Word.audioPad ∈ Word.media by decide) text
  have hi := count_found_texts (show Word.imagePad ∈ Word.media by decide) text
  have hv := count_found_texts (show Word.videoPad ∈ Word.media by decide) text
  rw [past_eq,ha,hi,hv]
  constructor
  · intro h m
    cases m with
    | audio => simpa [Indices.of] using h.audios.symm
    | image => simpa [Indices.of] using h.images.symm
    | video => simpa [Indices.of] using h.videos.symm
  · intro h
    exact ⟨by simpa [Indices.of] using (h .image).symm,by simpa [Indices.of] using (h .video).symm,
      by simpa [Indices.of] using (h .audio).symm⟩

theorem unconsumed_eq_nil (idx : Indices) :
    unconsumed args idx = [] ↔ ∀ m, idx.of m = supply args m := by
  rw [unconsumed,List.filterMap_eq_nil_iff]
  simp only [List.mem_cons,List.not_mem_nil,or_false,forall_eq_or_imp,forall_eq,ite_eq_right_iff,
    reduceCtorEq,imp_false,ne_eq,not_not]
  constructor
  · rintro ⟨ha,hi,hv⟩ m
    cases m with
    | audio => exact ha
    | image => exact hi
    | video => exact hv
  · exact fun h => ⟨h .audio,h .image,h .video⟩

theorem found_nil : found [] = [] := by rw [found_eq]; rfl

theorem found_empty (h : ∀ sample ∈ text, sample = []) : text.flatMap found = [] := by
  rw [List.flatMap_eq_nil_iff]
  intro sample hs
  rw [h sample hs,found_nil]

theorem replaceMultimodalSpecialTokens_within
    (hrun : replaceSamples args tk ⟨0,0,0⟩ text = .ok (rewrittenTexts args ⟨0,0,0⟩ text,
      (⟨0,0,0⟩ : Indices).past args (text.flatMap found))) :
    (Matches args text ∨ (∀ sample ∈ text, sample = []) →
      replaceMultimodalSpecialTokens args tk text = .ok (rewrittenTexts args ⟨0,0,0⟩ text)) ∧
    (¬ (Matches args text ∨ ∀ sample ∈ text, sample = []) →
      ∃ msg, replaceMultimodalSpecialTokens args tk text = .error (.raised .valueError msg)) := by
  have hcond : (unconsumed args ((⟨0,0,0⟩ : Indices).past args (text.flatMap found)) ≠ [] ∧
      ∃ sample ∈ text, sample ≠ []) ↔ ¬ (Matches args text ∨ ∀ sample ∈ text, sample = []) := by
    rw [matches_iff,ne_eq,unconsumed_eq_nil,not_or]
    simp
  simp only [replaceMultimodalSpecialTokens,hrun,ok_bind]
  refine ⟨fun h => ?_,fun h => ?_⟩
  · rw [raiseIf_of_not (fun hc => hcond.mp hc h)]
    rfl
  · rw [raiseIf,if_pos (hcond.mpr h)]
    exact ⟨_,rfl⟩

/-- Tokens and media match or all texts are empty, or else the call raises. -/
theorem replaceMultimodalSpecialTokens_matches (hs : Supplied args)
    (hbal : args.useAudioInVideo = true → ∀ sample ∈ text, Balanced sample)
    (hseam : Seamless args ⟨0,0,0⟩ text) :
    (Matches args text ∨ (∀ sample ∈ text, sample = []) →
      replaceMultimodalSpecialTokens args tk text = .ok (rewrittenTexts args ⟨0,0,0⟩ text)) ∧
    (¬ (Matches args text ∨ ∀ sample ∈ text, sample = []) →
      ∃ msg, replaceMultimodalSpecialTokens args tk text = .error (.raised .valueError msg)) := by
  have hzero : Within args ⟨0,0,0⟩ := ⟨Nat.zero_le _,Nat.zero_le _,Nat.zero_le _⟩
  obtain ⟨hgood,hbad⟩ := @replaceSamples_within args ⟨0,0,0⟩ tk hs text hbal hseam hzero
  by_cases hin : Within args ((⟨0,0,0⟩ : Indices).past args (text.flatMap found))
  · exact replaceMultimodalSpecialTokens_within (hgood hin)
  · obtain ⟨msg,herr⟩ := hbad hin
    refine ⟨fun h => absurd ?_ hin,fun _ => ⟨msg,?_⟩⟩
    · rcases h with h | h
      · have hall := matches_iff.mp h
        exact ⟨(hall .audio).le,(hall .image).le,(hall .video).le⟩
      · rw [found_empty h]
        exact hzero
    · simp only [replaceMultimodalSpecialTokens,herr]
      rfl

end Detection

section Instances

/-- One video of one temporal grid, whose audio is the last of `audioLengths`. -/
def oneVideo (audioLengths : List Nat) : WriterArgs where
  mergeSize := 2
  temporalPatchSize := 2
  audioLengths := audioLengths
  imageGridThw := []
  videoGridThw := [⟨1,2,2⟩]
  videoSecondPerGrid := [1]
  useAudioInVideo := true
  positionIdPerSeconds := 13
  videoMetadatas := none

theorem oneVideo_supplied (audioLengths : List Nat) : Supplied (oneVideo audioLengths) where
  timed := by simp [Timed,oneVideo]
  seconds := by simp [oneVideo]
  metadata := by simp [oneVideo]
  rated := by simp [oneVideo]

theorem oneVideo_noEmptyRun {audioLengths : List Nat} (h : ∀ n ∈ audioLengths, 0 < n) :
    NoEmptyRun (oneVideo audioLengths) := ⟨h,by simp [oneVideo]⟩

def wrappedText : List Char := "<|vision_start|><|video_pad|><|vision_end|>".toList

/-- A start token in two pieces around an audio token. -/
def splitText : List Char := "<|vision_<|audio_pad|>start|>".toList ++ wrappedText

end Instances
end TLiveOmni
