import TLiveOmni.PromptPaths
import TLiveOmni.UpdatedPrompts

/-! What the HF processor writes for the media of a prompt, against what the prompt updates put in
their places: one walk over the symbols of the prompt. -/
set_option autoImplicit false

namespace TLiveOmni.Vllm
open PySeq Words Expand

namespace ProcessorInputs
variable {m : Nat} (r : ProcessorInputs m)

/-- The timestamps the HF processor writes. -/
def times (v : VideoItem m r.temporalPatchSize) : List ℚ := v.metadata.times r.temporalPatchSize

theorem length_times (v : VideoItem m r.temporalPatchSize) : (r.times v).length = v.grid.t := by
  rw [v.sampled]
  exact length_midpoints r.patchPos

/-- What the prompt updates are made from. -/
def args : UpdateArgs := r.argsWith (if r.returnMetadata then some (r.videos.map r.times) else none)

theorem hfTimestamps_eq : r.hfTimestamps =
    .ok (if r.returnMetadata then some (r.videos.map r.times) else none) := by
  have hmap : (r.videos.mapM fun v => callHfTimestamps r.temporalPatchSize v.grid.t
      ⟨some v.metadata.framesIndices,some v.metadata.fps⟩) = .ok (r.videos.map r.times) :=
    mapM_eq_ok fun v _ => calculateTimestamps_eq v.rated.ne'
  unfold hfTimestamps
  cases r.returnMetadata with
  | false => rfl
  | true => simp [hmap]

theorem args_counts : r.args.counts = r.counts := by
  funext mo
  cases mo <;> simp [args,argsWith,UpdateArgs.counts,counts]

theorem args_kwargs : r.args.kwargs = r.mmKwargs := by
  simp [args,argsWith,UpdateArgs.kwargs,mmKwargs]

theorem promptUpdates_eq :
    r.promptUpdates = getMmPromptUpdates r.tk r.args r.args.counts := by
  rw [promptUpdates,hfTimestamps_eq,ok_bind,args_counts]
  rfl

theorem describes : Describes r.args r.images (r.videos.map VideoItem.grid) where
  mergeSize := rfl
  images := rfl
  videos := by
    rw [List.map_map]
    rfl

theorem supplied : Supplied r.writerArgs where
  timed := by
    intro thw hthw
    obtain ⟨v,-,rfl⟩ := List.mem_map.mp hthw
    exact v.grid.tPos
  seconds := by simp [writerArgs]
  metadata := by
    intro l hl _
    rw [← Option.some.inj hl]
    simp [writerArgs]
  rated := by
    intro l hl md hmd
    rw [← Option.some.inj hl] at hmd
    obtain ⟨v,-,rfl⟩ := List.mem_map.mp hmd
    exact v.rated.ne'

end ProcessorInputs

/-- The timestamps `us` of the tokens read like the timestamps `ts` of the text, of which the
first one stands behind the text `run`. -/
def sameStamps (tk : Tokenizer) (run : List Char) : List ℚ → List ℚ → Prop
  | t :: ts, u :: us =>
      tk.encodePlain (run ++ timestampText t) = tk.encodePlain run ++ tk.encodePlain (timestampText u) ∧
      ts.map (fun t => tk.encodePlain (timestampText t)) =
        us.map fun u => tk.encodePlain (timestampText u)
  | _, _ => False

namespace ProcessorInputs
variable {m : Nat} (r : ProcessorInputs m)

/-- The metadata of a video among the keyword arguments. -/
def kwEntry (i : Nat) : Option KwMetadata := r.kwVideoMetadata.bind fun l => l[i]?

/-- The timestamps of the updates: from the returned metadata, else from that of the keyword
arguments, else one for each grid. -/
def updateTimes (i : Nat) (v : VideoItem m r.temporalPatchSize) : List ℚ :=
  if r.returnMetadata then r.times v
  else match r.kwEntry i with
    | some ⟨some indices,fps⟩ => midpoints (fps.getD 1) r.temporalPatchSize
        (padIndices indices r.temporalPatchSize)
    | _ => (List.range v.grid.t).map fun k : Nat => (k : ℚ)

/-- The metadata of the keyword arguments has a rate to divide by, where it is read. -/
def Rated (i : Nat) : Prop := r.returnMetadata = false →
  ∀ entry, r.kwEntry i = some entry → entry.framesIndices ≠ none → entry.fps ≠ some 0

/-- The video `i` reads alike on both sides, behind the text `run`. -/
def Seam (run : List Char) (i : Nat) : Prop := ∃ v, r.videos[i]? = some v ∧ r.Rated i ∧
  sameStamps r.tk.toTokenizer run (r.times v) (r.updateTimes i v)

/-- Every video reads alike on both sides, with the text `run` in front and the videos from `i`
on to come. -/
def Seams : (run : List Char) → (i : Nat) → List (Sym Char Word) → Prop
  | _, _, [] => True
  | run, i, .ch c :: l => Seams (run ++ [c]) i l
  | run, i, .word .videoPad :: l => r.Seam run i ∧ Seams [] (i+1) l
  | _, i, .word _ :: l => Seams [] i l

theorem kwTimestamps_some {i : Nat} {indices : List Nat} {fps : Option ℚ}
    (h : r.kwEntry i = some ⟨some indices,fps⟩) : kwTimestamps r.args i = (do
      let timestamps ← calculateTimestamps indices (fps.getD 1) r.temporalPatchSize
      return some timestamps) := by
  have hentry : (r.args.kwVideoMetadata.bind fun l => l[i]?) = some ⟨some indices,fps⟩ := h
  unfold kwTimestamps
  rw [hentry]
  rfl

theorem kwTimestamps_none {i : Nat}
    (h : ∀ entry, r.kwEntry i = some entry → entry.framesIndices = none) :
    kwTimestamps r.args i = .ok none := by
  unfold kwTimestamps
  cases hentry : (r.args.kwVideoMetadata.bind fun l => l[i]?) with
  | none => rfl
  | some entry =>
    have hnone := h entry hentry
    obtain ⟨frames,fps⟩ := entry
    obtain rfl : frames = none := hnone
    rfl

theorem silentTimestamps_eq {v : VideoItem m r.temporalPatchSize} {i : Nat}
    (hv : r.videos[i]? = some v) (hrate : r.Rated i) :
    silentTimestamps r.args i v.grid.t = .ok (r.updateTimes i v) := by
  cases hreturn : r.returnMetadata with
  | true =>
    have hall : r.args.timestamps = some (r.videos.map r.times) := by simp [args,argsWith,hreturn]
    unfold silentTimestamps updateTimes
    rw [hall,hreturn,if_pos rfl]
    dsimp only
    rw [getItem_eq_ok]
    simp [hv]
  | false =>
    have hnone : r.args.timestamps = none := by simp [args,argsWith,hreturn]
    unfold silentTimestamps updateTimes
    rw [hnone,hreturn,if_neg (by simp)]
    dsimp only
    cases hentry : r.kwEntry i with
    | none =>
      rw [r.kwTimestamps_none (by simp [hentry])]
      rfl
    | some entry =>
      have hfps := hrate hreturn entry hentry
      obtain ⟨frames,fps⟩ := entry
      cases frames with
      | none =>
        rw [r.kwTimestamps_none (by simp [hentry])]
        rfl
      | some indices =>
        have hne : fps.getD 1 ≠ 0 := by
          cases fps with
          | none => simp
          | some q => simpa using hfps (by simp)
        rw [r.kwTimestamps_some hentry,calculateTimestamps_eq hne]
        rfl

end ProcessorInputs

section Unvoiced
variable {args : WriterArgs} {tk : Tokenizer}

/-- The writer for videos without audio. -/
def unvoiced (args : WriterArgs) : WriterArgs := { args with useAudioInVideo := false }

theorem replaceOne_unvoiced {w : Word} (hw : w ≠ .videoPad) (s : Progress) :
    replaceOne args s w = replaceOne (unvoiced args) s w := by
  cases w with
  | videoPad => exact absurd rfl hw
  | _ => rfl

theorem replaceOne_videoCount {w : Word} (hw : w ≠ .videoPad) {s s' : Progress}
    (h : replaceOne args s w = .ok s') : s'.sampleVideoCount = s.sampleVideoCount := by
  cases w with
  | videoPad => exact absurd rfl hw
  | audioPad => rw [replaceAudio_ok h]
  | imagePad => rw [replaceImage_ok h]
  | _ => rw [← Except.ok.inj h]

theorem fold_unvoiced {ws : List Word} (hws : .videoPad ∉ ws) (s : Progress) :
    ws.foldlM (replaceOne args) s = ws.foldlM (replaceOne (unvoiced args)) s ∧
      ∀ s', ws.foldlM (replaceOne args) s = .ok s' → s'.sampleVideoCount = s.sampleVideoCount := by
  induction ws generalizing s with
  | nil => exact ⟨rfl,fun s' h => by rw [← Except.ok.inj h]⟩
  | cons w ws ih =>
    have hw : w ≠ .videoPad := fun e => hws (by simp [e])
    have hrest : .videoPad ∉ ws := fun e => hws (by simp [e])
    rw [List.foldlM_cons,List.foldlM_cons,← replaceOne_unvoiced hw]
    cases hone : replaceOne args s w with
    | error e => exact ⟨rfl,fun s' h => by cases h⟩
    | ok s₁ =>
      obtain ⟨heq,hcount⟩ := ih hrest s₁
      exact ⟨heq,fun s' h => (hcount s' h).trans (replaceOne_videoCount hw hone)⟩

theorem replaceSample_unvoiced {idx : Indices} {sample : List Char}
    (h : .videoPad ∉ found sample) :
    replaceSample args tk idx sample = replaceSample (unvoiced args) tk idx sample := by
  obtain ⟨heq,hcount⟩ := @fold_unvoiced args (found sample) h ⟨idx,sample,0⟩
  unfold found Word.media at heq hcount
  simp only [replaceSample,← heq]
  cases hfold : (findWords Word.spell [.audioPad,.imagePad,.videoPad] sample).foldlM
      (replaceOne args) ⟨idx,sample,0⟩ with
  | error e => rfl
  | ok s =>
    have hzero : s.sampleVideoCount = 0 := hcount s hfold
    simp only [ok_bind,hzero,Nat.lt_irrefl,and_false,if_false]

/-- Without a video token it makes no difference whether videos have audio. -/
theorem replaceMultimodalSpecialTokens_unvoiced {sample : List Char}
    (h : .videoPad ∉ found sample) :
    replaceMultimodalSpecialTokens args tk [sample] =
      replaceMultimodalSpecialTokens (unvoiced args) tk [sample] := by
  have hone : replaceSamples args tk ⟨0,0,0⟩ [sample] =
      replaceSamples (unvoiced args) tk ⟨0,0,0⟩ [sample] := by
    simp only [replaceSamples]
    rw [replaceSample_unvoiced h]
  unfold replaceMultimodalSpecialTokens
  rw [hone]
  rfl

end Unvoiced

section Queue
variable {q : List Update} {contents : Modality → List (List Token)} {idx idx' : Indices}

/-- The queued updates have the contents that are still to come. -/
def Waiting (q : List Update) (contents : Modality → List (List Token)) (idx : Indices) : Prop :=
  ∀ mo : Modality, (q.filter fun u => decide (u.mark = mo.pad)).map Update.full =
    (contents mo).drop (idx.of mo)

theorem Waiting.take (h : Waiting q contents idx) {mo : Modality} {c : List Token}
    (hc : (contents mo)[idx.of mo]? = some c) (hown : idx'.of mo = idx.of mo+1)
    (hother : ∀ mo', mo' ≠ mo → idx'.of mo' = idx.of mo') :
    ∃ u, next Update.mark q mo.pad = some u ∧ u.full = c ∧
      Waiting (pop Update.mark q mo.pad) contents idx' := by
  obtain ⟨hlt,rfl⟩ := List.getElem?_eq_some_iff.mp hc
  have hmo := h mo
  rw [List.drop_eq_getElem_cons hlt] at hmo
  obtain ⟨u,F,hF,hu,hrest⟩ := List.map_eq_cons_iff.mp hmo
  refine ⟨u,by rw [next_eq_head,hF]; rfl,hu,fun mo' => ?_⟩
  rw [filter_pop]
  by_cases he : mo' = mo
  · subst he
    rw [if_pos rfl,hF,hown]
    exact hrest
  · rw [if_neg fun e => he (pad_injective e),hother mo' he]
    exact h mo'

theorem mark_isPad (u : Update) : u.mark.isPad = true := by
  unfold Update.mark
  cases u.modality <;> rfl

theorem expand_plain {pre : List Token} (hpre : ∀ t ∈ pre, t.isPad = false) (q : List Update)
    (ts : List Token) : expand Update.mark Update.full q (pre ++ ts) =
      pre ++ expand Update.mark Update.full q ts := by
  refine expand_free (fun u _ hmem => ?_) ts
  have := hpre _ hmem
  rw [mark_isPad] at this
  cases this

theorem expand_take {mo : Modality} {u : Update} (hu : next Update.mark q mo.pad = some u)
    {pre : List Token} (hpre : ∀ t ∈ pre, t.isPad = false) (ts : List Token) :
    expand Update.mark Update.full q (pre ++ mo.pad :: ts) =
      pre ++ (u.full ++ expand Update.mark Update.full (pop Update.mark q mo.pad) ts) := by
  rw [expand_plain hpre,expand_marker hu]

theorem wireText_isPad (ids : List Nat) : ∀ t ∈ wireText ids, t.isPad = false := by
  intro t ht
  obtain ⟨n,-,rfl⟩ := List.mem_map.mp ht
  rfl

end Queue

section Symbols
variable (tk : Tokenizer)

theorem encodeSyms_word (run : List Char) (w : Word) (l : List (Sym Char Word)) :
    tk.encodeSyms run (.word w :: l) =
      wireText (tk.encodePlain run) ++ (w.token?.toList ++ tk.encodeSyms [] l) := rfl

theorem encodeSyms_run {ts : List Token} (hne : ts ≠ []) (h : ∀ t ∈ ts, t.isText = false)
    (run : List Char) (l : List (Sym Char Word)) :
    tk.encodeSyms run ((ts.map Token.word).map .word ++ l) =
      wireText (tk.encodePlain run) ++ (ts ++ tk.encodeSyms [] l) := by
  have hrun := encodeSyms_chars tk [] run ((ts.map Token.word).map .word ++ l)
  rw [List.nil_append] at hrun
  rw [← hrun,encodeSyms_run_words tk hne h]

/-- A span of a video, as tokens. -/
def spanOf (u : ℚ) (v : Nat) : List Token := tk.encode (timestampText u) ++
  .visionStart :: (List.replicate v .videoPad ++ [.visionEnd])

theorem spanTokens_isText (v : Nat) : ∀ t ∈ Token.visionStart ::
    (List.replicate v .videoPad ++ [.visionEnd]), t.isText = false := by
  intro t ht
  simp only [List.mem_cons,List.mem_append,List.mem_replicate,List.not_mem_nil,or_false] at ht
  rcases ht with rfl | ⟨-,rfl⟩ | rfl <;> rfl

theorem encode_spans (run : List Char) (t : ℚ) (ts : List ℚ) (v : Nat) (l : List (Sym Char Word)) :
    tk.encodeSyms run (((t :: ts).flatMap fun t => silentSpan t v).map settle ++ l) =
      wireText (tk.encodePlain (run ++ timestampText t)) ++ (.visionStart ::
        (List.replicate v .videoPad ++ [.visionEnd]) ++ (ts.flatMap (fun t => spanOf tk t v) ++
          tk.encodeSyms [] l)) := by
  have hspans : (ts.flatMap fun t => silentSpan t v).map settle = ts.flatMap fun t =>
      spanSyms t (.visionStart :: (List.replicate v .videoPad ++ [.visionEnd])) := by
    rw [List.map_flatMap]
    exact List.flatMap_congr fun t _ => settle_silentSpan t v
  rw [List.flatMap_cons,List.map_append,settle_silentSpan,spanSyms,hspans,List.append_assoc,
    List.append_assoc,encodeSyms_chars,encodeSyms_run tk (by simp) (spanTokens_isText v),
    encodeSyms_spans tk ts (fun t => t) _ (fun _ => by simp) (fun _ => spanTokens_isText v)]
  rfl

/-- Text up to the next special token. -/
theorem wireText_cancel {a b : List Nat} {x y : Token} {p p' : List Token} (hx : x.isText = false)
    (hy : y.isText = false) (h : wireText a ++ x :: p = wireText b ++ y :: p') :
    a = b ∧ x :: p = y :: p' := by
  induction a generalizing b with
  | nil =>
    cases b with
    | nil => exact ⟨rfl,h⟩
    | cons n b =>
      obtain ⟨rfl,-⟩ := List.cons.inj h
      cases hx
  | cons n a ih =>
    cases b with
    | nil =>
      obtain ⟨rfl,-⟩ := List.cons.inj h
      cases hy
    | cons k b =>
      obtain ⟨hn,hrest⟩ := List.cons.inj h
      obtain ⟨rfl,hp⟩ := ih hrest
      obtain rfl := Token.text.inj hn
      exact ⟨rfl,hp⟩

/-- As many spans are the same tokens exactly if their timestamps are. -/
theorem spans_eq_iff {ts us : List ℚ} (hlen : ts.length = us.length) (v : Nat)
    (p p' : List Token) :
    ts.flatMap (fun t => spanOf tk t v) ++ p = us.flatMap (fun u => spanOf tk u v) ++ p' ↔
      (ts.map (fun t => tk.encodePlain (timestampText t)) =
        us.map fun u => tk.encodePlain (timestampText u)) ∧ p = p' := by
  induction ts generalizing us with
  | nil =>
    obtain rfl := List.eq_nil_of_length_eq_zero hlen.symm
    simp
  | cons t ts ih =>
    cases us with
    | nil => cases hlen
    | cons u us =>
      have hih := ih (Nat.succ.inj hlen)
      simp only [List.flatMap_cons,spanOf,encode_timestamp,List.append_assoc,List.cons_append,
        List.map_cons,List.cons.injEq] at hih ⊢
      constructor
      · intro h
        obtain ⟨hstamp,hrest⟩ := wireText_cancel rfl rfl h
        obtain ⟨hlater,hp⟩ := hih.mp (List.append_cancel_left (List.cons.inj
          (List.append_cancel_left (List.cons.inj hrest).2)).2)
        exact ⟨⟨hstamp,hlater⟩,hp⟩
      · rintro ⟨⟨hstamp,hlater⟩,hp⟩
        rw [hstamp,hih.mpr ⟨hlater,hp⟩]

/-- A video written with the timestamps `ts` is the tokens of the timestamps `us` exactly if they
read alike. -/
theorem encode_video_iff {run : List Char} {ts us : List ℚ} (hne : ts ≠ [])
    (hlen : ts.length = us.length) (v : Nat) (l : List (Sym Char Word)) (rest : List Token) :
    tk.encodeSyms run ((ts.flatMap fun t => silentSpan t v).map settle ++ l) =
        wireText (tk.encodePlain run) ++ (us.flatMap (fun u => spanOf tk u v) ++ rest) ↔
      sameStamps tk run ts us ∧ tk.encodeSyms [] l = rest := by
  cases ts with
  | nil => exact absurd rfl hne
  | cons t ts => cases us with
    | nil => cases hlen
    | cons u us =>
      have hlater := spans_eq_iff tk (Nat.succ.inj hlen) v (tk.encodeSyms [] l) rest
      have htokens : wireText (tk.encodePlain run) ++ ((u :: us).flatMap (fun u => spanOf tk u v) ++
          rest) = wireText (tk.encodePlain run ++ tk.encodePlain (timestampText u)) ++
            (.visionStart :: (List.replicate v .videoPad ++ [.visionEnd]) ++
              (us.flatMap (fun u => spanOf tk u v) ++ rest)) := by
        rw [List.flatMap_cons,spanOf,encode_timestamp]
        simp [wireText]
      rw [encode_spans,htokens]
      constructor
      · intro h
        obtain ⟨hfirst,hrest⟩ := wireText_cancel rfl rfl h
        obtain ⟨hstamps,hl⟩ := hlater.mp (List.append_cancel_left (List.cons.inj hrest).2)
        exact ⟨⟨hfirst,hstamps⟩,hl⟩
      · rintro ⟨⟨hfirst,hstamps⟩,hl⟩
        rw [hfirst,hlater.mpr ⟨hstamps,hl⟩]

end Symbols

namespace ProcessorInputs
variable {m : Nat} {r : ProcessorInputs m} {idx : Indices}

/-- The writer's arguments where no video has audio. -/
def silentArgs (r : ProcessorInputs m) : WriterArgs := unvoiced r.writerArgs

/-- The contents of the updates. -/
def contents (r : ProcessorInputs m) : Modality → List (List Token)
  | .audio => r.audios.map fun a => List.replicate (aftercnnLen a.wholeFrames) .audioPad
  | .image => r.images.map fun g => List.replicate (g.thw.prod/m^2) .imagePad
  | .video => (List.range r.videos.length).map fun i =>
      (getReplacementVideo r.tk r.args i).toOption.getD []

/-- The audios have as many rows, and at least one, however their frames are counted. -/
def SameRuns (r : ProcessorInputs m) : Prop := ∀ a ∈ r.audios,
  getFeatExtractOutputLengths a.paddedFrames = getFeatExtractOutputLengths a.wholeFrames ∧
    0 < getFeatExtractOutputLengths a.wholeFrames

theorem audio_content (h : r.SameRuns) {c : List Token}
    (hc : (r.contents .audio)[idx.audioIdx]? = some c) :
    c = List.replicate (audioRun r.silentArgs idx) .audioPad ∧ 0 < audioRun r.silentArgs idx := by
  rw [contents,List.getElem?_map,Option.map_eq_some_iff] at hc
  obtain ⟨a,ha,rfl⟩ := hc
  obtain ⟨heq,hpos⟩ := h a (List.mem_of_getElem? ha)
  have hrun : audioRun r.silentArgs idx = aftercnnLen a.wholeFrames := by
    unfold audioRun silentArgs unvoiced writerArgs aftercnnLen
    simp [ha,heq]
  rw [hrun]
  refine ⟨rfl,?_⟩
  unfold aftercnnLen
  omega

theorem image_content {c : List Token} (hc : (r.contents .image)[idx.imageIdx]? = some c) :
    c = List.replicate (imageRun r.silentArgs idx) .imagePad ∧ 0 < imageRun r.silentArgs idx := by
  rw [contents,List.getElem?_map,Option.map_eq_some_iff] at hc
  obtain ⟨g,hg,rfl⟩ := hc
  have hrun : imageRun r.silentArgs idx = g.thw.prod/m^2 := by
    unfold imageRun silentArgs unvoiced writerArgs
    simp [hg]
  rw [hrun]
  refine ⟨rfl,?_⟩
  have hsize : g.thw.prod/m^2 = g.t*g.toFrame.tokens := g.prod_div_sq
  rw [hsize]
  exact Nat.mul_pos g.tPos g.toFrame.tokens_pos

theorem metadataAt_video {v : VideoItem m r.temporalPatchSize} {i : Nat}
    (hv : r.videos[i]? = some v) : metadataAt r.silentArgs i = .ok (some v.metadata) := by
  have hget : (r.videos.map VideoItem.metadata)[i]? = some v.metadata := by simp [hv]
  unfold metadataAt silentArgs unvoiced writerArgs
  dsimp only
  cases hl : r.videos.map VideoItem.metadata with
  | nil => rw [hl] at hget; cases hget
  | cons md l =>
    rw [hl] at hget
    dsimp only
    rw [getItem_eq_ok.mpr hget]
    rfl

theorem video_draft {v : VideoItem m r.temporalPatchSize}
    (hv : r.videos[idx.videoIdx]? = some v) :
    draft r.silentArgs idx .videoPad = (r.times v).flatMap fun t =>
      silentSpan t (v.grid.h*v.grid.w/m^2) := by
  have hthw : videoThw r.silentArgs idx = v.grid.thw := by
    unfold videoThw silentArgs unvoiced writerArgs
    simp [hv]
  have htimes : videoTimes r.silentArgs idx = r.times v := by
    unfold videoTimes
    rw [metadataAt_video hv,hthw]
    exact timesOf_eq (calculateTimestamps_eq v.rated.ne')
  have hflat := flatMap_getD (r.times v) fun t => silentSpan t (v.grid.h*v.grid.w/m^2)
  rw [r.length_times] at hflat
  rw [← hflat,draft,videoSyms,hthw,htimes]
  rfl

theorem video_content {v : VideoItem m r.temporalPatchSize} {i : Nat}
    (hv : r.videos[i]? = some v) (hrate : r.Rated i) :
    getReplacementVideo r.tk r.args i = .ok ((r.updateTimes i v).flatMap fun t =>
      spanOf r.tk.toTokenizer t (v.grid.h*v.grid.w/m^2)) := by
  have hget : getItem r.args.videoGridThw i = .ok v.grid.thw := by
    rw [getItem_eq_ok]
    simp [args,argsWith,hv]
  unfold getReplacementVideo
  rw [hget,ok_bind]
  dsimp only
  have hts : silentTimestamps r.args i v.grid.thw.t = .ok (r.updateTimes i v) :=
    r.silentTimestamps_eq hv hrate
  rw [hts,ok_bind]
  rfl

theorem next_of (mo mo' : Modality) : (idx.next r.silentArgs mo.word).of mo' =
    if mo' = mo then idx.of mo'+1 else idx.of mo' := by
  cases mo <;> cases mo' <;> rfl

theorem word_injective {mo mo' : Modality} (h : mo.word = mo'.word) : mo = mo' := by
  cases mo <;> cases mo' <;> first | rfl | cases h

theorem seams_other {w : Word} (hw : ∀ mo : Modality, w ≠ mo.word) (run : List Char) (i : Nat)
    (l : List (Sym Char Word)) : r.Seams run i (.word w :: l) ↔ r.Seams [] i l := by
  cases w with
  | videoPad => exact absurd rfl (hw .video)
  | _ => exact Iff.rfl

theorem seams_media (mo : Modality) (run : List Char) (i : Nat) (l : List (Sym Char Word)) :
    r.Seams run i (.word mo.word :: l) ↔ (mo = .video → r.Seam run i) ∧
      r.Seams [] (if mo = .video then i+1 else i) l := by
  cases mo with
  | video => exact ⟨fun h => ⟨fun _ => h.1,h.2⟩,fun h => ⟨h.1 rfl,h.2⟩⟩
  | audio => exact ⟨fun h => ⟨fun e => (nomatch e),h⟩,fun h => h.2⟩
  | image => exact ⟨fun h => ⟨fun e => (nomatch e),h⟩,fun h => h.2⟩

/-- The updates have a timestamp for each grid of a video. -/
def Framed (r : ProcessorInputs m) : Prop := ∀ i v, r.videos[i]? = some v →
  r.Rated i ∧ (r.updateTimes i v).length = v.grid.t

theorem contents_video (hframed : r.Framed) {i : Nat} {c : List Token}
    (hc : (r.contents .video)[i]? = some c) : ∃ v, r.videos[i]? = some v ∧
      c = (r.updateTimes i v).flatMap fun t =>
        spanOf r.tk.toTokenizer t (v.grid.h*v.grid.w/m^2) := by
  have hlt : i < r.videos.length := by
    have := (List.getElem?_eq_some_iff.mp hc).1
    simpa [contents] using this
  have hv : r.videos[i]? = some r.videos[i] := List.getElem?_eq_getElem hlt
  refine ⟨_,hv,?_⟩
  rw [contents,List.getElem?_map,List.getElem?_range hlt] at hc
  rw [← Option.some.inj hc]
  dsimp only
  rw [video_content hv (hframed i _ hv).1]
  rfl

theorem seam_iff {v : VideoItem m r.temporalPatchSize} {i : Nat} (hv : r.videos[i]? = some v)
    (hrate : r.Rated i) (run : List Char) : r.Seam run i ↔
      sameStamps r.tk.toTokenizer run (r.times v) (r.updateTimes i v) := by
  constructor
  · intro h
    obtain ⟨v',hv',-,hsame⟩ := h
    obtain rfl : v = v' := Option.some.inj (hv.symm.trans hv')
    exact hsame
  · exact fun hsame => ⟨v,hv,hrate,hsame⟩

theorem encode_pads_iff (tk : Tokenizer) (run : List Char) {n : Nat} {t : Token} {w : Word}
    (hpos : 0 < n) (ht : t.isText = false) (hw : settleWord w = t.word)
    (l : List (Sym Char Word)) (rest : List Token) :
    tk.encodeSyms run ((List.replicate n (.word w)).map settle ++ l) =
      wireText (tk.encodePlain run) ++ (List.replicate n t ++ rest) ↔ tk.encodeSyms [] l = rest := by
  have hwords : (List.replicate n (.word w : Sym Char Word)).map settle =
      ((List.replicate n t).map Token.word).map .word := by
    rw [settle_replicate,hw,List.map_replicate,List.map_replicate]
  have hne : List.replicate n t ≠ [] := by simpa using hpos.ne'
  rw [hwords,encodeSyms_run tk hne (fun x hx => by rw [List.eq_of_mem_replicate hx,ht]),
    List.append_cancel_left_eq,List.append_cancel_left_eq]

/-- What is written for an item is the content of its update, as far as the timestamps agree. -/
theorem encode_draft_iff (hruns : r.SameRuns) (hframed : r.Framed) {mo : Modality}
    {run : List Char} {c : List Token} (hc : (r.contents mo)[idx.of mo]? = some c)
    (l : List (Sym Char Word)) (rest : List Token) :
    r.tk.encodeSyms run ((draft r.silentArgs idx mo.word).map settle ++ l) =
        wireText (r.tk.encodePlain run) ++ (c ++ rest) ↔
      (mo = .video → r.Seam run idx.videoIdx) ∧ r.tk.encodeSyms [] l = rest := by
  cases mo with
  | audio =>
    obtain ⟨rfl,hpos⟩ := audio_content hruns hc
    rw [Modality.word,draft,encode_pads_iff r.tk.toTokenizer run hpos rfl rfl]
    simp
  | image =>
    obtain ⟨rfl,hpos⟩ := image_content hc
    rw [Modality.word,draft,encode_pads_iff r.tk.toTokenizer run hpos rfl rfl]
    simp
  | video =>
    rw [Indices.of] at hc
    obtain ⟨v,hv,rfl⟩ := contents_video hframed hc
    obtain ⟨hrate,hlen⟩ := hframed idx.videoIdx v hv
    have hne : r.times v ≠ [] := by
      rw [← List.length_pos_iff,r.length_times]
      exact v.grid.tPos
    rw [Modality.word,video_draft hv,seam_iff hv hrate,
      encode_video_iff r.tk.toTokenizer hne ((r.length_times v).trans hlen.symm)]
    simp

/-- A medium at the head of a list has its content, and so have those behind it. -/
theorem count_next {mo : Modality} {l : List (Sym Char Word)} (hcount : ∀ mo' : Modality,
      idx.of mo'+(.word mo.word :: l).count (.word mo'.word) = (r.contents mo').length) :
    idx.of mo < (r.contents mo).length ∧ ∀ mo' : Modality,
      (idx.next r.silentArgs mo.word).of mo'+l.count (.word mo'.word) = (r.contents mo').length := by
  constructor
  · have hmo := hcount mo
    rw [List.count_cons_self] at hmo
    omega
  · intro mo'
    have hmo := hcount mo'
    rw [next_of]
    by_cases he : mo' = mo
    · subst he
      rw [List.count_cons_self] at hmo
      rw [if_pos rfl]
      omega
    · rw [List.count_cons_of_ne fun e => he (word_injective (Sym.word.inj e)).symm] at hmo
      rw [if_neg he]
      exact hmo

theorem notMem_media {w : Word} (hw : ∀ mo : Modality, w ≠ mo.word) : w ∉ Word.media := by
  intro hmem
  rcases mem_media.mp hmem with rfl | rfl | rfl
  · exact hw .audio rfl
  · exact hw .image rfl
  · exact hw .video rfl

theorem isPad_before (run : List Char) {w : Word} (hw : w ∉ Word.media) :
    ∀ t ∈ wireText (r.tk.encodePlain run) ++ w.token?.toList, t.isPad = false := by
  intro t ht
  rcases List.mem_append.mp ht with ht | ht
  · exact wireText_isPad _ t ht
  · cases w <;> simp_all [Word.token?,Word.media] <;> rfl

/-- The walk over the symbols of a prompt: what the text side writes is what the updates put in,
exactly if the timestamps agree. -/
theorem encode_filled_iff (hruns : r.SameRuns) (hframed : r.Framed) {l : List (Sym Char Word)}
    (hbare : ¬ wrapped <:+: l) (hfree : Free l) (hcount : ∀ mo : Modality,
      idx.of mo+l.count (.word mo.word) = (r.contents mo).length)
    {run : List Char} {q : List Update} (hq : Waiting q r.contents idx) :
    r.tk.encodeSyms run ((filled r.silentArgs idx l).map settle) =
      expand Update.mark Update.full q (r.tk.encodeSyms run l) ↔ r.Seams run idx.videoIdx l := by
  induction idx, l using filled.induct r.silentArgs generalizing run q with
  | case1 idx =>
    have := expand_plain (wireText_isPad (r.tk.encodePlain run)) q []
    refine iff_of_true ?_ trivial
    simpa [filled,Tokenizer.encodeSyms,wireText,expand] using this.symm
  | case2 idx l ih => exact absurd ⟨[],l,rfl⟩ hbare
  | case3 idx w l hnot ih =>
    have hbare' : ¬ wrapped <:+: l := fun h => hbare (h.trans (List.suffix_cons _ _).isInfix)
    have hfree' : Free l := fun v hv => hfree v (by simp [hv])
    rw [filled,List.map_append]
    · by_cases hw : ∃ mo : Modality, w = mo.word
      · obtain ⟨mo,rfl⟩ := hw
        obtain ⟨hlt,hcount'⟩ := count_next hcount
        have hvideo : (idx.next r.silentArgs mo.word).videoIdx =
            if mo = .video then idx.videoIdx+1 else idx.videoIdx := by cases mo <;> rfl
        have hc := List.getElem?_eq_getElem hlt
        have hown : (idx.next r.silentArgs mo.word).of mo = idx.of mo+1 := by rw [next_of,if_pos rfl]
        have hothers : ∀ mo', mo' ≠ mo → (idx.next r.silentArgs mo.word).of mo' = idx.of mo' :=
          fun mo' h => by rw [next_of,if_neg h]
        obtain ⟨u,hu,hfull,hq'⟩ := hq.take hc hown hothers
        have htoken : mo.word.token?.toList = [mo.pad] := by cases mo <;> rfl
        rw [encodeSyms_word,htoken,List.singleton_append,expand_take hu (wireText_isPad _),hfull,
          encode_draft_iff hruns hframed hc,ih hbare' hfree' hcount' hq',seams_media,hvideo]
      · have hother : ∀ mo : Modality, w ≠ mo.word := fun mo e => hw ⟨mo,e⟩
        have hmedia := notMem_media hother
        have hsettle : settleWord w = w := hfree w (by simp)
        have hcount' : ∀ mo : Modality, idx.of mo+l.count (.word mo.word) =
            (r.contents mo).length := by
          intro mo
          have hmo := hcount mo
          rwa [List.count_cons_of_ne fun e => hother mo (Sym.word.inj e)] at hmo
        rw [draft_other hmedia,next_other hmedia] at *
        rw [List.map_singleton,settle,hsettle,List.singleton_append,encodeSyms_word,encodeSyms_word,
          ← List.append_assoc,← List.append_assoc,expand_plain (isPad_before run hmedia),
          List.append_cancel_left_eq,ih hbare' hfree' hcount' hq,seams_other hother]
    · exact hnot
  | case4 idx c l ih =>
    rw [filled,List.map_cons,settle]
    have hbare' : ¬ wrapped <:+: l := fun h => hbare (h.trans (List.suffix_cons _ _).isInfix)
    exact ih hbare' (fun w hw => hfree w (by simp [hw])) (fun mo => by simpa using hcount mo) hq

end ProcessorInputs
end TLiveOmni.Vllm
