import TLiveOmni.ProcessorBatch
import TLiveOmni.RopeIndexBatch

/-! What the processor writes, `get_rope_index` reads back: the tokens of a processed batch are
well-formed samples that use up the media of the batch in order. -/
set_option autoImplicit false

namespace TLiveOmni
open PySeq Words

section Media
variable {m : Nat} (args : WriterArgs) (tk : Tokenizer) (pr : Prompt m)

theorem withRun_media (run : List Char) (cs : List (Chunk m)) :
    (withRun run cs).map (·.2) = cs.map (·.2) := by
  cases cs <;> rfl

/-- What is collected from the spans of a prompt is collected piece by piece. -/
theorem Prompt.items_flatMap {β : Type} (f : Media m → List β) :
    (pr.items args tk).flatMap (fun it => f it.media) =
      pr.parts.flatMap fun part => ((part.piece.chunks args).map (·.2)).flatMap f := by
  have hpart : ∀ part : Part m, (part.chunks args).flatMap (fun c => f c.2) =
      ((part.piece.chunks args).map (·.2)).flatMap f := by
    intro part
    rw [← withRun_media part.run,List.flatMap_map]
    rfl
  simp only [Prompt.items,Prompt.chunks,List.flatMap_map,Chunk.item,List.flatMap_assoc,hpart]

theorem Piece.images_chunks (piece : Piece m) :
    ((piece.chunks args).map (·.2)).flatMap Media.images = piece.images := by
  cases piece with
  | image g => rfl
  | audio a => rfl
  | video g second md track =>
    simp only [Piece.chunks,Piece.images]
    split <;> simp [List.flatMap_map,silentChunk,voicedChunk,Media.images]

theorem Piece.grids_chunks (piece : Piece m) :
    ((piece.chunks args).map (·.2)).flatMap Media.grids = expandVideos piece.videos := by
  cases piece with
  | image g => rfl
  | audio a => rfl
  | video g second md track =>
    simp only [Piece.chunks,Piece.videos,expandVideos,List.flatMap_cons,List.flatMap_nil,
      List.append_nil]
    split
    · simp only [List.flatMap_map,List.map_map,voicedChunk,Media.grids,Function.comp_def]
      rw [List.map_eq_flatMap]
      congr 1
      funext i
      split <;> simp [*]
    · simp only [List.flatMap_map,List.map_map,silentChunk,Media.grids,Function.comp_def]
      rw [List.map_eq_flatMap]

/-- The audio track of a video counts once, with its last grid. -/
theorem Piece.audios_chunks (piece : Piece m) :
    ((piece.chunks args).map (·.2)).flatMap Media.audios =
      (piece.audios args.useAudioInVideo).map (·.featureLen) := by
  cases piece with
  | image g => rfl
  | audio a => rfl
  | video g second md track =>
    simp only [Piece.chunks,Piece.audios]
    split
    · obtain ⟨n,hn⟩ : ∃ n, g.t = n+1 := ⟨g.t-1,by have := g.tPos; omega⟩
      simp only [List.flatMap_map,List.map_map,voicedChunk,Media.audios,Function.comp_def,hn,
        List.range_succ,List.flatMap_append]
      simp
      intro i hi
      omega
    · simp [List.flatMap_map,silentChunk,Media.audios]

theorem Piece.isAv_chunks (piece : Piece m) (h : ∃ c ∈ piece.chunks args, c.2.isAv = true) :
    args.useAudioInVideo = true := by
  obtain ⟨c,hc,hav⟩ := h
  cases piece with
  | image g => simp_all [Piece.chunks,Media.isAv]
  | audio a => simp_all [Piece.chunks,Media.isAv]
  | video g second md track =>
    by_contra hu
    simp only [Piece.chunks,hu] at hc
    obtain ⟨i,-,rfl⟩ := List.mem_map.mp hc
    simp [silentChunk,Media.isAv] at hav

theorem Piece.isGrid_chunks (piece : Piece m) (h : ∃ c ∈ piece.chunks args, c.2.isGrid = true) :
    args.useAudioInVideo = false := by
  obtain ⟨c,hc,hgrid⟩ := h
  cases piece with
  | image g => simp_all [Piece.chunks,Media.isGrid]
  | audio a => simp_all [Piece.chunks,Media.isGrid]
  | video g second md track =>
    by_contra hu
    simp only [Piece.chunks,(Bool.not_eq_false _).mp hu,if_true] at hc
    obtain ⟨i,-,rfl⟩ := List.mem_map.mp hc
    simp [voicedChunk,Media.isGrid] at hgrid

theorem Prompt.mem_items {it : Item m} (h : it ∈ pr.items args tk) :
    ∃ part ∈ pr.parts, ∃ c ∈ part.piece.chunks args, c.2 = it.media := by
  obtain ⟨c,hc,rfl⟩ := List.mem_map.mp h
  obtain ⟨part,hpart,hc⟩ := List.mem_flatMap.mp hc
  have hmem : c.2 ∈ (part.chunks args).map (·.2) := List.mem_map_of_mem hc
  rw [Part.chunks,withRun_media] at hmem
  obtain ⟨c',hc',hmedia⟩ := List.mem_map.mp hmem
  exact ⟨part,hpart,c',hc',hmedia⟩

end Media

section Sample
variable {m : Nat} (args : WriterArgs) (tk : Tokenizer) (pr : Prompt m)

/-- The prompt is encoded to at least one token. -/
def Prompt.Nonempty : Prop := pr.parts ≠ [] ∨ tk.encodePlain pr.tail ≠ []

theorem Prompt.items_ne_nil (h : pr.parts ≠ []) : pr.items args tk ≠ [] := by
  obtain ⟨part,parts,hparts⟩ := List.exists_cons_of_ne_nil h
  obtain ⟨c,cs,hcs⟩ := List.exists_cons_of_ne_nil (@chunks_ne_nil m args part.piece)
  simp [Prompt.items,Prompt.chunks,hparts,Part.chunks,hcs,withRun]

/-- The well-formed sample the prompt becomes. -/
def Prompt.sample (h : pr.Nonempty tk) : Sample m where
  items := pr.items args tk
  tail := tk.encodePlain pr.tail
  videos := pr.videos
  gridsEq := by
    rw [Prompt.items_flatMap args tk pr Media.grids,Prompt.videos]
    simp only [Piece.grids_chunks,expandVideos,List.flatMap_assoc]
  nonempty := h.imp (pr.items_ne_nil args tk) id

/-- The positions of the tokens the prompt becomes. -/
def Prompt.positions (p : Nat) : List Pos :=
  (itemBlocks p 0 (pr.items args tk) ++
    Item.textBlocks (tk.encodePlain pr.tail) (itemsAdvance p (pr.items args tk))).flatten

theorem Prompt.uniform (h : pr.Nonempty tk) :
    (pr.sample args tk h).Uniform args.useAudioInVideo := by
  intro hav
  obtain ⟨it,hit,hav⟩ := List.any_eq_true.mp hav
  obtain ⟨part,-,c,hc,hmedia⟩ := pr.mem_items args tk hit
  have hu := part.piece.isAv_chunks args ⟨c,hc,by rw [hmedia]; exact hav⟩
  refine ⟨hu,?_⟩
  by_contra hgrid
  obtain ⟨it',hit',hgrid⟩ := List.any_eq_true.mp ((Bool.not_eq_false _).mp hgrid)
  obtain ⟨part',-,c',hc',hmedia'⟩ := pr.mem_items args tk hit'
  have hu' := part'.piece.isGrid_chunks args ⟨c',hc',by rw [hmedia']; exact hgrid⟩
  rw [hu] at hu'
  cases hu'

end Sample

namespace RopeIndex

section Batch
variable {m : Nat} (args : WriterArgs) (tk : Tokenizer)

/-- A row of token ids with its attention mask; the columns it keeps are the tokens of the text. -/
def PadsTo (row : List Token × List Bool) (text : List Char) : Prop :=
  row.1.length = row.2.length ∧ unmasked row.1 row.2 = tk.encode text

/-- The media arguments of `get_rope_index` hold the media of the prompts in order. -/
structure Matches (u : Bool) (prompts : List (Prompt m)) (imageGridThw videoGridThw :
    Option (List Thw)) (audioSeqlens : Option (List Nat)) (secondPerGrids : Option (List ℚ)) :
    Prop where
  images : imageGridThw.getD [] = ((pieces prompts).flatMap Piece.images).map Grid.thw
  videos : videoGridThw.getD [] = ((pieces prompts).flatMap Piece.videos).map Grid.thw
  audios : audioSeqlens.getD [] = ((pieces prompts).flatMap (Piece.audios u)).map (·.featureLen)
  seconds : ∀ l, secondPerGrids = some l →
    l.length = ((pieces prompts).flatMap Piece.videos).length

/-- The row holds the sample of the prompt. -/
def Holds (r : Padded m) (pr : Prompt m) : Prop := ∃ h, r.sample = pr.sample args tk h

variable {args tk}

theorem exists_padded {rows : List (List Token × List Bool)} {prompts : List (Prompt m)}
    (hne : ∀ pr ∈ prompts, pr.Nonempty tk)
    (h : List.Forall₂ (PadsTo tk) rows (prompts.map (Prompt.emitted args))) :
    ∃ batch : List (Padded m), rows = batch.map (fun r => (r.inputIds,r.mask)) ∧
      List.Forall₂ (Holds args tk) batch prompts := by
  induction prompts generalizing rows with
  | nil =>
    obtain rfl := List.forall₂_nil_right_iff.mp h
    exact ⟨[],rfl,.nil⟩
  | cons pr prompts ih =>
    obtain ⟨row,rows',hrow,hrest,rfl⟩ := List.forall₂_cons_right_iff.mp h
    obtain ⟨batch,rfl,hall⟩ := ih (fun pr' h' => hne pr' (by simp [h'])) hrest
    have hpr := hne pr (by simp)
    have htokens : unmasked row.1 row.2 = (pr.sample args tk hpr).wire := by
      rw [hrow.2,pr.encode_emitted]
      rfl
    exact ⟨⟨pr.sample args tk hpr,row.1,row.2,hrow.1,htokens⟩ :: batch,rfl,.cons ⟨hpr,rfl⟩ hall⟩

theorem Holds.at {batch : List (Padded m)} {prompts : List (Prompt m)} {i : Nat} {r : Padded m}
    (h : List.Forall₂ (Holds args tk) batch prompts) (hr : batch[i]? = some r) :
    ∃ pr, prompts[i]? = some pr ∧ Holds args tk r pr := by
  obtain ⟨hi,rfl⟩ := List.getElem?_eq_some_iff.mp hr
  have hi' : i < prompts.length := h.length_eq ▸ hi
  exact ⟨_,List.getElem?_eq_getElem hi',h.get hi hi'⟩

theorem Holds.flatMap_eq {β : Type} {batch : List (Padded m)} {prompts : List (Prompt m)}
    (h : List.Forall₂ (Holds args tk) batch prompts) {f : Sample m → List β}
    {g : Piece m → List β}
    (hfg : ∀ (pr : Prompt m) hne, f (pr.sample args tk hne) = pr.parts.flatMap (g ·.piece)) :
    (batch.map (·.sample)).flatMap f = (pieces prompts).flatMap g := by
  induction h with
  | nil => rfl
  | cons hr hrest ih =>
    obtain ⟨hne,hsample⟩ := hr
    simp only [List.map_cons,List.flatMap_cons,hsample,hfg,ih]
    simp [pieces,List.flatMap_map,List.flatMap_assoc]

theorem Matches.supplies {prompts : List (Prompt m)} {image video : Option (List Thw)}
    {audio : Option (List Nat)} {seconds : Option (List ℚ)} {batch : List (Padded m)}
    (hmatch : Matches args.useAudioInVideo prompts image video audio seconds)
    (h : List.Forall₂ (Holds args tk) batch prompts) :
    Supplies (batch.map (·.sample)) image video audio seconds := by
  have himg : (batch.map (·.sample)).flatMap Sample.images =
      (pieces prompts).flatMap Piece.images := by
    refine Holds.flatMap_eq h fun pr hne => ?_
    have himages := pr.items_flatMap args tk Media.images
    simp only [Piece.images_chunks] at himages
    exact himages
  have hvid : (batch.map (·.sample)).flatMap Sample.videos =
      (pieces prompts).flatMap Piece.videos := Holds.flatMap_eq h fun pr hne => rfl
  have haud : (batch.map (·.sample)).flatMap Sample.audios =
      ((pieces prompts).flatMap (Piece.audios args.useAudioInVideo)).map (·.featureLen) := by
    rw [List.map_flatMap]
    refine Holds.flatMap_eq h fun pr hne => ?_
    have haudios := pr.items_flatMap args tk Media.audios
    simp only [Piece.audios_chunks] at haudios
    exact haudios
  exact ⟨by rw [himg]; exact hmatch.images,by rw [hvid]; exact hmatch.videos,
    by rw [haud]; exact hmatch.audios,by rw [hvid]; exact hmatch.seconds⟩

end Batch

section Columns

theorem unmasked_textPositions (acc : Nat) (mask : List Bool) :
    unmasked (textPositions acc mask) mask = arange3 (mask.count true) acc := by
  induction mask generalizing acc with
  | nil => rfl
  | cons b mask ih =>
    cases b with
    | false => simpa [textPositions,cumsumMask,unmasked] using ih acc
    | true =>
      have hnext := ih (acc+1)
      rw [List.count_cons_self,arange3_succ]
      simpa [textPositions,cumsumMask,unmasked] using hnext

variable {m : Nat} {args : WriterArgs} {tk : Tokenizer}

/-- Whichever branch the call takes, the kept columns of a row are its sample's positions. -/
theorem Padded.assigned_columns {vision : Bool} (p : Nat) (r : Padded m)
    (h : vision = false → r.sample.images = [] ∧ r.sample.videos = []) :
    (r.assigned vision p).1.length = r.mask.length ∧
      unmasked (r.assigned vision p).1 r.mask = r.sample.positions p := by
  cases vision with
  | true =>
    simp only [Padded.assigned,if_true,Padded.result]
    exact ⟨length_go _ _,unmasked_go (r.length_positions p)⟩
  | false =>
    obtain ⟨himg,hvid⟩ := h rfl
    simp only [Padded.assigned,Bool.false_eq_true,if_false]
    refine ⟨length_textPositions _ _,?_⟩
    rw [unmasked_textPositions,r.count_mask,r.sample.positions_plain himg hvid]
    rfl

end Columns

section ReadBack
variable (cfg : Config) (vis : LlmPosIdsForVision) (tk : Tokenizer) (args : WriterArgs)

/-- The row's positions: one column for every kept token, laid out as the prompt says. -/
def LaidOut (row : List Token × List Bool) (pr : Prompt cfg.spatialMergeSize)
    (positions : List Pos) : Prop :=
  positions.length = row.2.length ∧
    unmasked positions row.2 = pr.positions args tk cfg.positionIdPerSeconds ∧
      (pr.positions args tk cfg.positionIdPerSeconds).length = (unmasked row.1 row.2).length

/-- The rows are accepted and laid out; the scanning loop ends with all media used up. -/
structure ReadsBack (u : Bool) (prompts : List (Prompt cfg.spatialMergeSize))
    (rows : List (List Token × List Bool)) (image video : Option (List Thw))
    (audio : Option (List Nat)) (seconds : Option (List ℚ)) : Prop where
  accepted : ∃ result, getRopeIndex cfg vis (rows.map (·.1)) image video (rows.map (·.2)) u audio
      seconds = .ok result ∧ result.length = rows.length ∧
    ∀ (i : Nat) row pr, rows[i]? = some row → prompts[i]? = some pr →
      ∃ positions delta, result[i]? = some (positions,delta) ∧
        LaidOut cfg tk args row pr positions
  consumed : (image.isSome || video.isSome) = true →
    ∃ result c, scanBatch cfg vis (rows.map (·.1)) image video (rows.map (·.2)) u audio
        seconds = .ok (result,c) ∧
      c.imageIdx = ((pieces prompts).flatMap Piece.images).length ∧
      c.videoIdx = (expandVideos ((pieces prompts).flatMap Piece.videos)).length ∧
      c.audioIdx = ((pieces prompts).flatMap (Piece.audios u)).length

variable {prompts : List (Prompt cfg.spatialMergeSize)} {image video : Option (List Thw)}
variable {audio : Option (List Nat)} {seconds : Option (List ℚ)}
variable {batch : List (Padded cfg.spatialMergeSize)}
variable {cfg args tk}

theorem readsBack_of_holds
    (hmatch : Matches args.useAudioInVideo prompts image video audio seconds)
    (h : List.Forall₂ (Holds args tk) batch prompts) :
    ReadsBack cfg vis tk args args.useAudioInVideo prompts
      (batch.map fun r => (r.inputIds,r.mask)) image video audio seconds := by
  have hsup := hmatch.supplies h
  have huniform : ∀ r ∈ batch, r.sample.Uniform args.useAudioInVideo := by
    intro r hr
    obtain ⟨i,hi⟩ := List.mem_iff_getElem?.mp hr
    obtain ⟨pr,-,hne,hsample⟩ := Holds.at h hi
    rw [hsample]
    exact pr.uniform args tk hne
  have hids : (batch.map fun r => (r.inputIds,r.mask)).map (·.1) = batch.map (·.inputIds) := by
    simp
  have hmasks : (batch.map fun r => (r.inputIds,r.mask)).map (·.2) = batch.map (·.mask) := by
    simp
  refine ⟨?_,?_⟩
  · refine ⟨_,by rw [hids,hmasks]; exact getRopeIndex_assigned cfg vis huniform hsup,by simp,?_⟩
    intro i row pr hrow hpr
    rw [List.getElem?_map] at hrow
    obtain ⟨r,hr,rfl⟩ := Option.map_eq_some_iff.mp hrow
    obtain ⟨pr',hpr',hne,hsample⟩ := Holds.at h hr
    obtain rfl : pr' = pr := Option.some.inj (hpr'.symm.trans hpr)
    obtain ⟨hlen,hcols⟩ := r.assigned_columns cfg.positionIdPerSeconds fun hv =>
      hsup.plain hv (List.mem_map_of_mem (List.mem_of_getElem? hr))
    refine ⟨_,_,by rw [List.getElem?_map,hr]; rfl,hlen,?_,?_⟩
    · rw [hcols,hsample]
      rfl
    · have hpos := r.sample.length_positions cfg.positionIdPerSeconds
      rw [← r.tokensEq,hsample] at hpos
      exact hpos
  · intro _
    obtain ⟨c,hscan,himg,hvid,haud⟩ := scanBatch_wire cfg vis huniform hsup
    refine ⟨_,c,by rw [hids,hmasks]; exact hscan,?_,?_,?_⟩
    · rw [himg,hmatch.images,List.length_map]
    · rw [hvid,hmatch.videos,splitVideos_thw,List.length_map]
    · rw [haud,hmatch.audios,List.length_map]

/-- The processor accepts every batch of prompts, and what it makes of them is read back,
however it is padded. -/
theorem processed_readsBack {temporalPatchSize rate : Nat} {u withMetadata : Bool}
    (hne : ∀ pr ∈ prompts, pr.Nonempty tk)
    (hfps : withMetadata = true → ∀ md ∈ (pieces prompts).flatMap Piece.metadatas, md.fps ≠ 0)
    (hmatch : Matches u prompts image video audio seconds) :
    ∃ processed, replaceMultimodalSpecialTokens
        (writerArgs rate temporalPatchSize u withMetadata (pieces prompts)) tk
        (prompts.map Prompt.text) = .ok processed ∧
      ∀ rows, List.Forall₂ (PadsTo tk) rows processed →
        ReadsBack cfg vis tk (writerArgs rate temporalPatchSize u withMetadata (pieces prompts)) u
          prompts rows image video audio seconds := by
  set args := writerArgs rate temporalPatchSize u withMetadata (pieces prompts) with hargs
  have hrated : ∀ pr ∈ prompts, pr.Rated args := by
    intro pr hpr part hpart hsome md hmd
    have hwith : withMetadata = true := by
      cases withMetadata with
      | true => rfl
      | false => simp [hargs,writerArgs] at hsome
    refine hfps hwith md (List.mem_flatMap.mpr ⟨part.piece,?_,hmd⟩)
    exact List.mem_flatMap.mpr ⟨pr,hpr,List.mem_map_of_mem hpart⟩
  have hrun := replaceMultimodalSpecialTokens_emitted tk rfl hrated
    (writerArgs_pending rate temporalPatchSize u withMetadata (pieces prompts))
  refine ⟨_,hrun,fun rows hrows => ?_⟩
  obtain ⟨batch,rfl,hall⟩ := exists_padded hne hrows
  exact readsBack_of_holds vis hmatch hall

end ReadBack

section Instances

theorem plain_ask : Plain Word.spell ['?'] := by
  intro w
  cases w <;> decide

/-- A video of two grids with its audio track, then an image and a question. -/
def watchPrompt : Prompt 2 where
  parts := [⟨[],.video (.ofSides 2 1 1) (1/2) ⟨[0,1,2,3],2⟩ halfSecond⟩,
    ⟨['?'],.image (.ofSides 1 1 2)⟩]
  tail := ['?']
  plain := by
    intro part hpart
    simp only [List.mem_cons,List.not_mem_nil,or_false] at hpart
    rcases hpart with rfl | rfl
    · exact plain_nil
    · exact plain_ask
  plainTail := plain_ask

def imagePrompt : Prompt 2 where
  parts := [⟨[],.image (.ofSides 1 1 2)⟩]
  tail := []
  plain := by
    intro part hpart
    obtain rfl := List.mem_singleton.mp hpart
    exact plain_nil
  plainTail := plain_nil

def blankPrompt : Prompt 2 := ⟨[],[],by simp,plain_nil⟩

theorem watchPrompt_readsBack :
    ∃ processed, replaceMultimodalSpecialTokens
        (writerArgs 13 2 true true (pieces [watchPrompt,imagePrompt])) charTokenizer
        ([watchPrompt,imagePrompt].map Prompt.text) = .ok processed ∧
      ∀ rows, List.Forall₂ (PadsTo charTokenizer) rows processed →
        ReadsBack .mergeTwo .reference charTokenizer
          (writerArgs 13 2 true true (pieces [watchPrompt,imagePrompt])) true
          [watchPrompt,imagePrompt] rows (some [⟨1,2,4⟩,⟨1,2,4⟩]) (some [⟨2,2,2⟩]) (some [50])
          none := by
  have hne : ∀ pr ∈ [watchPrompt,imagePrompt], pr.Nonempty charTokenizer := by
    simp [Prompt.Nonempty,watchPrompt,imagePrompt]
  have hfps : true = true → ∀ md ∈ (pieces [watchPrompt,imagePrompt]).flatMap Piece.metadatas,
      md.fps ≠ 0 := by
    simp [pieces,watchPrompt,imagePrompt,Piece.metadatas]
  have hmatch : Matches true [watchPrompt,imagePrompt] (some [⟨1,2,4⟩,⟨1,2,4⟩])
      (some [⟨2,2,2⟩]) (some [50]) none := ⟨rfl,rfl,rfl,by simp⟩
  exact @processed_readsBack .mergeTwo .reference charTokenizer _ _ _ _ _ 2 13 true true
    hne hfps hmatch

/-- A prompt without any token is processed, and makes the call raise beside an image. -/
theorem blankPrompt_raises :
    Matches false [blankPrompt,imagePrompt] (some [⟨1,2,4⟩]) none none none ∧
    ∃ processed rows, replaceMultimodalSpecialTokens
        (writerArgs 13 2 false false (pieces [blankPrompt,imagePrompt])) charTokenizer
        ([blankPrompt,imagePrompt].map Prompt.text) = .ok processed ∧
      List.Forall₂ (PadsTo charTokenizer) rows processed ∧
      getRopeIndex .mergeTwo .reference (rows.map (·.1)) (some [⟨1,2,4⟩]) none (rows.map (·.2))
        false none none = .error (.builtin .runtimeError) := by
  refine ⟨⟨rfl,rfl,rfl,by simp⟩,_,
    [(List.replicate 4 (.text 0),List.replicate 4 false),
      ([.visionStart,.imagePad,.imagePad,.visionEnd],List.replicate 4 true)],
    replaceMultimodalSpecialTokens_emitted charTokenizer rfl ?_ (writerArgs_pending _ _ _ _ _),
    ?_,by decide +kernel⟩
  · intro pr _ part _ hsome
    simp [writerArgs] at hsome
  · refine .cons ⟨rfl,?_⟩ (.cons ⟨rfl,?_⟩ .nil)
    · rw [Prompt.encode_emitted]
      rfl
    · rw [Prompt.encode_emitted]
      rfl

end Instances
end RopeIndex
end TLiveOmni
