import TLiveOmni.Processor
import TLiveOmni.Navigate

/-! The tokens of the processor's output are the tokens of a well-formed sample. -/
set_option autoImplicit false

namespace TLiveOmni
open PySeq Words

theorem spell_bracketed : Bracketed Word.spell '<' '>' where
  ne := by decide
  shape := by
    intro w
    refine ⟨(Word.spell w).tail.dropLast,?_⟩
    cases w <;> decide
  injective := by
    intro a b
    cases a <;> cases b <;> decide

/-- A medium of a prompt with what the processor is given for it. The audio of a video is
listed with the other audios when `use_audio_in_video` is set. -/
inductive Piece (m : Nat) where
  | image (g : Grid m)
  | audio (a : AudioClip)
  | video (g : Grid m) (secondPerGrid : ℚ) (metadata : VideoMetadata) (track : AudioClip)

structure Part (m : Nat) where
  run : List Char
  piece : Piece m

/-- A prompt in template form: plain text and wrapped media tokens. -/
structure Prompt (m : Nat) where
  parts : List (Part m)
  tail : List Char
  plain : ∀ part ∈ parts, Plain Word.spell part.run
  plainTail : Plain Word.spell tail

namespace Piece
variable {m : Nat}

def pad : Piece m → Word
  | .image _ => .imagePad
  | .audio _ => .audioPad
  | .video _ _ _ _ => .videoPad

/-- The media token in its delimiters. -/
def template : Piece m → List Word
  | .image _ => [.visionStart,.imagePad,.visionEnd]
  | .audio _ => [.audioStart,.audioPad,.audioEnd]
  | .video _ _ _ _ => [.visionStart,.videoPad,.visionEnd]

def images : Piece m → List (Grid m)
  | .image g => [g]
  | _ => []

def audios (u : Bool) : Piece m → List AudioClip
  | .image _ => []
  | .audio a => [a]
  | .video _ _ _ track => if u then [track] else []

def videos : Piece m → List (Grid m)
  | .video g _ _ _ => [g]
  | _ => []

def seconds : Piece m → List ℚ
  | .video _ second _ _ => [second]
  | _ => []

def metadatas : Piece m → List VideoMetadata
  | .video _ _ md _ => [md]
  | _ => []

end Piece

section Render
variable {m : Nat}

def partSyms (part : Part m) : List (Sym Char Word) :=
  part.run.map .ch ++ part.piece.template.map .word

def Prompt.syms (pr : Prompt m) : List (Sym Char Word) :=
  pr.parts.flatMap partSyms ++ pr.tail.map .ch

def Prompt.text (pr : Prompt m) : List Char := flat Word.spell pr.syms

/-- The media of a batch of prompts in reading order. -/
def pieces (prompts : List (Prompt m)) : List (Piece m) :=
  prompts.flatMap fun pr => pr.parts.map (·.piece)

/-- The processor's media arguments for a batch of prompts. -/
def writerArgs (p temporalPatchSize : Nat) (u withMetadata : Bool) (all : List (Piece m)) :
    WriterArgs where
  mergeSize := m
  temporalPatchSize := temporalPatchSize
  audioLengths := (all.flatMap (Piece.audios u)).map AudioClip.tokens
  imageGridThw := (all.flatMap Piece.images).map Grid.thw
  videoGridThw := (all.flatMap Piece.videos).map Grid.thw
  videoSecondPerGrid := all.flatMap Piece.seconds
  useAudioInVideo := u
  positionIdPerSeconds := p
  videoMetadatas := if withMetadata then some (all.flatMap Piece.metadatas) else none

/-- A run of text with the span behind it. -/
abbrev Chunk (m : Nat) := List Char × Media m

variable (args : WriterArgs)

def timesOf (gridT : Nat) (md : Option VideoMetadata) : List ℚ :=
  (gridTimestamps args gridT md).toOption.getD []

def silentChunk (g : Grid m) (times : List ℚ) (i : Nat) : Chunk m :=
  (timestampText (times.getD i i),.grid g.toFrame (decide (i+1 = g.t)))

def voicedChunk (g : Grid m) (times : List ℚ) (boundaries : List Int) (track : AudioClip)
    (i : Nat) : Chunk m :=
  (timestampText (if times = [] then (i : ℚ) else times.getD (min i (times.length-1)) 0),
    .avGrid g.toFrame (boundaries.getD (i+1) 0-boundaries.getD i 0).toNat
      (if i+1 = g.t then some track.featureLen else none))

/-- The spans written for a medium, each with the text the processor puts before it. -/
def Piece.chunks : Piece m → List (Chunk m)
  | .image g => [([],.image g)]
  | .audio a => [([],.audio a)]
  | .video g second md track =>
      let times := timesOf args g.t (if args.videoMetadatas.isSome then some md else none)
      if args.useAudioInVideo then
        (List.range g.t).map (voicedChunk g times
          (audioBoundaries g.t track.tokens (second*args.positionIdPerSeconds)) track)
      else (List.range g.t).map (silentChunk g times)

/-- Text in front of the first span. -/
def withRun (run : List Char) : List (Chunk m) → List (Chunk m)
  | [] => []
  | c :: cs => (run ++ c.1,c.2) :: cs

def Part.chunks (part : Part m) : List (Chunk m) := withRun part.run (part.piece.chunks args)

end Render

/-- Words of a span while the processor works on it, and afterwards. -/
def Token.draft : Token → Word
  | .imagePad => .imagePlaceholder
  | .videoPad => .videoPlaceholder
  | .audioPad => .audioPlaceholder
  | .visionEnd => .visionEnd
  | .audioStart => .audioStart
  | .audioEnd => .audioEnd
  | .visionStart | .text _ => .visionStart

def Token.word : Token → Word
  | .imagePad => .imagePad
  | .videoPad => .videoPad
  | .audioPad => .audioPad
  | .visionEnd => .visionEnd
  | .audioStart => .audioStart
  | .audioEnd => .audioEnd
  | .visionStart | .text _ => .visionStart

section Chunks
variable {m : Nat}

def chunkSyms (f : Token → Word) (cs : List (Chunk m)) : List (Sym Char Word) :=
  cs.flatMap fun c => c.1.map .ch ++ (c.2.wire.map f).map .word

theorem chunkSyms_append (f : Token → Word) (a b : List (Chunk m)) :
    chunkSyms f (a ++ b) = chunkSyms f a ++ chunkSyms f b := by simp [chunkSyms]

theorem chunkSyms_withRun (f : Token → Word) (run : List Char) {cs : List (Chunk m)}
    (h : cs ≠ []) : chunkSyms f (withRun run cs) = run.map .ch ++ chunkSyms f cs := by
  cases cs with
  | nil => exact absurd rfl h
  | cons c cs => simp [withRun,chunkSyms]

theorem clean_run_words {run : List Char} {ws : List Word} {l : List (Sym Char Word)}
    (hr : Plain Word.spell run) (hw : ws ≠ []) (hl : Clean Word.spell l) :
    Clean Word.spell (run.map .ch ++ (ws.map .word ++ l)) := by
  obtain ⟨w,rest,rfl⟩ := List.exists_cons_of_ne_nil hw
  exact (clean_chars.mpr hr).append_word w (hl.words_append rest)

theorem clean_chunkSyms (f : Token → Word) {cs : List (Chunk m)} {l : List (Sym Char Word)}
    (h : ∀ c ∈ cs, Plain Word.spell c.1) (hl : Clean Word.spell l) :
    Clean Word.spell (chunkSyms f cs ++ l) := by
  induction cs with
  | nil => exact hl
  | cons c cs ih =>
    have hw : c.2.wire.map f ≠ [] := by simp [c.2.wire_ne_nil]
    have := clean_run_words (h c (by simp)) hw (ih fun c' hc => h c' (by simp [hc]))
    simpa [chunkSyms] using this

theorem clean_parts {parts : List (Part m)} {l : List (Sym Char Word)}
    (h : ∀ part ∈ parts, Plain Word.spell part.run) (hl : Clean Word.spell l) :
    Clean Word.spell (parts.flatMap partSyms ++ l) := by
  induction parts with
  | nil => exact hl
  | cons part parts ih =>
    have hw : part.piece.template ≠ [] := by cases part.piece <;> simp [Piece.template]
    have := clean_run_words (h part (by simp)) hw (ih fun p hp => h p (by simp [hp]))
    simpa [partSyms] using this

end Chunks

section Timestamps

theorem bar_notMem_fixedOne (q : ℚ) : '|' ∉ fixedOne q := by
  have hdigits : ∀ n : Nat, '|' ∉ Nat.toDigits 10 n := by
    intro n h
    have := Nat.isDigit_of_mem_toDigits (by decide) (by decide) h
    revert this
    decide
  by_cases hq : q < 0 <;> simp [fixedOne,hq,hdigits]

/-- A timestamp spells no word: it has a bracket but no bar. -/
theorem plain_timestampText (q : ℚ) : Plain Word.spell (timestampText q) := by
  intro w h
  have hbar : '|' ∈ Word.spell w := by cases w <;> decide
  have hmem := h.subset hbar
  have hend : '|' ∉ " seconds>".toList := by decide
  simp only [timestampText,List.mem_cons,List.mem_append] at hmem
  rcases hmem with hm | hm | hm
  · revert hm
    decide
  · exact bar_notMem_fixedOne q hm
  · exact hend hm

theorem plain_run_timestamp {run : List Char} (h : Plain Word.spell run) (q : ℚ) :
    Plain Word.spell (run ++ timestampText q) :=
  h.append spell_bracketed (plain_timestampText q)

end Timestamps

section Placeholders
variable {m : Nat}

theorem flat_replicate (w : Word) (n : Nat) :
    flat Word.spell (List.replicate n (.word w : Sym Char Word)) = repeated w n := by
  induction n with
  | zero => rfl
  | succ n ih => simp [List.replicate_succ,repeated] at *; exact ih

theorem flat_flatMap {β : Type} (f : β → List (Sym Char Word)) (l : List β) :
    flat Word.spell (l.flatMap f) = l.flatMap fun b => flat Word.spell (f b) := by
  simp [flat,List.flatMap_assoc]

variable (args : WriterArgs) (hm : args.mergeSize = m)
include hm

theorem silentPlaceholder_eq (g : Grid m) (times : List ℚ) :
    silentPlaceholder args g.thw times =
      flat Word.spell (chunkSyms Token.draft ((List.range g.t).map (silentChunk g times))) := by
  simp only [silentPlaceholder,Grid.thw,hm,g.toFrame.mul_div_sq,chunkSyms,List.flatMap_map,
    flat_flatMap]
  congr 1
  funext i
  simp [silentChunk,Media.wire,Token.draft,flat_replicate]

theorem voicedPlaceholder_eq (g : Grid m) (times : List ℚ) (track : AudioClip) (second : ℚ) :
    voicedPlaceholder args g.thw times track.tokens second =
      flat Word.spell (chunkSyms Token.draft ((List.range g.t).map (voicedChunk g times
        (audioBoundaries g.t track.tokens (second*args.positionIdPerSeconds)) track))) := by
  simp only [voicedPlaceholder,Grid.thw,hm,chunkSyms,List.flatMap_map,flat_flatMap]
  congr 1
  funext i
  simp [voicedChunk,Media.wire,Token.draft,flat_replicate,Frame.tokens,Frame.rows,Frame.cols]

end Placeholders

section Loop
variable {m : Nat} (args : WriterArgs)

/-- The media lists behind the indices are those of the pieces still to be written. -/
structure Pending (idx : Indices) (rest : List (Piece m)) : Prop where
  audios : Remaining (some args.audioLengths) idx.audioIdx
    ((rest.flatMap (Piece.audios args.useAudioInVideo)).map AudioClip.tokens)
  images : Remaining (some args.imageGridThw) idx.imageIdx ((rest.flatMap Piece.images).map Grid.thw)
  videos : Remaining (some args.videoGridThw) idx.videoIdx ((rest.flatMap Piece.videos).map Grid.thw)
  seconds : Remaining (some args.videoSecondPerGrid) idx.videoIdx (rest.flatMap Piece.seconds)
  metadatas : ∀ l, args.videoMetadatas = some l →
    Remaining (some l) idx.videoIdx (rest.flatMap Piece.metadatas)

/-- A frame rate of zero is the only way to fail on the metadata. -/
theorem gridTimestamps_ok (gridT : Nat) (md : Option VideoMetadata)
    (h : ∀ d, md = some d → d.fps ≠ 0) :
    gridTimestamps args gridT md = .ok (timesOf args gridT md) := by
  cases md with
  | none => rfl
  | some d =>
    have hfps := h d rfl
    simp only [timesOf,gridTimestamps,calculateTimestamps]
    rw [raiseIf_of_not fun hz => hfps hz.1]
    rfl

theorem metadataAt_ok {idx : Indices} {md : VideoMetadata} {mds : List VideoMetadata}
    (h : ∀ l, args.videoMetadatas = some l → Remaining (some l) idx.videoIdx (md :: mds)) :
    metadataAt args idx.videoIdx =
      .ok (if args.videoMetadatas.isSome then some md else none) := by
  cases hmd : args.videoMetadatas with
  | none => simp [metadataAt,hmd]
  | some l =>
    obtain ⟨all,hall,-,hget⟩ := (h l hmd).getItem
    obtain rfl := Option.some.inj hall
    cases l with
    | nil => simp [getItem] at hget
    | cons d ds => simp [metadataAt,hmd,hget]

theorem draft_ne_pad (t : Token) :
    t.draft ≠ .imagePad ∧ t.draft ≠ .audioPad ∧ t.draft ≠ .videoPad := by
  cases t <;> simp [Token.draft]

theorem word_notMem_draft {y : Word} (hy : ∀ t : Token, t.draft ≠ y) (done : List (Chunk m))
    (run : List Char) :
    (.word y : Sym Char Word) ∉ chunkSyms Token.draft done ++ run.map .ch := by
  simp only [List.mem_append,chunkSyms,List.mem_flatMap,List.mem_map,not_or]
  refine ⟨?_,by simp⟩
  rintro ⟨c,-,⟨a,-,ha⟩ | ⟨w,⟨t,-,rfl⟩,hw⟩⟩
  · cases ha
  · exact hy t (Sym.word.inj hw)

variable {args} {s : Progress} {done : List (Chunk m)} {part : Part m} {rest : List (Piece m)}
variable {l : List (Sym Char Word)}

/-- Writing a media token leaves what is before and behind it. -/
theorem replaceFirst_token {x y z : Word} {before : List (Sym Char Word)}
    (new : List (Sym Char Word)) (hy : (.word y : Sym Char Word) ∉ before) (hxy : x ≠ y)
    (hc : Clean Word.spell (before ++ ([x,y,z].map .word ++ l))) :
    replaceFirst (Word.spell y) (flat Word.spell new)
        (flat Word.spell (before ++ ([x,y,z].map .word ++ l))) =
      flat Word.spell (before ++ (.word x :: (new ++ .word z :: l))) := by
  have hone := @replaceFirst_flat _ _ _ _ _ _ _ spell_bracketed y [] new _ hc
  have hflat : flat Word.spell ([y].map (Sym.word : Word → Sym Char Word)) = Word.spell y := by
    simp
  have hmem : (.word y : Sym Char Word) ∉ before ++ [.word x] := by
    simp [hy,Ne.symm hxy]
  rw [hflat] at hone
  rw [hone]
  congr 1
  have := replaceFirst_one new (.word z :: l) hmem
  simpa using this

theorem replaceFirst_wrapped {x y z : Word} {before : List (Sym Char Word)}
    (new : List (Sym Char Word)) (hy : (.word y : Sym Char Word) ∉ before) (hxy : x ≠ y)
    (hc : Clean Word.spell (before ++ ([x,y,z].map .word ++ l))) :
    replaceFirst (flat Word.spell ([x,y,z].map .word)) (flat Word.spell new)
        (flat Word.spell (before ++ ([x,y,z].map .word ++ l))) =
      flat Word.spell (before ++ (new ++ l)) := by
  rw [replaceFirst_flat spell_bracketed new hc]
  congr 1
  exact replaceFirst_three new l (by simpa using hxy) hy

theorem part_split (done : List (Chunk m)) (part : Part m) (l : List (Sym Char Word)) :
    chunkSyms Token.draft done ++ (partSyms part ++ l) =
      (chunkSyms Token.draft done ++ part.run.map .ch) ++ (part.piece.template.map .word ++ l) := by
  simp [partSyms]

theorem chunks_split (done : List (Chunk m)) (part : Part m) (l : List (Sym Char Word))
    (h : part.piece.chunks args ≠ []) :
    chunkSyms Token.draft (done ++ part.chunks args) ++ l =
      (chunkSyms Token.draft done ++ part.run.map .ch) ++
        (chunkSyms Token.draft (part.piece.chunks args) ++ l) := by
  rw [chunkSyms_append,Part.chunks,chunkSyms_withRun _ _ h]
  simp

/-- The state behind a written piece. -/
def Wrote (args : WriterArgs) (s' : Progress) (done : List (Chunk m)) (part : Part m)
    (rest : List (Piece m)) (l : List (Sym Char Word)) : Prop :=
  s'.sample = flat Word.spell (chunkSyms Token.draft (done ++ part.chunks args) ++ l) ∧
    Pending args s'.toIndices rest

theorem replaceImage_wrote {run : List Char} {g : Grid m} (hm : args.mergeSize = m)
    (hp : Pending args s.toIndices (.image g :: rest))
    (hs : s.sample = flat Word.spell (chunkSyms Token.draft done ++
      (partSyms ⟨run,.image g⟩ ++ l)))
    (hc : Clean Word.spell (chunkSyms Token.draft done ++ (partSyms ⟨run,.image g⟩ ++ l))) :
    ∃ s', replaceImage args s = .ok s' ∧ Wrote args s' done ⟨run,.image g⟩ rest l := by
  obtain ⟨all,hall,hget,-⟩ := hp.images.getItem
  obtain rfl := Option.some.inj hall
  have hlen := g.prod_div_sq
  rw [part_split] at hs hc
  have hrep := replaceFirst_token (List.replicate (g.t*g.toFrame.tokens) (.word .imagePlaceholder))
    (word_notMem_draft (fun t => (draft_ne_pad t).1) done run) (by decide) hc
  have hrun : replaceImage args s = .ok { s with
      sample := replaceFirst (Word.spell .imagePad)
        (repeated .imagePlaceholder (g.thw.prod/args.mergeSize^2)) s.sample
      imageIdx := s.imageIdx+1 } := by
    simp [replaceImage,hget]
  refine ⟨_,hrun,?_,hp.audios,hp.images.next,hp.videos,hp.seconds,hp.metadatas⟩
  rw [chunks_split _ _ _ (by simp [Piece.chunks])]
  rw [flat_replicate] at hrep
  simp only [hs,hm,hlen]
  refine hrep.trans ?_
  congr 1
  simp [Piece.chunks,chunkSyms,Media.wire,Token.draft]

theorem replaceAudio_wrote {run : List Char} {a : AudioClip}
    (hp : Pending args s.toIndices (.audio a :: rest))
    (hs : s.sample = flat Word.spell (chunkSyms Token.draft done ++
      (partSyms (⟨run,.audio a⟩ : Part m) ++ l)))
    (hc : Clean Word.spell (chunkSyms Token.draft done ++
      (partSyms (⟨run,.audio a⟩ : Part m) ++ l))) :
    ∃ s', replaceAudio args s = .ok s' ∧ Wrote args s' done ⟨run,.audio a⟩ rest l := by
  obtain ⟨all,hall,hget,-⟩ := hp.audios.getItem
  obtain rfl := Option.some.inj hall
  rw [part_split] at hs hc
  have hrep := replaceFirst_token (List.replicate a.tokens (.word .audioPlaceholder))
    (word_notMem_draft (fun t => (draft_ne_pad t).2.1) done run) (by decide) hc
  have hrun : replaceAudio args s = .ok { s with
      sample := replaceFirst (Word.spell .audioPad) (repeated .audioPlaceholder a.tokens) s.sample
      audioIdx := s.audioIdx+1 } := by
    simp [replaceAudio,hget]
  refine ⟨_,hrun,?_,hp.audios.next,hp.images,hp.videos,hp.seconds,hp.metadatas⟩
  rw [chunks_split _ _ _ (by simp [Piece.chunks])]
  rw [flat_replicate] at hrep
  simp only [hs]
  refine hrep.trans ?_
  congr 1
  simp [Piece.chunks,chunkSyms,Media.wire,Token.draft]

theorem chunks_video_ne_nil (g : Grid m) (second : ℚ) (md : VideoMetadata) (track : AudioClip) :
    Piece.chunks args (.video g second md track) ≠ [] := by
  have := g.tPos
  simp only [Piece.chunks]
  split <;> simp <;> omega

theorem replaceVideo_silent {thw : Thw} {md : Option VideoMetadata} {times : List ℚ}
    (hu : args.useAudioInVideo = false) (hthw : args.videoGridThw[s.videoIdx]? = some thw)
    (hmd : metadataAt args s.videoIdx = .ok md)
    (htimes : gridTimestamps args thw.t md = .ok times) :
    replaceVideo args s = .ok { s with
      sample := if isIn wrappedVideoToken s.sample
        then replaceFirst wrappedVideoToken (silentPlaceholder args thw times) s.sample
        else replaceFirst (Word.spell .videoPad) (silentPlaceholder args thw times) s.sample
      videoIdx := s.videoIdx+1
      sampleVideoCount := s.sampleVideoCount+1 } := by
  simp only [replaceVideo,hthw,hu,hmd,htimes,ok_bind,pure_eq_ok,Bool.false_eq_true,false_and,
    if_false,raiseIf_of_not not_false]

theorem replaceVideo_voiced {thw : Thw} {md : Option VideoMetadata} {times : List ℚ} {n : Nat}
    {second : ℚ} (hu : args.useAudioInVideo = true)
    (hthw : args.videoGridThw[s.videoIdx]? = some thw)
    (hn : args.audioLengths[s.audioIdx]? = some n)
    (hsecond : args.videoSecondPerGrid[s.videoIdx]? = some second)
    (hmd : metadataAt args s.videoIdx = .ok md)
    (htimes : gridTimestamps args thw.t md = .ok times) :
    replaceVideo args s = .ok { s with
      sample := if isIn wrappedVideoToken s.sample
        then replaceFirst wrappedVideoToken (voicedPlaceholder args thw times n second) s.sample
        else replaceFirst (Word.spell .videoPad) (voicedPlaceholder args thw times n second) s.sample
      audioIdx := s.audioIdx+1
      videoIdx := s.videoIdx+1
      sampleVideoCount := s.sampleVideoCount+1 } := by
  have hlt : ¬ args.audioLengths.length ≤ s.audioIdx := by
    have := (List.getElem?_eq_some_iff.mp hn).1
    omega
  simp only [replaceVideo,hthw,hu,hmd,htimes,getItem_eq_ok.mpr hn,getItem_eq_ok.mpr hsecond,ok_bind,
    pure_eq_ok,true_and,if_true,raiseIf_of_not hlt]

theorem isIn_wrappedVideoToken (a l : List (Sym Char Word)) : isIn wrappedVideoToken
    (flat Word.spell (a ++ ([Word.visionStart,.videoPad,.visionEnd].map .word ++ l))) = true := by
  refine decide_eq_true ⟨flat Word.spell a,flat Word.spell l,?_⟩
  simp [wrappedVideoToken]

theorem replaceVideo_wrote {run : List Char} {g : Grid m} {second : ℚ} {md : VideoMetadata}
    {track : AudioClip} (hm : args.mergeSize = m) (hfps : args.videoMetadatas.isSome → md.fps ≠ 0)
    (hp : Pending args s.toIndices (.video g second md track :: rest))
    (hs : s.sample = flat Word.spell (chunkSyms Token.draft done ++
      (partSyms ⟨run,.video g second md track⟩ ++ l)))
    (hc : Clean Word.spell (chunkSyms Token.draft done ++
      (partSyms ⟨run,.video g second md track⟩ ++ l))) :
    ∃ s', replaceVideo args s = .ok s' ∧
      Wrote args s' done ⟨run,.video g second md track⟩ rest l := by
  obtain ⟨all,hall,hget,-⟩ := hp.videos.getItem
  obtain rfl := Option.some.inj hall
  have hmd := metadataAt_ok args hp.metadatas
  have htimes := gridTimestamps_ok args g.thw.t (if args.videoMetadatas.isSome then some md else none)
    (by
      intro d hd
      split at hd
      · rename_i h
        exact Option.some.inj hd ▸ hfps h
      · cases hd)
  rw [part_split] at hs hc
  have hin : isIn wrappedVideoToken s.sample = true := by
    rw [hs]
    exact isIn_wrappedVideoToken _ _
  have hwrap : wrappedVideoToken = flat Word.spell
      ([Word.visionStart,.videoPad,.visionEnd].map .word) := by
    simp [wrappedVideoToken]
  have hrep := replaceFirst_wrapped
    (chunkSyms Token.draft (Piece.chunks args (.video g second md track)))
    (word_notMem_draft (fun t => (draft_ne_pad t).2.2) done run) (by decide) hc
  rw [← hwrap] at hrep
  have hne := @chunks_video_ne_nil m args g second md track
  have haud := hp.audios
  cases hu : args.useAudioInVideo with
  | false =>
    rw [hu] at haud
    have hplace := silentPlaceholder_eq args hm g
      (timesOf args g.thw.t (if args.videoMetadatas.isSome then some md else none))
    have hchunks : Piece.chunks args (.video g second md track) = (List.range g.t).map (silentChunk g
        (timesOf args g.thw.t (if args.videoMetadatas.isSome then some md else none))) := by
      simp [Piece.chunks,hu,Grid.thw]
    refine ⟨_,replaceVideo_silent hu hget hmd htimes,?_,?_,hp.images,hp.videos.next,hp.seconds.next,
      fun l hl => (hp.metadatas l hl).next⟩
    · rw [if_pos hin,chunks_split _ _ _ hne,hplace,← hchunks,hs]
      exact hrep
    · rw [hu]
      simpa [Piece.audios] using haud
  | true =>
    rw [hu] at haud
    obtain ⟨all₂,hall₂,hsecond,-⟩ := hp.seconds.getItem
    obtain rfl := Option.some.inj hall₂
    obtain ⟨all₃,hall₃,hn,-⟩ := haud.getItem
    obtain rfl := Option.some.inj hall₃
    have hplace := voicedPlaceholder_eq args hm g
      (timesOf args g.thw.t (if args.videoMetadatas.isSome then some md else none)) track second
    have hchunks : Piece.chunks args (.video g second md track) = (List.range g.t).map (voicedChunk g
        (timesOf args g.thw.t (if args.videoMetadatas.isSome then some md else none))
        (audioBoundaries g.t track.tokens (second*args.positionIdPerSeconds)) track) := by
      simp [Piece.chunks,hu,Grid.thw]
    refine ⟨_,replaceVideo_voiced hu hget hn hsecond hmd htimes,?_,?_,hp.images,hp.videos.next,
      hp.seconds.next,fun l hl => (hp.metadatas l hl).next⟩
    · rw [if_pos hin,chunks_split _ _ _ hne,hplace,← hchunks,hs]
      exact hrep
    · rw [hu]
      exact haud.next

end Loop
end TLiveOmni
