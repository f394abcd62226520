import TLiveOmni.ProcessorWire

/-! The loop over the media tokens of a sample, the loop over the samples of the batch, and the
tokens of the result. -/
set_option autoImplicit false

namespace TLiveOmni
open PySeq Words

section Parts
variable {m : Nat} {args : WriterArgs} {s : Progress} {done : List (Chunk m)}
variable {rest : List (Piece m)} {l : List (Sym Char Word)}

/-- The frame rates the processor divides by. -/
def Piece.Rated (args : WriterArgs) (piece : Piece m) : Prop :=
  args.videoMetadatas.isSome = true → ∀ md ∈ piece.metadatas, md.fps ≠ 0

theorem chunks_ne_nil (piece : Piece m) : piece.chunks args ≠ [] := by
  cases piece with
  | image g => simp [Piece.chunks]
  | audio a => simp [Piece.chunks]
  | video g second md track => exact chunks_video_ne_nil g second md track

theorem plain_piece_chunks (piece : Piece m) {run : List Char} (h : Plain Word.spell run) :
    ∀ c ∈ piece.chunks args, Plain Word.spell (run ++ c.1) := by
  intro c hc
  cases piece with
  | image g =>
    obtain rfl : c = _ := by simpa [Piece.chunks] using hc
    simpa using h
  | audio a =>
    obtain rfl : c = _ := by simpa [Piece.chunks] using hc
    simpa using h
  | video g second md track =>
    simp only [Piece.chunks] at hc
    split at hc
    · obtain ⟨i,-,rfl⟩ := List.mem_map.mp hc
      exact plain_run_timestamp h _
    · obtain ⟨i,-,rfl⟩ := List.mem_map.mp hc
      exact plain_run_timestamp h _

theorem plain_nil : Plain Word.spell [] := by
  intro w h
  cases w <;> exact absurd (List.infix_nil.mp h) (by decide)

theorem plain_part_chunks {part : Part m} (h : Plain Word.spell part.run) :
    ∀ c ∈ part.chunks args, Plain Word.spell c.1 := by
  have hfirst := @plain_piece_chunks m args part.piece part.run h
  have hnext := @plain_piece_chunks m args part.piece [] plain_nil
  simp only [Part.chunks]
  cases hcs : part.piece.chunks args with
  | nil => simp [withRun]
  | cons c cs =>
    rw [hcs] at hfirst hnext
    intro c' hc'
    rcases List.mem_cons.mp hc' with rfl | hc'
    · exact hfirst c (by simp)
    · exact hnext c' (by simp [hc'])

theorem replaceOne_wrote {part : Part m} (hm : args.mergeSize = m)
    (hfps : part.piece.Rated args) (hp : Pending args s.toIndices (part.piece :: rest))
    (hs : s.sample = flat Word.spell (chunkSyms Token.draft done ++ (partSyms part ++ l)))
    (hc : Clean Word.spell (chunkSyms Token.draft done ++ (partSyms part ++ l))) :
    ∃ s', replaceOne args s part.piece.pad = .ok s' ∧ Wrote args s' done part rest l := by
  obtain ⟨run,piece⟩ := part
  cases piece with
  | image g => exact replaceImage_wrote hm hp hs hc
  | audio a => exact replaceAudio_wrote hp hs hc
  | video g second md track =>
    exact replaceVideo_wrote hm (fun h => hfps h md (by simp [Piece.metadatas])) hp hs hc

/-- The loop over the media tokens writes one part after the other. -/
theorem parts_wrote {parts : List (Part m)} (hm : args.mergeSize = m)
    (hfps : ∀ part ∈ parts, part.piece.Rated args)
    (hplain : ∀ part ∈ parts, Plain Word.spell part.run)
    (hdone : ∀ c ∈ done, Plain Word.spell c.1) (hl : Clean Word.spell l)
    (hp : Pending args s.toIndices (parts.map (·.piece) ++ rest))
    (hs : s.sample = flat Word.spell (chunkSyms Token.draft done ++
      (parts.flatMap partSyms ++ l))) :
    ∃ s', (parts.map (·.piece.pad)).foldlM (replaceOne args) s = .ok s' ∧
      s'.sample = flat Word.spell
        (chunkSyms Token.draft (done ++ parts.flatMap (Part.chunks args)) ++ l) ∧
      Pending args s'.toIndices rest := by
  induction parts generalizing s done with
  | nil => exact ⟨s,rfl,by simpa using hs,by simpa using hp⟩
  | cons part parts ih =>
    have hclean := clean_chunkSyms Token.draft hdone (clean_parts hplain hl)
    rw [List.flatMap_cons,List.append_assoc] at hs hclean
    obtain ⟨s₁,hrun,hs₁,hp₁⟩ := replaceOne_wrote hm (hfps part (by simp)) hp hs hclean
    have hdone₁ : ∀ c ∈ done ++ part.chunks args, Plain Word.spell c.1 := by
      intro c hc
      rcases List.mem_append.mp hc with hc | hc
      · exact hdone c hc
      · exact plain_part_chunks (hplain part (by simp)) c hc
    obtain ⟨s₂,hrest,hs₂,hp₂⟩ := ih (fun p h => hfps p (by simp [h]))
      (fun p h => hplain p (by simp [h])) hdone₁ hp₁ hs₁
    refine ⟨s₂,?_,by simpa using hs₂,hp₂⟩
    rw [List.map_cons,List.foldlM_cons,hrun]
    exact hrest

end Parts

section Finish
variable {m : Nat}

/-- What replacing one word by another makes of a word. -/
def rename (old new w : Word) : Word := if w = old then new else w

theorem replaceAll_chunks (old new : Word) (f : Token → Word) {cs : List (Chunk m)}
    {tail : List Char} (h : ∀ c ∈ cs, Plain Word.spell c.1) (ht : Plain Word.spell tail) :
    replaceAll (Word.spell old) (Word.spell new)
        (flat Word.spell (chunkSyms f cs ++ tail.map .ch)) =
      flat Word.spell (chunkSyms (fun t => rename old new (f t)) cs ++ tail.map .ch) := by
  have hall := replaceAll_flat spell_bracketed old [.word new]
    (clean_chunkSyms f h (clean_chars.mpr ht))
  have hnew : flat Word.spell [(.word new : Sym Char Word)] = Word.spell new := by simp
  have hchars : ∀ run : List Char, (run.map (Sym.ch : Char → Sym Char Word)).flatMap
      (fun x => if x = .word old then [.word new] else [x]) = run.map .ch := by
    intro run
    induction run with
    | nil => rfl
    | cons c run ih => simp [ih]
  have hwords : ∀ ws : List Word, (ws.map (Sym.word : Word → Sym Char Word)).flatMap
      (fun x => if x = .word old then [.word new] else [x]) =
        (ws.map (rename old new)).map .word := by
    intro ws
    induction ws with
    | nil => rfl
    | cons w ws ih =>
      rw [List.map_cons,List.flatMap_cons,ih]
      by_cases hw : w = old <;> simp [rename,hw]
  rw [hnew] at hall
  rw [hall,List.flatMap_append,hchars]
  simp only [chunkSyms,List.flatMap_assoc,List.flatMap_append,hchars,hwords]
  simp [Function.comp_def]

/-- The three last replacements together turn the words of the draft into the final ones. -/
theorem rename_draft (t : Token) :
    rename .videoPlaceholder .videoPad (rename .imagePlaceholder .imagePad
      (rename .audioPlaceholder .audioPad t.draft)) = t.word := by
  cases t <;> rfl

end Finish

section Tokens
variable {m : Nat} (tk : Tokenizer)

/-- The item a chunk becomes. -/
def Chunk.item (c : Chunk m) : Item m := ⟨tk.encodePlain c.1,c.2⟩

theorem encodeSyms_chars (run chars : List Char) (l : List (Sym Char Word)) :
    tk.encodeSyms run (chars.map .ch ++ l) = tk.encodeSyms (run ++ chars) l := by
  induction chars generalizing run with
  | nil => simp
  | cons c chars ih => simp [Tokenizer.encodeSyms,ih]

theorem encodeSyms_words {ts : List Token} (h : ∀ t ∈ ts, t.isText = false)
    (l : List (Sym Char Word)) :
    tk.encodeSyms [] ((ts.map Token.word).map .word ++ l) = ts ++ tk.encodeSyms [] l := by
  induction ts with
  | nil => rfl
  | cons t ts ih =>
    have ht : t.word.token? = some t := by
      have := h t (by simp)
      cases t <;> simp_all [Token.isText,Token.word,Word.token?]
    have hrest := ih fun t' h' => h t' (by simp [h'])
    simp only [List.map_cons,List.cons_append,Tokenizer.encodeSyms,tk.encodePlain_nil,
      List.map_nil,List.nil_append,ht,Option.toList_some,hrest]

theorem encodeSyms_run_words {ts : List Token} (hne : ts ≠ []) (h : ∀ t ∈ ts, t.isText = false)
    (run : List Char) (l : List (Sym Char Word)) :
    tk.encodeSyms [] (run.map .ch ++ ((ts.map Token.word).map .word ++ l)) =
      wireText (tk.encodePlain run) ++ (ts ++ tk.encodeSyms [] l) := by
  obtain ⟨t,ts,rfl⟩ := List.exists_cons_of_ne_nil hne
  have hrest := encodeSyms_words tk h l
  rw [encodeSyms_chars]
  simp only [List.map_cons,List.cons_append,Tokenizer.encodeSyms,tk.encodePlain_nil,
    List.map_nil,List.nil_append] at hrest ⊢
  rw [hrest,wireText]

theorem Media.wire_isText (a : Media m) : ∀ t ∈ a.wire, t.isText = false := by
  intro t ht
  cases a <;> simp [Media.wire] at ht <;> aesop

theorem encodeSyms_chunks (cs : List (Chunk m)) (tail : List Char) :
    tk.encodeSyms [] (chunkSyms Token.word cs ++ tail.map .ch) =
      wireItems (cs.map (Chunk.item tk)) ++ wireText (tk.encodePlain tail) := by
  induction cs with
  | nil =>
    have := encodeSyms_chars tk [] tail []
    simpa [chunkSyms,wireItems,Tokenizer.encodeSyms,wireText] using this
  | cons c cs ih =>
    have hsplit : chunkSyms Token.word (c :: cs) ++ tail.map .ch = c.1.map .ch ++
        ((c.2.wire.map Token.word).map .word ++ (chunkSyms Token.word cs ++ tail.map .ch)) := by
      simp [chunkSyms]
    rw [hsplit,encodeSyms_run_words tk c.2.wire_ne_nil c.2.wire_isText,ih]
    simp [wireItems,Item.wire,Chunk.item]

theorem word_mem_specials (t : Token) : t.word ∈ Word.specials := by
  cases t <;> simp [Token.word,Word.specials]

/-- The tokenizer reads the finished text back into runs of text and spans. -/
theorem encode_chunks {cs : List (Chunk m)} {tail : List Char}
    (h : ∀ c ∈ cs, Plain Word.spell c.1) (ht : Plain Word.spell tail) :
    tk.encode (flat Word.spell (chunkSyms Token.word cs ++ tail.map .ch)) =
      wireItems (cs.map (Chunk.item tk)) ++ wireText (tk.encodePlain tail) := by
  have hlex : lex Word.spell Word.specials
      (flat Word.spell (chunkSyms Token.word cs ++ tail.map .ch)) =
        chunkSyms Token.word cs ++ tail.map .ch := by
    refine lex_flat_of_mem spell_bracketed
      (clean_chunkSyms Token.word h (clean_chars.mpr ht)) ?_
    intro w hw
    simp only [chunkSyms,List.mem_append,List.mem_flatMap,List.mem_map] at hw
    rcases hw with ⟨c,-,⟨a,-,ha⟩ | ⟨w',⟨t,-,rfl⟩,hw⟩⟩ | ⟨a,-,ha⟩
    · cases ha
    · exact Sym.word.inj hw ▸ word_mem_specials t
    · cases ha
  rw [← encodeSyms_chunks,Tokenizer.encode,hlex]

end Tokens

section Sample
variable {m : Nat} (args : WriterArgs) (tk : Tokenizer) (pr : Prompt m)

def Prompt.chunks : List (Chunk m) := pr.parts.flatMap (Part.chunks args)

/-- The text the processor makes of a prompt. -/
def Prompt.emitted : List Char :=
  flat Word.spell (chunkSyms Token.word (pr.chunks args) ++ pr.tail.map .ch)

def Prompt.items : List (Item m) := (pr.chunks args).map (Chunk.item tk)

def Prompt.wire : List Token := wireItems (pr.items args tk) ++ wireText (tk.encodePlain pr.tail)

def Prompt.videos : List (Grid m) := pr.parts.flatMap (·.piece.videos)

theorem Prompt.plain_chunks : ∀ c ∈ pr.chunks args, Plain Word.spell c.1 := by
  intro c hc
  obtain ⟨part,hpart,hc⟩ := List.mem_flatMap.mp hc
  exact plain_part_chunks (pr.plain part hpart) c hc

theorem Prompt.encode_emitted : tk.encode (pr.emitted args) = pr.wire args tk :=
  encode_chunks tk (pr.plain_chunks args) pr.plainTail

theorem Prompt.clean_syms : Clean Word.spell pr.syms :=
  clean_parts pr.plain (clean_chars.mpr pr.plainTail)

theorem Prompt.findWords_text :
    findWords Word.spell [.audioPad,.imagePad,.videoPad] pr.text =
      pr.parts.map (·.piece.pad) := by
  rw [Prompt.text,findWords_flat spell_bracketed _ pr.clean_syms,Prompt.syms]
  have hchars : ∀ run : List Char,
      (run.map (Sym.ch : Char → Sym Char Word)).filterMap Sym.word? = [] := by
    intro run
    simp [List.filterMap_map,Function.comp_def,Sym.word?]
  have htemplate : ∀ part : Part m, ((partSyms part).filterMap Sym.word?).filter
      (fun w => decide (w ∈ [Word.audioPad,.imagePad,.videoPad])) = [part.piece.pad] := by
    intro part
    rw [partSyms,List.filterMap_append,hchars]
    cases part.piece <;> rfl
  rw [List.filterMap_append,hchars,List.append_nil]
  induction pr.parts with
  | nil => rfl
  | cons part parts ih =>
    rw [List.flatMap_cons,List.filterMap_append,List.filter_append,ih,htemplate]
    rfl

theorem count_wireText (ids : List Nat) :
    (wireText ids).count .visionStart = 0 ∧ (wireText ids).count .visionEnd = 0 ∧
      (wireText ids).count .audioStart = 0 ∧ (wireText ids).count .audioEnd = 0 := by
  simp [wireText,List.count_eq_zero]

/-- Every span closes what it opens. -/
theorem Media.count_delims (a : Media m) :
    a.wire.count .visionStart = a.wire.count .visionEnd ∧
      a.wire.count .audioStart = a.wire.count .audioEnd := by
  cases a <;> simp [Media.wire,List.count_append,List.count_replicate]

theorem count_delims (items : List (Item m)) :
    (wireItems items).count .visionStart = (wireItems items).count .visionEnd ∧
      (wireItems items).count .audioStart = (wireItems items).count .audioEnd := by
  induction items with
  | nil => exact ⟨rfl,rfl⟩
  | cons it items ih =>
    obtain ⟨hv,ha⟩ := it.media.count_delims
    have hsplit : wireItems (it :: items) =
        wireText it.text ++ (it.media.wire ++ wireItems items) := by
      simp [wireItems,Item.wire]
    simp [hsplit,List.count_append,count_wireText,hv,ha,ih]

theorem validate_wire : validateVideoAudioTokens (pr.wire args tk) = .ok () := by
  obtain ⟨hv,ha⟩ := count_delims (pr.items args tk)
  have hv' : ¬ (pr.wire args tk).count .visionStart ≠ (pr.wire args tk).count .visionEnd := by
    simp [Prompt.wire,List.count_append,count_wireText,hv]
  have ha' : ¬ (pr.wire args tk).count .audioStart ≠ (pr.wire args tk).count .audioEnd := by
    simp [Prompt.wire,List.count_append,count_wireText,ha]
  simp only [validateVideoAudioTokens,raiseIf_of_not hv',raiseIf_of_not ha',ok_bind]

/-- The frame rates of all videos of a prompt. -/
def Prompt.Rated : Prop := ∀ part ∈ pr.parts, part.piece.Rated args

variable {args} {idx : Indices} {rest : List (Piece m)}

theorem replaceSample_emitted (hm : args.mergeSize = m) (hfps : pr.Rated args)
    (hp : Pending args idx (pr.parts.map (·.piece) ++ rest)) :
    ∃ idx', replaceSample args tk idx pr.text = .ok (pr.emitted args,idx') ∧
      Pending args idx' rest := by
  have hstart : (⟨idx,pr.text,0⟩ : Progress).sample = flat Word.spell
      (chunkSyms Token.draft ([] : List (Chunk m)) ++
        (pr.parts.flatMap partSyms ++ pr.tail.map .ch)) := rfl
  obtain ⟨s,hfold,hs,hpend⟩ := parts_wrote hm hfps pr.plain (by simp)
    (clean_chars.mpr pr.plainTail) hp hstart
  have hplain := pr.plain_chunks args
  have hfinal : replaceAll (Word.spell .videoPlaceholder) (Word.spell .videoPad)
      (replaceAll (Word.spell .imagePlaceholder) (Word.spell .imagePad)
        (replaceAll (Word.spell .audioPlaceholder) (Word.spell .audioPad) s.sample)) =
      pr.emitted args := by
    rw [hs,List.nil_append]
    change replaceAll _ _ (replaceAll _ _ (replaceAll _ _
      (flat Word.spell (chunkSyms Token.draft (pr.chunks args) ++ pr.tail.map .ch)))) = _
    rw [replaceAll_chunks _ _ _ hplain pr.plainTail,replaceAll_chunks _ _ _ hplain pr.plainTail,
      replaceAll_chunks _ _ _ hplain pr.plainTail]
    simp only [rename_draft]
    rfl
  refine ⟨s.toIndices,?_,hpend⟩
  simp only [replaceSample,pr.findWords_text,hfold,ok_bind,hfinal,pr.encode_emitted,
    validate_wire,pure_eq_ok]
  split <;> rfl

theorem replaceSamples_emitted {prompts : List (Prompt m)} (hm : args.mergeSize = m)
    (hfps : ∀ pr ∈ prompts, pr.Rated args) (hp : Pending args idx (pieces prompts ++ rest)) :
    ∃ idx', replaceSamples args tk idx (prompts.map Prompt.text) =
        .ok (prompts.map (Prompt.emitted args),idx') ∧ Pending args idx' rest := by
  induction prompts generalizing idx with
  | nil => exact ⟨idx,rfl,by simpa [pieces] using hp⟩
  | cons pr prompts ih =>
    have hp' : Pending args idx (pr.parts.map (·.piece) ++ (pieces prompts ++ rest)) := by
      simpa [pieces] using hp
    obtain ⟨idx₁,hone,hp₁⟩ := replaceSample_emitted tk pr hm (hfps pr (by simp)) hp'
    obtain ⟨idx₂,hall,hp₂⟩ := ih (fun pr' h => hfps pr' (by simp [h])) hp₁
    exact ⟨idx₂,by simp [replaceSamples,hone,hall],hp₂⟩

theorem Pending.unconsumed_nil (h : Pending args idx ([] : List (Piece m))) :
    unconsumed args idx = [] := by
  have ha := h.audios.finish
  have hi := h.images.finish
  have hv := h.videos.finish
  simp only [Option.getD_some] at ha hi hv
  simp [unconsumed,ha,hi,hv]

/-- The whole batch: every medium is written, and nothing is left. -/
theorem replaceMultimodalSpecialTokens_emitted {prompts : List (Prompt m)}
    (hm : args.mergeSize = m) (hfps : ∀ pr ∈ prompts, pr.Rated args)
    (hp : Pending args ⟨0,0,0⟩ (pieces prompts)) :
    replaceMultimodalSpecialTokens args tk (prompts.map Prompt.text) =
      .ok (prompts.map (Prompt.emitted args)) := by
  obtain ⟨idx,hrun,hend⟩ := @replaceSamples_emitted m args tk ⟨0,0,0⟩ [] prompts hm hfps
    (by simpa using hp)
  have hnone := hend.unconsumed_nil
  simp only [replaceMultimodalSpecialTokens,hrun,ok_bind]
  rw [raiseIf_of_not fun h => h.1 hnone]
  rfl

theorem writerArgs_pending (p temporalPatchSize : Nat) (u withMetadata : Bool)
    (all : List (Piece m)) :
    Pending (writerArgs p temporalPatchSize u withMetadata all) ⟨0,0,0⟩ all where
  audios := .start _
  images := .start _
  videos := .start _
  seconds := .start _
  metadatas := by
    intro l hl
    cases withMetadata with
    | false => simp [writerArgs] at hl
    | true =>
      obtain rfl : _ = l := by simpa [writerArgs] using hl
      exact .start _

end Sample
end TLiveOmni
