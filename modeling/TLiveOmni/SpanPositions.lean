import TLiveOmni.Agreement

/-! The positions of the vLLM parser, read span by span. -/
set_option autoImplicit false

namespace TLiveOmni
open PySeq

section Layout
variable {m : Nat}

/-- The positions of a span's content from the base `b` on: a grid in row-major order, an audio
run on the diagonal. -/
def Media.places (p : Nat) (b : Int) : Media m → List Pos
  | .image g => (List.range g.t).flatMap fun t : Nat => (List.range g.toFrame.rows).flatMap fun r : Nat =>
      (List.range g.toFrame.cols).map fun c : Nat => ⟨b+t*p,b+r,b+c⟩
  | .grid f _ => (List.range f.rows).flatMap fun r : Nat =>
      (List.range f.cols).map fun c : Nat => ⟨b+0,b+r,b+c⟩
  | .audio a => (List.range a.tokens).map fun i : Nat => ⟨b+i,b+i,b+i⟩
  | .avGrid f j _ => ((List.range f.rows).flatMap fun r : Nat =>
      (List.range f.cols).map fun c : Nat => ⟨b+0,b+r,b+c⟩) ++
      (List.range j).map fun i : Nat => ⟨b+i,b+i,b+i⟩

/-- The positions of a span with the text before it: text and opening delimiters in one run,
the content, and the closing delimiters behind it. -/
def Item.layout (p : Nat) (b : Int) (it : Item m) : List Pos :=
  let base := b+it.text.length+it.media.delims
  arange3 (it.text.length+it.media.delims) b ++ it.media.places p base ++
    arange3 it.media.delims (base+it.media.content p)

theorem Media.flatten_contentBlocks (p : Nat) (b : Int) (a : Media m) :
    (a.contentBlocks p b).flatten = a.places p b := by
  cases a with
  | image g =>
    simp only [contentBlocks,places,rowMajor,List.flatten_singleton,List.flatMap_map]
    push_cast
    rfl
  | grid f last => simp [contentBlocks,places,rowMajor]
  | audio a => simp [contentBlocks,places,arange3,Pos.diag]
  | avGrid f j track =>
    by_cases hj : j = 0
    · simp [contentBlocks,places,rowMajor,hj]
    · simp [contentBlocks,places,rowMajor,hj,arange3,Pos.diag]

theorem Item.flatten_blocks (p : Nat) (b : Int) (it : Item m) :
    (it.blocks p b).flatten = it.layout p b := by
  have hopen : ((List.range it.media.delims).map fun i : Nat => arange3 1 (b+it.text.length+i)).flatten =
      arange3 it.media.delims (b+it.text.length) := by
    simp only [arange3,List.range_one,List.map_cons,List.map_nil,Nat.cast_zero,Int.add_zero]
    rw [← List.flatMap_def]
    exact List.flatMap_pure_eq_map _ _
  rw [blocks,Media.blocks,layout,List.flatten_append,List.flatten_append,List.flatten_append,
    textBlocks_flatten,hopen,Media.flatten_contentBlocks,List.flatten_singleton,
    ← List.append_assoc,arange3_append,List.append_assoc]

theorem itemBlocks_append (p : Nat) (b : Int) (l₁ l₂ : List (Item m)) :
    itemBlocks p b (l₁ ++ l₂) = itemBlocks p b l₁ ++ itemBlocks p (b+itemsAdvance p l₁) l₂ := by
  induction l₁ generalizing b with
  | nil => simp [itemBlocks,itemsAdvance]
  | cons it l₁ ih =>
    rw [List.cons_append,itemBlocks,itemBlocks,ih,List.append_assoc,itemsAdvance,itemsAdvance,
      List.map_cons,List.sum_cons]
    push_cast
    rw [Int.add_assoc]

/-- The columns of a span are its layout, from where the spans before it have ended. -/
theorem Sample.positions_span (p : Nat) (s : Sample m) {before after : List (Item m)} {it : Item m}
    (h : s.items = before ++ it :: after) :
    ((s.positions p).drop (wireItems before).length).take it.wire.length =
      it.layout p (itemsAdvance p before) := by
  have hlen : (wireItems before).length = (itemBlocks p 0 before).flatten.length :=
    (length_itemBlocks p 0 before).symm
  have hit : it.wire.length = (it.blocks p (itemsAdvance p before)).flatten.length :=
    (it.length_blocks p _).symm
  rw [positions,blocks,h,itemBlocks_append,itemBlocks,Int.zero_add,hlen,hit,← it.flatten_blocks]
  simp only [List.flatten_append,List.append_assoc,List.drop_left,List.take_left]

theorem Sample.positions_tail (p : Nat) (s : Sample m) :
    (s.positions p).drop (wireItems s.items).length =
      arange3 s.tail.length (itemsAdvance p s.items) := by
  rw [positions,blocks,List.flatten_append,← length_itemBlocks p 0,List.drop_left,textBlocks_flatten]

theorem Sample.image_at {s : Sample m} {before after : List (Item m)} {it : Item m} {g : Grid m}
    (h : s.items = before ++ it :: after) (hg : it.media = .image g) :
    s.images[imageTotal before]? = some g := by
  rw [images,h,List.flatMap_append,List.flatMap_cons,hg,imageTotal,List.getElem?_append_right le_rfl]
  simp [Media.images]

theorem Sample.grid_at {s : Sample m} {before after : List (Item m)} {it : Item m}
    {f : Frame m} {last : Bool} (h : s.items = before ++ it :: after)
    (hg : it.media.grids = [(f,last)]) : (expandVideos s.videos)[gridTotal before]? = some (f,last) := by
  rw [← s.gridsEq,h,List.flatMap_append,List.flatMap_cons,hg,gridTotal,
    List.getElem?_append_right le_rfl]
  simp

end Layout

section Correct
variable (cfg : Config) {u : Bool} {s : Sample cfg.spatialMergeSize} {mmFeatures : List Mrope.Feature}

theorem getMropeInputPositions_nil : Mrope.getMropeInputPositions cfg [] [] = .ok ([],0) := by
  simp [Mrope.getMropeInputPositions,Mrope.mediaArgs,Mrope.sortedFeatures,Mrope.tensor,prepare,
    arange3]

/-- The parser returns one column per token, every span is laid out over the grid of the image or
of the video that it belongs to, and all other tokens are numbered one after the other. -/
theorem mropePositions_correct (hu : s.Uniform u) (h : Mrope.Carries s u mmFeatures) :
    Mrope.getMropeInputPositions cfg [] [] = .ok ([],0) ∧
    ∃ positions delta, Mrope.getMropeInputPositions cfg s.wire mmFeatures = .ok (positions,delta) ∧
      positions.length = s.wire.length ∧
      (∀ before it after, s.items = before ++ it :: after →
        (positions.drop (wireItems before).length).take it.wire.length =
          it.layout cfg.positionIdPerSeconds (itemsAdvance cfg.positionIdPerSeconds before) ∧
        (∀ g, it.media = .image g →
          ((Mrope.sortedFeatures mmFeatures).filterMap Mrope.FeatureData.imageGrid?)[imageTotal before]? =
            some g.thw) ∧
        ∀ f last, it.media.grids = [(f,last)] →
          (expandVideos s.videos)[gridTotal before]? = some (f,last)) ∧
      positions.drop (wireItems s.items).length =
        arange3 s.tail.length (itemsAdvance cfg.positionIdPerSeconds s.items) := by
  refine ⟨getMropeInputPositions_nil cfg,_,_,getMropeInputPositions_wire cfg hu h,
    s.length_positions _,?_,s.positions_tail _⟩
  intro before it after hitems
  refine ⟨s.positions_span _ hitems,?_,fun f last hg => s.grid_at hitems hg⟩
  intro g hg
  rw [h.images,List.getElem?_map,s.image_at hitems hg]
  rfl

end Correct

section Instances
open Mrope

theorem threeKinds_correct :
    getMropeInputPositions .mergeTwo [] [] = .ok ([],0) ∧
    ∃ positions delta,
      getMropeInputPositions .mergeTwo threeKinds.wire threeFeatures = .ok (positions,delta) ∧
      positions.length = threeKinds.wire.length ∧
      (∀ before it after, threeKinds.items = before ++ it :: after →
        (positions.drop (wireItems before).length).take it.wire.length =
          it.layout 13 (itemsAdvance 13 before) ∧
        (∀ g, it.media = .image g →
          ((sortedFeatures threeFeatures).filterMap FeatureData.imageGrid?)[imageTotal before]? =
            some g.thw) ∧
        ∀ f last, it.media.grids = [(f,last)] →
          (expandVideos threeKinds.videos)[gridTotal before]? = some (f,last)) ∧
      positions.drop (wireItems threeKinds.items).length =
        arange3 threeKinds.tail.length (itemsAdvance 13 threeKinds.items) :=
  mropePositions_correct .mergeTwo (by decide) threeFeatures_carries

/-- A video with its audio, then a silent one of four tokens. -/
def soundThenSilent : Sample 2 :=
  ⟨[⟨[],.avGrid (.ofSides 1 1) 1 (some 4)⟩,⟨[],.grid (.ofSides 2 2) true⟩],[],
    [.ofSides 1 1 1,.ofSides 1 2 2],rfl,by decide⟩

def soundFeatures : List Feature :=
  [⟨2,.video ⟨1,2,2⟩ none (some true)⟩,⟨3,.audio 4⟩,⟨7,.video ⟨1,4,4⟩ none (some true)⟩]

theorem sortedFeatures_sound : sortedFeatures soundFeatures =
    [.video ⟨1,2,2⟩ none (some true),.audio 4,.video ⟨1,4,4⟩ none (some true)] := by
  simp [sortedFeatures,soundFeatures,List.mergeSort_of_pairwise]

/-- The silent video is read as text: its four tokens get columns on the diagonal, not those of
a grid of two rows and two columns. -/
theorem soundThenSilent_flat :
    Carries soundThenSilent true soundFeatures ∧
    ∃ positions delta,
      getMropeInputPositions .mergeTwo soundThenSilent.wire soundFeatures = .ok (positions,delta) ∧
      (positions.drop 6).take 6 = arange3 6 5 ∧
      ∃ before it, soundThenSilent.items = before ++ [it] ∧ (wireItems before).length = 6 ∧
        it.layout 13 (itemsAdvance 13 before) =
          [⟨5,5,5⟩,⟨6,6,6⟩,⟨6,6,7⟩,⟨6,7,6⟩,⟨6,7,7⟩,⟨8,8,8⟩] := by
  refine ⟨?_,arange3 3 0 ++ arange3 9 2,-1,?_,by decide +kernel,
    [⟨[],.avGrid (.ofSides 1 1) 1 (some 4)⟩],⟨[],.grid (.ofSides 2 2) true⟩,
    rfl,by decide,by decide +kernel⟩
  · constructor <;> rw [sortedFeatures_sound]
    · rfl
    · rfl
    · rfl
    · simp [FeatureData.videoGrid?,FeatureData.usesAudio]
  · rw [getMropeInputPositions,mediaArgs,sortedFeatures_sound]
    decide +kernel

end Instances
end TLiveOmni
