import TLiveOmni.Tokens

/-! Well-formed expanded token sequences: text runs interleaved with media spans. The
positions stated here are the reference both position parsers are compared with. -/
set_option autoImplicit false

namespace TLiveOmni
open PySeq

/-- A standalone audio is written with one token per encoder row, at least one. -/
structure AudioClip where
  featureLen : Nat
  rowsPos : 0 < getFeatExtractOutputLengths featureLen
  deriving DecidableEq

/-- An audio of half a second at a hundred frames per second. -/
def halfSecond : AudioClip := ⟨50,by decide⟩

def AudioClip.tokens (a : AudioClip) : Nat := (getFeatExtractOutputLengths a.featureLen).toNat

theorem AudioClip.tokens_cast (a : AudioClip) :
    (a.tokens : Int) = getFeatExtractOutputLengths a.featureLen :=
  Int.toNat_of_nonneg (le_of_lt a.rowsPos)

theorem AudioClip.tokens_pos (a : AudioClip) : 0 < a.tokens := by
  have := a.rowsPos
  have := a.tokens_cast
  omega

/-- The spans of an expanded prompt. A grid span covers one temporal grid of a video;
`last` marks the grid that ends its video, and an audio-in-video grid that ends its video
carries the feature length of the video's audio track. -/
inductive Media (m : Nat) where
  | image (g : Grid m)
  | grid (f : Frame m) (last : Bool)
  | audio (a : AudioClip)
  | avGrid (f : Frame m) (audioTokens : Nat) (track : Option Nat)
  deriving DecidableEq

/-- A span with the text run before it. -/
structure Item (m : Nat) where
  text : List Nat
  media : Media m
  deriving DecidableEq

def wireText (ids : List Nat) : List Token := ids.map .text

namespace Media
variable {m : Nat}

def wire : Media m → List Token
  | .image g => .visionStart :: (List.replicate (g.t*g.toFrame.tokens) .imagePad ++ [.visionEnd])
  | .grid f _ => .visionStart :: (List.replicate f.tokens .videoPad ++ [.visionEnd])
  | .audio a => .audioStart :: (List.replicate a.tokens .audioPad ++ [.audioEnd])
  | .avGrid f j _ => .visionStart :: .audioStart ::
      (List.replicate f.tokens .videoPad ++ (List.replicate j .audioPad ++ [.audioEnd,.visionEnd]))

def images : Media m → List (Grid m)
  | .image g => [g]
  | _ => []

/-- The temporal grid the span covers, and whether it ends its video. -/
def grids : Media m → List (Frame m × Bool)
  | .grid f last => [(f,last)]
  | .avGrid f _ track => [(f,track.isSome)]
  | _ => []

/-- The audio inputs the span uses up: an audio track counts with its video's last grid. -/
def audios : Media m → List Nat
  | .audio a => [a.featureLen]
  | .avGrid _ _ track => track.toList
  | _ => []

def clips : Media m → List AudioClip
  | .audio a => [a]
  | _ => []

def isGrid : Media m → Bool
  | .grid _ _ => true
  | _ => false

def isAv : Media m → Bool
  | .avGrid _ _ _ => true
  | _ => false

/-- Positions taken between the opening and the closing delimiters. The audio run of an
audio-in-video span is laid over the same positions as its grid, and the tokens that
follow continue from the block appended last. -/
def content (p : Nat) : Media m → Nat
  | .image g => g.extent p
  | .grid f _ => f.side
  | .audio a => a.tokens
  | .avGrid f j _ => if j = 0 then f.side else j

/-- Number of opening delimiters, which is also the number of closing ones. -/
def delims : Media m → Nat
  | .avGrid _ _ _ => 2
  | _ => 1

def advance (p : Nat) (a : Media m) : Nat := a.delims + a.content p + a.delims

/-- Blocks of the content, with the first content position `b`. -/
def contentBlocks (p : Nat) (b : Int) : Media m → List Block
  | .image g => [rowMajor b ((List.range g.t).map fun i : Nat => ((i*p : Nat) : Int))
      g.toFrame.rows g.toFrame.cols]
  | .grid f _ => [rowMajor b [0] f.rows f.cols]
  | .audio a => [arange3 a.tokens b]
  | .avGrid f j _ => rowMajor b [0] f.rows f.cols :: (if j = 0 then [] else [arange3 j b])

def blocks (p : Nat) (b : Int) (a : Media m) : List Block :=
  (List.range a.delims).map (fun i : Nat => arange3 1 (b+i)) ++
    (a.contentBlocks p (b+a.delims) ++ [arange3 a.delims (b+a.delims+a.content p)])

/-- The token before the closing `vision_end`, for spans that have one. -/
def closing : Media m → List Token
  | .image _ => [.imagePad]
  | .grid _ _ => [.videoPad]
  | .audio _ => []
  | .avGrid _ _ _ => [.audioEnd]

theorem delims_pos (a : Media m) : 0 < a.delims := by cases a <;> simp [delims]

/-- The closing delimiters start right behind the block appended last. -/
theorem nextPosition_contentBlocks (p : Nat) (b : Int) (a : Media m) (bs : List Block) :
    nextPosition (bs ++ a.contentBlocks p b) = .ok (b+a.content p) := by
  cases a with
  | image g =>
    rw [contentBlocks,nextPosition_of_max (blockMax_grid p g b)]
    simp only [content,Except.ok.injEq]; omega
  | grid f last =>
    rw [contentBlocks,nextPosition_of_max (blockMax_frame f b)]
    simp only [content,Except.ok.injEq]; omega
  | audio a =>
    rw [contentBlocks,nextPosition_of_max (blockMax_arange3 a.tokens_pos b)]
    simp only [content,Except.ok.injEq]; omega
  | avGrid f j track =>
    by_cases hj : j = 0
    · simp only [contentBlocks,content,hj,if_true]
      rw [nextPosition_of_max (blockMax_frame f b)]
      simp only [Except.ok.injEq]; omega
    · have hj' : 0 < j := by omega
      have hsplit : bs ++ contentBlocks p b (.avGrid f j track) =
          (bs ++ [rowMajor b [0] f.rows f.cols]) ++ [arange3 j b] := by
        simp [contentBlocks,hj]
      rw [hsplit,nextPosition_of_max (blockMax_arange3 hj' b)]
      simp only [content,hj,if_false,Except.ok.injEq]; omega

theorem nextPosition_blocks (p : Nat) (b : Int) (a : Media m) (bs : List Block) :
    nextPosition (bs ++ a.blocks p b) = .ok (b+a.advance p) := by
  rw [blocks,← List.append_assoc,← List.append_assoc,
    nextPosition_of_max (blockMax_arange3 a.delims_pos _)]
  simp only [advance,Except.ok.injEq]
  push_cast
  omega

end Media

namespace Item
variable {m : Nat}

def wire (it : Item m) : List Token := wireText it.text ++ it.media.wire

def textBlocks (ids : List Nat) (b : Int) : List Block :=
  if ids = [] then [] else [arange3 ids.length b]

def blocks (p : Nat) (b : Int) (it : Item m) : List Block :=
  textBlocks it.text b ++ it.media.blocks p (b+it.text.length)

def advance (p : Nat) (it : Item m) : Nat := it.text.length + it.media.advance p

theorem nextPosition_blocks (p : Nat) (b : Int) (it : Item m) (bs : List Block) :
    nextPosition (bs ++ it.blocks p b) = .ok (b+it.advance p) := by
  rw [blocks,← List.append_assoc,Media.nextPosition_blocks]
  simp only [advance,Except.ok.injEq]
  push_cast
  omega

end Item

/-- `repeat_interleave` of the video grids over their temporal axis; the flag marks the
indices in `video_chunk_end_indices`. -/
def expandVideos {m : Nat} (videos : List (Grid m)) : List (Frame m × Bool) :=
  videos.flatMap fun v => (List.range v.t).map fun i : Nat => (v.toFrame,decide (i+1 = v.t))

/-- One prompt of a batch together with the media it uses. The grid spans in reading order
are the temporal grids of the videos, and there is at least one token. -/
structure Sample (m : Nat) where
  items : List (Item m)
  tail : List Nat
  videos : List (Grid m)
  gridsEq : items.flatMap (·.media.grids) = expandVideos videos
  nonempty : items ≠ [] ∨ tail ≠ []

theorem noGrids : ([] : List (Item 2)).flatMap (·.media.grids) = expandVideos [] := rfl

def wireItems {m : Nat} (items : List (Item m)) : List Token := items.flatMap Item.wire

def itemBlocks {m : Nat} (p : Nat) : Int → List (Item m) → List Block
  | _, [] => []
  | b, it :: items => it.blocks p b ++ itemBlocks p (b+it.advance p) items

def itemsAdvance {m : Nat} (p : Nat) (items : List (Item m)) : Nat :=
  (items.map (Item.advance p)).sum

namespace Sample
variable {m : Nat}

def wire (s : Sample m) : List Token := wireItems s.items ++ wireText s.tail

def images (s : Sample m) : List (Grid m) := s.items.flatMap (·.media.images)

def audios (s : Sample m) : List Nat := s.items.flatMap (·.media.audios)

def hasGrid (s : Sample m) : Bool := s.items.any (·.media.isGrid)

def hasAv (s : Sample m) : Bool := s.items.any (·.media.isAv)

/-- Audio-in-video spans only under the flag, and then no visual-only grid beside them. -/
def Uniform (useAudioInVideo : Bool) (s : Sample m) : Prop :=
  s.hasAv = true → useAudioInVideo = true ∧ s.hasGrid = false

instance (u : Bool) (s : Sample m) : Decidable (s.Uniform u) :=
  inferInstanceAs (Decidable (_ → _))

/-- The blocks a correct parser appends. -/
def blocks (p : Nat) (s : Sample m) : List Block :=
  itemBlocks p 0 s.items ++ Item.textBlocks s.tail (itemsAdvance p s.items)

/-- The positions a correct parser assigns, one column per token. -/
def positions (p : Nat) (s : Sample m) : List Pos := (s.blocks p).flatten

/-- The largest position on any axis. -/
def top (p : Nat) (s : Sample m) : Int := (((s.positions p).map Pos.top).max?).getD 0

/-- What a correct parser returns as the delta of the sequence. -/
def delta (p : Nat) (s : Sample m) : Int := s.top p+1-s.wire.length

end Sample

section Length
variable {m : Nat}

theorem length_textBlocks (ids : List Nat) (b : Int) :
    (Item.textBlocks ids b).flatten.length = ids.length := by
  by_cases h : ids = [] <;> simp [Item.textBlocks,h]

theorem Media.length_blocks (p : Nat) (b : Int) (a : Media m) :
    (a.blocks p b).flatten.length = a.wire.length := by
  cases a with
  | image g => simp [blocks,contentBlocks,delims,wire,Frame.tokens]; omega
  | grid f last => simp [blocks,contentBlocks,delims,wire,Frame.tokens]; omega
  | audio a => simp [blocks,contentBlocks,delims,wire]; omega
  | avGrid f j track =>
    by_cases hj : j = 0
    · simp [blocks,contentBlocks,delims,wire,Frame.tokens,hj,List.range_succ]; omega
    · simp [blocks,contentBlocks,delims,wire,Frame.tokens,hj,List.range_succ]; omega

theorem Item.length_blocks (p : Nat) (b : Int) (it : Item m) :
    (it.blocks p b).flatten.length = it.wire.length := by
  simp only [blocks,wire,wireText,List.flatten_append,List.length_append,length_textBlocks,
    Media.length_blocks,List.length_map]

theorem length_itemBlocks (p : Nat) (b : Int) (items : List (Item m)) :
    (itemBlocks p b items).flatten.length = (wireItems items).length := by
  induction items generalizing b with
  | nil => rfl
  | cons it items ih =>
    simp only [itemBlocks,wireItems,List.flatMap_cons,List.flatten_append,List.length_append,
      Item.length_blocks]
    rw [ih]
    rfl

theorem Sample.length_positions (p : Nat) (s : Sample m) :
    (s.positions p).length = s.wire.length := by
  simp only [positions,blocks,wire,List.flatten_append,List.length_append,length_itemBlocks,
    length_textBlocks,wireText,List.length_map]

theorem Media.wire_ne_nil (a : Media m) : a.wire ≠ [] := by cases a <;> simp [wire]

theorem Sample.wire_ne_nil (s : Sample m) : s.wire ≠ [] := by
  intro h
  obtain ⟨hi,ht⟩ := List.append_eq_nil_iff.mp h
  rcases s.nonempty with hn | hn
  · obtain ⟨it,items,he⟩ := List.exists_cons_of_ne_nil hn
    rw [he,wireItems,List.flatMap_cons] at hi
    exact it.media.wire_ne_nil (List.append_eq_nil_iff.mp (List.append_eq_nil_iff.mp hi).1).2
  · exact hn (List.map_eq_nil_iff.mp ht)

theorem Sample.positions_ne_nil (p : Nat) (s : Sample m) : s.positions p ≠ [] := by
  intro h
  have := s.length_positions p
  rw [h] at this
  exact s.wire_ne_nil (List.length_eq_zero_iff.mp this.symm)

theorem Sample.blocks_ne_nil (p : Nat) (s : Sample m) : s.blocks p ≠ [] := fun h =>
  s.positions_ne_nil p (by rw [positions,h]; rfl)

theorem Sample.blockMax_positions (p : Nat) (s : Sample m) :
    blockMax (s.positions p) = .ok (s.top p) := by
  have hne : (s.positions p).map Pos.top ≠ [] := by simp [s.positions_ne_nil p]
  obtain ⟨v,hv⟩ := Option.ne_none_iff_exists'.mp (mt List.max?_eq_none_iff.mp hne)
  simp [blockMax,top,hv]

end Length

section Advance
variable {m : Nat}

end Advance

section Plain
variable {m : Nat}

theorem arange3_append (a c : Nat) (b : Int) :
    arange3 a b ++ arange3 c (b+a) = arange3 (a+c) b := by
  simp only [arange3,List.range_add,List.map_append,List.map_map]
  congr 2
  funext i
  simp [Int.add_assoc]

theorem arange3_succ (n : Nat) (b : Int) : arange3 (n+1) b = .diag b :: arange3 n (b+1) := by
  rw [Nat.add_comm,← arange3_append]
  simp [arange3]

theorem textBlocks_flatten (ids : List Nat) (b : Int) :
    (Item.textBlocks ids b).flatten = arange3 ids.length b := by
  by_cases h : ids = [] <;> simp [Item.textBlocks,h,arange3]

/-- Text and standalone audio take one position per token. -/
theorem Media.blocks_plain (p : Nat) (b : Int) {a : Media m} (hi : a.images = [])
    (hg : a.grids = []) :
    (a.blocks p b).flatten = arange3 a.wire.length b ∧ a.advance p = a.wire.length := by
  cases a with
  | audio a =>
    refine ⟨?_,by simp [advance,delims,content,wire]; omega⟩
    have hlen : (wire (.audio a : Media m)).length = 1+(a.tokens+1) := by simp [wire]; omega
    rw [hlen,← arange3_append,← arange3_append]
    simp [blocks,contentBlocks,delims,content,List.range_succ]
  | image g => simp [images] at hi
  | grid f last => simp [grids] at hg
  | avGrid f j track => simp [grids] at hg

theorem itemBlocks_plain (p : Nat) (b : Int) {items : List (Item m)}
    (hi : items.flatMap (·.media.images) = []) (hg : items.flatMap (·.media.grids) = []) :
    (itemBlocks p b items).flatten = arange3 (wireItems items).length b ∧
      itemsAdvance p items = (wireItems items).length := by
  induction items generalizing b with
  | nil => simp [itemBlocks,wireItems,itemsAdvance,arange3]
  | cons it items ih =>
    simp only [List.flatMap_cons,List.append_eq_nil_iff] at hi hg
    obtain ⟨hm,hadv⟩ := Media.blocks_plain p (b+it.text.length) hi.1 hg.1
    have hit : it.advance p = it.wire.length := by
      simp [Item.advance,hadv,Item.wire,wireText]
    obtain ⟨hrest,hsum⟩ := ih (b+it.advance p) hi.2 hg.2
    have hlen : (wireItems (it :: items)).length = it.wire.length+(wireItems items).length := by
      simp [wireItems]
    refine ⟨?_,?_⟩
    · have hflat : (it.blocks p b).flatten = arange3 it.wire.length b := by
        rw [Item.blocks,List.flatten_append,textBlocks_flatten,hm,arange3_append]
        simp [Item.wire,wireText]
      rw [itemBlocks,List.flatten_append,hflat,hrest,hit,arange3_append,hlen]
    · rw [hlen,← hsum,← hit]
      simp [itemsAdvance]

theorem Sample.positions_plain {p : Nat} (s : Sample m) (hi : s.images = [])
    (hv : s.videos = []) : s.positions p = arange3 s.wire.length 0 := by
  have hg : s.items.flatMap (·.media.grids) = [] := by rw [s.gridsEq,hv]; rfl
  obtain ⟨hpos,hadv⟩ := itemBlocks_plain p 0 hi hg
  have hb : (itemsAdvance p s.items : Int) = 0+(wireItems s.items).length := by
    rw [hadv]; omega
  rw [positions,blocks,List.flatten_append,hpos,textBlocks_flatten,hb,arange3_append]
  simp [wire,wireText]

theorem Sample.delta_plain {p : Nat} (s : Sample m) (hi : s.images = [])
    (hv : s.videos = []) : s.delta p = 0 := by
  have hmax := s.blockMax_positions p
  have hn : 0 < s.wire.length := List.length_pos_iff.mpr s.wire_ne_nil
  rw [s.positions_plain hi hv,blockMax_arange3 hn] at hmax
  simp only [Except.ok.injEq] at hmax
  simp only [delta]
  omega

end Plain

section Videos
variable {m : Nat}

theorem expandVideos_append (a b : List (Grid m)) :
    expandVideos (a ++ b) = expandVideos a ++ expandVideos b := by
  simp [expandVideos]

end Videos

/-- The tokens before each `vision_end`, with the token `prev` before the list. -/
def beforeEnds : Option Token → List Token → List Token
  | _, [] => []
  | prev, x :: l => (if x = .visionEnd then prev.toList else []) ++ beforeEnds (some x) l

section Counting
variable {m : Nat}

theorem filterMap_indicesOf_eq (prev : Option Token) (l : List Token) :
    ((indicesOf .visionEnd l).filterMap fun i => if i = 0 then prev else l[i-1]?) =
      beforeEnds prev l := by
  induction l generalizing prev with
  | nil => rfl
  | cons x l ih =>
    have hmap : (fun i => if i = 0 then prev else (x :: l)[i-1]?) ∘ (· + 1) =
        fun i => if i = 0 then some x else l[i-1]? := by
      funext i
      cases i <;> simp
    simp only [indicesOf,beforeEnds,List.filterMap_append,List.filterMap_map,hmap,ih]
    congr 1
    by_cases hx : x = .visionEnd
    · cases prev <;> simp [hx]
    · simp [hx]

theorem visionTokens_eq (l : List Token) : visionTokens l = beforeEnds l.getLast? l :=
  filterMap_indicesOf_eq _ l

theorem beforeEnds_append (prev : Option Token) (a b : List Token) :
    beforeEnds prev (a ++ b) = beforeEnds prev a ++ beforeEnds ((a.getLast?).or prev) b := by
  induction a generalizing prev with
  | nil => simp [beforeEnds]
  | cons y a ih =>
    rw [List.cons_append,beforeEnds,beforeEnds,ih,List.append_assoc]
    cases a with
    | nil => simp
    | cons z a => simp [List.getLast?_cons]

theorem beforeEnds_eq_nil {a : List Token} (h : .visionEnd ∉ a) (prev : Option Token) :
    beforeEnds prev a = [] := by
  induction a generalizing prev with
  | nil => rfl
  | cons y a ih =>
    have hy : y ≠ .visionEnd := fun e => h (by simp [e])
    simp [beforeEnds,hy,ih (fun e => h (by simp [e]))]

theorem beforeEnds_text (prev : Option Token) (ids : List Nat) :
    beforeEnds prev (wireText ids) = [] :=
  beforeEnds_eq_nil (by simp [wireText]) prev

theorem beforeEnds_pads (prev : Option Token) {x : Token} (hx : x ≠ .visionEnd) {n : Nat}
    (hn : 0 < n) : beforeEnds prev (List.replicate n x ++ [.visionEnd]) = [x] := by
  rw [beforeEnds_append,beforeEnds_eq_nil (by simp [Ne.symm hx])]
  have hlast : (List.replicate n x).getLast? = some x := by
    simp [List.getLast?_replicate]; omega
  simp [hlast,beforeEnds]

theorem Media.beforeEnds_wire (prev : Option Token) (a : Media m) :
    beforeEnds prev a.wire = a.closing := by
  cases a with
  | image g =>
    have hn : 0 < g.t*g.toFrame.tokens := Nat.mul_pos g.tPos g.toFrame.tokens_pos
    simp [wire,beforeEnds,beforeEnds_pads,hn,closing]
  | grid f last => simp [wire,beforeEnds,beforeEnds_pads,f.tokens_pos,closing]
  | audio a =>
    have : .visionEnd ∉ wire (.audio a : Media m) := by simp [wire]
    simpa [closing] using beforeEnds_eq_nil this prev
  | avGrid f j track =>
    have hv : .visionEnd ∉ List.replicate f.tokens Token.videoPad := by simp
    have ha : .visionEnd ∉ List.replicate j Token.audioPad := by simp
    simp [wire,beforeEnds,beforeEnds_append,beforeEnds_eq_nil hv,beforeEnds_eq_nil ha,closing]

theorem beforeEnds_wireItems (prev : Option Token) (items : List (Item m)) (tail : List Nat) :
    beforeEnds prev (wireItems items ++ wireText tail) = items.flatMap (·.media.closing) := by
  induction items generalizing prev with
  | nil => simpa [wireItems] using beforeEnds_text prev tail
  | cons it items ih =>
    have hsplit : wireItems (it :: items) ++ wireText tail =
        wireText it.text ++ (it.media.wire ++ (wireItems items ++ wireText tail)) := by
      simp [wireItems,Item.wire]
    rw [hsplit,beforeEnds_append,beforeEnds_text,beforeEnds_append,Media.beforeEnds_wire,ih]
    simp

/-- Each vision span shows up once, by the token before its `vision_end`. -/
theorem Sample.visionTokens_wire (s : Sample m) :
    visionTokens s.wire = s.items.flatMap (·.media.closing) := by
  rw [visionTokens_eq,wire,beforeEnds_wireItems]

end Counting

section Totals
variable {m : Nat}

def imageTotal (items : List (Item m)) : Nat := (items.flatMap (·.media.images)).length
def gridTotal (items : List (Item m)) : Nat := (items.flatMap (·.media.grids)).length
def clipTotal (items : List (Item m)) : Nat := (items.flatMap (·.media.clips)).length

theorem items_length (items : List (Item m)) :
    items.length = imageTotal items + gridTotal items + clipTotal items := by
  induction items with
  | nil => rfl
  | cons it items ih =>
    cases hm : it.media <;>
      simp [imageTotal,gridTotal,clipTotal,hm,Media.images,Media.grids,Media.clips] at * <;> omega

theorem count_closing_image (items : List (Item m)) :
    (items.flatMap (·.media.closing)).count .imagePad = imageTotal items := by
  induction items with
  | nil => rfl
  | cons it items ih =>
    cases hm : it.media <;>
      simp [imageTotal,hm,Media.images,Media.closing] at * <;> omega

theorem count_closing_video {items : List (Item m)} (h : items.any (·.media.isAv) = false) :
    (items.flatMap (·.media.closing)).count .videoPad = gridTotal items ∧
      (items.flatMap (·.media.closing)).count .audioEnd = 0 := by
  induction items with
  | nil => exact ⟨rfl,rfl⟩
  | cons it items ih =>
    simp only [List.any_cons,Bool.or_eq_false_iff] at h
    obtain ⟨hv,ha⟩ := ih h.2
    cases hm : it.media <;>
      simp [gridTotal,hm,Media.grids,Media.closing,Media.isAv] at * <;> omega

theorem count_closing_av {items : List (Item m)} (h : items.any (·.media.isGrid) = false) :
    (items.flatMap (·.media.closing)).count .audioEnd = gridTotal items ∧
      (items.flatMap (·.media.closing)).count .videoPad = 0 := by
  induction items with
  | nil => exact ⟨rfl,rfl⟩
  | cons it items ih =>
    simp only [List.any_cons,Bool.or_eq_false_iff] at h
    obtain ⟨ha,hv⟩ := ih h.2
    cases hm : it.media <;>
      simp [gridTotal,hm,Media.grids,Media.closing,Media.isGrid] at * <;> omega

theorem Media.count_audioStart (a : Media m) :
    a.wire.count .audioStart = a.clips.length + a.closing.count .audioEnd := by
  cases a <;> simp [wire,clips,closing,List.count_replicate]

theorem count_audioStart (items : List (Item m)) (tail : List Nat) :
    (wireItems items ++ wireText tail).count .audioStart =
      clipTotal items + (items.flatMap (·.media.closing)).count .audioEnd := by
  have htext : ∀ ids : List Nat, (wireText ids).count .audioStart = 0 := by
    intro ids
    simp [wireText,List.count_eq_zero]
  induction items with
  | nil => simp [wireItems,clipTotal,htext]
  | cons it items ih =>
    simp only [wireItems,List.flatMap_cons,List.count_append,Item.wire,htext,
      Media.count_audioStart,clipTotal,List.length_append] at *
    omega

end Totals
end TLiveOmni
