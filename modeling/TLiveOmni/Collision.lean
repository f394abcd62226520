import TLiveOmni.Agreement
import TLiveOmni.Overhang

/-! When the tokens behind a span have positions beyond all earlier ones. -/
set_option autoImplicit false

namespace TLiveOmni
open PySeq

/-- Tokens with their positions, in reading order. -/
abbrev Placed := List (Token × Pos)

/-- Wherever `start` holds of what precedes, a delimiter or text token lies, on each axis,
beyond all positions before it. -/
def Clear (start : Placed → Prop) (placed : Placed) : Prop :=
  ∀ before x q after, placed = before ++ (x,q) :: after → x.isPad = false → start before →
    ∀ y ∈ before, y.2.top < q.bot

/-- The media tokens of some span have been read. -/
def behindMedia (before : Placed) : Prop := ∃ y ∈ before, y.1.isPad = true

/-- The first span has been read up to and including its closing delimiters. -/
def behindSpan {m : Nat} (s : Sample m) (before : Placed) : Prop :=
  ∃ it items, s.items = it :: items ∧ it.wire.length ≤ before.length

/-- Positions within bounds, where each delimiter and text token clears what precedes. -/
structure Rising (lo hi : Int) (placed : Placed) : Prop where
  le : lo ≤ hi
  bounds : ∀ y ∈ placed, lo ≤ y.2.bot ∧ y.2.top < hi
  clear : placed.Pairwise fun y z => z.1.isPad = false → y.2.top < z.2.bot

namespace Rising
variable {lo mid hi : Int} {a b placed : Placed}

theorem append (ha : Rising lo mid a) (hb : Rising mid hi b) : Rising lo hi (a ++ b) where
  le := ha.le.trans hb.le
  bounds := by
    intro y hy
    rcases List.mem_append.mp hy with hy | hy
    · exact ⟨(ha.bounds y hy).1,lt_of_lt_of_le (ha.bounds y hy).2 hb.le⟩
    · exact ⟨ha.le.trans (hb.bounds y hy).1,(hb.bounds y hy).2⟩
  clear := List.pairwise_append.mpr ⟨ha.clear,hb.clear,fun y hy z hz _ =>
    lt_of_lt_of_le (ha.bounds y hy).2 (hb.bounds z hz).1⟩

theorem clears (h : Rising lo hi placed) (start : Placed → Prop) : Clear start placed := by
  rintro before x q after rfl hx - y hy
  exact (List.pairwise_append.mp h.clear).2.2 y hy (x,q) (by simp) hx

theorem run (tokens : List Token) (b : Int) :
    Rising b (b+tokens.length) (tokens.zip (arange3 tokens.length b)) where
  le := by omega
  bounds := by
    intro y hy
    obtain ⟨i,hi,hp⟩ := mem_arange3.mp (List.of_mem_zip (show (y.1,y.2) ∈ _ from hy)).2
    rw [hp,Pos.bot_diag,Pos.top_diag]
    omega
  clear := by
    rw [List.pairwise_iff_getElem]
    intro i j hi hj hij _
    simp only [List.length_zip,length_arange3,Nat.min_self] at hi hj
    simp only [List.getElem_zip,arange3,List.getElem_map,List.getElem_range,Pos.top_diag,
      Pos.bot_diag]
    omega

end Rising

namespace Media
variable {m : Nat}

def opening : Media m → List Token
  | .audio _ => [.audioStart]
  | .avGrid _ _ _ => [.visionStart,.audioStart]
  | _ => [.visionStart]

def pads : Media m → List Token
  | .image g => List.replicate (g.t*g.toFrame.tokens) .imagePad
  | .grid f _ => List.replicate f.tokens .videoPad
  | .audio a => List.replicate a.tokens .audioPad
  | .avGrid f j _ => List.replicate f.tokens .videoPad ++ List.replicate j .audioPad

def closers : Media m → List Token
  | .audio _ => [.audioEnd]
  | .avGrid _ _ _ => [.audioEnd,.visionEnd]
  | _ => [.visionEnd]

theorem wire_split (a : Media m) : a.wire = a.opening ++ (a.pads ++ a.closers) := by
  cases a <;> simp [wire,opening,pads,closers]

theorem length_opening (a : Media m) : a.opening.length = a.delims := by
  cases a <;> rfl

theorem length_closers (a : Media m) : a.closers.length = a.delims := by
  cases a <;> rfl

theorem isPad_of_mem_pads {a : Media m} {x : Token} (h : x ∈ a.pads) : x.isPad = true := by
  cases a with
  | image g => simp only [pads,List.mem_replicate] at h; simp [h.2,Token.isPad]
  | grid f last => simp only [pads,List.mem_replicate] at h; simp [h.2,Token.isPad]
  | audio a => simp only [pads,List.mem_replicate] at h; simp [h.2,Token.isPad]
  | avGrid f j track =>
    simp only [pads,List.mem_append,List.mem_replicate] at h
    rcases h with h | h <;> simp [h.2,Token.isPad]

theorem length_contentBlocks (p : Nat) (b : Int) (a : Media m) :
    (a.contentBlocks p b).flatten.length = a.pads.length := by
  cases a with
  | image g => simp [contentBlocks,pads,Frame.tokens]
  | grid f last => simp [contentBlocks,pads,Frame.tokens]
  | audio a => simp [contentBlocks,pads]
  | avGrid f j track => by_cases hj : j = 0 <;> simp [contentBlocks,pads,Frame.tokens,hj]

theorem blocks_flatten (p : Nat) (b : Int) (a : Media m) :
    (a.blocks p b).flatten = arange3 a.delims b ++ ((a.contentBlocks p (b+a.delims)).flatten ++
      arange3 a.delims (b+a.delims+a.content p)) := by
  have hopen : ((List.range a.delims).map fun i : Nat => arange3 1 (b+i)).flatten =
      arange3 a.delims b := by
    cases a <;> simp [delims,arange3,List.range_succ]
  simp [blocks,hopen]

/-- The span as placed from position `b`: opening run, content, closing run. -/
theorem zip_blocks (p : Nat) (b : Int) (a : Media m) :
    a.wire.zip (a.blocks p b).flatten =
      a.opening.zip (arange3 a.opening.length b) ++
        (a.pads.zip (a.contentBlocks p (b+a.delims)).flatten ++
          a.closers.zip (arange3 a.closers.length (b+a.delims+a.content p))) := by
  rw [wire_split,blocks_flatten,length_opening,length_closers,
    List.zip_append (by rw [length_opening,length_arange3]),
    List.zip_append (by rw [length_contentBlocks])]

theorem bot_ge {p : Nat} {b : Int} {a : Media m} {q : Pos}
    (h : q ∈ (a.contentBlocks p b).flatten) : b ≤ q.bot := by
  have hgrid : ∀ {ts : List Int} {r c : Nat}, (∀ t ∈ ts, 0 ≤ t) → q ∈ rowMajor b ts r c →
      b ≤ q.bot := by
    intro ts r c hts hq
    obtain ⟨t,ht,i,-,k,-,rfl⟩ := mem_rowMajor.mp hq
    have := hts t ht
    simp only [Pos.bot]
    omega
  have hrun : ∀ {n : Nat}, q ∈ arange3 n b → b ≤ q.bot := by
    intro n hq
    obtain ⟨i,-,rfl⟩ := mem_arange3.mp hq
    rw [Pos.bot_diag]
    omega
  cases a with
  | image g =>
    simp only [contentBlocks,List.flatten_cons,List.flatten_nil,List.append_nil] at h
    refine hgrid ?_ h
    intro t ht
    obtain ⟨i,-,rfl⟩ := List.mem_map.mp ht
    omega
  | grid f last =>
    simp only [contentBlocks,List.flatten_cons,List.flatten_nil,List.append_nil] at h
    exact hgrid (by simp) h
  | audio a =>
    simp only [contentBlocks,List.flatten_cons,List.flatten_nil,List.append_nil] at h
    exact hrun h
  | avGrid f j track =>
    simp only [contentBlocks,List.flatten_cons,List.mem_append] at h
    rcases h with h | h
    · exact hgrid (by simp) h
    · by_cases hj : j = 0
      · simp [hj] at h
      · simp only [hj,if_false,List.flatten_cons,List.flatten_nil,List.append_nil] at h
        exact hrun h

/-- Without overhang the content stays below the closing delimiters. -/
theorem rising_content (p : Nat) (b : Int) {a : Media m} (h : a.overhang = 0) :
    Rising b (b+a.content p) (a.pads.zip (a.contentBlocks p b).flatten) where
  le := by omega
  bounds := by
    intro y hy
    have hmem := (List.of_mem_zip (show (y.1,y.2) ∈ _ from hy)).2
    have := (blockMax_spec (a.blockMax_contentBlocks p b)).2 _ hmem
    exact ⟨bot_ge hmem,by omega⟩
  clear := by
    refine List.pairwise_of_forall_mem_list fun y _ z hz hpad => ?_
    have := isPad_of_mem_pads (List.of_mem_zip (show (z.1,z.2) ∈ _ from hz)).1
    rw [this] at hpad
    cases hpad

theorem rising_blocks (p : Nat) (b : Int) {a : Media m} (h : a.overhang = 0) :
    Rising b (b+a.advance p) (a.wire.zip (a.blocks p b).flatten) := by
  rw [zip_blocks]
  have hopen := Rising.run a.opening b
  have hclose := Rising.run a.closers (b+a.delims+a.content p)
  have hmid := rising_content p (b+a.delims) h
  rw [length_opening] at hopen
  rw [length_closers] at hclose
  have hend : b+(a.advance p : Nat) = b+a.delims+a.content p+a.delims := by
    simp only [advance]
    push_cast
    omega
  rw [length_opening,length_closers,hend]
  exact hopen.append (hmid.append hclose)

end Media

section Placement
variable {m : Nat}

/-- The items and the trailing text as placed from position `b`. -/
def place (p : Nat) (b : Int) (items : List (Item m)) (tail : List Nat) : Placed :=
  (wireItems items ++ wireText tail).zip
    ((itemBlocks p b items).flatten ++ arange3 tail.length (b+itemsAdvance p items))

def Item.place (p : Nat) (b : Int) (it : Item m) : Placed :=
  it.wire.zip (it.blocks p b).flatten

theorem Sample.zip_positions (p : Nat) (s : Sample m) :
    s.wire.zip (s.positions p) = place p 0 s.items s.tail := by
  simp [place,wire,positions,blocks,textBlocks_flatten]

theorem Item.place_eq (p : Nat) (b : Int) (it : Item m) :
    it.place p b = (wireText it.text).zip (arange3 (wireText it.text).length b) ++
      it.media.wire.zip (it.media.blocks p (b+it.text.length)).flatten := by
  rw [place,Item.wire,Item.blocks,List.flatten_append,textBlocks_flatten,length_wireText,
    List.zip_append (by simp)]

theorem place_nil (p : Nat) (b : Int) (tail : List Nat) :
    place p b ([] : List (Item m)) tail =
      (wireText tail).zip (arange3 (wireText tail).length b) := by
  simp [place,wireItems,itemBlocks,itemsAdvance]

theorem place_cons (p : Nat) (b : Int) (it : Item m) (items : List (Item m)) (tail : List Nat) :
    place p b (it :: items) tail = it.place p b ++ place p (b+it.advance p) items tail := by
  have hadv : b+(itemsAdvance p (it :: items) : Int) =
      b+it.advance p+itemsAdvance p items := by
    simp only [itemsAdvance,List.map_cons,List.sum_cons]
    push_cast
    omega
  rw [place,hadv]
  simp only [wireItems,List.flatMap_cons,itemBlocks,List.flatten_append,List.append_assoc]
  rw [List.zip_append (it.length_blocks p b).symm]
  rfl

theorem place_append (p : Nat) (b : Int) (front back : List (Item m)) (tail : List Nat) :
    ∃ before : Placed, before.length = (wireItems front).length ∧
      place p b (front ++ back) tail = before ++ place p (b+itemsAdvance p front) back tail := by
  induction front generalizing b with
  | nil => exact ⟨[],rfl,by simp [itemsAdvance]⟩
  | cons it front ih =>
    obtain ⟨before,hlen,hplace⟩ := ih (b+it.advance p)
    refine ⟨it.place p b ++ before,?_,?_⟩
    · simp [Item.place,hlen,it.length_blocks,wireItems]
    · rw [List.cons_append,place_cons,hplace,List.append_assoc]
      congr 3
      simp only [itemsAdvance,List.map_cons,List.sum_cons]
      push_cast
      omega

theorem Item.rising (p : Nat) (b : Int) {it : Item m} (h : it.media.overhang = 0) :
    Rising b (b+it.advance p) (it.place p b) := by
  rw [Item.place_eq]
  have htext := Rising.run (wireText it.text) b
  have hmedia := Media.rising_blocks p (b+it.text.length) h
  rw [length_wireText] at htext ⊢
  have hend : b+(it.advance p : Nat) = b+it.text.length+it.media.advance p := by
    simp only [Item.advance]
    push_cast
    omega
  rw [hend]
  exact htext.append hmedia

theorem rising_place (p : Nat) (b : Int) {items : List (Item m)} (tail : List Nat)
    (h : ∀ it ∈ items, it.media.overhang = 0) :
    Rising b (b+itemsAdvance p items+tail.length) (place p b items tail) := by
  induction items generalizing b with
  | nil =>
    rw [place_nil]
    simpa [itemsAdvance] using Rising.run (wireText tail) b
  | cons it items ih =>
    have hit := Item.rising p b (h it (by simp))
    have hrest := ih (b+it.advance p) fun it' hit' => h it' (by simp [hit'])
    have hend : b+(itemsAdvance p (it :: items) : Nat)+tail.length =
        b+it.advance p+itemsAdvance p items+tail.length := by
      simp only [itemsAdvance,List.map_cons,List.sum_cons]
      push_cast
      omega
    rw [place_cons,hend]
    exact hit.append hrest

end Placement

section Overlap
variable {m : Nat}

theorem exists_mem_zip {α β : Type} {l₁ : List α} {l₂ : List β} (h : l₂.length = l₁.length) {b : β}
    (hb : b ∈ l₂) : ∃ a, (a,b) ∈ l₁.zip l₂ := by
  have hmap := List.map_snd_zip (show l₂.length ≤ l₁.length by omega)
  rw [← hmap] at hb
  obtain ⟨y,hy,rfl⟩ := List.mem_map.mp hb
  exact ⟨y.1,hy⟩

theorem Media.closers_cons (a : Media m) : ∃ x rest, a.closers = x :: rest ∧ x.isPad = false := by
  cases a <;> exact ⟨_,_,rfl,rfl⟩

theorem Item.exists_top (p : Nat) (b : Int) (it : Item m) :
    ∃ y ∈ it.media.pads.zip (it.media.contentBlocks p (b+it.text.length+it.media.delims)).flatten,
      y.1.isPad = true ∧ y.2.top+1 = b+it.text.length+it.media.delims+it.media.content p+
        it.media.overhang := by
  obtain ⟨⟨q,hq,htop⟩,-⟩ := blockMax_spec
    (it.media.blockMax_contentBlocks p (b+it.text.length+it.media.delims))
  obtain ⟨x,hx⟩ := exists_mem_zip (it.media.length_contentBlocks p _) hq
  exact ⟨(x,q),hx,Media.isPad_of_mem_pads (List.of_mem_zip hx).1,by dsimp only; omega⟩

/-- The first closing delimiter of a span with an overhang is not beyond its grid. -/
theorem Item.overlap (p : Nat) (b : Int) {it : Item m} (h : it.media.overhang ≠ 0) :
    ∃ before x q after, it.place p b = before ++ (x,q) :: after ∧ x.isPad = false ∧
      ∃ y ∈ before, y.1.isPad = true ∧ ¬ y.2.top < q.bot := by
  obtain ⟨x,rest,hclose,hx⟩ := it.media.closers_cons
  obtain ⟨y,hy,hpad,htop⟩ := it.exists_top p b
  refine ⟨(wireText it.text).zip (arange3 (wireText it.text).length b) ++
      (it.media.opening.zip (arange3 it.media.opening.length (b+it.text.length)) ++
        it.media.pads.zip (it.media.contentBlocks p (b+it.text.length+it.media.delims)).flatten),
    x,.diag (b+it.text.length+it.media.delims+it.media.content p),
    rest.zip (arange3 rest.length (b+it.text.length+it.media.delims+it.media.content p+1)),
    ?_,hx,y,by simp [hy],hpad,?_⟩
  · rw [Item.place_eq,Media.zip_blocks,hclose,List.length_cons,arange3_succ]
    simp
  · rw [Pos.bot_diag]
    omega

theorem place_head (p : Nat) (b : Int) {items : List (Item m)} {tail : List Nat}
    (h : items ≠ [] ∨ tail ≠ []) :
    ∃ x after, place p b items tail = (x,.diag b) :: after ∧ x.isPad = false := by
  cases items with
  | nil =>
    cases tail with
    | nil => simp at h
    | cons t tail =>
      rw [place_nil]
      exact ⟨.text t,_,by simp only [wireText,List.map_cons,List.length_cons,arange3_succ,
        List.zip_cons_cons]; rfl,rfl⟩
  | cons it items =>
    rw [place_cons,Item.place_eq]
    cases htext : it.text with
    | nil =>
      rw [Media.zip_blocks]
      cases it.media with
      | image g => exact ⟨.visionStart,_,by simp [wireText,Media.opening,arange3_succ]; rfl,rfl⟩
      | grid f last => exact ⟨.visionStart,_,by simp [wireText,Media.opening,arange3_succ]; rfl,rfl⟩
      | audio a => exact ⟨.audioStart,_,by simp [wireText,Media.opening,arange3_succ]; rfl,rfl⟩
      | avGrid f j track =>
        exact ⟨.visionStart,_,by simp [wireText,Media.opening,arange3_succ]; rfl,rfl⟩
    | cons t text =>
      exact ⟨.text t,_,by simp only [wireText,List.map_cons,List.length_cons,arange3_succ,
        List.zip_cons_cons,List.cons_append]; rfl,rfl⟩

variable (p : Nat) {s : Sample m}

theorem overhang_of_clear {start : Placed → Prop} {front back : List (Item m)} {it : Item m}
    (hsplit : s.items = front ++ it :: back)
    (hstart : ∀ before : Placed, (wireItems front).length ≤ before.length → behindMedia before →
      start before)
    (h : Clear start (s.wire.zip (s.positions p))) : it.media.overhang = 0 := by
  by_contra hne
  obtain ⟨before,x,q,after,hplace,hx,y,hy,hpad,hnot⟩ :=
    it.overlap p (0+itemsAdvance p front) hne
  obtain ⟨front',hlen,happ⟩ := place_append p 0 front (it :: back) s.tail
  rw [s.zip_positions,hsplit,happ,place_cons,hplace,List.append_assoc,List.cons_append,
    ← List.append_assoc] at h
  refine hnot (h (front' ++ before) x q _ rfl hx (hstart _ ?_ ?_) y (by simp [hy]))
  · simp [hlen]
  · exact ⟨y,by simp [hy],hpad⟩

/-- Clear behind the media tokens exactly when no grid reaches past its audio run. -/
theorem clear_behindMedia_iff : Clear behindMedia (s.wire.zip (s.positions p)) ↔
    ∀ it ∈ s.items, it.media.overhang = 0 := by
  constructor
  · intro h it hit
    obtain ⟨front,back,hsplit⟩ := List.append_of_mem hit
    exact overhang_of_clear p hsplit (fun _ _ hb => hb) h
  · intro h
    rw [s.zip_positions]
    exact (rising_place p 0 s.tail h).clears _

/-- The first span may reach past its audio run as far as its closing delimiters, or
further when nothing follows; the others may not. -/
def Sample.FirstFits (s : Sample m) : Prop :=
  match s.items with
  | [] => True
  | it :: items => (∀ it' ∈ items, it'.media.overhang = 0) ∧
      (it.media.overhang ≤ it.media.delims ∨ (items = [] ∧ s.tail = []))

theorem clear_behindSpan_iff :
    Clear (behindSpan s) (s.wire.zip (s.positions p)) ↔ s.FirstFits := by
  cases hs : s.items with
  | nil =>
    simp only [Sample.FirstFits,hs,iff_true]
    rintro before x q after - - ⟨it,items,hcons,-⟩
    rw [hs] at hcons
    cases hcons
  | cons it items =>
    have hlen : (it.place p 0).length = it.wire.length := by
      simp [Item.place,it.length_blocks]
    simp only [Sample.FirstFits,hs]
    constructor
    · intro h
      refine ⟨fun it' hit' => ?_,?_⟩
      · obtain ⟨front,back,hsplit⟩ := List.append_of_mem hit'
        refine overhang_of_clear p (by rw [hs,hsplit,← List.cons_append]) (fun before hb _ => ?_) h
        refine ⟨it,items,hs,le_trans ?_ hb⟩
        simp [wireItems]
      · by_contra hno
        obtain ⟨hover,hrest⟩ := not_or.mp hno
        have hnext : items ≠ [] ∨ s.tail ≠ [] := by tauto
        obtain ⟨x,after,hhead,hx⟩ := place_head p (0+it.advance p) hnext
        obtain ⟨y,hy,-,htop⟩ := it.exists_top p 0
        rw [s.zip_positions,hs,place_cons,hhead] at h
        have hmem : y ∈ it.place p 0 := by
          rw [Item.place_eq,Media.zip_blocks]
          exact List.mem_append_right _ (List.mem_append_right _ (List.mem_append_left _ hy))
        have hlt := h _ x _ after rfl hx ⟨it,items,hs,by rw [hlen]⟩ y hmem
        rw [Pos.bot_diag] at hlt
        simp only [Item.advance,Media.advance] at hlt
        omega
    · rintro ⟨hrest,hfit⟩ before x q after heq hx ⟨it',items',hcons,hle⟩ y hy
      obtain ⟨rfl,rfl⟩ := List.cons.inj (hs.symm.trans hcons)
      rw [s.zip_positions,hs,place_cons] at heq
      -- the item lies within `before`
      obtain ⟨mid,rfl,hmid⟩ : ∃ mid, before = it.place p 0 ++ mid ∧
          place p (0+it.advance p) items s.tail = mid ++ (x,q) :: after := by
        rcases List.append_eq_append_iff.mp heq with ⟨mid,h₁,h₂⟩ | ⟨mid,h₁,h₂⟩
        · exact ⟨mid,h₁,h₂⟩
        · obtain rfl : mid = [] := by
            have := congrArg List.length h₁
            rw [List.length_append,hlen] at this
            exact List.length_eq_zero_iff.mp (by omega)
          exact ⟨[],by simpa using h₁.symm,by simpa using h₂.symm⟩
      have hrise := rising_place p (0+it.advance p) s.tail hrest
      rw [hmid] at hrise
      rcases List.mem_append.mp hy with hy | hy
      · rcases hfit with hfit | ⟨rfl,htail⟩
        · have htop := Item.top_lt (List.of_mem_zip (show (y.1,y.2) ∈ _ from hy)).2
          have hbot := (hrise.bounds (x,q) (by simp)).1
          simp only [Item.advance,Media.advance] at htop hbot
          omega
        · rw [htail,place_nil] at hmid
          simp [wireText] at hmid
      · exact hrise.clears (fun _ => True) mid x q after rfl hx trivial y hy

end Overlap

section Parsers
variable (cfg : Config) (vis : RopeIndex.LlmPosIdsForVision) {u : Bool}
variable {s : Sample cfg.spatialMergeSize} {mmFeatures : List Mrope.Feature}
variable {image video : Option (List Thw)} {audio : Option (List Nat)} {seconds : Option (List ℚ)}

/-- The positions of either parser are clear behind the media tokens exactly when every
audio-in-video grid has no audio token or at least as many as its larger side; behind whole
spans the first one may reach past its audio run within `FirstFits`. -/
theorem parsers_clear_iff (hu : s.Uniform u) (hs : Supplies [s] image video audio seconds)
    (hc : Mrope.Carries s u mmFeatures) :
    ∃ positions delta,
      RopeIndex.getRopeIndex cfg vis [s.wire] image video
        [List.replicate s.wire.length true] u audio seconds = .ok [(positions,delta)] ∧
      Mrope.getMropeInputPositions cfg s.wire mmFeatures = .ok (positions,delta) ∧
      (Clear behindMedia (s.wire.zip positions) ↔ ∀ it ∈ s.items, it.media.overhang = 0) ∧
      (Clear (behindSpan s) (s.wire.zip positions) ↔ s.FirstFits) :=
  ⟨_,_,RopeIndex.getRopeIndex_alone cfg vis hu hs,getMropeInputPositions_wire cfg hu hc,
    clear_behindMedia_iff _,clear_behindSpan_iff _⟩

end Parsers

section Instances
open RopeIndex Mrope

theorem threeKinds_clear_iff :
    ∃ positions delta,
      getRopeIndex .mergeTwo .reference [threeKinds.wire] (some [⟨1,2,4⟩]) (some [⟨1,4,4⟩])
        [List.replicate threeKinds.wire.length true] true (some [4,20]) none =
          .ok [(positions,delta)] ∧
      getMropeInputPositions .mergeTwo threeKinds.wire threeFeatures = .ok (positions,delta) ∧
      (Clear behindMedia (threeKinds.wire.zip positions) ↔
        ∀ it ∈ threeKinds.items, it.media.overhang = 0) ∧
      (Clear (behindSpan threeKinds) (threeKinds.wire.zip positions) ↔ threeKinds.FirstFits) :=
  parsers_clear_iff .mergeTwo .reference (by decide) ⟨rfl,rfl,rfl,by simp⟩ threeFeatures_carries

/-- One audio token over a grid of eight columns, and text behind it. -/
def wideThenText : Sample 2 :=
  ⟨[⟨[],.avGrid (.ofSides 1 8) 1 (some 4)⟩],[5],
    [.ofSides 1 1 8],rfl,by decide⟩

def wideFeatures : List Feature := [⟨0,.video ⟨1,2,16⟩ none (some true)⟩,⟨10,.audio 4⟩]

theorem wideFeatures_carries : Carries wideThenText true wideFeatures := by
  have hsort : sortedFeatures wideFeatures = [.video ⟨1,2,16⟩ none (some true),.audio 4] := by
    simp [sortedFeatures,wideFeatures,List.mergeSort_of_pairwise]
  constructor <;> rw [hsort]
  · rfl
  · rfl
  · rfl
  · simp [FeatureData.videoGrid?,FeatureData.usesAudio]

/-- The audio run ends at position two, the grid at nine: the delimiters and the text get
positions three, four and five. -/
theorem wideThenText_collides :
    getRopeIndex .mergeTwo .reference [wideThenText.wire] none (some [⟨1,2,16⟩])
      [List.replicate wideThenText.wire.length true] true (some [4]) none =
        .ok [(wideThenText.positions 13,wideThenText.delta 13)] ∧
    getMropeInputPositions .mergeTwo wideThenText.wire wideFeatures =
      .ok (wideThenText.positions 13,wideThenText.delta 13) ∧
    ¬ Clear behindMedia (wideThenText.wire.zip (wideThenText.positions 13)) ∧
    ¬ Clear (behindSpan wideThenText) (wideThenText.wire.zip (wideThenText.positions 13)) := by
  refine ⟨getRopeIndex_alone .mergeTwo .reference (by decide) ⟨rfl,rfl,rfl,by simp⟩,
    getMropeInputPositions_wire .mergeTwo (by decide) wideFeatures_carries,?_,?_⟩
  · rw [clear_behindMedia_iff]
    decide
  · rw [clear_behindSpan_iff]
    exact fun h => absurd h.2 (by decide)

end Instances
end TLiveOmni
