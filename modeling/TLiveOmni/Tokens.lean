import Mathlib.Data.PNat.Basic
import Mathlib.Data.Rat.Floor
import Mathlib.Tactic.NormNum
import Mathlib.Tactic.Ring
import Mathlib.Tactic.Positivity
import Mathlib.Tactic.Linarith
import TLiveOmni.Lib.PySeq

/-! Vocabulary, grids and position blocks shared by the Transformers model and the
vLLM model. -/
set_option autoImplicit false

namespace TLiveOmni
open PySeq

/-- Token ids. The seven ids the configuration names are distinct, every other id of
the vocabulary is ordinary text. -/
inductive Token where
  | text (id : Nat)
  | imagePad | videoPad | audioPad
  | visionStart | visionEnd | audioStart | audioEnd
  deriving DecidableEq, Repr

inductive Modality where
  | image | video | audio
  deriving DecidableEq, Repr

def Modality.pad : Modality → Token
  | .image => .imagePad
  | .video => .videoPad
  | .audio => .audioPad

def Token.isText : Token → Bool
  | .text _ => true
  | _ => false

def Token.isPad : Token → Bool
  | .imagePad | .videoPad | .audioPad => true
  | _ => false

/-- The configuration values the position code reads. -/
structure Config where
  spatialMergeSize : Nat
  positionIdPerSeconds : Nat
  mergePos : 0 < spatialMergeSize

/-- Merge size two and the default number of positions per second. -/
abbrev Config.mergeTwo : Config := ⟨2,13,by decide⟩

/-- One row of `image_grid_thw` or `video_grid_thw`. -/
structure Thw where
  t : Nat
  h : Nat
  w : Nat
  deriving DecidableEq, Repr

def Thw.prod (g : Thw) : Nat := g.t * g.h * g.w

/-- Height and width of one temporal grid: positive multiples of the merge size. -/
structure Frame (m : Nat) where
  h : Nat
  w : Nat
  hPos : 0 < h
  wPos : 0 < w
  hDvd : m ∣ h
  wDvd : m ∣ w
  deriving DecidableEq

/-- A whole grid has at least one temporal patch. -/
structure Grid (m : Nat) extends Frame m where
  t : Nat
  tPos : 0 < t
  deriving DecidableEq

def Grid.thw {m : Nat} (g : Grid m) : Thw := ⟨g.t,g.h,g.w⟩

/-- Literals of sides, which then carry no proof of their own. -/
instance sideOfNat (n : Nat) : OfNat ℕ+ (n+1) := ⟨⟨n+1,Nat.succ_pos n⟩⟩

/-- The frame with the given merged sides, for merge size two. -/
def Frame.ofSides (rows cols : ℕ+) : Frame 2 :=
  ⟨2*rows,2*cols,by positivity,by positivity,⟨rows,rfl⟩,⟨cols,rfl⟩⟩

def Grid.ofSides (t rows cols : ℕ+) : Grid 2 := ⟨.ofSides rows cols,t,t.pos⟩

namespace Frame
variable {m : Nat}

def rows (f : Frame m) : Nat := f.h / m
def cols (f : Frame m) : Nat := f.w / m

/-- The number of `video_pad` tokens of one temporal grid. -/
def tokens (f : Frame m) : Nat := f.rows * f.cols

/-- The larger merged side. -/
def side (f : Frame m) : Nat := max f.rows f.cols

theorem rows_pos (f : Frame m) : 0 < f.rows := by
  have hm : 0 < m := Nat.pos_of_dvd_of_pos f.hDvd f.hPos
  exact Nat.div_pos (Nat.le_of_dvd f.hPos f.hDvd) hm

theorem cols_pos (f : Frame m) : 0 < f.cols := by
  have hm : 0 < m := Nat.pos_of_dvd_of_pos f.wDvd f.wPos
  exact Nat.div_pos (Nat.le_of_dvd f.wPos f.wDvd) hm

theorem tokens_pos (f : Frame m) : 0 < f.tokens := Nat.mul_pos f.rows_pos f.cols_pos

/-- Dividing the product by the squared merge size and dividing each side agree. -/
theorem mul_div_sq (f : Frame m) : f.h * f.w / m^2 = f.tokens := by
  have hm : 0 < m := Nat.pos_of_dvd_of_pos f.hDvd f.hPos
  obtain ⟨a,ha⟩ := f.hDvd
  obtain ⟨b,hb⟩ := f.wDvd
  have hmm : 0 < m*m := Nat.mul_pos hm hm
  simp only [tokens,rows,cols,ha,hb,Nat.mul_div_cancel_left _ hm,pow_two]
  have hab : m*a*(m*b) = (m*m)*(a*b) := by ring
  rw [hab,Nat.mul_div_cancel_left _ hmm]

end Frame

theorem Grid.prod_div_sq {m : Nat} (g : Grid m) :
    g.thw.prod / m^2 = g.t * g.toFrame.tokens := by
  have hd : m^2 ∣ g.h * g.w := by rw [pow_two]; exact Nat.mul_dvd_mul g.hDvd g.wDvd
  simp only [Thw.prod,Grid.thw,Nat.mul_assoc,Nat.mul_div_assoc g.t hd,g.toFrame.mul_div_sq]

/-- `_get_feat_extract_output_lengths`: thirteen tokens for each hundred frames, and the
rest through three stride-two convolutions. Python's `//` and `%` are floored. -/
def getFeatExtractOutputLengths (inputLengths : Int) : Int :=
  let inputLengthsLeave := inputLengths % 100
  let featLengths := (inputLengthsLeave-1)/2+1
  ((featLengths-1)/2+1-1)/2+1 + (inputLengths/100)*13

theorem getFeatExtractOutputLengths_nonneg (n : Nat) : 0 ≤ getFeatExtractOutputLengths n := by
  simp only [getFeatExtractOutputLengths]; omega

theorem getFeatExtractOutputLengths_pos {n : Nat} (h : 0 < n) :
    0 < getFeatExtractOutputLengths n := by
  simp only [getFeatExtractOutputLengths]; omega

/-- One column of the `3 x len` position tensor. -/
structure Pos where
  t : Int
  h : Int
  w : Int
  deriving DecidableEq, Repr

namespace Pos

def zero : Pos := ⟨0,0,0⟩

/-- The same value on the three axes. -/
def diag (a : Int) : Pos := ⟨a,a,a⟩

/-- The largest of the three axes. -/
def top (p : Pos) : Int := max p.t (max p.h p.w)

/-- The smallest of the three axes. -/
def bot (p : Pos) : Int := min p.t (min p.h p.w)

@[simp] theorem top_diag (a : Int) : (diag a).top = a := by simp [top,diag]
@[simp] theorem bot_diag (a : Int) : (diag a).bot = a := by simp [bot,diag]

end Pos

abbrev Block := List Pos

/-- `torch.arange(n).view(1, -1).expand(3, -1) + base`. -/
def arange3 (n : Nat) (base : Int) : Block := (List.range n).map fun i : Nat => .diag (base+i)

/-- `.max()` of a position block, which raises on an empty one. -/
def blockMax (b : Block) : Py Int :=
  match (b.map Pos.top).max? with
  | some v => .ok v
  | none => .error (.builtin .runtimeError)

/-- `llm_pos_ids_list[-1].max() + 1 if llm_pos_ids_list else 0`. -/
def nextPosition (blocks : List Block) : Py Int :=
  match blocks.getLast? with
  | none => .ok 0
  | some b => do return (← blockMax b) + 1

/-- Conversion of a float to an integer tensor truncates. -/
def truncate (q : ℚ) : Int := if 0 ≤ q then ⌊q⌋ else ⌈q⌉

/-- `(arange(n) * factor + 1e-6)` converted to integers. -/
def temporalIndex (n : Nat) (factor : ℚ) : List Int :=
  (List.range n).map fun i : Nat => truncate (i*factor + 1/1000000)

/-- `np.stack([t_index, h_index, w_index]) + start`: every temporal index is repeated
over the frame, the rows and columns are tiled. -/
def visionGrid (start : Int) (tIndex : List Int) (gridH gridW : Nat) : Block :=
  let tRep := tIndex.flatMap fun t => List.replicate (gridH*gridW) t
  let hRep := tIndex.flatMap fun _ =>
    (List.range gridH).flatMap fun r : Nat => List.replicate gridW (r : Int)
  let wRep := tIndex.flatMap fun _ =>
    (List.range gridH).flatMap fun _ : Nat => (List.range gridW).map fun c : Nat => (c : Int)
  (tRep.zip (hRep.zip wRep)).map fun (t,h,w) => ⟨start+t,start+h,start+w⟩

/-- The row-major layout: temporal index, then row, then column. -/
def rowMajor (start : Int) (tIndex : List Int) (gridH gridW : Nat) : Block :=
  tIndex.flatMap fun t => (List.range gridH).flatMap fun r : Nat => (List.range gridW).map fun c : Nat =>
    ⟨start+t,start+r,start+c⟩

/-- `input_ids[vision_end_indices - 1]`; index `-1` wraps to the last token. -/
def visionTokens (l : List Token) : List Token :=
  (indicesOf .visionEnd l).filterMap fun i => if i = 0 then l.getLast? else l[i-1]?

/-- The test both loops make before they search for a vision span. -/
def visionRemains (tokens : List Token) (remainVideos remainImages : Int) : Bool :=
  (tokens.contains .imagePad || tokens.contains .videoPad) &&
    (decide (0 < remainVideos) || decide (0 < remainImages))

/-- `torch.repeat_interleave(xs, repeats, dim=0)`; a single repeat count is broadcast. -/
def repeatInterleave {α : Type} (xs : List α) (repeats : List Nat) : Py (List α) :=
  match repeats with
  | [n] => .ok (xs.flatMap (List.replicate n))
  | _ => if xs.length = repeats.length then
      .ok ((xs.zip repeats).flatMap fun (x,n) => List.replicate n x)
    else .error (.builtin .runtimeError)

/-- `repeat_interleave(video_grid_thw, video_grid_thw[:, 0])` with the first column set to
one: a row per temporal grid. -/
def splitVideos (videoGridThw : List Thw) : List Thw :=
  videoGridThw.flatMap fun v => List.replicate v.t ⟨1,v.h,v.w⟩

/-- `torch.cumsum(xs, dim=0).tolist()`, with the sum `acc` of what came before. -/
def cumsum (acc : Nat) : List Nat → List Nat
  | [] => []
  | x :: xs => (acc+x) :: cumsum (acc+x) xs

section Layout

theorem zip_flatMap {α β γ : Type} (f : α → List β) (g : α → List γ) (l : List α)
    (h : ∀ a ∈ l, (f a).length = (g a).length) :
    (l.flatMap f).zip (l.flatMap g) = l.flatMap fun a => (f a).zip (g a) := by
  induction l with
  | nil => rfl
  | cons a l ih =>
    simp only [List.flatMap_cons]
    rw [List.zip_append (h a (by simp)),ih (fun b hb => h b (by simp [hb]))]

theorem zip_replicate_left {α β : Type} (a : α) (l : List β) :
    (List.replicate l.length a).zip l = l.map fun b => (a,b) := by
  induction l with
  | nil => rfl
  | cons b l ih => simp [List.replicate_succ,ih]

theorem length_frame {β : Type} (gridH gridW : Nat) (f : Nat → Nat → β) :
    ((List.range gridH).flatMap fun r : Nat => (List.range gridW).map (f r)).length = gridH*gridW := by
  simp [List.length_flatMap]

theorem replicate_eq_map_range {β : Type} (n : Nat) (b : β) :
    List.replicate n b = (List.range n).map fun _ => b := by
  simp [List.map_const']

/-- The three tiled index arrays enumerate the grid in row-major order. -/
theorem visionGrid_eq_rowMajor (start : Int) (tIndex : List Int) (gridH gridW : Nat) :
    visionGrid start tIndex gridH gridW = rowMajor start tIndex gridH gridW := by
  have hframe : (((List.range gridH).flatMap fun r : Nat => List.replicate gridW (r : Int)).zip
      ((List.range gridH).flatMap fun _ : Nat => (List.range gridW).map fun c : Nat => (c : Int))) =
      (List.range gridH).flatMap fun r : Nat => (List.range gridW).map fun c : Nat => ((r : Int),(c : Int)) := by
    rw [zip_flatMap _ _ _ (by simp)]
    congr 1
    funext r
    have := zip_replicate_left (r : Int) ((List.range gridW).map fun c : Nat => (c : Int))
    simpa [Function.comp_def] using this
  simp only [visionGrid,rowMajor]
  rw [zip_flatMap (l := tIndex) _ _ (by simp [List.length_flatMap]),hframe,
    zip_flatMap (l := tIndex) _ _ (by intro t _; simp [List.length_flatMap]),List.map_flatMap]
  congr 1
  funext t
  have hz := zip_replicate_left t
    ((List.range gridH).flatMap fun r : Nat => (List.range gridW).map fun c : Nat => ((r : Int),(c : Int)))
  rw [length_frame] at hz
  simp [hz,List.map_flatMap,Function.comp_def]

@[simp] theorem length_rowMajor (start : Int) (tIndex : List Int) (gridH gridW : Nat) :
    (rowMajor start tIndex gridH gridW).length = tIndex.length*(gridH*gridW) := by
  simp [rowMajor,List.length_flatMap]

@[simp] theorem length_arange3 (n : Nat) (base : Int) : (arange3 n base).length = n := by
  simp [arange3]

theorem mem_arange3 {n : Nat} {base : Int} {p : Pos} :
    p ∈ arange3 n base ↔ ∃ i < n, p = .diag (base+i) := by
  simp [arange3,eq_comm]

theorem mem_rowMajor {start : Int} {tIndex : List Int} {gridH gridW : Nat} {p : Pos} :
    p ∈ rowMajor start tIndex gridH gridW ↔
      ∃ t ∈ tIndex, ∃ r < gridH, ∃ c < gridW, p = ⟨start+t,start+r,start+c⟩ := by
  simp [rowMajor,eq_comm]

end Layout

section Maximum

theorem blockMax_eq_ok {b : Block} {v : Int} (hmem : ∃ p ∈ b, p.top = v)
    (hle : ∀ p ∈ b, p.top ≤ v) : blockMax b = .ok v := by
  have : (b.map Pos.top).max? = some v := by
    rw [List.max?_eq_some_iff]
    refine ⟨?_,?_⟩
    · obtain ⟨p,hp,rfl⟩ := hmem
      exact List.mem_map_of_mem hp
    · intro x hx
      obtain ⟨p,hp,rfl⟩ := List.mem_map.mp hx
      exact hle p hp
  simp [blockMax,this]

theorem blockMax_arange3 {n : Nat} (hn : 0 < n) (base : Int) :
    blockMax (arange3 n base) = .ok (base+n-1) := by
  refine blockMax_eq_ok ⟨.diag (base+(n-1 : Nat)),mem_arange3.mpr ⟨n-1,by omega,rfl⟩,?_⟩ ?_
  · simp; omega
  · intro p hp
    obtain ⟨i,hi,rfl⟩ := mem_arange3.mp hp
    simp; omega

@[simp] theorem nextPosition_nil : nextPosition [] = .ok 0 := rfl

@[simp] theorem nextPosition_concat (bs : List Block) (b : Block) :
    nextPosition (bs ++ [b]) = (do return (← blockMax b) + 1) := by
  simp [nextPosition]

theorem nextPosition_of_max {bs : List Block} {b : Block} {v : Int} (h : blockMax b = .ok v) :
    nextPosition (bs ++ [b]) = .ok (v+1) := by simp [h]

end Maximum

section Temporal

/-- Whole multiples keep their value under the small offset. -/
theorem truncate_nat_add (n : Nat) : truncate ((n : ℚ) + 1/1000000) = n := by
  have hnn : (0 : ℚ) ≤ (n : ℚ) + 1/1000000 := by positivity
  rw [truncate,if_pos hnn]
  have : ⌊(n : ℚ) + 1/1000000⌋ = (n : Int) := by
    rw [Int.floor_eq_iff]
    push_cast
    constructor <;> linarith
  exact this

theorem temporalIndex_nat (n p : Nat) :
    temporalIndex n (p : ℚ) = (List.range n).map fun i : Nat => ((i*p : Nat) : Int) := by
  simp only [temporalIndex]
  apply List.map_congr_left
  intro i _
  have := truncate_nat_add (i*p)
  simpa using this

theorem temporalIndex_one (factor : ℚ) : temporalIndex 1 factor = [0] := by
  have := truncate_nat_add 0
  simpa [temporalIndex] using this

end Temporal

section Extent

/-- The largest entry of a one-frame grid is the larger side. -/
theorem blockMax_frame {m : Nat} (f : Frame m) (base : Int) :
    blockMax (rowMajor base [0] f.rows f.cols) = .ok (base+f.side-1) := by
  have hr := f.rows_pos
  have hc := f.cols_pos
  refine blockMax_eq_ok ?_ ?_
  · refine ⟨⟨base+0,base+(f.rows-1 : Nat),base+(f.cols-1 : Nat)⟩,
      mem_rowMajor.mpr ⟨0,by simp,f.rows-1,by omega,f.cols-1,by omega,rfl⟩,?_⟩
    simp only [Pos.top,Frame.side]
    omega
  · intro p hp
    obtain ⟨t,ht,r,hr',c,hc',rfl⟩ := mem_rowMajor.mp hp
    simp only [List.mem_singleton] at ht
    simp only [Pos.top,Frame.side,ht]
    omega

/-- Number of positions an image grid takes on its widest axis. -/
def Grid.extent {m : Nat} (p : Nat) (g : Grid m) : Nat := max ((g.t-1)*p+1) g.toFrame.side

theorem blockMax_grid {m : Nat} (p : Nat) (g : Grid m) (base : Int) :
    blockMax (rowMajor base ((List.range g.t).map fun i : Nat => ((i*p : Nat) : Int))
      g.toFrame.rows g.toFrame.cols) = .ok (base+g.extent p-1) := by
  have hr := g.toFrame.rows_pos
  have hc := g.toFrame.cols_pos
  have ht := g.tPos
  refine blockMax_eq_ok ?_ ?_
  · refine ⟨⟨base+((g.t-1)*p : Nat),base+(g.toFrame.rows-1 : Nat),base+(g.toFrame.cols-1 : Nat)⟩,
      mem_rowMajor.mpr ⟨_,List.mem_map.mpr ⟨g.t-1,by simp; omega,rfl⟩,
        _,by omega,_,by omega,rfl⟩,?_⟩
    simp only [Pos.top,Grid.extent,Frame.side]
    omega
  · intro q hq
    obtain ⟨t,ht',r,hr',c,hc',rfl⟩ := mem_rowMajor.mp hq
    obtain ⟨i,hi,rfl⟩ := List.mem_map.mp ht'
    have hmono : i*p ≤ (g.t-1)*p := Nat.mul_le_mul_right p (by simp at hi; omega)
    simp only [Pos.top,Grid.extent,Frame.side]
    omega

end Extent
end TLiveOmni
