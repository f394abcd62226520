import Mathlib.Data.Rat.Floor
import Mathlib.Algebra.GroupWithZero.Nat
import TLiveOmni.Tokens

/-! `TLiveOmniAudioEncoder.forward` up to the attention layers: the frames of all audios are cut
into chunks, each chunk goes through three convolutions, and the rows that come out are grouped
into attention windows. -/
set_option autoImplicit false

namespace TLiveOmni
open PySeq

/-- `tensor[i] = x`; a negative index counts from the end. -/
def setItem {α : Type} (l : List α) (i : Int) (x : α) : Py (List α) :=
  if 0 ≤ i ∧ i < l.length then .ok (l.set i.toNat x)
  else if -(l.length : Int) ≤ i ∧ i < 0 then .ok (l.set (i+l.length).toNat x)
  else .error (.builtin .indexError)

/-- `tensor.cumsum(0)` over integers, with the sum `acc` of what came before. -/
def cumsumInt (acc : Int) : List Int → List Int
  | [] => []
  | x :: xs => (acc+x) :: cumsumInt (acc+x) xs

/-- The longest length, to which `pad_sequence` pads. -/
def padWidth (lengths : List Nat) : Nat := lengths.max?.getD 0

/-- `nn.utils.rnn.pad_sequence(…, batch_first=True)`. -/
def padSequence {α : Type} (zero : α) (rows : List (List α)) : List (List α) :=
  rows.map fun row => row ++ List.replicate (padWidth (rows.map List.length)-row.length) zero

/-- `tensor.split(lengths, dim=0)`. -/
def splitSizes {α : Type} (rows : List α) : List Nat → List (List α)
  | [] => []
  | n :: lengths => rows.take n :: splitSizes (rows.drop n) lengths

/-- The width of a convolution with kernel three, stride two and padding one. -/
def convOut (width : Int) : Int := (width-1)/2+1

/-- The convolutions of `_chunked_conv_forward` with `conv_out` and the positional embedding, on
the padded frames of one chunk. -/
structure ConvLayers (φ ε : Type) where
  apply : List φ → List ε
  zero : φ
  length_apply : ∀ frames,
    ((apply frames).length : Int) = convOut (convOut (convOut frames.length))

section Tower
variable (nWindow nWindowInfer : Nat) (featureLens : List Nat)

def chunkNum : List Nat := featureLens.map fun n : Nat => ⌈(n : ℚ)/(nWindow*2 : Nat)⌉.toNat

def tailChunkIndex : List Int :=
  (cumsumInt 0 (-1 :: (chunkNum nWindow featureLens).map fun n : Nat => (n : Int))).tail

def chunkLengths : Py (List Nat) := do
  let full := List.replicate (chunkNum nWindow featureLens).sum (nWindow*2)
  let tails := featureLens.map fun n => n % (nWindow*2)
  let lengths ← ((tailChunkIndex nWindow featureLens).zip tails).foldlM
    (fun lengths x => setItem lengths x.1 x.2) full
  pure (lengths.map fun n => if n = 0 then nWindow*2 else n)

/-- The rows of one chunk or of one audio: `_get_feat_extract_output_lengths`. -/
def aftercnnLen (n : Nat) : Nat := (getFeatExtractOutputLengths n).toNat

/-- The width of `padded_mask_after_cnn`. -/
def maskWidth (chunks : List Nat) : Nat := padWidth (chunks.map aftercnnLen)

def windowAftercnn (chunks : List Nat) : Nat := maskWidth chunks*(nWindowInfer/(nWindow*2))

/-- The windows of one audio in the loop over `aftercnn_lens`. -/
def windowsOf (window cnnLen : Nat) : List Nat :=
  List.replicate (cnnLen/window) window ++ (if cnnLen % window ≠ 0 then [cnnLen % window] else [])

def cuSeqlens (chunks : List Nat) : Py (List Nat) := do
  let window := windowAftercnn nWindow nWindowInfer chunks
  raiseIf (window = 0 ∧ featureLens ≠ []) (.builtin .runtimeError)
  pure (cumsum 0 (0 :: (featureLens.map aftercnnLen).flatMap (windowsOf window)))

/-- What the attention layers receive. -/
structure TowerRows (ε : Type) where
  hiddenStates : List ε
  cuSeqlens : List Nat

/-- `padded_embed[padded_mask_after_cnn]`. -/
def selectRows {ε : Type} (embed : List (List ε)) (mask : List (List Bool)) : List ε :=
  (embed.zip mask).flatMap fun x => ((x.1.zip x.2).filter (·.2)).map (·.1)

variable {φ ε : Type} (conv : ConvLayers φ ε)

/-- `forward`, where `frames` are the columns of `input_features`. -/
def towerForward (frames : List φ) : Py (TowerRows ε) := do
  let chunks ← chunkLengths nWindow featureLens
  raiseIf (chunks.sum ≠ frames.length) (.builtin .runtimeError)
  raiseIf (chunks = []) (.builtin .runtimeError)
  let paddedFeature := padSequence conv.zero (splitSizes frames chunks)
  let paddedMask := padSequence false (chunks.map fun n => List.replicate (aftercnnLen n) true)
  let paddedEmbed := paddedFeature.map conv.apply
  raiseIf (paddedEmbed.map List.length ≠ paddedMask.map List.length) (.builtin .indexError)
  let cuSeqlens ← cuSeqlens nWindow nWindowInfer featureLens chunks
  pure ⟨selectRows paddedEmbed paddedMask,cuSeqlens⟩

end Tower

/-- The chunks of one audio with at least one frame: full ones, and a last one that is not empty. -/
def chunksOf (width n : Nat) : List Nat := List.replicate ((n-1)/width) width ++ [(n-1) % width+1]

section Chunks
variable {width n : Nat}

theorem sum_chunksOf (hn : 0 < n) : (chunksOf width n).sum = n := by
  have := Nat.div_add_mod (n-1) width
  simp only [chunksOf,List.sum_append,List.sum_replicate_nat,List.sum_cons,List.sum_nil]
  rw [Nat.mul_comm]
  omega

theorem mem_chunksOf (hw : 0 < width) {k : Nat} (hk : k ∈ chunksOf width n) :
    0 < k ∧ k ≤ width := by
  have := Nat.mod_lt (n-1) hw
  rcases List.mem_append.mp hk with hk | hk
  · rw [List.eq_of_mem_replicate hk]
    exact ⟨hw,Nat.le_refl width⟩
  · rw [List.mem_singleton.mp hk]
    omega

theorem ceil_div (hw : 0 < width) (hn : 0 < n) : ⌈(n : ℚ)/width⌉.toNat = (n-1)/width+1 := by
  have hlow := Nat.div_mul_le_self (n-1) width
  have hhigh := Nat.lt_div_mul_add (a := n-1) hw
  have hq : (0 : ℚ) < width := by exact_mod_cast hw
  have hceil : ⌈(n : ℚ)/width⌉ = (((n-1)/width+1 : Nat) : Int) := by
    rw [Int.ceil_eq_iff]
    constructor
    · rw [lt_div_iff₀ hq]
      push_cast
      rw [add_sub_cancel_right]
      have : (n-1)/width*width < n := by omega
      exact_mod_cast this
    · rw [div_le_iff₀ hq]
      have : n ≤ ((n-1)/width+1)*width := by
        rw [Nat.succ_mul]
        omega
      exact_mod_cast this
  rw [hceil,Int.toNat_natCast]

theorem setItem_append {α : Type} (done rest : List α) (old x : α) :
    setItem (done ++ old :: rest) done.length x = .ok (done ++ x :: rest) := by
  have hlt : (done.length : Int) < (done ++ old :: rest).length := by simp
  rw [setItem,if_pos ⟨Int.natCast_nonneg _,hlt⟩]
  simp

/-- The assignment to the last chunk of every audio, behind the chunks `done`. -/
theorem set_tails (width : Nat) (done lens : List Nat) :
    ((cumsumInt (done.length-1) (lens.map fun n : Nat => (((n-1)/width+1 : Nat) : Int))).zip
      (lens.map (· % width))).foldlM (fun lengths x => setItem lengths x.1 x.2)
      (done ++ List.replicate (lens.map fun n => (n-1)/width+1).sum width) =
    .ok (done ++ lens.flatMap fun n => List.replicate ((n-1)/width) width ++ [n % width]) := by
  induction lens generalizing done with
  | nil => simp [cumsumInt]
  | cons n lens ih =>
    have hfull : done ++ List.replicate ((n :: lens).map fun n => (n-1)/width+1).sum width =
        (done ++ List.replicate ((n-1)/width) width) ++
          width :: List.replicate (lens.map fun n => (n-1)/width+1).sum width := by
      simp only [List.map_cons,List.sum_cons,List.replicate_add,List.replicate_one,
        List.append_assoc,List.singleton_append]
    have hindex : (done.length : Int)-1+((n-1)/width+1 : Nat) =
        (done ++ List.replicate ((n-1)/width) width).length := by
      simp only [List.length_append,List.length_replicate]
      push_cast
      omega
    have hnext : ((done ++ List.replicate ((n-1)/width) width).length : Int) =
        (done ++ (List.replicate ((n-1)/width) width ++ [n % width])).length-1 := by
      simp only [List.length_append,List.length_replicate,List.length_singleton]
      push_cast
      omega
    rw [hfull]
    simp only [List.map_cons,cumsumInt,List.zip_cons_cons,List.foldlM_cons]
    rw [hindex,setItem_append,ok_bind,hnext]
    have := ih (done ++ (List.replicate ((n-1)/width) width ++ [n % width]))
    simp only [List.append_assoc,List.singleton_append] at this ⊢
    rw [this]
    simp only [List.flatMap_cons,List.append_assoc,List.singleton_append]

theorem patch_tail (hw : 0 < width) (hn : 0 < n) :
    (if n % width = 0 then width else n % width) = (n-1) % width+1 := by
  have hlt := Nat.mod_lt (n-1) hw
  have hn' : n = width*((n-1)/width)+((n-1) % width+1) := by
    have := Nat.div_add_mod (n-1) width
    omega
  have hmod : n % width = ((n-1) % width+1) % width := by
    rw [hn',Nat.mul_add_mod,← hn']
  by_cases hfull : (n-1) % width+1 = width
  · rw [hmod,hfull,Nat.mod_self,if_pos rfl]
  · rw [hmod,Nat.mod_eq_of_lt (by omega),if_neg (by omega)]

theorem patch_chunks (hw : 0 < width) (hn : 0 < n) :
    (List.replicate ((n-1)/width) width ++ [n % width]).map
      (fun n => if n = 0 then width else n) = chunksOf width n := by
  rw [chunksOf,List.map_append,List.map_replicate,if_neg (by omega),List.map_singleton,
    patch_tail hw hn]

end Chunks

section Lengths
variable {nWindow : Nat} {lens : List Nat}

theorem chunkLengths_eq (hw : 0 < nWindow) (hpos : ∀ n ∈ lens, 0 < n) :
    chunkLengths nWindow lens = .ok (lens.flatMap (chunksOf (nWindow*2))) := by
  have hw₂ : 0 < nWindow*2 := by omega
  have hnum : chunkNum nWindow lens = lens.map fun n => (n-1)/(nWindow*2)+1 := by
    rw [chunkNum]
    exact List.map_congr_left fun n hn => ceil_div hw₂ (hpos n hn)
  have hset := set_tails (nWindow*2) [] lens
  have hpatch : (lens.flatMap fun n => List.replicate ((n-1)/(nWindow*2)) (nWindow*2) ++
      [n % (nWindow*2)]).map (fun n => if n = 0 then nWindow*2 else n) =
      lens.flatMap (chunksOf (nWindow*2)) := by
    rw [List.map_flatMap]
    exact List.flatMap_congr fun n hn => patch_chunks hw₂ (hpos n hn)
  rw [List.length_nil,List.nil_append,List.nil_append] at hset
  rw [chunkLengths,tailChunkIndex,hnum]
  simp only [cumsumInt,List.tail_cons,List.map_map]
  rw [← hpatch]
  exact (congrArg (· >>= _) hset).trans (ok_bind _ _)

end Lengths
end TLiveOmni
