import Mathlib.Data.Fintype.EquivFin
import Mathlib.Data.List.Basic
import TLiveOmni.Lib.Spmd

/-! The convolutions of the audio tower over several ranks. Every call of the stack gathers the
parameters from all ranks, so the ranks have to make the same calls although their inputs differ
in length. -/
set_option autoImplicit false

namespace TLiveOmni
open Spmd

/-- The layers of the stack on a batch of rows, and the row that padding adds. -/
structure ConvStack (T : Type) where
  conv2d1 : List T → List T
  conv2d2 : List T → List T
  conv2d3 : List T → List T
  gelu : List T → List T
  zeroRow : T

/-- The function treats every row of the batch on its own. -/
def Rowwise {T : Type} (g : List T → List T) : Prop := ∃ f : T → T, ∀ rows, g rows = rows.map f

/-- Convolutions and activation are applied to each row of a batch. -/
structure ConvStack.IsRowwise {T : Type} (stack : ConvStack T) : Prop where
  conv2d1 : Rowwise stack.conv2d1
  conv2d2 : Rowwise stack.conv2d2
  conv2d3 : Rowwise stack.conv2d3
  gelu : Rowwise stack.gelu

/-- `tensor.split(size, dim=0)`; an empty tensor is one chunk. -/
def splitRows {T : Type} (size : Nat) (rows : List T) : List (List T) :=
  (List.range (max 1 ((rows.length+size-1)/size))).map fun i => (rows.drop (i*size)).take size

section Forward
variable {T : Type} (stack : ConvStack T) (convChunksize : Nat)

/-- One pass of a chunk through the stack. -/
def ConvStack.forward (chunk : List T) : List T :=
  stack.gelu (stack.conv2d3 (stack.gelu (stack.conv2d2 (stack.gelu (stack.conv2d1 chunk)))))

/-- `padded_embeds[0] if len(padded_embeds) == 1 else torch.cat(padded_embeds, dim=0)`. -/
def catChunks : List (List T) → List T
  | [embed] => embed
  | embeds => embeds.flatten

/-- `_chunked_conv_forward` on one of `worldSize` ranks. -/
def chunkedConvForward (worldSize : Nat) (paddedFeature : List T) : Prog (List T) (List T) (List T) :=
  let originalLen := paddedFeature.length
  let localChunkNum := (originalLen+convChunksize-1)/convChunksize
  if ¬ 1 < worldSize then
    callAll (splitRows convChunksize paddedFeature) fun paddedEmbeds => .done (catChunks paddedEmbeds)
  else
    .allReduce .min localChunkNum fun globalMinChunk =>
    .allReduce .max localChunkNum fun globalMaxChunk =>
    if globalMinChunk = globalMaxChunk then
      callAll (splitRows convChunksize paddedFeature) fun paddedEmbeds => .done (catChunks paddedEmbeds)
    else
      .allReduce .max originalLen fun globalMaxLen =>
      let paddedFeaturePadded := if originalLen < globalMaxLen then
        paddedFeature ++ List.replicate (globalMaxLen-originalLen) stack.zeroRow else paddedFeature
      callAll (splitRows convChunksize paddedFeaturePadded) fun paddedEmbeds =>
        .done ((catChunks paddedEmbeds).take originalLen)

end Forward

section Rows
variable {T : Type} {size : Nat}

theorem length_splitRows {rows : List T} (hsize : 0 < size) (hrows : 0 < rows.length) :
    (splitRows size rows).length = (rows.length+size-1)/size := by
  have hpos : 0 < (rows.length+size-1)/size := Nat.div_pos (by omega) hsize
  rw [splitRows,List.length_map,List.length_range]
  omega

theorem flatten_range_chunks (rows : List T) (n : Nat) :
    ((List.range n).map fun i => (rows.drop (i*size)).take size).flatten = rows.take (n*size) := by
  induction n with
  | zero => simp
  | succ n ih =>
    rw [List.range_succ,List.map_append,List.flatten_append,ih,Nat.succ_mul,List.take_add]
    simp

theorem flatten_splitRows (hsize : 0 < size) (rows : List T) : (splitRows size rows).flatten = rows := by
  rw [splitRows,flatten_range_chunks,List.take_of_length_le]
  have hdiv := Nat.div_add_mod (rows.length+size-1) size
  have hmod := Nat.mod_lt (rows.length+size-1) hsize
  have hle : (rows.length+size-1)/size*size ≤ max 1 ((rows.length+size-1)/size)*size :=
    Nat.mul_le_mul_right _ (le_max_right _ _)
  rw [Nat.mul_comm] at hdiv
  omega

theorem catChunks_eq (embeds : List (List T)) : catChunks embeds = embeds.flatten := by
  match embeds with
  | [] => rfl
  | [embed] => simp [catChunks]
  | _ :: _ :: _ => rfl

theorem ConvStack.IsRowwise.forward {stack : ConvStack T} (h : stack.IsRowwise) :
    Rowwise stack.forward := by
  obtain ⟨f1,h1⟩ := h.conv2d1
  obtain ⟨f2,h2⟩ := h.conv2d2
  obtain ⟨f3,h3⟩ := h.conv2d3
  obtain ⟨g,hg⟩ := h.gelu
  refine ⟨g ∘ f3 ∘ g ∘ f2 ∘ g ∘ f1,fun rows => ?_⟩
  simp [ConvStack.forward,h1,h2,h3,hg]

theorem catChunks_map_forward {stack : ConvStack T} {f : T → T}
    (hf : ∀ rows, stack.forward rows = rows.map f) (hsize : 0 < size) (rows : List T) :
    catChunks ((splitRows size rows).map stack.forward) = rows.map f := by
  have hmap : (splitRows size rows).map stack.forward = (splitRows size rows).map (List.map f) :=
    List.map_congr_left fun chunk _ => hf chunk
  rw [catChunks_eq,hmap,← List.map_flatten,flatten_splitRows hsize]

end Rows

section Ranks
variable {T ι : Type} {stack : ConvStack T} {convChunksize : Nat} {f : T → T}

/-- The chunks of one input, passed through the stack. -/
theorem follows_calls {i : ι} (hf : ∀ rows, stack.forward rows = rows.map f)
    (hsize : 0 < convChunksize) {rows : List T} (hrows : 0 < rows.length)
    (post : List T → List T) :
    Follows stack.forward i
      (callAll (splitRows convChunksize rows) fun embeds => .done (post (catChunks embeds))) []
      (List.replicate ((rows.length+convChunksize-1)/convChunksize) .call) (post (rows.map f)) := by
  have h : Follows stack.forward i
      (callAll (splitRows convChunksize rows) fun embeds => .done (post (catChunks embeds))) []
      (List.replicate (splitRows convChunksize rows).length .call ++ [])
      (post (catChunks ((splitRows convChunksize rows).map stack.forward))) :=
    Follows.callAll _ (.done _)
  rwa [catChunks_map_forward hf hsize,length_splitRows hsize hrows,List.append_nil] at h

/-- The padded input has the common length, and cutting it back leaves the rows. -/
theorem take_map_padded (rows : List T) (n : Nat) (zeroRow : T) :
    ((if rows.length < n then rows ++ List.replicate (n-rows.length) zeroRow else rows).map f).take
      rows.length = rows.map f := by
  split
  · rw [List.map_append,List.take_left' (by simp)]
  · rw [List.take_of_length_le (by simp)]

theorem length_padded {rows : List T} {n : Nat} (h : rows.length ≤ n) (zeroRow : T) :
    (if rows.length < n then rows ++ List.replicate (n-rows.length) zeroRow else rows).length = n := by
  split
  · rw [List.length_append,List.length_replicate]
    omega
  · omega

theorem follows_alone {i : ι} (hf : ∀ rows, stack.forward rows = rows.map f)
    (hsize : 0 < convChunksize) {rows : List T} (hrows : 0 < rows.length) {worldSize : Nat}
    (hworld : ¬ 1 < worldSize) :
    Follows stack.forward i (chunkedConvForward stack convChunksize worldSize rows) []
      (List.replicate ((rows.length+convChunksize-1)/convChunksize) .call) (rows.map f) := by
  rw [chunkedConvForward,if_pos hworld]
  exact follows_calls hf hsize hrows id

variable [Fintype ι] [Nonempty ι]

/-- With several ranks there are meetings that all of them keep. -/
theorem exists_follows (hf : ∀ rows, stack.forward rows = rows.map f) (hsize : 0 < convChunksize)
    {inputs : ι → List T} (hinputs : ∀ i, 0 < (inputs i).length) {worldSize : Nat}
    (hworld : 1 < worldSize) :
    ∃ (meetings : List (Meeting ι)) (events : List Event), ∀ i,
      Follows stack.forward i (chunkedConvForward stack convChunksize worldSize (inputs i)) meetings
        events ((inputs i).map f) := by
  let counts (i : ι) : Nat := ((inputs i).length+convChunksize-1)/convChunksize
  obtain ⟨least,hleast⟩ := Reduce.exists_isResult .min counts
  obtain ⟨most,hmost⟩ := Reduce.exists_isResult .max counts
  by_cases heq : least = most
  · refine ⟨[⟨.min,counts,least,hleast⟩,⟨.max,counts,most,hmost⟩],
      .allReduce .min :: .allReduce .max :: List.replicate least .call,fun i => ?_⟩
    have hcount : counts i = least := le_antisymm (heq ▸ hmost.2 i) (hleast.2 i)
    rw [chunkedConvForward,if_neg (not_not.mpr hworld)]
    refine .allReduce (m := ⟨.min,counts,least,hleast⟩) (.allReduce (m := ⟨.max,counts,most,hmost⟩) ?_)
    simp only [heq,if_true]
    rw [← heq,← hcount]
    exact follows_calls hf hsize (hinputs i) id
  · let lengths (i : ι) : Nat := (inputs i).length
    obtain ⟨longest,hlongest⟩ := Reduce.exists_isResult .max lengths
    refine ⟨[⟨.min,counts,least,hleast⟩,⟨.max,counts,most,hmost⟩,⟨.max,lengths,longest,hlongest⟩],
      .allReduce .min :: .allReduce .max :: .allReduce .max ::
        List.replicate ((longest+convChunksize-1)/convChunksize) .call,fun i => ?_⟩
    have hle : (inputs i).length ≤ longest := hlongest.2 i
    have hlen := length_padded hle stack.zeroRow
    rw [chunkedConvForward,if_neg (not_not.mpr hworld)]
    refine .allReduce (m := ⟨.min,counts,least,hleast⟩) (.allReduce (m := ⟨.max,counts,most,hmost⟩) ?_)
    simp only [heq,if_false]
    refine .allReduce (m := ⟨.max,lengths,longest,hlongest⟩) ?_
    have hpos := hinputs i
    have h := follows_calls (i := i) hf hsize (lt_of_lt_of_le hpos (hlen ▸ hle))
      (List.take (inputs i).length)
    rw [hlen,take_map_padded] at h
    exact h

variable [DecidableEq ι]

/-- In every interleaving the ranks execute the same reductions and the same number of calls of
the stack, and each gets what it would have computed alone. -/
theorem chunkedConv_aligned (hstack : stack.IsRowwise) (hsize : 0 < convChunksize)
    (inputs : ι → List T) (hinputs : ∀ i, 0 < (inputs i).length) :
    ∃ (events : List Event) (outs : ι → List T),
      Completes stack.forward
        (.start fun i => chunkedConvForward stack convChunksize (Fintype.card ι) (inputs i)) events outs ∧
      ∀ i, ∃ events', Completes stack.forward
        (.start fun _ : Unit => chunkedConvForward stack convChunksize 1 (inputs i)) events'
        fun _ => outs i := by
  obtain ⟨f,hf⟩ := hstack.forward
  have halone : ∀ i, ∃ events', Completes stack.forward
      (.start fun _ : Unit => chunkedConvForward stack convChunksize 1 (inputs i)) events'
      fun _ => (inputs i).map f :=
    fun i => ⟨_,.of_follows fun _ => follows_alone hf hsize (hinputs i) (by decide)⟩
  by_cases hworld : 1 < Fintype.card ι
  · obtain ⟨meetings,events,hall⟩ := exists_follows hf hsize hinputs hworld
    exact ⟨events,fun i => (inputs i).map f,.of_follows hall,halone⟩
  · obtain ⟨i₀⟩ := ‹Nonempty ι›
    have hall : ∀ i, Follows stack.forward i
        (chunkedConvForward stack convChunksize (Fintype.card ι) (inputs i)) []
        (List.replicate (((inputs i₀).length+convChunksize-1)/convChunksize) .call)
        ((inputs i).map f) := by
      intro i
      have hone : i = i₀ := Fintype.card_le_one_iff.mp (by omega) i i₀
      rw [hone]
      exact follows_alone hf hsize (hinputs i₀) hworld
    exact ⟨_,fun i => (inputs i).map f,.of_follows hall,halone⟩

end Ranks

/-- A stack that adds one to every row. -/
def addOne : ConvStack Nat := ⟨List.map (· + 1),id,id,id,0⟩

/-- Three rows on one rank and one row on the other. -/
def unevenInputs (i : Fin 2) : List Nat := if i = 0 then [1,2,3] else [4]

theorem unevenInputs_aligned : ∃ (events : List Event) (outs : Fin 2 → List Nat),
    Completes addOne.forward
      (.start fun i => chunkedConvForward addOne 2 (Fintype.card (Fin 2)) (unevenInputs i)) events outs := by
  have hid : Rowwise (id : List Nat → List Nat) := ⟨id,fun rows => (List.map_id rows).symm⟩
  have hstack : addOne.IsRowwise := ⟨⟨_,fun _ => rfl⟩,hid,hid,hid⟩
  obtain ⟨events,outs,h,-⟩ := chunkedConv_aligned hstack (by decide : 0 < 2) unevenInputs (by decide)
  exact ⟨events,outs,h⟩

end TLiveOmni
