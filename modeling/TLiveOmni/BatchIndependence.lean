import TLiveOmni.RopeIndexBatch

/-! A row of a batch gets the positions its sample gets on its own. -/
set_option autoImplicit false

namespace TLiveOmni
namespace RopeIndex
open PySeq

section Independence
variable (cfg : Config) (vis : LlmPosIdsForVision) (u : Bool)
variable (batch : List (Padded cfg.spatialMergeSize))
variable (image video : Option (List Thw)) (audio : Option (List Nat)) (seconds : Option (List ℚ))

/-- The call returns one row per sample. A row is zero in its masked columns and agrees in
the others, and in its delta, with the call on that sample alone. A permuted batch gets the
permuted rows. -/
def Independent : Prop :=
  ∃ out, getRopeIndex cfg vis (batch.map (·.inputIds)) image video (batch.map (·.mask)) u audio
      seconds = .ok out ∧ out.length = batch.length ∧
    (∀ (i : Nat) (r : Padded cfg.spatialMergeSize), batch[i]? = some r →
      ∃ (positions : List Pos) (delta : Int), out[i]? = some (positions,delta) ∧
      positions.length = r.mask.length ∧
      (∀ j : Nat, r.mask[j]? = some false → positions[j]? = some .zero) ∧
      ∀ image' video' audio' seconds', Supplies [r.sample] image' video' audio' seconds' →
        getRopeIndex cfg vis [r.sample.wire] image' video'
          [List.replicate r.sample.wire.length true] u audio' seconds' =
            .ok [(unmasked positions r.mask,delta)]) ∧
    ∀ permuted : List (Padded cfg.spatialMergeSize × (List Pos × Int)),
      permuted.Perm (batch.zip out) → ∀ image' video' audio' seconds',
        Supplies (permuted.map (·.1.sample)) image' video' audio' seconds' →
          getRopeIndex cfg vis (permuted.map (·.1.inputIds)) image' video'
            (permuted.map (·.1.mask)) u audio' seconds' = .ok (permuted.map (·.2))

theorem HasVision.perm {m : Nat} {a b : List (Sample m)} (hp : a.Perm b) (h : HasVision b) :
    HasVision a := by
  obtain ⟨s,hs,hv⟩ := h
  exact ⟨s,hp.mem_iff.mpr hs,hv⟩

variable {batch image video audio seconds}

theorem getRopeIndex_independent (hu : ∀ r ∈ batch, r.sample.Uniform u)
    (hs : Supplies (batch.map (·.sample)) image video audio seconds)
    (hv : HasVision (batch.map (·.sample))) :
    Independent cfg vis u batch image video audio seconds := by
  refine ⟨_,getRopeIndex_wire cfg vis hu hs (hv.isSome hs),by simp,?_,?_⟩
  · intro i r hr
    refine ⟨_,_,by rw [List.getElem?_map,hr]; rfl,length_go _ _,fun j hj => go_masked hj,?_⟩
    intro image' video' audio' seconds' hs'
    rw [unmasked_go (r.length_positions _)]
    exact getRopeIndex_alone cfg vis (hu r (List.mem_of_getElem? hr)) hs'
  · intro permuted hp image' video' audio' seconds' hs'
    have hzip : batch.zip (batch.map (Padded.result cfg.positionIdPerSeconds)) =
        batch.map fun r => (r,r.result cfg.positionIdPerSeconds) := by
      have := @List.zip_map' _ _ _ id (Padded.result cfg.positionIdPerSeconds) batch
      simpa using this
    rw [hzip] at hp
    have hpair : ∀ x ∈ permuted, x.1 ∈ batch ∧ x.2 = x.1.result cfg.positionIdPerSeconds := by
      intro x hx
      obtain ⟨r,hr,rfl⟩ := List.mem_map.mp (hp.mem_iff.mp hx)
      exact ⟨hr,rfl⟩
    have hsamples : (permuted.map (·.1.sample)).Perm (batch.map (·.sample)) := by
      have := hp.map (·.1.sample)
      simpa [Function.comp_def] using this
    have hu' : ∀ r ∈ permuted.map (·.1), r.sample.Uniform u := by
      intro r hr
      obtain ⟨x,hx,rfl⟩ := List.mem_map.mp hr
      exact hu _ (hpair x hx).1
    have hs'' : Supplies ((permuted.map (·.1)).map (·.sample)) image' video' audio' seconds' := by
      rw [List.map_map]; exact hs'
    have hrun := getRopeIndex_wire cfg vis hu' hs'' ((hv.perm hsamples).isSome hs')
    have hout : permuted.map (·.2) = (permuted.map (·.1)).map
        (Padded.result cfg.positionIdPerSeconds) := by
      rw [List.map_map]
      exact List.map_congr_left fun x hx => (hpair x hx).2
    rw [hout,← hrun]
    simp only [List.map_map]
    rfl

end Independence

section Mixture

/-- A prompt with an image, on its own. -/
def pictured : Sample 2 :=
  ⟨[⟨[7],.image (.ofSides 1 1 2)⟩],[8],[],rfl,by decide⟩

def greeting : Sample 2 := ⟨[],[7,8],[],noGrids,by decide⟩

/-- The text row is padded on the left to the width of the other. -/
def pairBatch : List (Padded 2) :=
  [alone pictured,⟨greeting,List.replicate 4 (.text 0) ++ greeting.wire,
    List.replicate 4 false ++ List.replicate 2 true,rfl,rfl⟩]

theorem pairBatch_independent :
    Independent .mergeTwo .reference false pairBatch (some [⟨1,2,4⟩]) none none none :=
  getRopeIndex_independent .mergeTwo .reference false (by decide)
    ⟨rfl,rfl,rfl,by simp⟩ ⟨pictured,by simp [pairBatch,alone],.inl (by decide)⟩

/-- A video with its audio track followed by a silent video. -/
def twoKinds : Sample 2 :=
  ⟨[⟨[],.avGrid (.ofSides 1 1) 1 (some 4)⟩,
      ⟨[],.grid (.ofSides 1 1) true⟩],[],
    [.ofSides 1 1 1,
      .ofSides 1 1 1],rfl,by decide⟩

def silentVideo : Sample 2 :=
  ⟨[⟨[],.grid (.ofSides 2 1) true⟩],[],
    [.ofSides 1 2 1],rfl,by decide⟩

def mixedBatch : List (Padded 2) :=
  [alone twoKinds,⟨silentVideo,List.replicate 5 (.text 0) ++ silentVideo.wire,
    List.replicate 5 false ++ List.replicate 4 true,rfl,rfl⟩]

/-- The silent video of the first row is not counted beside the other one, so the second row
is laid out with the first row's grid. A row without any token makes the call raise. -/
theorem mixedBatch_dependent :
    (Supplies (mixedBatch.map (·.sample)) none (some [⟨1,2,2⟩,⟨1,2,2⟩,⟨1,4,2⟩]) (some [4]) none ∧
      HasVision (mixedBatch.map (·.sample)) ∧
      ¬ Independent .mergeTwo .reference true mixedBatch none
        (some [⟨1,2,2⟩,⟨1,2,2⟩,⟨1,4,2⟩]) (some [4]) none) ∧
    getRopeIndex .mergeTwo .reference [pictured.wire,List.replicate 6 (.text 0)]
      (some [⟨1,2,4⟩]) none [List.replicate 6 true,List.replicate 6 false] false none none =
        .error (.builtin .runtimeError) := by
  refine ⟨⟨⟨rfl,rfl,rfl,by simp⟩,⟨twoKinds,by simp [mixedBatch,alone],.inr (by decide)⟩,?_⟩,
    by decide +kernel⟩
  rintro ⟨out,hout,-,hrow,-⟩
  have hbatch : getRopeIndex .mergeTwo .reference (mixedBatch.map (·.inputIds)) none
      (some [⟨1,2,2⟩,⟨1,2,2⟩,⟨1,4,2⟩]) (mixedBatch.map (·.mask)) true (some [4]) none =
      .ok [(arange3 3 0 ++ arange3 6 2,-1),
        (List.replicate 5 .zero ++ arange3 4 0,0)] := by decide +kernel
  obtain rfl : [(arange3 3 0 ++ arange3 6 2,-1),(List.replicate 5 Pos.zero ++ arange3 4 0,0)] =
      out := Except.ok.inj (hbatch.symm.trans hout)
  obtain ⟨positions,delta,hget,-,-,halone⟩ := hrow 1 _ rfl
  obtain ⟨rfl,rfl⟩ : List.replicate 5 Pos.zero ++ arange3 4 0 = positions ∧ 0 = delta := by
    simpa using hget
  have hsingle : getRopeIndex .mergeTwo .reference [silentVideo.wire] none (some [⟨1,4,2⟩])
      [List.replicate silentVideo.wire.length true] true none none =
      .ok [([⟨0,0,0⟩,⟨1,1,1⟩,⟨1,2,1⟩,⟨3,3,3⟩],0)] := by decide +kernel
  have hclash := hsingle.symm.trans (halone none (some [⟨1,4,2⟩]) none none ⟨rfl,rfl,rfl,by simp⟩)
  revert hclash
  decide +kernel

end Mixture
end RopeIndex
end TLiveOmni
