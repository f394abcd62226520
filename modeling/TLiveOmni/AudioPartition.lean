import TLiveOmni.Embeds

/-! How the audio tokens of a video are divided among its temporal grids. -/
set_option autoImplicit false

namespace TLiveOmni
open PySeq Words

section Cuts
variable {audioLen gridT : Nat} {factor : ℚ}

/-- The audio tokens before grid `k`, as long as `k` is not the last boundary. -/
def cut (audioLen : Nat) (factor : ℚ) (k : Nat) : Int :=
  min (audioLen : Int) ⌊(k : ℚ)*factor+1/1000000⌋

theorem cut_zero : cut audioLen factor 0 = 0 := by
  have hfloor : ⌊(1/1000000 : ℚ)⌋ = 0 := by rw [Int.floor_eq_zero_iff]; norm_num
  simp only [cut,Nat.cast_zero,zero_mul,zero_add,hfloor]
  omega

theorem cut_mono (hf : 0 ≤ factor) {j k : Nat} (h : j ≤ k) :
    cut audioLen factor j ≤ cut audioLen factor k := by
  have hjk : (j : ℚ)*factor+1/1000000 ≤ (k : ℚ)*factor+1/1000000 := by gcongr
  exact min_le_min_left _ (Int.floor_le_floor hjk)

theorem cut_le (k : Nat) : cut audioLen factor k ≤ audioLen := min_le_left _ _

theorem truncate_of_nonneg {q : ℚ} (h : 0 ≤ q) : truncate q = ⌊q⌋ := if_pos h

/-- The clamp against the boundary before never acts: the cuts do not decrease. -/
theorem boundary_eq_cut (hf : 0 ≤ factor) (i : Nat) :
    min (audioLen : Int) (max (truncate ((i+1 : Nat)*factor+1/1000000)) (cut audioLen factor i)) =
      cut audioLen factor (i+1) := by
  have hmono : cut audioLen factor i ≤ cut audioLen factor (i+1) := cut_mono hf (Nat.le_succ i)
  rw [truncate_of_nonneg (by positivity)]
  simp only [cut] at hmono ⊢
  omega

theorem boundariesFrom_eq (hf : 0 ≤ factor) (n i : Nat) :
    boundariesFrom audioLen factor (i+1) n (cut audioLen factor i) =
      (List.range n).map (fun k => cut audioLen factor (i+1+k)) ++ [(audioLen : Int)] := by
  induction n generalizing i with
  | zero => rfl
  | succ n ih =>
    rw [boundariesFrom,boundary_eq_cut hf,ih,List.range_succ_eq_map,List.map_cons,List.map_map,
      List.cons_append]
    simp only [Function.comp_def,Nat.add_zero,Nat.succ_eq_add_one]
    congr 3
    funext k
    rw [Nat.add_right_comm (i+1) 1 k,Nat.add_assoc]

theorem audioBoundaries_eq (hf : 0 ≤ factor) (ht : 0 < gridT) :
    audioBoundaries gridT audioLen factor =
      (List.range gridT).map (cut audioLen factor) ++ [(audioLen : Int)] := by
  obtain ⟨n,rfl⟩ : ∃ n, gridT = n+1 := ⟨gridT-1,by omega⟩
  have hfrom := @boundariesFrom_eq audioLen factor hf n 0
  rw [cut_zero] at hfrom
  rw [audioBoundaries,Nat.add_sub_cancel,hfrom,List.range_succ_eq_map,List.map_cons,List.map_map,
    cut_zero]
  simp [Function.comp_def,Nat.add_comm]

theorem audioBoundaries_lt (hf : 0 ≤ factor) {k : Nat} (hk : k < gridT) :
    (audioBoundaries gridT audioLen factor).getD k 0 = cut audioLen factor k := by
  rw [audioBoundaries_eq hf (by omega),List.getD_eq_getElem?_getD,
    List.getElem?_append_left (by simpa using hk)]
  simp [hk]

theorem audioBoundaries_last (hf : 0 ≤ factor) (ht : 0 < gridT) :
    (audioBoundaries gridT audioLen factor).getD gridT 0 = audioLen := by
  rw [audioBoundaries_eq hf ht,List.getD_eq_getElem?_getD,List.getElem?_append_right (by simp)]
  simp

/-- The numbers of audio tokens in the grids: the differences of the boundaries are the segment
lengths, so none of them is negative, and the segments fill the audio from its start. -/
structure Partition (audioLen gridT : Nat) (factor : ℚ) (seg : Nat → Nat) : Prop where
  gap : ∀ i < gridT, (audioBoundaries gridT audioLen factor).getD (i+1) 0-
    (audioBoundaries gridT audioLen factor).getD i 0 = seg i
  upto : ∀ k, 0 < k → k < gridT → ((∑ i ∈ Finset.range k, seg i : Nat) : Int) =
    min (audioLen : Int) ⌊(k : ℚ)*factor+1/1000000⌋
  all : ∑ i ∈ Finset.range gridT, seg i = audioLen

/-- The length of the segment of grid `i` as both layouts compute it. -/
def segment (audioLen gridT : Nat) (factor : ℚ) (i : Nat) : Nat :=
  ((audioBoundaries gridT audioLen factor).getD (i+1) 0-
    (audioBoundaries gridT audioLen factor).getD i 0).toNat

theorem audioBoundaries_step (hf : 0 ≤ factor) {i : Nat} (hi : i < gridT) :
    (audioBoundaries gridT audioLen factor).getD i 0 ≤
      (audioBoundaries gridT audioLen factor).getD (i+1) 0 := by
  rw [audioBoundaries_lt hf hi]
  by_cases hlast : i+1 < gridT
  · rw [audioBoundaries_lt hf hlast]
    exact cut_mono hf (Nat.le_succ i)
  · obtain rfl : gridT = i+1 := by omega
    rw [audioBoundaries_last hf (Nat.succ_pos i)]
    exact cut_le i

theorem sum_segment (hf : 0 ≤ factor) {k : Nat} (hk : k ≤ gridT) :
    ((∑ i ∈ Finset.range k, segment audioLen gridT factor i : Nat) : Int) =
      (audioBoundaries gridT audioLen factor).getD k 0 := by
  induction k with
  | zero => rfl
  | succ k ih =>
    have hstep := @audioBoundaries_step audioLen gridT factor hf k hk
    rw [Finset.sum_range_succ,Nat.cast_add,ih (by omega),segment]
    omega

theorem segment_partition (hf : 0 ≤ factor) (ht : 0 < gridT) :
    Partition audioLen gridT factor (segment audioLen gridT factor) where
  gap := by
    intro i hi
    rw [segment,Int.toNat_of_nonneg (Int.sub_nonneg_of_le (audioBoundaries_step hf hi))]
  upto := by
    intro k _ hk
    rw [sum_segment hf hk.le,audioBoundaries_lt hf hk,cut]
  all := by
    have hsum := @sum_segment audioLen gridT factor hf gridT le_rfl
    rw [audioBoundaries_last hf ht] at hsum
    exact Int.ofNat_inj.mp hsum

end Cuts

section Layouts
variable (args : WriterArgs) (tk : Vllm.TokenizerLike) (d : Vllm.UpdateArgs)

/-- The time shown for grid `i`: the last timestamp is used again when there are too few. -/
def timeAt (timestamps : List ℚ) (i : Nat) : ℚ :=
  if timestamps = [] then (i : ℚ) else timestamps.getD (min i (timestamps.length-1)) 0

/-- The times of the grids when no timestamps are given. -/
def midTimes (gridT : Nat) (second : ℚ) : List ℚ :=
  (List.range gridT).map fun i : Nat => (i : ℚ)*second+second/2*(1/2)

/-- A span with `v` video and `a` audio placeholders in the text. -/
def spanText (time : ℚ) (v a : Nat) : List Char :=
  timestampText time ++ (Word.spell .visionStart ++ (Word.spell .audioStart ++
    (repeated .videoPlaceholder v ++ (repeated .audioPlaceholder a ++
      (Word.spell .audioEnd ++ Word.spell .visionEnd)))))

/-- A span with `v` video and `a` audio tokens in the prompt. -/
def spanTokens (time : ℚ) (v a : Nat) : List Token :=
  tk.encode (timestampText time) ++ .visionStart :: .audioStart ::
    (List.replicate v .videoPad ++ (List.replicate a .audioPad ++ [.audioEnd,.visionEnd]))

/-- Both layouts have one span per temporal grid, and divide the audio in the same way. -/
theorem audioInVideo_layouts (thw : Thw) (audioLen : Nat) {second : ℚ} (ht : 0 < thw.t)
    (hs : 0 ≤ second) :
    (∃ seg, Partition audioLen thw.t (second*args.positionIdPerSeconds) seg ∧ ∀ timestamps,
      voicedPlaceholder args thw timestamps audioLen second =
        (List.range thw.t).flatMap fun i => spanText (timeAt timestamps i)
          (thw.h/args.mergeSize*(thw.w/args.mergeSize)) (seg i)) ∧
    ∃ seg, Partition audioLen thw.t (second*d.positionIdPerSeconds) seg ∧
      ∀ timestamps : Option (List ℚ),
        Vllm.getUpdatesUseAudioInVideo tk d audioLen thw second timestamps =
          (List.range thw.t).flatMap fun i => spanTokens tk
            (timeAt (timestamps.getD (midTimes thw.t second)) i)
            (thw.h/d.mergeSize*(thw.w/d.mergeSize)) (seg i) := by
  constructor
  · exact ⟨_,segment_partition (by positivity) ht,fun timestamps => rfl⟩
  · exact ⟨_,segment_partition (by positivity) ht,fun timestamps => rfl⟩

theorem halfSeconds_layouts :
    (∃ seg, Partition 20 3 (1/2*13) seg ∧ ∀ timestamps,
      voicedPlaceholder (@writerArgs 2 13 2 true false []) ⟨3,4,4⟩ timestamps 20 (1/2) =
        (List.range 3).flatMap fun i => spanText (timeAt timestamps i) 4 (seg i)) ∧
    ∃ seg, Partition 20 3 (1/2*13) seg ∧ ∀ timestamps : Option (List ℚ),
      Vllm.getUpdatesUseAudioInVideo Vllm.charTokenizerLike (Vllm.silentAndAudio true) 20 ⟨3,4,4⟩
          (1/2) timestamps =
        (List.range 3).flatMap fun i => spanTokens Vllm.charTokenizerLike
          (timeAt (timestamps.getD (midTimes 3 (1/2))) i) 4 (seg i) :=
  audioInVideo_layouts (@writerArgs 2 13 2 true false []) Vllm.charTokenizerLike
    (Vllm.silentAndAudio true) ⟨3,4,4⟩ 20 (by decide) (by norm_num)

end Layouts
end TLiveOmni
