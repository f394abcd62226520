import Mathlib.Data.Bool.Count
import TLiveOmni.RopeIndexParse

/-! From the loop to whole rows and batches: a row is parsed into the positions of its
sample, and the cursors it leaves stand at the media of the next row. -/
set_option autoImplicit false

namespace TLiveOmni
namespace RopeIndex
open PySeq

section Row
variable (cfg : Config) (vis : LlmPosIdsForVision) (env : MediaArgs)
variable {s : Sample cfg.spatialMergeSize} {c : Carried}
variable {imgs : List (Grid cfg.spatialMergeSize)}
variable {grids : List (Frame cfg.spatialMergeSize × Bool)} {auds : List Nat}

/-- One row: the blocks of its sample, and the cursors behind its media. -/
theorem scanRow_wire (hu : s.Uniform env.useAudioInVideo)
    (h : At env c.toCursors (s.images ++ imgs) (expandVideos s.videos ++ grids) (s.audios ++ auds)) :
    ∃ c', scanRow cfg vis env s.wire c = .ok (s.blocks cfg.positionIdPerSeconds,c') ∧
      At env c'.toCursors imgs grids auds := by
  have hinit : Inv cfg env s.wire [] s.items (.ofText s.tail) imgs grids auds
      (initial env s.wire c).toLoopState 0 := initial_inv cfg env hu h
  obtain ⟨st,hrun,hblocks,hinv⟩ := iterate_reads cfg vis env hinit
  have hlen : s.wire.length = (wireItems s.items).length+s.tail.length := by
    simp [Sample.wire]
  have hst : st.st = (wireItems s.items).length := by simpa using hinv.st
  have hb : st.blocks = itemBlocks cfg.positionIdPerSeconds 0 s.items := by
    simpa [initial,initialState] using hblocks
  have hnext : nextPosition st.blocks =
      .ok (itemsAdvance cfg.positionIdPerSeconds s.items) := by simpa using hinv.next
  refine ⟨st.carried,?_,by simpa [State.carried] using hinv.cursors⟩
  have hnums := multimodalNums_eq cfg env hinit
  simp only [Rest.ofText,Nat.add_zero] at hnums
  simp only [scanRow,hnums,hrun,ok_bind,pure_eq_ok]
  by_cases ht : s.tail = []
  · have hnot : ¬ st.st < s.wire.length := by simp [hst,hlen,ht]
    simp [hnot,hb,Sample.blocks,Item.textBlocks,ht]
  · have hpos : 0 < s.tail.length := List.length_pos_iff.mpr ht
    have hlt : st.st < s.wire.length := by omega
    have hdiff : s.wire.length-st.st = s.tail.length := by omega
    rw [if_pos hlt,hnext]
    simp [hb,Sample.blocks,Item.textBlocks,ht,hdiff]

end Row

section Scatter

theorem unmasked_go {mask : List Bool} {ps : List Pos} (h : ps.length = mask.count true) :
    unmasked (scatterRow.go mask ps) mask = ps := by
  induction mask generalizing ps with
  | nil => cases ps <;> simp_all [scatterRow.go,unmasked]
  | cons b mask ih =>
    cases b with
    | false =>
      have hps : ps.length = mask.count true := by simpa using h
      simpa [scatterRow.go,unmasked] using ih hps
    | true =>
      cases ps with
      | nil => simp at h
      | cons p ps =>
        have hps : ps.length = mask.count true := by simpa using h
        simpa [scatterRow.go,unmasked] using ih hps

theorem go_masked {mask : List Bool} {ps : List Pos} {i : Nat} (h : mask[i]? = some false) :
    (scatterRow.go mask ps)[i]? = some .zero := by
  induction mask generalizing ps i with
  | nil => simp at h
  | cons b mask ih =>
    cases i with
    | zero =>
      obtain rfl : b = false := by simpa using h
      rfl
    | succ i =>
      have hi : mask[i]? = some false := by simpa using h
      cases b with
      | false => simpa [scatterRow.go] using ih hi
      | true => cases ps <;> simpa [scatterRow.go] using ih hi

theorem length_go (mask : List Bool) (ps : List Pos) :
    (scatterRow.go mask ps).length = mask.length := by
  induction mask generalizing ps with
  | nil => rfl
  | cons b mask ih =>
    cases b with
    | false => simp [scatterRow.go,ih]
    | true => cases ps <;> simp [scatterRow.go,ih]

theorem length_unmasked {α : Type} {row : List α} {mask : List Bool}
    (h : row.length = mask.length) : (unmasked row mask).length = mask.count true := by
  induction row generalizing mask with
  | nil => cases mask <;> simp_all [unmasked]
  | cons x row ih =>
    cases mask with
    | nil => simp at h
    | cons b mask =>
      have hmask : row.length = mask.length := by simpa using h
      cases b <;> simpa [unmasked] using ih hmask

theorem unmasked_replicate {α : Type} (row : List α) :
    unmasked row (List.replicate row.length true) = row := by
  induction row with
  | nil => rfl
  | cons x row ih => simpa [unmasked,List.replicate_succ] using ih

theorem go_replicate (ps : List Pos) : scatterRow.go (List.replicate ps.length true) ps = ps := by
  induction ps with
  | nil => rfl
  | cons p ps ih => simp [List.replicate_succ,scatterRow.go,ih]

end Scatter

/-- A row of a batch: the columns the mask keeps hold the sample, the others any token. -/
structure Padded (m : Nat) where
  sample : Sample m
  inputIds : List Token
  mask : List Bool
  lengthEq : inputIds.length = mask.length
  tokensEq : unmasked inputIds mask = sample.wire

/-- The result of a row: its sample's positions in the kept columns. -/
def Padded.result {m : Nat} (p : Nat) (r : Padded m) : List Pos × Int :=
  (scatterRow.go r.mask (r.sample.positions p),r.sample.delta p)

/-- The whole sequence as one row without padding. -/
def alone {m : Nat} (s : Sample m) : Padded m :=
  ⟨s,s.wire,List.replicate s.wire.length true,by simp,unmasked_replicate s.wire⟩

section Rows
variable (cfg : Config) (vis : LlmPosIdsForVision) (env : MediaArgs)
variable {c : Carried} {imgs : List (Grid cfg.spatialMergeSize)}
variable {grids : List (Frame cfg.spatialMergeSize × Bool)} {auds : List Nat}

theorem Padded.length_positions {m : Nat} (p : Nat) (r : Padded m) :
    (r.sample.positions p).length = r.mask.count true := by
  rw [r.sample.length_positions,← r.tokensEq,length_unmasked r.lengthEq]

theorem row_wire {r : Padded cfg.spatialMergeSize} (hu : r.sample.Uniform env.useAudioInVideo)
    (h : At env c.toCursors (r.sample.images ++ imgs) (expandVideos r.sample.videos ++ grids)
      (r.sample.audios ++ auds)) :
    ∃ c', row cfg vis env c r.inputIds r.mask =
        .ok (r.result cfg.positionIdPerSeconds,c') ∧ At env c'.toCursors imgs grids auds := by
  obtain ⟨c',hscan,hat⟩ := scanRow_wire cfg vis env hu h
  refine ⟨c',?_,hat⟩
  have hne := r.sample.blocks_ne_nil cfg.positionIdPerSeconds
  have hlen := r.length_positions cfg.positionIdPerSeconds
  have hscatter : scatterRow r.mask (r.sample.positions cfg.positionIdPerSeconds) =
      .ok (scatterRow.go r.mask (r.sample.positions cfg.positionIdPerSeconds)) := if_pos hlen
  have hmax := r.sample.blockMax_positions cfg.positionIdPerSeconds
  rw [Sample.positions] at hscatter hmax
  simp only [row,r.tokensEq,hscan,ok_bind,pure_eq_ok,raiseIf_of_not hne,hscatter,hmax]
  rfl

/-- The run over all rows: each row gets its own sample's positions. -/
theorem rows_wire {batch : List (Padded cfg.spatialMergeSize)}
    (hu : ∀ r ∈ batch, r.sample.Uniform env.useAudioInVideo)
    (h : At env c.toCursors (batch.flatMap (·.sample.images) ++ imgs)
      (expandVideos (batch.flatMap (·.sample.videos)) ++ grids)
      (batch.flatMap (·.sample.audios) ++ auds)) :
    ∃ c', rows cfg vis env c (batch.map fun r => (r.inputIds,r.mask)) =
        .ok (batch.map (Padded.result cfg.positionIdPerSeconds),c') ∧
      At env c'.toCursors imgs grids auds := by
  induction batch generalizing c with
  | nil => exact ⟨c,rfl,by simpa [expandVideos] using h⟩
  | cons r batch ih =>
    have hr : At env c.toCursors (r.sample.images ++ (batch.flatMap (·.sample.images) ++ imgs))
        (expandVideos r.sample.videos ++
          (expandVideos (batch.flatMap (·.sample.videos)) ++ grids))
        (r.sample.audios ++ (batch.flatMap (·.sample.audios) ++ auds)) := by
      simpa [expandVideos_append] using h
    obtain ⟨c₁,hrow,hat₁⟩ := row_wire cfg vis env (hu r (by simp)) hr
    obtain ⟨c₂,hrows,hat₂⟩ := ih (fun r' hr' => hu r' (by simp [hr'])) hat₁
    exact ⟨c₂,by simp [rows,hrow,hrows],hat₂⟩

end Rows

section Batch
variable (cfg : Config) (vis : LlmPosIdsForVision)
variable {image video : Option (List Thw)} {audio : Option (List Nat)} {seconds : Option (List ℚ)}

/-- The scanning branch on a whole batch, with every medium used up at the end. -/
theorem scanBatch_wire {u : Bool} {batch : List (Padded cfg.spatialMergeSize)}
    (hu : ∀ r ∈ batch, r.sample.Uniform u)
    (h : Supplies (batch.map (·.sample)) image video audio seconds) :
    ∃ c, scanBatch cfg vis (batch.map (·.inputIds)) image video (batch.map (·.mask)) u audio
        seconds = .ok (batch.map (Padded.result cfg.positionIdPerSeconds),c) ∧
      c.imageIdx = (image.getD []).length ∧
      c.videoIdx = (splitVideos (video.getD [])).length ∧
      c.audioIdx = (audio.getD []).length := by
  obtain ⟨env,hprep,rfl,himg,hvid,haud,hat⟩ := prepare_ok u h
  have hstart : At env (⟨.zero,none⟩ : Carried).toCursors (batch.flatMap (·.sample.images) ++ [])
      (expandVideos (batch.flatMap (·.sample.videos)) ++ [])
      (batch.flatMap (·.sample.audios) ++ []) := by
    simpa [List.flatMap_map] using hat
  obtain ⟨c,hrows,hend⟩ := rows_wire cfg vis env hu hstart
  refine ⟨c,?_,?_,?_,?_⟩
  · simp only [scanBatch,hprep,ok_bind]
    rw [← hrows]
    congr 1
    simp [List.zip_map']
  · rw [← himg]; exact hend.images.finish
  · rw [hend.videos.finish,hvid]
    cases video <;> rfl
  · rw [← haud]; exact hend.audios.finish

/-- Some sample of the batch has an image or a video. -/
def HasVision {m : Nat} (samples : List (Sample m)) : Prop :=
  ∃ s ∈ samples, s.images ≠ [] ∨ s.videos ≠ []

theorem HasVision.isSome {m : Nat} {samples : List (Sample m)} (hv : HasVision samples)
    (h : Supplies samples image video audio seconds) :
    (image.isSome || video.isSome) = true := by
  obtain ⟨s,hs,hi | hv⟩ := hv
  · have hne : image.getD [] ≠ [] := by
      rw [h.images]
      simp only [ne_eq,List.map_eq_nil_iff,List.flatMap_eq_nil_iff]
      exact fun hall => hi (hall s hs)
    cases image <;> simp_all
  · have hne : video.getD [] ≠ [] := by
      rw [h.videos]
      simp only [ne_eq,List.map_eq_nil_iff,List.flatMap_eq_nil_iff]
      exact fun hall => hv (hall s hs)
    cases video <;> simp_all

theorem getRopeIndex_wire {u : Bool} {batch : List (Padded cfg.spatialMergeSize)}
    (hu : ∀ r ∈ batch, r.sample.Uniform u)
    (h : Supplies (batch.map (·.sample)) image video audio seconds)
    (hv : (image.isSome || video.isSome) = true) :
    getRopeIndex cfg vis (batch.map (·.inputIds)) image video (batch.map (·.mask)) u audio
      seconds = .ok (batch.map (Padded.result cfg.positionIdPerSeconds)) := by
  obtain ⟨c,hscan,-⟩ := scanBatch_wire cfg vis hu h
  simp [getRopeIndex,hv,hscan]

end Batch

section TextOnly

theorem cumsumMask_replicate (acc n : Nat) :
    cumsumMask acc (List.replicate n true) = (List.range n).map fun i : Nat => (acc : Int)+i := by
  induction n generalizing acc with
  | zero => rfl
  | succ n ih =>
    rw [List.replicate_succ,List.range_succ_eq_map]
    simp only [cumsumMask,if_true,ih,List.map_cons,List.map_map,List.cons.injEq]
    refine ⟨by push_cast; omega,List.map_congr_left fun i _ => ?_⟩
    simp only [Function.comp]
    push_cast
    omega

/-- The columns the text branch assigns, with `acc` real tokens before. -/
def textPositions (acc : Nat) (mask : List Bool) : List Pos :=
  (cumsumMask acc mask).zip mask |>.map fun (i,b) => Pos.diag (if b then i else 1)

theorem textPositions_append (acc : Nat) (a b : List Bool) :
    textPositions acc (a ++ b) = textPositions acc a ++ textPositions (acc+a.count true) b := by
  induction a generalizing acc with
  | nil => simp [textPositions,cumsumMask]
  | cons x a ih =>
    cases x with
    | false => simpa [textPositions,cumsumMask] using ih acc
    | true =>
      have := ih (acc+1)
      rw [show acc+1+a.count true = acc+(a.count true+1) by omega] at this
      simpa [textPositions,cumsumMask] using this

theorem length_textPositions (acc : Nat) (mask : List Bool) :
    (textPositions acc mask).length = mask.length := by
  induction mask generalizing acc with
  | nil => rfl
  | cons x mask ih =>
    have := ih (if x then acc+1 else acc)
    simpa [textPositions,cumsumMask] using this

theorem textPositions_replicate (acc n : Nat) :
    textPositions acc (List.replicate n true) = arange3 n acc := by
  simp only [textPositions]
  rw [cumsumMask_replicate,replicate_eq_map_range,List.zip_map',arange3]
  simp [Function.comp_def]

theorem mem_textPositions {acc : Nat} {mask : List Bool} {q : Pos} :
    q ∈ textPositions acc mask ↔ (∃ i < mask.count true, q = .diag (acc+i)) ∨
      (0 < mask.count false ∧ q = .diag 1) := by
  induction mask generalizing acc with
  | nil => simp [textPositions,cumsumMask]
  | cons x mask ih =>
    have hcons : textPositions acc (x :: mask) =
        Pos.diag (if x then (acc : Int) else 1) ::
          textPositions (if x then acc+1 else acc) mask := by
      cases x <;> simp [textPositions,cumsumMask]
    rw [hcons,List.mem_cons,ih]
    cases x with
    | false =>
      have hc : (false :: mask).count true = mask.count true := by simp
      simp only [Bool.false_eq_true,if_false,List.count_cons_self,hc]
      constructor
      · rintro (rfl | h | ⟨-,rfl⟩)
        · exact .inr ⟨by omega,rfl⟩
        · exact .inl h
        · exact .inr ⟨by omega,rfl⟩
      · rintro (h | ⟨-,rfl⟩)
        · exact .inr (.inl h)
        · exact .inl rfl
    | true =>
      have hc : (true :: mask).count false = mask.count false := by simp
      simp only [if_true,List.count_cons_self,hc]
      constructor
      · rintro (rfl | ⟨i,hi,rfl⟩ | h)
        · exact .inl ⟨0,by omega,by simp⟩
        · exact .inl ⟨i+1,by omega,by push_cast; congr 1; omega⟩
        · exact .inr h
      · rintro (⟨i,hi,rfl⟩ | h)
        · cases i with
          | zero => exact .inl (by simp)
          | succ i => exact .inr (.inl ⟨i,by omega,by push_cast; congr 1; omega⟩)
        · exact .inr (.inr h)

/-- The maximum is taken over the filled padding columns too. -/
theorem textRow_eq {mask : List Bool} (h : 0 < mask.count true) :
    textRow mask = .ok (textPositions 0 mask,
      if mask.count true = 1 ∧ 0 < mask.count false then 1 else 0) := by
  have hmax : blockMax (textPositions 0 mask) = .ok ((mask.count true : Int)-1+
      if mask.count true = 1 ∧ 0 < mask.count false then 1 else 0) := by
    refine blockMax_eq_ok ?_ ?_
    · by_cases hone : mask.count true = 1 ∧ 0 < mask.count false
      · refine ⟨.diag 1,mem_textPositions.mpr (.inr ⟨hone.2,rfl⟩),?_⟩
        rw [if_pos hone,Pos.top_diag]
        omega
      · refine ⟨_,mem_textPositions.mpr (.inl ⟨mask.count true-1,by omega,rfl⟩),?_⟩
        rw [if_neg hone,Pos.top_diag]
        omega
    · intro q hq
      split
      · rcases mem_textPositions.mp hq with ⟨i,hi,rfl⟩ | ⟨-,rfl⟩ <;> simp only [Pos.top_diag] <;> omega
      · rcases mem_textPositions.mp hq with ⟨i,hi,rfl⟩ | ⟨hf,rfl⟩ <;> simp only [Pos.top_diag] <;> omega
  have hfold : ((cumsumMask 0 mask).zip mask |>.map
      fun (i,b) => Pos.diag (if b then i else 1)) = textPositions 0 mask := rfl
  simp only [textRow,hfold,hmax,ok_bind,pure_eq_ok,Except.ok.injEq,Prod.mk.injEq,true_and]
  omega

theorem textRow_replicate {n : Nat} (hn : 0 < n) :
    textRow (List.replicate n true) = .ok (arange3 n 0,0) := by
  rw [textRow_eq (by simpa using hn),textPositions_replicate]
  simp

/-- What a call assigns to a row, by branch. -/
def Padded.assigned {m : Nat} (vision : Bool) (p : Nat) (r : Padded m) : List Pos × Int :=
  if vision then r.result p
  else (textPositions 0 r.mask,if r.mask.count true = 1 ∧ 0 < r.mask.count false then 1 else 0)

theorem Padded.count_mask {m : Nat} (r : Padded m) :
    r.mask.count true = r.sample.wire.length := by
  rw [← length_unmasked r.lengthEq,r.tokensEq]

variable (cfg : Config) (vis : LlmPosIdsForVision)
variable {image video : Option (List Thw)} {audio : Option (List Nat)} {seconds : Option (List ℚ)}

theorem getRopeIndex_assigned {u : Bool} {batch : List (Padded cfg.spatialMergeSize)}
    (hu : ∀ r ∈ batch, r.sample.Uniform u)
    (hs : Supplies (batch.map (·.sample)) image video audio seconds) :
    getRopeIndex cfg vis (batch.map (·.inputIds)) image video (batch.map (·.mask)) u audio
      seconds = .ok (batch.map (Padded.assigned (image.isSome || video.isSome)
        cfg.positionIdPerSeconds)) := by
  cases hv : image.isSome || video.isSome with
  | true =>
    rw [getRopeIndex_wire cfg vis hu hs hv]
    simp [Padded.assigned]
  | false =>
    have htext : ∀ r ∈ batch, textRow r.mask = .ok (r.assigned false cfg.positionIdPerSeconds) := by
      intro r _
      have hn : 0 < r.sample.wire.length := List.length_pos_iff.mpr r.sample.wire_ne_nil
      rw [textRow_eq (by rw [r.count_mask]; exact hn)]
      simp [Padded.assigned]
    simp only [getRopeIndex,hv,Bool.false_eq_true,if_false,List.mapM_map]
    exact mapM_eq_ok htext

/-- A sample on its own, whichever branch the call takes. -/
theorem getRopeIndex_alone {u : Bool} {s : Sample cfg.spatialMergeSize} (hu : s.Uniform u)
    (h : Supplies [s] image video audio seconds) :
    getRopeIndex cfg vis [s.wire] image video [List.replicate s.wire.length true] u audio
      seconds = .ok [(s.positions cfg.positionIdPerSeconds,s.delta cfg.positionIdPerSeconds)] := by
  by_cases hv : (image.isSome || video.isSome) = true
  · have hall : ∀ r ∈ [alone s], r.sample.Uniform u := by simpa [alone] using hu
    have hrun := getRopeIndex_wire cfg vis hall h hv
    have hgo := go_replicate (s.positions cfg.positionIdPerSeconds)
    rw [s.length_positions] at hgo
    simpa [alone,Padded.result,hgo] using hrun
  · obtain ⟨rfl,rfl⟩ : image = none ∧ video = none := by
      cases image <;> cases video <;> simp_all
    have himg : s.images = [] := by simpa using h.images
    have hvid : s.videos = [] := by simpa using h.videos
    have hn : 0 < s.wire.length := List.length_pos_iff.mpr s.wire_ne_nil
    rw [s.positions_plain himg hvid,s.delta_plain himg hvid]
    simp [getRopeIndex,textRow_replicate hn]

end TextOnly
end RopeIndex
end TLiveOmni
