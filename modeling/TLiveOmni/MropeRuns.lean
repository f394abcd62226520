import TLiveOmni.Decode
import TLiveOmni.SpanPositions

/-! The position columns that the model runner hands to the model, step by step: those of the
prompt are looked up, those of generated tokens are computed from the delta. -/
set_option autoImplicit false

namespace TLiveOmni.Mrope
open PySeq

/-- What the runner keeps of a request for its positions. -/
structure CachedRequestState where
  numPromptTokens : Nat
  mropePositions : List Pos
  mropePositionDelta : Int

/-- `_init_mrope_positions`. -/
def initMropePositions (cfg : Config) (promptTokenIds : List Token) (mmFeatures : List Feature) :
    Py CachedRequestState := do
  let (positions,delta) ← getMropeInputPositions cfg promptTokenIds mmFeatures
  pure ⟨promptTokenIds.length,positions,delta⟩

/-- The buffer with other values from a place on. -/
def splice (buffer : List Pos) (start : Nat) (values : List Pos) : List Pos :=
  buffer.take start ++ values ++ buffer.drop (start+values.length)

/-- `a[:, start : start + n] = values`: one column is written everywhere, and otherwise the widths
must agree. -/
def setColumns (exc : PyExc) (buffer : List Pos) (start n : Nat) (values : List Pos) :
    Py (List Pos) :=
  let width := min n (buffer.length-start)
  if values.length = width then .ok (splice buffer start values)
  else if values.length = 1 then
    .ok (splice buffer start (values.flatMap (List.replicate width)))
  else .error (.builtin exc)

/-- `get_next_input_positions_tensor`. -/
def getNextInputPositionsTensor (out : List Pos) (outOffset : Nat) (mropePositionDelta : Int)
    (contextLen numNewTokens : Nat) : Py (List Pos) :=
  setColumns .valueError out outOffset numNewTokens
    (arange3 numNewTokens (mropePositionDelta+contextLen))

/-- A request of the batch with its share of the step. -/
structure Share where
  req : CachedRequestState
  numComputedTokens : Nat
  numScheduledTokens : Nat

/-- How many of the scheduled tokens belong to the prompt, and how many to the completion. -/
def Share.parts (x : Share) : Nat × Nat :=
  if x.req.numPromptTokens < x.numComputedTokens+x.numScheduledTokens then
    (x.req.numPromptTokens-x.numComputedTokens,
      x.numScheduledTokens-(x.req.numPromptTokens-x.numComputedTokens))
  else (x.numScheduledTokens,0)

/-- `if prompt_part_len > 0`. -/
def writePrompt (x : Share) (promptPartLen ptr : Nat) (buffer : List Pos) :
    Py (List Pos × Nat) :=
  if 0 < promptPartLen then do
    let buffer ← setColumns .runtimeError buffer ptr promptPartLen
      ((x.req.mropePositions.drop x.numComputedTokens).take promptPartLen)
    pure (buffer,ptr+promptPartLen)
  else pure (buffer,ptr)

/-- `if completion_part_len > 0`. -/
def writeCompletion (x : Share) (promptPartLen completionPartLen ptr : Nat) (buffer : List Pos) :
    Py (List Pos × Nat) :=
  if 0 < completionPartLen then do
    let buffer ← getNextInputPositionsTensor buffer ptr x.req.mropePositionDelta
      (x.numComputedTokens+promptPartLen) completionPartLen
    pure (buffer,ptr+completionPartLen)
  else pure (buffer,ptr)

/-- `_calc_mrope_positions`, from a place in the buffer on. -/
def calcMropePositions : List Share → Nat → List Pos → Py (List Pos)
  | [], _, buffer => pure buffer
  | x :: batch, ptr, buffer => do
    raiseIf (x.numScheduledTokens ≠ x.parts.1+x.parts.2) (.builtin .assertionError)
    let (buffer,ptr) ← writePrompt x x.parts.1 ptr buffer
    let (buffer,ptr) ← writeCompletion x x.parts.1 x.parts.2 ptr buffer
    calcMropePositions batch ptr buffer

section Columns

/-- The positions of a request: the columns of its prompt, continued from the delta. -/
def CachedRequestState.columns (r : CachedRequestState) (n : Nat) : List Pos :=
  r.mropePositions ++ arange3 (n-r.numPromptTokens) (r.mropePositionDelta+r.numPromptTokens)

/-- What a share of the step asks for. -/
def Share.columns (x : Share) : List Pos :=
  ((x.req.columns (x.numComputedTokens+x.numScheduledTokens)).drop x.numComputedTokens).take
    x.numScheduledTokens

variable {exc : PyExc} {buffer : List Pos} {ptr n : Nat}

@[simp] theorem splice_nil (buffer : List Pos) (ptr : Nat) : splice buffer ptr [] = buffer := by
  simp [splice]

theorem length_splice {values : List Pos} (hroom : ptr+values.length ≤ buffer.length) :
    (splice buffer ptr values).length = buffer.length := by
  simp only [splice,List.length_append,List.length_take,List.length_drop]
  omega

theorem splice_splice {values values' : List Pos} (hroom : ptr+values.length ≤ buffer.length) :
    splice (splice buffer ptr values) (ptr+values.length) values' =
      splice buffer ptr (values ++ values') := by
  have htake : (buffer.take ptr ++ values).length = ptr+values.length := by
    rw [List.length_append,List.length_take]
    omega
  simp only [splice]
  rw [List.take_left' htake,List.drop_append,htake,List.drop_eq_nil_of_le (by omega),
    List.nil_append,List.drop_drop,List.length_append]
  simp only [List.append_assoc]
  congr 4
  omega

theorem setColumns_eq {values : List Pos} (hroom : ptr+n ≤ buffer.length)
    (hn : values.length = n) : setColumns exc buffer ptr n values = .ok (splice buffer ptr values) := by
  have hwidth : min n (buffer.length-ptr) = n := by omega
  rw [setColumns,hwidth,if_pos hn]

theorem drop_arange3 (k n : Nat) (b : Int) : (arange3 n b).drop k = arange3 (n-k) (b+k) := by
  by_cases hk : k ≤ n
  · have hsplit := arange3_append k (n-k) b
    rw [Nat.add_sub_cancel' hk] at hsplit
    rw [← hsplit]
    exact List.drop_left' (length_arange3 k b)
  · rw [List.drop_eq_nil_of_le (by rw [length_arange3]; omega),Nat.sub_eq_zero_of_le (by omega)]
    rfl

/-- The two parts of a share are its columns. -/
theorem Share.columns_eq (x : Share) (hlen : x.req.mropePositions.length = x.req.numPromptTokens) :
    x.columns = (x.req.mropePositions.drop x.numComputedTokens).take x.parts.1 ++
      arange3 x.parts.2 (x.req.mropePositionDelta+(x.numComputedTokens+x.parts.1 : Nat)) ∧
    ((x.req.mropePositions.drop x.numComputedTokens).take x.parts.1).length = x.parts.1 ∧
    x.numScheduledTokens = x.parts.1+x.parts.2 := by
  have hdrop : (x.req.mropePositions.drop x.numComputedTokens).length =
      x.req.numPromptTokens-x.numComputedTokens := by
    rw [List.length_drop,hlen]
  rw [columns,CachedRequestState.columns,parts]
  split
  · rename_i hover
    simp only
    have hshort : (x.req.mropePositions.drop x.numComputedTokens).take x.numScheduledTokens =
        x.req.mropePositions.drop x.numComputedTokens := List.take_of_length_le (by omega)
    have hwhole : (x.req.mropePositions.drop x.numComputedTokens).take
        (x.req.numPromptTokens-x.numComputedTokens) =
        x.req.mropePositions.drop x.numComputedTokens := List.take_of_length_le (by omega)
    refine ⟨?_,by rw [hwhole,hdrop],by omega⟩
    rw [List.drop_append,hlen,drop_arange3,List.take_append,hdrop,hshort,hwhole,
      List.take_of_length_le (by rw [length_arange3]; omega)]
    congr 2 <;> omega
  · rename_i hwithin
    have hnone : x.numComputedTokens+x.numScheduledTokens-x.req.numPromptTokens = 0 := by omega
    refine ⟨?_,?_,rfl⟩
    · simp [hnone,arange3]
    · rw [List.length_take,hdrop]
      simp only
      omega

theorem Share.length_columns {x : Share}
    (hlen : x.req.mropePositions.length = x.req.numPromptTokens) :
    x.columns.length = x.numScheduledTokens := by
  obtain ⟨hcolumns,hfirst,hparts⟩ := x.columns_eq hlen
  rw [hcolumns,List.length_append,hfirst,length_arange3,hparts]

/-- A request writes its columns where those of the requests before it end. -/
theorem calcMropePositions_cons {x : Share} {batch : List Share}
    (hlen : x.req.mropePositions.length = x.req.numPromptTokens)
    (hroom : ptr+x.numScheduledTokens ≤ buffer.length) :
    calcMropePositions (x :: batch) ptr buffer =
      calcMropePositions batch (ptr+x.numScheduledTokens) (splice buffer ptr x.columns) := by
  obtain ⟨hcolumns,hfirst,hparts⟩ := x.columns_eq hlen
  rw [hparts] at hroom
  have hprompt : writePrompt x x.parts.1 ptr buffer = .ok (splice buffer ptr
      ((x.req.mropePositions.drop x.numComputedTokens).take x.parts.1),ptr+x.parts.1) := by
    rw [writePrompt]
    split
    · rw [setColumns_eq (by omega) hfirst]
      rfl
    · rename_i hzero
      simp [Nat.eq_zero_of_not_pos hzero]
  rw [calcMropePositions,raiseIf_of_not (not_not.mpr hparts),hcolumns,hparts]
  generalize (x.req.mropePositions.drop x.numComputedTokens).take x.parts.1 = front at *
  have hcompletion : writeCompletion x x.parts.1 x.parts.2 (ptr+x.parts.1) (splice buffer ptr front) =
      .ok (splice buffer ptr (front ++ arange3 x.parts.2
        (x.req.mropePositionDelta+(x.numComputedTokens+x.parts.1 : Nat))),
          ptr+(x.parts.1+x.parts.2)) := by
    rw [writeCompletion]
    split
    · have hwide := @length_splice buffer ptr front (by omega)
      rw [getNextInputPositionsTensor,setColumns_eq (by omega) (length_arange3 _ _)]
      simp only [ok_bind,pure_eq_ok,Nat.add_assoc]
      rw [← hfirst,splice_splice (by omega)]
    · rename_i hzero
      simp [Nat.eq_zero_of_not_pos hzero,arange3]
  simp only [ok_bind,hprompt,hcompletion]

/-- The batch's columns stand in the buffer one request after the other, and each request's are
its own, whatever else is in the batch. -/
theorem calcMropePositions_eq {batch : List Share}
    (hlen : ∀ x ∈ batch, x.req.mropePositions.length = x.req.numPromptTokens)
    (hroom : ptr+(batch.map Share.numScheduledTokens).sum ≤ buffer.length) :
    calcMropePositions batch ptr buffer = .ok (splice buffer ptr (batch.flatMap Share.columns)) := by
  induction batch generalizing ptr buffer with
  | nil => simp [calcMropePositions]
  | cons x batch ih =>
    rw [List.map_cons,List.sum_cons] at hroom
    have hx := hlen x (by simp)
    have hwide := Share.length_columns hx
    rw [calcMropePositions_cons hx (by omega),ih (fun y hy => hlen y (by simp [hy])),← hwide,
      splice_splice (by omega),List.flatMap_cons]
    rw [length_splice (by omega)]
    omega

end Columns

section Samples
variable (cfg : Config) {u : Bool} {s : Sample cfg.spatialMergeSize} {mmFeatures : List Feature}

/-- Generated text has no features. -/
theorem Carries.extend (h : Carries s u mmFeatures) (gen : List Nat) :
    Carries (s.extend gen) u mmFeatures := ⟨h.images,h.videos,h.audios,h.flags⟩

theorem initMropePositions_wire (hu : s.Uniform u) (h : Carries s u mmFeatures) :
    initMropePositions cfg s.wire mmFeatures = .ok ⟨s.wire.length,
      s.positions cfg.positionIdPerSeconds,s.delta cfg.positionIdPerSeconds⟩ := by
  rw [initMropePositions,getMropeInputPositions_wire cfg hu h]
  rfl

theorem length_wire_extend (s : Sample cfg.spatialMergeSize) (gen : List Nat) :
    (s.extend gen).wire.length = s.wire.length+gen.length := by
  simp [Sample.wire,Sample.extend,wireText]
  omega

/-- Where the grids reach no further than the prompt, the positions continued from the delta are
those of the longer sequence. -/
theorem columns_extend (hset : settles cfg.positionIdPerSeconds s.tail.length s.items)
    (gen : List Nat) : CachedRequestState.columns ⟨s.wire.length,
      s.positions cfg.positionIdPerSeconds,s.delta cfg.positionIdPerSeconds⟩
        (s.wire.length+gen.length) = (s.extend gen).positions cfg.positionIdPerSeconds := by
  have hbase : s.delta cfg.positionIdPerSeconds+s.wire.length =
      (itemsAdvance cfg.positionIdPerSeconds s.items+s.tail.length : Nat) := by
    have htop := s.top_eq cfg.positionIdPerSeconds
    rw [settles_iff] at hset
    rw [Sample.delta]
    omega
  rw [CachedRequestState.columns,Sample.positions_extend,Nat.add_sub_cancel_left,hbase]
  push_cast
  rfl

/-- More columns change nothing about the first ones. -/
theorem columns_take {r : CachedRequestState} (hlen : r.mropePositions.length = r.numPromptTokens)
    {k n : Nat} (hk : k ≤ n) : (r.columns n).take k = (r.columns k).take k := by
  rw [CachedRequestState.columns,CachedRequestState.columns,List.take_append,List.take_append,hlen]
  congr 1
  have hsplit := arange3_append (k-r.numPromptTokens) (n-k)
    (r.mropePositionDelta+r.numPromptTokens)
  by_cases hp : k ≤ r.numPromptTokens
  · simp [Nat.sub_eq_zero_of_le hp]
  · have hsum : k-r.numPromptTokens+(n-k) = n-r.numPromptTokens := by omega
    rw [hsum] at hsplit
    rw [← hsplit,List.take_left' (length_arange3 _ _),
      List.take_of_length_le (by rw [length_arange3])]

/-- What a request's share gets out of a batch. -/
theorem calcMropePositions_at {before after : List Share} {x : Share} {buffer : List Pos}
    (hlen : ∀ y ∈ before ++ x :: after, y.req.mropePositions.length = y.req.numPromptTokens)
    (hroom : ((before ++ x :: after).map Share.numScheduledTokens).sum ≤ buffer.length) :
    ∃ out, calcMropePositions (before ++ x :: after) 0 buffer = .ok out ∧
      (out.drop (before.map Share.numScheduledTokens).sum).take x.numScheduledTokens = x.columns := by
  refine ⟨_,calcMropePositions_eq hlen (by omega),?_⟩
  have hbefore : (before.flatMap Share.columns).length =
      (before.map Share.numScheduledTokens).sum := by
    rw [List.length_flatMap]
    exact congrArg List.sum (List.map_congr_left fun y hy => Share.length_columns (hlen y (by simp [hy])))
  rw [splice,List.take_zero,List.nil_append,List.flatMap_append,List.flatMap_cons,List.append_assoc,
    List.append_assoc,List.drop_left' hbefore]
  exact List.take_left' (Share.length_columns (hlen x (by simp)))

/-- Whatever batches a request is part of, and however its tokens are cut into steps, the columns
of its shares are those that the parser gives to the whole sequence with the generated tokens, if
and only if no grid of the prompt reaches past its end. -/
theorem mropeSteps_agree_iff (hu : s.Uniform u) (h : Carries s u mmFeatures) :
    (∀ (gen : List Nat) (numComputedTokens numScheduledTokens : Nat) (before after : List Share)
      (buffer : List Pos),
      numComputedTokens+numScheduledTokens ≤ (s.extend gen).wire.length →
      (∀ y ∈ before ++ after, y.req.mropePositions.length = y.req.numPromptTokens) →
      ((before ++ after).map Share.numScheduledTokens).sum+numScheduledTokens ≤ buffer.length →
      ∃ req full delta out, initMropePositions cfg s.wire mmFeatures = .ok req ∧
        getMropeInputPositions cfg (s.extend gen).wire mmFeatures = .ok (full,delta) ∧
        calcMropePositions (before ++ ⟨req,numComputedTokens,numScheduledTokens⟩ :: after) 0 buffer =
          .ok out ∧
        (out.drop (before.map Share.numScheduledTokens).sum).take numScheduledTokens =
          (full.drop numComputedTokens).take numScheduledTokens) ↔
      settles cfg.positionIdPerSeconds s.tail.length s.items := by
  have hlength := s.length_positions cfg.positionIdPerSeconds
  have hinit := initMropePositions_wire cfg hu h
  have hextend : ∀ gen, getMropeInputPositions cfg (s.extend gen).wire mmFeatures = .ok _ :=
    fun gen => getMropeInputPositions_wire cfg (s := s.extend gen) hu (h.extend cfg gen)
  constructor
  · intro hall
    -- one generated token, alone in its step
    obtain ⟨req,full,delta,out,hreq,hfull,hout,heq⟩ := hall [0] s.wire.length 1 [] [] [.diag 0]
      (by rw [length_wire_extend]; simp) (by simp) (by simp)
    rw [hinit] at hreq
    cases hreq
    rw [hextend] at hfull
    cases hfull
    obtain ⟨out',hout',hown⟩ := @calcMropePositions_at [] [] ⟨⟨s.wire.length,
      s.positions cfg.positionIdPerSeconds,s.delta cfg.positionIdPerSeconds⟩,s.wire.length,1⟩
      [.diag 0] (by simpa using hlength) (by simp)
    rw [hout] at hout'
    cases hout'
    rw [hown,(Share.columns_eq _ hlength).1,Sample.positions_extend,List.drop_left' hlength] at heq
    have hpos : s.delta cfg.positionIdPerSeconds+s.wire.length =
        itemsAdvance cfg.positionIdPerSeconds s.items+s.tail.length := by
      simpa [Share.parts,arange3,Pos.diag] using heq
    have htop := s.top_eq cfg.positionIdPerSeconds
    rw [settles_iff]
    rw [Sample.delta] at hpos
    omega
  · intro hset gen c n before after buffer hin hlen hroom
    have hall : ∀ y ∈ before ++ (⟨⟨s.wire.length,s.positions cfg.positionIdPerSeconds,
        s.delta cfg.positionIdPerSeconds⟩,c,n⟩ : Share) :: after,
        y.req.mropePositions.length = y.req.numPromptTokens := by
      intro y hy
      rcases List.mem_append.mp hy with hy | hy
      · exact hlen y (List.mem_append_left _ hy)
      · rcases List.mem_cons.mp hy with rfl | hy
        · exact hlength
        · exact hlen y (List.mem_append_right _ hy)
    obtain ⟨out,hout,hown⟩ := @calcMropePositions_at before after _ buffer hall (by
      simp only [List.map_append,List.map_cons,List.sum_append,List.sum_cons] at hroom ⊢
      omega)
    refine ⟨_,_,_,out,hinit,hextend gen,hout,?_⟩
    rw [length_wire_extend] at hin
    have htake := columns_take (r := ⟨s.wire.length,s.positions cfg.positionIdPerSeconds,
      s.delta cfg.positionIdPerSeconds⟩) hlength hin
    rw [columns_extend cfg hset] at htake
    rw [hown,Share.columns,List.take_drop,List.take_drop]
    exact congrArg (List.drop c) htake.symm

/-- The last tokens of the prompt and the first two generated, behind another request. -/
theorem threeKinds_steps : ∃ req full delta out,
    initMropePositions .mergeTwo threeKinds.wire threeFeatures = .ok req ∧
      getMropeInputPositions .mergeTwo (threeKinds.extend [4,5]).wire threeFeatures =
        .ok (full,delta) ∧
      calcMropePositions [⟨⟨1,[.diag 0],0⟩,0,1⟩,⟨req,20,4⟩] 0 (List.replicate 8 (.diag 0)) = .ok out ∧
      (out.drop 1).take 4 = (full.drop 20).take 4 :=
  (mropeSteps_agree_iff .mergeTwo (by decide) threeFeatures_carries).mpr (by decide) [4,5] 20 4
    [⟨⟨1,[.diag 0],0⟩,0,1⟩] [] (List.replicate 8 (.diag 0)) (by decide) (by simp) (by simp)

end Samples
end TLiveOmni.Mrope
