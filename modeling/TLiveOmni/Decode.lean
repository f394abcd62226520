import TLiveOmni.RopeIndexBatch
import TLiveOmni.Overhang

/-! The position ids of cached decoding, against a recomputation on the extended prompt. -/
set_option autoImplicit false

namespace TLiveOmni
open PySeq

/-- The sample continued by generated text. -/
def Sample.extend {m : Nat} (s : Sample m) (gen : List Nat) : Sample m :=
  ⟨s.items,s.tail ++ gen,s.videos,s.gridsEq,s.nonempty.imp_right fun h e =>
    h (List.append_eq_nil_iff.mp e).1⟩

theorem Sample.positions_extend {m : Nat} (p : Nat) (s : Sample m) (gen : List Nat) :
    (s.extend gen).positions p =
      s.positions p ++ arange3 gen.length (itemsAdvance p s.items+s.tail.length) := by
  simp only [positions,blocks,extend,List.flatten_append,textBlocks_flatten,List.append_assoc,
    arange3_append,List.length_append]

namespace RopeIndex

/-- How `forward` sets the position ids. `ropeDeltas` is `self.rope_deltas` before the call,
the second result is its value afterwards; `cachePosition` is `cache_position[0]`. -/
def forwardPositionIds (cfg : Config) (vis : LlmPosIdsForVision) (ropeDeltas : Option (List Int))
    (inputIds : List (List Token)) (imageGridThw videoGridThw : Option (List Thw))
    (attentionMask : List (List Bool)) (useAudioInVideo : Bool)
    (audioFeatureLengths : Option (List Nat)) (videoSecondPerGrid : Option (List ℚ))
    (cachePosition : Option Nat) : Py (List (List Pos) × Option (List Int)) :=
  match cachePosition, ropeDeltas with
  | some (c+1), some deltas =>
      pure (List.zipWith (fun ids delta => (List.range ids.length).map fun i : Nat =>
        Pos.diag (i+((c+1 : Nat)+delta))) inputIds deltas,ropeDeltas)
  | _, _ => do
      let out ← getRopeIndex cfg vis inputIds imageGridThw videoGridThw attentionMask
        useAudioInVideo audioFeatureLengths videoSecondPerGrid
      let delta0 := attentionMask.map fun mask => (mask.count false : Int)
      pure (out.map (·.1),some (List.zipWith (fun r d => r.2-d) out delta0))

section Extend
variable {m : Nat}

theorem unmasked_append {α : Type} {row : List α} {mask : List Bool}
    (h : row.length = mask.length) (row' : List α) (mask' : List Bool) :
    unmasked (row ++ row') (mask ++ mask') = unmasked row mask ++ unmasked row' mask' := by
  simp [unmasked,List.zip_append h]

def Padded.extend (r : Padded m) (gen : List Nat) : Padded m where
  sample := r.sample.extend gen
  inputIds := r.inputIds ++ wireText gen
  mask := r.mask ++ List.replicate gen.length true
  lengthEq := by simp [r.lengthEq]
  tokensEq := by
    have := unmasked_replicate (wireText gen)
    rw [length_wireText] at this
    rw [unmasked_append r.lengthEq,r.tokensEq,this]
    simp [Sample.extend,Sample.wire,wireText]

theorem go_append {mask : List Bool} {ps : List Pos} (h : ps.length = mask.count true)
    (mask' : List Bool) (ps' : List Pos) :
    scatterRow.go (mask ++ mask') (ps ++ ps') =
      scatterRow.go mask ps ++ scatterRow.go mask' ps' := by
  induction mask generalizing ps with
  | nil =>
    obtain rfl : ps = [] := by simpa using h
    rfl
  | cons b mask ih =>
    cases b with
    | false =>
      have hps : ps.length = mask.count true := by simpa using h
      simp [scatterRow.go,ih hps]
    | true =>
      cases ps with
      | nil => simp at h
      | cons q ps =>
        have hps : ps.length = mask.count true := by simpa using h
        simp [scatterRow.go,ih hps]

theorem getElem?_arange3 {n k : Nat} (h : k < n) (b : Int) :
    (arange3 n b)[k]? = some (.diag (b+k)) := by
  simp [arange3,h]

/-- Recomputed with the scanning loop, generated text continues behind the last block. -/
theorem Padded.extend_position (p : Nat) (r : Padded m) {gen : List Nat} {k : Nat}
    (hk : k < gen.length) :
    ((r.extend gen).result p).1[r.inputIds.length+k]? =
      some (.diag (itemsAdvance p r.sample.items+r.sample.tail.length+k)) := by
  have hgo := go_replicate (arange3 gen.length (itemsAdvance p r.sample.items+r.sample.tail.length))
  rw [length_arange3] at hgo
  simp only [result,Padded.extend,Sample.positions_extend,go_append (r.length_positions p),hgo]
  have hlen : (scatterRow.go r.mask (r.sample.positions p)).length = r.inputIds.length := by
    rw [length_go,r.lengthEq]
  rw [List.getElem?_append_right (by omega),hlen,Nat.add_sub_cancel_left,getElem?_arange3 hk]

theorem Padded.width (r : Padded m) :
    r.inputIds.length = r.sample.wire.length+r.mask.count false := by
  have h := length_unmasked r.lengthEq
  have hc := List.count_true_add_count_false r.mask
  rw [r.tokensEq] at h
  have := r.lengthEq
  omega

end Extend

theorem textPositions_extend {mask : List Bool} {n k : Nat} (hk : k < n) :
    (textPositions 0 (mask ++ List.replicate n true))[mask.length+k]? =
      some (.diag (mask.count true+k)) := by
  rw [textPositions_append,List.getElem?_append_right (by rw [length_textPositions]; omega),
    length_textPositions,Nat.add_sub_cancel_left,textPositions_replicate,getElem?_arange3 hk]
  simp

/-- The position a recomputation gives to the token behind the row. -/
def Padded.following {m : Nat} (vision : Bool) (p : Nat) (r : Padded m) : Nat :=
  if vision then itemsAdvance p r.sample.items+r.sample.tail.length else r.mask.count true

/-- With the scanning loop no grid reaches past the end of the row; in the text branch the
row is not a single token with padding. -/
def Padded.Settled {m : Nat} (vision : Bool) (p : Nat) (r : Padded m) : Prop :=
  if vision then settles p r.sample.tail.length r.sample.items
  else ¬ (r.mask.count true = 1 ∧ 0 < r.mask.count false)

section Rows
variable {m : Nat} (vision : Bool) (p : Nat) (r : Padded m)

theorem Padded.following_position {gen : List Nat} {k : Nat} (hk : k < gen.length) :
    ((r.extend gen).assigned vision p).1[r.inputIds.length+k]? =
      some (.diag (r.following vision p+k)) := by
  cases vision with
  | true =>
    have := r.extend_position p hk
    simpa [assigned,following] using this
  | false =>
    have := @textPositions_extend r.mask _ _ hk
    rw [r.lengthEq]
    simpa [assigned,following,Padded.extend] using this

/-- The delta points behind the largest position, the recomputation behind the last block. -/
theorem Padded.cached_iff (k : Nat) :
    ((0 : Nat) : Int)+((r.inputIds.length+k : Nat)+
      ((r.assigned vision p).2-r.mask.count false)) = r.following vision p+k ↔
        r.Settled vision p := by
  have hw := r.width
  have hn : 0 < r.sample.wire.length := List.length_pos_iff.mpr r.sample.wire_ne_nil
  cases vision with
  | true =>
    have htop := r.sample.top_eq p
    have hadv := itemsAdvance_le_reach p r.sample.items
    simp only [assigned,following,Settled,if_true,result,Sample.delta,settles_iff]
    omega
  | false =>
    have hc := r.count_mask
    simp only [assigned,following,Settled,Bool.false_eq_true,if_false]
    split <;> omega

end Rows

section Decoding
variable (cfg : Config) (vis : LlmPosIdsForVision) (u : Bool)
variable (batch : List (Padded cfg.spatialMergeSize)) (width : Nat)
variable (image video : Option (List Thw)) (audio : Option (List Nat)) (seconds : Option (List ℚ))

/-- After the prefill, the step with `cache_position[0] = width + k` gives every row the
position that `get_rope_index` gives to the generated token on the extended prompt. -/
def CachedAgrees : Prop :=
  ∀ (prior : Option (List Int)) (gens : List (List Nat)) (n k : Nat),
    gens.length = batch.length → (∀ g ∈ gens, g.length = n) → k < n →
    ∃ first deltas step full,
      forwardPositionIds cfg vis prior (batch.map (·.inputIds)) image video (batch.map (·.mask)) u
        audio seconds (some 0) = .ok (first,some deltas) ∧
      forwardPositionIds cfg vis (some deltas) (gens.map fun g => wireText ((g.drop k).take 1))
        image video (batch.map fun r => r.mask ++ List.replicate (k+1) true) u audio seconds
        (some (width+k)) = .ok (step,some deltas) ∧
      getRopeIndex cfg vis (List.zipWith (fun r g => r.inputIds ++ wireText g) batch gens)
        image video (List.zipWith (fun r g => r.mask ++ List.replicate g.length true) batch gens)
        u audio seconds = .ok full ∧
      ∀ i < batch.length, ∃ q positions delta, step[i]? = some [q] ∧
        full[i]? = some (positions,delta) ∧ positions[width+k]? = some q

variable {cfg u batch width image video audio seconds}

theorem supplies_extend {gens : List (List Nat)} (hlen : gens.length = batch.length)
    (hs : Supplies (batch.map (·.sample)) image video audio seconds) :
    Supplies ((List.zipWith Padded.extend batch gens).map (·.sample)) image video audio
      seconds := by
  have hflat : ∀ {β : Type} (f : Sample cfg.spatialMergeSize → List β),
      (∀ (s : Sample cfg.spatialMergeSize) g, f (s.extend g) = f s) →
        ((List.zipWith Padded.extend batch gens).map (·.sample)).flatMap f =
          (batch.map (·.sample)).flatMap f := by
    intro β f hf
    clear hs
    induction batch generalizing gens with
    | nil => simp
    | cons r batch ih =>
      cases gens with
      | nil => simp at hlen
      | cons g gens =>
        have := ih (by simpa using hlen)
        simp only [List.map_cons,List.flatMap_cons,List.zipWith_cons_cons,this,Padded.extend,hf]
  exact ⟨by rw [hflat _ fun _ _ => rfl]; exact hs.images,
    by rw [hflat _ fun _ _ => rfl]; exact hs.videos,
    by rw [hflat _ fun _ _ => rfl]; exact hs.audios,
    by rw [hflat _ fun _ _ => rfl]; exact hs.seconds⟩

/-- Prefill, one cached step and the recomputation, with what each row gets. -/
theorem decode_runs (hu : ∀ r ∈ batch, r.sample.Uniform u)
    (hs : Supplies (batch.map (·.sample)) image video audio seconds) (hw : 0 < width)
    (hwidth : ∀ r ∈ batch, r.inputIds.length = width) (prior : Option (List Int))
    {gens : List (List Nat)} {n k : Nat} (hlen : gens.length = batch.length)
    (hgen : ∀ g ∈ gens, g.length = n) (hk : k < n) :
    ∃ first deltas step full,
      forwardPositionIds cfg vis prior (batch.map (·.inputIds)) image video (batch.map (·.mask)) u
        audio seconds (some 0) = .ok (first,some deltas) ∧
      forwardPositionIds cfg vis (some deltas) (gens.map fun g => wireText ((g.drop k).take 1))
        image video (batch.map fun r => r.mask ++ List.replicate (k+1) true) u audio seconds
        (some (width+k)) = .ok (step,some deltas) ∧
      getRopeIndex cfg vis (List.zipWith (fun r g => r.inputIds ++ wireText g) batch gens)
        image video (List.zipWith (fun r g => r.mask ++ List.replicate g.length true) batch gens)
        u audio seconds = .ok full ∧
      ∀ (i : Nat) r, batch[i]? = some r →
        step[i]? = some [.diag (((0 : Nat) : Int)+((width+k : Nat)+
          ((r.assigned (image.isSome || video.isSome) cfg.positionIdPerSeconds).2-
            r.mask.count false)))] ∧
        ∃ positions delta, full[i]? = some (positions,delta) ∧ positions[width+k]? =
          some (.diag (r.following (image.isSome || video.isSome) cfg.positionIdPerSeconds+k)) := by
  set vision := image.isSome || video.isSome
  set p := cfg.positionIdPerSeconds
  have hu' : ∀ r ∈ List.zipWith Padded.extend batch gens, r.sample.Uniform u := by
    intro r hr
    obtain ⟨i,hi⟩ := List.mem_iff_getElem?.mp hr
    obtain ⟨r₀,g,hr₀,-,rfl⟩ := List.getElem?_zipWith_eq_some.mp hi
    exact hu r₀ (List.mem_of_getElem? hr₀)
  have hfull := getRopeIndex_assigned cfg vis hu' (supplies_extend hlen hs)
  simp only [List.map_zipWith,Padded.extend] at hfull
  have hdeltas : List.zipWith (fun (r : List Pos × Int) d => r.2-d)
      (batch.map (Padded.assigned vision p))
      ((batch.map (·.mask)).map fun mask => (mask.count false : Int)) =
        batch.map fun r => (r.assigned vision p).2-(r.mask.count false : Int) := by
    rw [List.map_map,List.zipWith_map,List.zipWith_self]
    rfl
  obtain ⟨c,hc⟩ : ∃ c, width+k = c+1 := ⟨width+k-1,by omega⟩
  have hfirst : forwardPositionIds cfg vis prior (batch.map (·.inputIds)) image video
      (batch.map (·.mask)) u audio seconds (some 0) =
        .ok ((batch.map (Padded.assigned vision p)).map (·.1),some (batch.map fun r =>
          (r.assigned vision p).2-(r.mask.count false : Int))) := by
    simp only [forwardPositionIds,getRopeIndex_assigned cfg vis hu hs,ok_bind,pure_eq_ok]
    rw [hdeltas]
  have hstep : ∀ deltas masks, forwardPositionIds cfg vis (some deltas)
      (gens.map fun g => wireText ((g.drop k).take 1)) image video masks u audio seconds
        (some (width+k)) = .ok (List.zipWith (fun ids delta => (List.range ids.length).map
          fun i : Nat => Pos.diag (i+((width+k : Nat)+delta)))
            (gens.map fun g => wireText ((g.drop k).take 1)) deltas,some deltas) := by
    intro deltas masks
    rw [hc]; rfl
  refine ⟨_,_,_,_,hfirst,hstep _ _,hfull,?_⟩
  intro i r hr
  have hi : i < gens.length := by
    rw [hlen]; exact (List.getElem?_eq_some_iff.mp hr).1
  have hg : gens[i]? = some gens[i] := List.getElem?_eq_getElem hi
  have hgk : k < gens[i].length := by rw [hgen _ (List.getElem_mem hi)]; exact hk
  have hone : (wireText ((gens[i].drop k).take 1)).length = 1 := by
    simp only [length_wireText,List.length_take,List.length_drop]; omega
  refine ⟨?_,((r.extend gens[i]).assigned vision p).1,
    ((r.extend gens[i]).assigned vision p).2,?_,?_⟩
  · rw [List.getElem?_zipWith,List.getElem?_map,List.getElem?_map,hg,hr]
    simp only [Option.map_some,hone,List.range_one,List.map_cons,List.map_nil]
  · rw [List.getElem?_zipWith,hr,hg]
    rfl
  · rw [← hwidth r (List.mem_of_getElem? hr)]
    exact r.following_position vision p hgk

theorem width_pos (hne : batch ≠ []) (hwidth : ∀ r ∈ batch, r.inputIds.length = width) :
    0 < width := by
  obtain ⟨r,hr⟩ := List.exists_mem_of_ne_nil _ hne
  have hn : 0 < r.sample.wire.length := List.length_pos_iff.mpr r.sample.wire_ne_nil
  have := r.width
  rw [hwidth r hr] at this
  omega

theorem settled_of_cachedAgrees (hu : ∀ r ∈ batch, r.sample.Uniform u)
    (hs : Supplies (batch.map (·.sample)) image video audio seconds) (hne : batch ≠ [])
    (hwidth : ∀ r ∈ batch, r.inputIds.length = width)
    (h : CachedAgrees cfg vis u batch width image video audio seconds) {r} (hr : r ∈ batch) :
    r.Settled (image.isSome || video.isSome) cfg.positionIdPerSeconds := by
  obtain ⟨i,hi⟩ := List.mem_iff_getElem?.mp hr
  have hlen : (batch.map fun _ => [0]).length = batch.length := by simp
  have hgen : ∀ g ∈ batch.map fun _ => [0], g.length = 1 := by simp
  obtain ⟨first,deltas,step,full,h₁,h₂,h₃,hrow⟩ :=
    decode_runs vis hu hs (width_pos hne hwidth) hwidth none hlen hgen Nat.zero_lt_one
  obtain ⟨first',deltas',step',full',h₁',h₂',h₃',hagree⟩ := h none _ 1 0 hlen hgen Nat.zero_lt_one
  obtain ⟨rfl,hd⟩ := Prod.mk.inj (Except.ok.inj (h₁.symm.trans h₁'))
  obtain rfl := Option.some.inj hd
  obtain ⟨rfl,-⟩ := Prod.mk.inj (Except.ok.inj (h₂.symm.trans h₂'))
  obtain rfl := Except.ok.inj (h₃.symm.trans h₃')
  obtain ⟨q,positions,delta,hq,hpos,hat⟩ := hagree i (List.getElem?_eq_some_iff.mp hi).1
  obtain ⟨hstep,positions',delta',hpos',hat'⟩ := hrow i r hi
  obtain ⟨rfl,-⟩ := Prod.mk.inj (Option.some.inj (hpos.symm.trans hpos'))
  obtain rfl := List.singleton_inj.mp (Option.some.inj (hstep.symm.trans hq))
  have hdiag := congrArg Pos.t (Option.some.inj (hat.symm.trans hat'))
  simp only [Pos.diag] at hdiag
  have := r.cached_iff (image.isSome || video.isSome) cfg.positionIdPerSeconds 0
  rw [hwidth r hr] at this
  exact this.mp hdiag

theorem cachedAgrees_of_settled (hu : ∀ r ∈ batch, r.sample.Uniform u)
    (hs : Supplies (batch.map (·.sample)) image video audio seconds) (hne : batch ≠ [])
    (hwidth : ∀ r ∈ batch, r.inputIds.length = width)
    (h : ∀ r ∈ batch, r.Settled (image.isSome || video.isSome) cfg.positionIdPerSeconds) :
    CachedAgrees cfg vis u batch width image video audio seconds := by
  intro prior gens n k hlen hgen hk
  obtain ⟨first,deltas,step,full,h₁,h₂,h₃,hrow⟩ :=
    decode_runs vis hu hs (width_pos hne hwidth) hwidth prior hlen hgen hk
  refine ⟨first,deltas,step,full,h₁,h₂,h₃,?_⟩
  intro i hi
  obtain ⟨hstep,positions,delta,hpos,hat⟩ := hrow i _ (List.getElem?_eq_getElem hi)
  refine ⟨_,positions,delta,hstep,hpos,?_⟩
  have hmem := List.getElem_mem hi
  have := (Padded.cached_iff (image.isSome || video.isSome) cfg.positionIdPerSeconds
    batch[i] k).mpr (h _ hmem)
  rw [hwidth _ hmem] at this
  rw [hat,this]

/-- Cached decoding agrees with the recomputation exactly on settled batches. -/
theorem cachedAgrees_iff (hu : ∀ r ∈ batch, r.sample.Uniform u)
    (hs : Supplies (batch.map (·.sample)) image video audio seconds) (hne : batch ≠ [])
    (hwidth : ∀ r ∈ batch, r.inputIds.length = width) :
    CachedAgrees cfg vis u batch width image video audio seconds ↔
      ∀ r ∈ batch, r.Settled (image.isSome || video.isSome) cfg.positionIdPerSeconds :=
  ⟨fun h _ hr => settled_of_cachedAgrees vis hu hs hne hwidth h hr,
    cachedAgrees_of_settled vis hu hs hne hwidth⟩

end Decoding

section Instances

/-- A video whose grid is wider than its audio run, and nothing behind it. -/
def wideVideo : Sample 2 :=
  ⟨[⟨[7],.avGrid (.ofSides 1 8) 1 (some 4)⟩],[],
    [.ofSides 1 1 8],rfl,by decide⟩

/-- Enough text behind the video makes up for it. -/
def wideVideoAsked : Sample 2 :=
  ⟨[⟨[7],.avGrid (.ofSides 1 8) 1 (some 4)⟩],[1,2,3,4,5],
    [.ofSides 1 1 8],rfl,by decide⟩

def oneToken : Padded 2 :=
  ⟨⟨[],[7],[],noGrids,by decide⟩,[.text 0,.text 7],[false,true],rfl,rfl⟩

theorem wideVideoAsked_cachedAgrees :
    CachedAgrees .mergeTwo .reference true [alone wideVideoAsked] 19 none
      (some [⟨1,2,16⟩]) (some [4]) none :=
  (cachedAgrees_iff .reference (by decide) ⟨rfl,rfl,rfl,by simp⟩ (by simp) (by decide)).mpr
    (by simp only [List.mem_singleton,forall_eq]; exact (by decide : settles 13 5 wideVideoAsked.items))

/-- The delta counts the grid, the recomputation continues behind the audio run; in the text
branch the delta counts a filled padding column. -/
theorem cached_disagrees :
    ¬ CachedAgrees .mergeTwo .reference true [alone wideVideo] 14 none
      (some [⟨1,2,16⟩]) (some [4]) none ∧
    ¬ CachedAgrees .mergeTwo .reference false [oneToken] 2 none none none none := by
  refine ⟨fun h => ?_,fun h => ?_⟩
  · have hset := settled_of_cachedAgrees .reference (by decide) ⟨rfl,rfl,rfl,by simp⟩ (by simp)
      (by decide) h (List.mem_singleton.mpr rfl)
    exact absurd (show settles 13 0 wideVideo.items from hset) (by decide)
  · have hset := settled_of_cachedAgrees .reference (by decide) ⟨rfl,rfl,rfl,by simp⟩ (by simp)
      (by decide) h (List.mem_singleton.mpr rfl)
    exact hset ⟨rfl,by decide⟩

end Instances
end RopeIndex
end TLiveOmni
