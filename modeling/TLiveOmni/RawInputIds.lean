import Mathlib.Data.List.Chain
import TLiveOmni.Lib.While
import TLiveOmni.Tokens

/-! `_get_raw_input_ids` of the vLLM processor: every audio-in-video span becomes a video token
again, and runs of a media token become a single one. -/
set_option autoImplicit false

namespace TLiveOmni.Vllm
open PySeq While

/-- The loops over `i` that compare `result[i : i + 2]` with a pair of tokens. -/
def firstPair (a b : Token) (lo : Nat) (result : List Token) : Option Nat :=
  (List.range' lo (result.length-1-lo)).find? fun i => decide ((result.drop i).take 2 = [a,b])

/-- One round of the loop under `use_audio_in_video`. -/
def collapseSpan (result : List Token) : Option (List Token) :=
  match firstPair .visionStart .audioStart 0 result with
  | none => none
  | some start => match firstPair .audioEnd .visionEnd (start+2) result with
    | none => some result
    | some stop => some (result.take start ++ ([.visionStart,.videoPad,.visionEnd] ++
        result.drop (stop+2)))

/-- The loop that drops a media token behind itself. -/
def compress (mmToken : Token) (result : List Token) : List Token :=
  result.foldl (fun compressed x =>
    if x ≠ mmToken ∨ compressed.getLast? ≠ some mmToken then compressed ++ [x] else compressed) []

/-- `_get_raw_input_ids` with at most `fuel` rounds of its loop. -/
def getRawInputIds (fuel : Nat) (tokenIds : List Token) (useAudioInVideo : Bool) :
    Option (List Token) :=
  let result := if useAudioInVideo then run collapseSpan fuel tokenIds else some tokenIds
  result.map fun result =>
    [Token.audioPad,.imagePad,.videoPad].foldl (fun result t => compress t result) result

/-- Two tokens in a row. -/
def PairAt (a b : Token) (l : List Token) (i : Nat) : Prop := l[i]? = some a ∧ l[i+1]? = some b

/-- Every opening pair has a closing pair behind it. -/
def Closed (l : List Token) : Prop :=
  ∀ i, PairAt .visionStart .audioStart l i → ∃ j, i+2 ≤ j ∧ PairAt .audioEnd .visionEnd l j

/-- No media token stands behind itself. -/
def NoRepeatedPad (l : List Token) : Prop :=
  l.IsChain fun a b => ¬ (a = b ∧ a.isPad = true)

section Pairs
variable {a b : Token} {lo i : Nat} {l : List Token}

theorem slice_eq_iff : (l.drop i).take 2 = [a,b] ↔ PairAt a b l i := by
  have h₀ : l[i]? = (l.drop i)[0]? := by simp
  have h₁ : l[i+1]? = (l.drop i)[1]? := by simp
  rw [PairAt,h₀,h₁]
  rcases l.drop i with _ | ⟨x,_ | ⟨y,r⟩⟩ <;> simp

theorem PairAt.lt (h : PairAt a b l i) : i+1 < l.length := by
  by_contra hi
  rw [PairAt,List.getElem?_eq_none (Nat.not_lt.mp hi)] at h
  cases h.2

theorem firstPair_eq_some (h : firstPair a b lo l = some i) :
    lo ≤ i ∧ PairAt a b l i ∧ ∀ j, lo ≤ j → j < i → ¬ PairAt a b l j := by
  obtain ⟨hp,hi,hbefore⟩ := List.find?_range'_eq_some.mp h
  refine ⟨(List.mem_range'_1.mp hi).1,slice_eq_iff.mp (by simpa using hp),?_⟩
  intro j hlo hj hpair
  simpa [slice_eq_iff.mpr hpair] using hbefore j hlo hj

theorem firstPair_eq_none : firstPair a b lo l = none ↔ ∀ j, lo ≤ j → ¬ PairAt a b l j := by
  rw [firstPair,List.find?_range'_eq_none]
  constructor
  · intro h j hlo hpair
    have := hpair.lt
    simpa [slice_eq_iff.mpr hpair] using h j hlo (by omega)
  · intro h j hlo _
    simpa [slice_eq_iff] using h j hlo

end Pairs

section Round
variable {l l' : List Token} {start stop : Nat}

/-- The list behind a round that has found both pairs. -/
def collapsed (l : List Token) (start stop : Nat) : List Token :=
  l.take start ++ ([.visionStart,.videoPad,.visionEnd] ++ l.drop (stop+2))

theorem collapseSpan_eq_none :
    collapseSpan l = none ↔ ∀ i, ¬ PairAt .visionStart .audioStart l i := by
  rw [collapseSpan]
  cases hs : firstPair .visionStart .audioStart 0 l with
  | none => simpa using firstPair_eq_none.mp hs
  | some start =>
    refine iff_of_false ?_ fun h => h start (firstPair_eq_some hs).2.1
    dsimp only
    split <;> simp

theorem collapseSpan_eq_some (h : collapseSpan l = some l') :
    ∃ start, PairAt .visionStart .audioStart l start ∧
      (∀ j < start, ¬ PairAt .visionStart .audioStart l j) ∧
      (l' = l ∧ (∀ j, start+2 ≤ j → ¬ PairAt .audioEnd .visionEnd l j) ∨
        ∃ stop, start+2 ≤ stop ∧ PairAt .audioEnd .visionEnd l stop ∧
          l' = collapsed l start stop) := by
  rw [collapseSpan] at h
  cases hs : firstPair .visionStart .audioStart 0 l with
  | none => simp [hs] at h
  | some start =>
    obtain ⟨-,hopen,hfirst⟩ := firstPair_eq_some hs
    refine ⟨start,hopen,fun j hj => hfirst j (Nat.zero_le j) hj,?_⟩
    cases he : firstPair .audioEnd .visionEnd (start+2) l with
    | none =>
      simp only [hs,he,Option.some.injEq] at h
      exact .inl ⟨h.symm,firstPair_eq_none.mp he⟩
    | some stop =>
      obtain ⟨hle,hclose,-⟩ := firstPair_eq_some he
      simp only [hs,he,Option.some.injEq] at h
      exact .inr ⟨stop,hle,hclose,h.symm⟩

theorem length_collapsed (hle : start+2 ≤ stop) (hclose : PairAt .audioEnd .visionEnd l stop) :
    (collapsed l start stop).length < l.length := by
  have := hclose.lt
  simp only [collapsed,List.length_append,List.length_take,List.length_cons,List.length_nil,
    List.length_drop]
  omega

theorem getElem?_collapsed_lt (h : start ≤ l.length) {k : Nat} (hk : k < start) :
    (collapsed l start stop)[k]? = l[k]? := by
  rw [collapsed,List.getElem?_append_left (by simp; omega),List.getElem?_take_of_lt hk]

theorem getElem?_collapsed_span (h : start ≤ l.length) {k : Nat} :
    (collapsed l start stop)[start+k]? =
      ([.visionStart,.videoPad,.visionEnd] ++ l.drop (stop+2))[k]? := by
  have hlen : (l.take start).length = start := by simpa using h
  rw [collapsed,List.getElem?_append_right (by omega),hlen,Nat.add_sub_cancel_left]

theorem pairAt_collapsed (h : start ≤ l.length) {a b : Token} {k : Nat} :
    PairAt a b (collapsed l start stop) (start+3+k) ↔ PairAt a b l (stop+2+k) := by
  have hget : ∀ k, (collapsed l start stop)[start+3+k]? = l[stop+2+k]? := by
    intro k
    rw [Nat.add_assoc,getElem?_collapsed_span h,List.getElem?_append_right (by simp),
      List.getElem?_drop]
    simp
  rw [PairAt,PairAt,hget,Nat.add_assoc (start+3),hget]
  rfl

/-- The replacement does not create an opening pair. -/
theorem opening_collapsed (h : start ≤ l.length)
    (hfirst : ∀ j < start, ¬ PairAt .visionStart .audioStart l j) {i : Nat}
    (hi : PairAt .visionStart .audioStart (collapsed l start stop) i) :
    ∃ k, i = start+3+k := by
  by_contra hne
  have hlt : i < start+3 := by
    by_contra hge
    exact hne ⟨i-(start+3),by omega⟩
  have hspan := @getElem?_collapsed_span l start stop h
  obtain hi' | hi' | hi' | hi' | hi' :
    i+1 < start ∨ i+1 = start+0 ∨ i = start+0 ∨ i = start+1 ∨ i = start+2 := by omega
  · refine hfirst i (by omega) ⟨?_,?_⟩
    · rw [← getElem?_collapsed_lt h (by omega)]; exact hi.1
    · rw [← getElem?_collapsed_lt h hi']; exact hi.2
  · have := hi.2
    rw [hi',hspan] at this
    simp at this
  · have := hi.2
    rw [hi',Nat.add_assoc,hspan] at this
    simp at this
  · have := hi.1
    rw [hi',hspan] at this
    simp at this
  · have := hi.1
    rw [hi',hspan] at this
    simp at this

/-- Behind the closing pair the list is as it was, and before it every opening pair is closed. -/
theorem closed_collapsed (hopen : PairAt .visionStart .audioStart l start)
    (hfirst : ∀ j < start, ¬ PairAt .visionStart .audioStart l j) (hle : start+2 ≤ stop)
    (hclose : PairAt .audioEnd .visionEnd l stop) :
    Closed (collapsed l start stop) ↔ Closed l := by
  have hlen : start ≤ l.length := by
    have := hopen.lt
    omega
  constructor
  · intro h i hi
    by_cases hbefore : i+2 ≤ stop
    · exact ⟨stop,hbefore,hclose⟩
    -- the two pairs have no token in common, so they cannot overlap
    have h₁ : i+1 ≠ stop := by
      rintro rfl
      cases hi.2.symm.trans hclose.1
    have h₂ : i ≠ stop := by
      rintro rfl
      cases hi.1.symm.trans hclose.1
    have h₃ : i ≠ stop+1 := by
      rintro rfl
      cases hi.1.symm.trans hclose.2
    obtain ⟨k,rfl⟩ := Nat.exists_eq_add_of_le (show stop+2 ≤ i by omega)
    obtain ⟨j,hj,hpair⟩ := h _ ((pairAt_collapsed hlen).mpr hi)
    obtain ⟨n,rfl⟩ := Nat.exists_eq_add_of_le (show start+3 ≤ j by omega)
    exact ⟨stop+2+n,by omega,(pairAt_collapsed hlen).mp hpair⟩
  · intro h i hi
    obtain ⟨k,rfl⟩ := opening_collapsed hlen hfirst hi
    obtain ⟨j,hj,hpair⟩ := h _ ((pairAt_collapsed hlen).mp hi)
    obtain ⟨n,rfl⟩ := Nat.exists_eq_add_of_le (show stop+2 ≤ j by omega)
    exact ⟨start+3+n,by omega,(pairAt_collapsed hlen).mpr hpair⟩

theorem collapseSpan_closed (h : collapseSpan l = some l') (hl : Closed l) :
    Closed l' ∧ l'.length < l.length := by
  obtain ⟨start,hopen,hfirst,⟨-,hnone⟩ | ⟨stop,hle,hclose,rfl⟩⟩ := collapseSpan_eq_some h
  · obtain ⟨j,hj,hpair⟩ := hl start hopen
    exact absurd hpair (hnone j hj)
  · exact ⟨(closed_collapsed hopen hfirst hle hclose).mpr hl,length_collapsed hle hclose⟩

theorem collapseSpan_not_closed (hl : ¬ Closed l) :
    ∃ l', collapseSpan l = some l' ∧ ¬ Closed l' := by
  cases h : collapseSpan l with
  | none => exact absurd (fun i hi => absurd hi (collapseSpan_eq_none.mp h i)) hl
  | some l' =>
    refine ⟨l',rfl,?_⟩
    obtain ⟨start,hopen,hfirst,⟨rfl,-⟩ | ⟨stop,hle,hclose,rfl⟩⟩ := collapseSpan_eq_some h
    · exact hl
    · rwa [closed_collapsed hopen hfirst hle hclose]

/-- The loop ends for the lists whose opening pairs are all closed, and for no other. -/
theorem collapse_ends_iff : Ends collapseSpan l ↔ Closed l := by
  constructor
  · intro h
    by_contra hl
    exact not_ends_of_invariant (fun l => ¬ Closed l) (fun _ => collapseSpan_not_closed) hl h
  · exact ends_of_measure Closed List.length fun _ _ hl h => collapseSpan_closed h hl

end Round

section Compress
variable {R : Token → Token → Prop} {t : Token} {l : List Token}

theorem compress_chain_from {compressed : List Token}
    (hc : compressed.IsChain fun a b => R a b ∧ ¬ (a = t ∧ b = t))
    (hl : (compressed.getLast?.toList ++ l).IsChain R) :
    (l.foldl (fun compressed x => if x ≠ t ∨ compressed.getLast? ≠ some t
      then compressed ++ [x] else compressed) compressed).IsChain
        fun a b => R a b ∧ ¬ (a = t ∧ b = t) := by
  induction l generalizing compressed with
  | nil => exact hc
  | cons x l ih =>
    rw [List.foldl_cons]
    obtain ⟨-,hrest,hseam⟩ := List.isChain_append.mp hl
    by_cases hx : x ≠ t ∨ compressed.getLast? ≠ some t
    · rw [if_pos hx]
      refine ih ?_ (by simpa using hrest)
      refine List.isChain_append.mpr ⟨hc,by simp,fun a ha b hb => ?_⟩
      obtain rfl : x = b := by simpa using hb
      have hlast : compressed.getLast? = some a := ha
      refine ⟨hseam a (by simp [hlast]) x (by simp),?_⟩
      rintro ⟨rfl,rfl⟩
      exact hx.elim (fun h => h rfl) fun h => h ha
    · rw [if_neg hx]
      rw [not_or,not_not,not_not] at hx
      obtain ⟨rfl,hlast⟩ := hx
      exact ih hc (by simpa [hlast] using hrest)

/-- Besides what held of neighbours before, the token is no longer behind itself. -/
theorem compress_chain (hl : l.IsChain R) :
    (compress t l).IsChain fun a b => R a b ∧ ¬ (a = t ∧ b = t) :=
  compress_chain_from (by simp) (by simpa using hl)

theorem compress_all_noRepeatedPad (l : List Token) :
    NoRepeatedPad ([Token.audioPad,.imagePad,.videoPad].foldl
      (fun result t => compress t result) l) := by
  have h₀ : l.IsChain fun _ _ => True := by
    induction l with
    | nil => simp
    | cons a l ih => cases l with
      | nil => simp
      | cons b l => exact List.isChain_cons_cons.mpr ⟨trivial,ih⟩
  have h₃ := compress_chain (t := .videoPad) (compress_chain (t := .imagePad)
    (compress_chain (t := .audioPad) h₀))
  refine h₃.imp fun a b h => ?_
  rintro ⟨rfl,hpad⟩
  cases a <;> simp_all [Token.isPad]

end Compress

section Raw
variable {tokenIds : List Token} {useAudioInVideo : Bool}

/-- The function returns. -/
def Terminates (tokenIds : List Token) (useAudioInVideo : Bool) : Prop :=
  ∃ fuel out, getRawInputIds fuel tokenIds useAudioInVideo = some out

theorem terminates_iff :
    Terminates tokenIds useAudioInVideo ↔ (useAudioInVideo = true → Closed tokenIds) := by
  cases useAudioInVideo with
  | false => exact iff_of_true ⟨0,_,rfl⟩ (fun h => by cases h)
  | true =>
    rw [← collapse_ends_iff]
    constructor
    · rintro ⟨fuel,out,h⟩ -
      obtain ⟨r,hr,-⟩ := Option.map_eq_some_iff.mp h
      exact ⟨r,fuel,hr⟩
    · intro h
      obtain ⟨r,fuel,hr⟩ := h rfl
      exact ⟨fuel,_,Option.map_eq_some_iff.mpr ⟨r,hr,rfl⟩⟩

theorem getRawInputIds_noRepeatedPad {fuel : Nat} {out : List Token}
    (h : getRawInputIds fuel tokenIds useAudioInVideo = some out) : NoRepeatedPad out := by
  obtain ⟨r,-,rfl⟩ := Option.map_eq_some_iff.mp h
  exact compress_all_noRepeatedPad r

theorem rawInputIds_iff (tokenIds : List Token) (useAudioInVideo : Bool) :
    (Terminates tokenIds useAudioInVideo ∧
      ∀ fuel out, getRawInputIds fuel tokenIds useAudioInVideo = some out → NoRepeatedPad out) ↔
    (useAudioInVideo = true → Closed tokenIds) := by
  rw [terminates_iff]
  exact and_iff_left fun _ _ h => getRawInputIds_noRepeatedPad h

/-- A span that is cut off before its end. -/
def cutSpan : List Token := [.visionStart,.audioStart,.videoPad,.audioPad]

theorem cutSpan_loops : ¬ Terminates cutSpan true := by
  rw [terminates_iff]
  intro h
  obtain ⟨j,hj,hpair⟩ := h rfl 0 ⟨rfl,rfl⟩
  have hlt : j+1 < 4 := hpair.lt
  obtain rfl : j = 2 := by omega
  cases hpair.1

example : getRawInputIds 2 [.visionStart,.audioStart,.videoPad,.videoPad,.audioPad,.audioEnd,
    .visionEnd,.imagePad,.imagePad,.text 5] true =
    some [.visionStart,.videoPad,.visionEnd,.imagePad,.text 5] := by decide

end Raw
end TLiveOmni.Vllm
