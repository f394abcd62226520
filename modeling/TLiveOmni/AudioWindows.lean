import TLiveOmni.AudioTower

/-! The rows of the audio tower: every audio gets as many rows as the processor wrote tokens for
it, no attention window covers rows of two audios, and the windows of an audio do not depend on
the other audios of the batch. -/
set_option autoImplicit false

namespace TLiveOmni
open PySeq

section Rows
variable {n : Nat}

theorem aftercnnLen_cast (n : Nat) : (aftercnnLen n : Int) = getFeatExtractOutputLengths n :=
  Int.toNat_of_nonneg (getFeatExtractOutputLengths_nonneg n)

theorem aftercnnLen_pos (h : 0 < n) : 0 < aftercnnLen n := by
  have := aftercnnLen_cast n
  have := getFeatExtractOutputLengths_pos h
  omega

theorem aftercnnLen_mono {a b : Nat} (h : a ≤ b) : aftercnnLen a ≤ aftercnnLen b := by
  have ha := aftercnnLen_cast a
  have hb := aftercnnLen_cast b
  simp only [getFeatExtractOutputLengths] at ha hb
  omega

theorem convOut_chunk (hpos : 0 < n) (hle : n ≤ 100) :
    convOut (convOut (convOut n)) = getFeatExtractOutputLengths n := by
  simp only [convOut,getFeatExtractOutputLengths]
  omega

theorem rows_chunksOf (hn : 0 < n) :
    ((chunksOf 100 n).map aftercnnLen).sum = aftercnnLen n := by
  have hfull : aftercnnLen 100 = 13 := by decide
  have hlast := aftercnnLen_cast ((n-1) % 100+1)
  have hall := aftercnnLen_cast n
  simp only [chunksOf,List.map_append,List.map_replicate,List.map_singleton,List.sum_append,
    List.sum_replicate_nat,List.sum_singleton,hfull]
  simp only [getFeatExtractOutputLengths] at hlast hall
  omega

end Rows

section Pad
variable {l : List Nat}

theorem padWidth_mem (hne : l ≠ []) : padWidth l ∈ l := by
  cases hm : l.max? with
  | none => exact absurd (List.max?_eq_none_iff.mp hm) hne
  | some m =>
    rw [padWidth,hm]
    exact (List.max?_eq_some_iff.mp hm).1

theorem le_padWidth {x : Nat} (hx : x ∈ l) : x ≤ padWidth l := by
  cases hm : l.max? with
  | none => rw [List.max?_eq_none_iff.mp hm] at hx; cases hx
  | some m =>
    rw [padWidth,hm]
    exact (List.max?_eq_some_iff.mp hm).2 x hx

theorem padWidth_map {f : Nat → Nat} (hf : ∀ a b, a ≤ b → f a ≤ f b) (hne : l ≠ []) :
    padWidth (l.map f) = f (padWidth l) := by
  apply Nat.le_antisymm
  · obtain ⟨x,hx,he⟩ := List.mem_map.mp (padWidth_mem (l := l.map f) (by simpa using hne))
    rw [← he]
    exact hf x _ (le_padWidth hx)
  · exact le_padWidth (List.mem_map_of_mem (padWidth_mem hne))

theorem maskWidth_eq (hne : l ≠ []) : maskWidth l = aftercnnLen (padWidth l) :=
  padWidth_map (fun _ _ => aftercnnLen_mono) hne

theorem length_padSequence {α : Type} (zero : α) (rows : List (List α)) :
    (padSequence zero rows).map List.length =
      rows.map fun _ => padWidth (rows.map List.length) := by
  rw [padSequence,List.map_map]
  refine List.map_congr_left fun row hrow => ?_
  have := le_padWidth (List.mem_map_of_mem (f := List.length) hrow)
  simp only [Function.comp_apply,List.length_append,List.length_replicate]
  omega

end Pad

section Split
variable {α : Type}

theorem length_splitSizes {rows : List α} {lengths : List Nat} (h : lengths.sum = rows.length) :
    (splitSizes rows lengths).map List.length = lengths := by
  induction lengths generalizing rows with
  | nil => rfl
  | cons n lengths ih =>
    rw [List.sum_cons] at h
    simp only [splitSizes,List.map_cons,List.length_take]
    rw [ih (by rw [List.length_drop]; omega),Nat.min_eq_left (by omega)]

theorem length_selected {k m : Nat} {row : List α} (hk : k ≤ m) (hrow : row.length = m) :
    (((row.zip (List.replicate k true ++ List.replicate (m-k) false)).filter (·.2)).map
      (·.1)).length = k := by
  have hmask : (row.zip (List.replicate k true ++ List.replicate (m-k) false)).map Prod.snd =
      List.replicate k true ++ List.replicate (m-k) false :=
    List.map_snd_zip (by simp; omega)
  rw [List.length_map,← List.countP_eq_length_filter,
    show (fun x : α × Bool => x.2) = id ∘ Prod.snd from rfl,← List.countP_map,hmask]
  simp [List.countP_replicate]

theorem length_selectRows {m : Nat} {embed : List (List α)} {ks : List Nat}
    (hlen : embed.length = ks.length) (hembed : ∀ row ∈ embed, row.length = m)
    (hks : ∀ k ∈ ks, k ≤ m) :
    ((embed.zip (ks.map fun k => List.replicate k true ++ List.replicate (m-k) false)).map
      fun x => ((x.1.zip x.2).filter (·.2)).map (·.1)).map List.length = ks := by
  induction embed generalizing ks with
  | nil => simpa using hlen.symm
  | cons row embed ih => cases ks with
    | nil => simp at hlen
    | cons k ks =>
      simp only [List.map_cons,List.zip_cons_cons]
      rw [length_selected (hks k (by simp)) (hembed row (by simp)),
        ih (by simpa using hlen) (fun r hr => hembed r (by simp [hr]))
          (fun k hk => hks k (by simp [hk]))]

end Split

section Windows
variable {window cnnLen : Nat}

theorem sum_windowsOf (window cnnLen : Nat) : (windowsOf window cnnLen).sum = cnnLen := by
  have := Nat.div_add_mod cnnLen window
  rw [Nat.mul_comm] at this
  by_cases hr : cnnLen % window = 0
  · simp only [windowsOf,hr,ne_eq,not_true,if_false,List.append_nil,List.sum_replicate_nat]
    omega
  · simp only [windowsOf,hr,ne_eq,not_false_iff,if_true,List.sum_append,List.sum_replicate_nat,
      List.sum_singleton]
    exact this

theorem windowsOf_pos (hw : 0 < window) : ∀ w ∈ windowsOf window cnnLen, 0 < w := by
  intro w hmem
  rcases List.mem_append.mp hmem with h | h
  · rw [List.eq_of_mem_replicate h]
    exact hw
  · split at h
    · rw [List.mem_singleton.mp h]
      omega
    · cases h

/-- An audio that fits into one window gets one window of its own length. -/
theorem windowsOf_fits (hpos : 0 < cnnLen) (hle : cnnLen ≤ window) :
    windowsOf window cnnLen = [cnnLen] := by
  rcases Nat.lt_or_eq_of_le hle with hlt | rfl
  · have hne : cnnLen ≠ 0 := by omega
    simp [windowsOf,Nat.div_eq_of_lt hlt,Nat.mod_eq_of_lt hlt,hne]
  · simp [windowsOf,Nat.div_self hpos]

end Windows

section Cumsum
variable {acc : Nat} {xs ys : List Nat}

theorem cumsum_append (acc : Nat) (xs ys : List Nat) :
    cumsum acc (xs ++ ys) = cumsum acc xs ++ cumsum (acc+xs.sum) ys := by
  induction xs generalizing acc with
  | nil => simp [cumsum]
  | cons x xs ih => simp [cumsum,ih,Nat.add_assoc]

theorem cumsum_last (acc : Nat) (xs : List Nat) :
    (acc :: cumsum acc xs).getLast? = some (acc+xs.sum) := by
  induction xs generalizing acc with
  | nil => simp [cumsum]
  | cons x xs ih =>
    rw [cumsum,List.getLast?_cons_cons,ih,List.sum_cons,Nat.add_assoc]

theorem lt_cumsum (hpos : ∀ x ∈ xs, 0 < x) : ∀ y ∈ cumsum acc xs, acc < y := by
  induction xs generalizing acc with
  | nil => simp [cumsum]
  | cons x xs ih =>
    intro y hy
    have hx := hpos x (by simp)
    rcases List.mem_cons.mp hy with rfl | hy
    · omega
    · have := ih (fun x hx => hpos x (by simp [hx])) y hy
      omega

theorem cumsum_increasing (acc : Nat) (hpos : ∀ x ∈ xs, 0 < x) :
    (acc :: cumsum acc xs).Pairwise (· < ·) := by
  induction xs generalizing acc with
  | nil => simp [cumsum]
  | cons x xs ih =>
    exact List.pairwise_cons.mpr ⟨lt_cumsum hpos,ih (acc+x) fun x hx => hpos x (by simp [hx])⟩

theorem mem_cumsum_append (acc : Nat) (xs ys : List Nat) :
    acc+xs.sum ∈ acc :: cumsum acc (xs ++ ys) := by
  rw [cumsum_append,← List.cons_append]
  exact List.mem_append_left _ (List.mem_of_getLast? (cumsum_last acc xs))

theorem not_between {l : List Nat} (h : l.Pairwise (· < ·)) {x : Nat} (hx : x ∈ l)
    {w : Nat × Nat} (hw : w ∈ l.zip l.tail) : ¬ (w.1 < x ∧ x < w.2) := by
  induction l with
  | nil => cases hx
  | cons a l ih => cases l with
    | nil => simp at hw
    | cons b l =>
      obtain ⟨ha,hl⟩ := List.pairwise_cons.mp h
      rw [List.tail_cons,List.zip_cons_cons] at hw
      rcases List.mem_cons.mp hw with rfl | hlater
      · rintro ⟨hax,hxb⟩
        rcases List.mem_cons.mp hx with rfl | hx
        · exact Nat.lt_irrefl _ hax
        · rcases List.mem_cons.mp hx with rfl | hx
          · exact Nat.lt_irrefl _ hxb
          · have : b < x := (List.pairwise_cons.mp hl).1 x hx
            omega
      · rcases List.mem_cons.mp hx with rfl | hx
        · have := ha w.1 (List.of_mem_zip hlater).1
          omega
        · exact ih hl hx hlater

end Cumsum

section Batch
variable {nWindowInfer : Nat} {lens : List Nat}

/-- The chunks of all audios. -/
def allChunks (lens : List Nat) : List Nat := lens.flatMap (chunksOf 100)

theorem mem_allChunks {k : Nat} (hk : k ∈ allChunks lens) : 0 < k ∧ k ≤ 100 := by
  obtain ⟨n,-,hk⟩ := List.mem_flatMap.mp hk
  exact mem_chunksOf (by decide) hk

theorem allChunks_ne_nil (hne : lens ≠ []) : allChunks lens ≠ [] := by
  cases lens with
  | nil => exact absurd rfl hne
  | cons n lens => simp [allChunks,chunksOf]

theorem sum_allChunks (hpos : ∀ n ∈ lens, 0 < n) : (allChunks lens).sum = lens.sum := by
  have hown : lens.map (List.sum ∘ chunksOf 100) = lens.map id :=
    List.map_congr_left fun n hn => sum_chunksOf (hpos n hn)
  rw [allChunks,List.flatMap_def,List.sum_flatten,List.map_map,hown,List.map_id]

theorem padWidth_allChunks (hne : lens ≠ []) :
    0 < padWidth (allChunks lens) ∧ padWidth (allChunks lens) ≤ 100 :=
  mem_allChunks (padWidth_mem (allChunks_ne_nil hne))

/-- The mask is as wide as the output of the convolutions. -/
theorem convOut_padWidth (hne : lens ≠ []) :
    convOut (convOut (convOut (padWidth (allChunks lens)))) = maskWidth (allChunks lens) := by
  obtain ⟨hpos,hle⟩ := padWidth_allChunks hne
  rw [convOut_chunk hpos hle,maskWidth_eq (allChunks_ne_nil hne),aftercnnLen_cast]

theorem windowAftercnn_pos (hne : lens ≠ []) (hinfer : 100 ≤ nWindowInfer) :
    0 < windowAftercnn 50 nWindowInfer (allChunks lens) := by
  have hmask : 0 < maskWidth (allChunks lens) := by
    rw [maskWidth_eq (allChunks_ne_nil hne)]
    exact aftercnnLen_pos (padWidth_allChunks hne).1
  exact Nat.mul_pos hmask (Nat.div_pos hinfer (by decide))

/-- The windows of the whole batch. -/
def allWindows (nWindowInfer : Nat) (lens : List Nat) : List Nat :=
  (lens.map aftercnnLen).flatMap (windowsOf (windowAftercnn 50 nWindowInfer (allChunks lens)))

theorem cuSeqlens_eq (hne : lens ≠ []) (hinfer : 100 ≤ nWindowInfer) :
    cuSeqlens 50 nWindowInfer lens (allChunks lens) =
      .ok (0 :: cumsum 0 (allWindows nWindowInfer lens)) := by
  have := windowAftercnn_pos hne hinfer
  rw [cuSeqlens,raiseIf_of_not (by omega),ok_bind]
  rfl

theorem allWindows_pos (hne : lens ≠ []) (hinfer : 100 ≤ nWindowInfer) :
    ∀ w ∈ allWindows nWindowInfer lens, 0 < w := by
  intro w hw
  obtain ⟨n,-,hw⟩ := List.mem_flatMap.mp hw
  exact windowsOf_pos (windowAftercnn_pos hne hinfer) w hw

theorem sum_flatMap_windowsOf (window : Nat) (ns : List Nat) :
    (ns.flatMap (windowsOf window)).sum = ns.sum := by
  induction ns with
  | nil => rfl
  | cons n ns ih => rw [List.flatMap_cons,List.sum_append,sum_windowsOf,ih,List.sum_cons]

variable {φ ε : Type} {frames : List φ}

theorem length_embed (conv : ConvLayers φ ε) (rows : List (List φ)) :
    ((padSequence conv.zero rows).map conv.apply).map List.length = rows.map fun _ =>
      (convOut (convOut (convOut (padWidth (rows.map List.length))))).toNat := by
  have happly : List.length ∘ conv.apply =
      (fun k : Nat => (convOut (convOut (convOut k))).toNat) ∘ List.length := by
    funext x
    rw [Function.comp_apply,Function.comp_apply,← conv.length_apply,Int.toNat_natCast]
  rw [List.map_map,happly,← List.map_map,length_padSequence,List.map_map]
  rfl

theorem paddedMask_eq (chunks : List Nat) :
    padSequence false (chunks.map fun n => List.replicate (aftercnnLen n) true) =
      (chunks.map aftercnnLen).map fun k =>
        List.replicate k true ++ List.replicate (maskWidth chunks-k) false := by
  have hlen : (chunks.map fun n => List.replicate (aftercnnLen n) true).map List.length =
      chunks.map aftercnnLen := by
    simp [Function.comp_def]
  rw [padSequence,hlen,List.map_map,List.map_map,maskWidth]
  simp [Function.comp_def]

theorem towerForward_eq (conv : ConvLayers φ ε) (hne : lens ≠ []) (hpos : ∀ n ∈ lens, 0 < n) (hinfer : 100 ≤ nWindowInfer)
    (hframes : frames.length = lens.sum) :
    ∃ rows : List (List ε), towerForward 50 nWindowInfer lens conv frames =
        .ok ⟨rows.flatten,0 :: cumsum 0 (allWindows nWindowInfer lens)⟩ ∧
      rows.map List.length = (allChunks lens).map aftercnnLen := by
  have hchunks : chunkLengths 50 lens = .ok (allChunks lens) := chunkLengths_eq (by decide) hpos
  have hsum : (allChunks lens).sum = frames.length := by rw [sum_allChunks hpos,hframes]
  have hsplit := length_splitSizes hsum
  have hcount : (splitSizes frames (allChunks lens)).length = (allChunks lens).length := by
    rw [← List.length_map (f := List.length),hsplit]
  have hembed := length_embed conv (splitSizes frames (allChunks lens))
  rw [hsplit,convOut_padWidth hne,Int.toNat_natCast] at hembed
  generalize hE : (padSequence conv.zero (splitSizes frames (allChunks lens))).map conv.apply =
    embed at hembed
  have hwidth : ∀ row ∈ embed, row.length = maskWidth (allChunks lens) := by
    intro row hrow
    have := List.mem_map_of_mem (f := List.length) hrow
    rw [hembed] at this
    obtain ⟨_,-,h⟩ := List.mem_map.mp this
    exact h.symm
  have hle : ∀ k ∈ (allChunks lens).map aftercnnLen, k ≤ maskWidth (allChunks lens) :=
    fun _ => le_padWidth
  have hshape : embed.map List.length = (padSequence false ((allChunks lens).map fun n =>
      List.replicate (aftercnnLen n) true)).map List.length := by
    rw [hembed,length_padSequence]
    simp [Function.comp_def,maskWidth,hcount]
  have hlen : embed.length = ((allChunks lens).map aftercnnLen).length := by
    have := congrArg List.length hembed
    simpa [hcount] using this
  refine ⟨_,?_,length_selectRows hlen hwidth hle⟩
  rw [towerForward,hchunks,ok_bind,raiseIf_of_not (by simpa using hsum),ok_bind,
    raiseIf_of_not (allChunks_ne_nil hne),ok_bind]
  simp only [hE]
  rw [raiseIf_of_not (by simpa using hshape),ok_bind,cuSeqlens_eq hne hinfer,ok_bind,selectRows,
    paddedMask_eq,List.flatMap_def]
  rfl

end Batch

section Account
variable {φ ε : Type}

/-- The first row of an audio, which is the end of the audio before it. -/
def firstRow (lens : List Nat) (i : Nat) : Nat := ((lens.take i).map aftercnnLen).sum

/-- The rows of a batch add up: `own` are the chunks of each audio and `cu` the boundaries of the
attention windows. -/
structure Accounted (conv : ConvLayers φ ε) (nWindow nWindowInfer : Nat) (lens : List Nat)
    (own : List (List Nat)) (cu : List Nat) : Prop where
  chunks : chunkLengths nWindow lens = .ok own.flatten
  sums : own.map List.sum = lens
  bounds : ∀ n ∈ own.flatten, 0 < n ∧ n ≤ 100
  convolved : ∀ n ∈ own.flatten, convOut (convOut (convOut n)) = getFeatExtractOutputLengths n
  width : convOut (convOut (convOut (padWidth own.flatten))) = maskWidth own.flatten
  rows : own.map (fun chunks => (chunks.map aftercnnLen).sum) = lens.map aftercnnLen
  returns : ∀ frames : List φ, frames.length = lens.sum → ∃ rows : List (List ε),
    towerForward nWindow nWindowInfer lens conv frames = .ok ⟨rows.flatten,cu⟩ ∧
      rows.map List.length = own.flatten.map aftercnnLen
  increasing : cu.Pairwise (· < ·)
  total : cu.getLast? = some (lens.map aftercnnLen).sum
  ends : ∀ k ≤ lens.length, firstRow lens k ∈ cu
  apart : ∀ w ∈ cu.zip cu.tail, ∀ k ≤ lens.length, ¬ (w.1 < firstRow lens k ∧ firstRow lens k < w.2)

theorem mem_ends (nWindowInfer : Nat) (lens : List Nat) (k : Nat) :
    firstRow lens k ∈ 0 :: cumsum 0 (allWindows nWindowInfer lens) := by
  have hsplit : allWindows nWindowInfer lens =
      ((lens.take k).map aftercnnLen).flatMap
        (windowsOf (windowAftercnn 50 nWindowInfer (allChunks lens))) ++
      ((lens.drop k).map aftercnnLen).flatMap
        (windowsOf (windowAftercnn 50 nWindowInfer (allChunks lens))) := by
    rw [← List.flatMap_append,← List.map_append,List.take_append_drop,allWindows]
  have hmem := mem_cumsum_append 0 (((lens.take k).map aftercnnLen).flatMap
    (windowsOf (windowAftercnn 50 nWindowInfer (allChunks lens))))
      (((lens.drop k).map aftercnnLen).flatMap
        (windowsOf (windowAftercnn 50 nWindowInfer (allChunks lens))))
  rwa [← hsplit,sum_flatMap_windowsOf,Nat.zero_add] at hmem

/-- Layers that only count. -/
def blankConv : ConvLayers Unit Unit where
  apply frames := List.replicate (convOut (convOut (convOut frames.length))).toNat ()
  zero := ()
  length_apply frames := by
    rw [List.length_replicate]
    exact Int.toNat_of_nonneg (by simp only [convOut]; omega)

example : chunkLengths 50 [250,1,100] = .ok [100,100,50,1,100] := by decide +kernel

end Account

section Invariance

/-- The sizes of the windows that cover a row from `lo` up to `hi`. -/
def windowSizes (cu : List Nat) (lo hi : Nat) : List Nat :=
  ((cu.zip cu.tail).filter fun w => decide (lo < w.2 ∧ w.1 < hi)).map fun w => w.2-w.1

/-- The windows that `cumsum` lays out one behind the other. -/
def spans (acc : Nat) : List Nat → List (Nat × Nat)
  | [] => []
  | x :: xs => (acc,acc+x) :: spans (acc+x) xs

theorem zip_cumsum (acc : Nat) (xs : List Nat) :
    (acc :: cumsum acc xs).zip (cumsum acc xs) = spans acc xs := by
  induction xs generalizing acc with
  | nil => rfl
  | cons x xs ih => rw [cumsum,List.zip_cons_cons,ih,spans]

theorem spans_append (acc : Nat) (xs ys : List Nat) :
    spans acc (xs ++ ys) = spans acc xs ++ spans (acc+xs.sum) ys := by
  induction xs generalizing acc with
  | nil => rfl
  | cons x xs ih => simp [spans,ih,Nat.add_assoc]

theorem mem_spans {acc : Nat} {xs : List Nat} {w : Nat × Nat} (hw : w ∈ spans acc xs) :
    acc ≤ w.1 ∧ w.2 ≤ acc+xs.sum ∧ ∃ x ∈ xs, w.2 = w.1+x := by
  induction xs generalizing acc with
  | nil => cases hw
  | cons x xs ih =>
    rcases List.mem_cons.mp hw with rfl | hw
    · exact ⟨Nat.le_refl acc,by simp,x,by simp,rfl⟩
    · obtain ⟨h₁,h₂,y,hy,he⟩ := ih hw
      rw [List.sum_cons]
      exact ⟨by omega,by omega,y,by simp [hy],he⟩

theorem map_sizes_spans (acc : Nat) (xs : List Nat) :
    (spans acc xs).map (fun w => w.2-w.1) = xs := by
  induction xs generalizing acc with
  | nil => rfl
  | cons x xs ih => simp [spans,ih]

/-- The windows over the rows of `ys`, with `xs` before them and `zs` behind. -/
theorem windowSizes_middle (xs zs : List Nat) {ys : List Nat} (hys : ∀ y ∈ ys, 0 < y) :
    windowSizes (0 :: cumsum 0 (xs ++ (ys ++ zs))) xs.sum (xs.sum+ys.sum) = ys := by
  rw [windowSizes,List.tail_cons,zip_cumsum,spans_append,spans_append,List.filter_append,
    List.filter_append]
  have hbefore : (spans 0 xs).filter
      (fun w => decide (xs.sum < w.2 ∧ w.1 < xs.sum+ys.sum)) = [] := by
    refine List.filter_eq_nil_iff.mpr fun w hw => ?_
    obtain ⟨-,hle,-⟩ := mem_spans hw
    simp only [decide_eq_true_eq]
    omega
  have hown : (spans (0+xs.sum) ys).filter
      (fun w => decide (xs.sum < w.2 ∧ w.1 < xs.sum+ys.sum)) = spans (0+xs.sum) ys := by
    refine List.filter_eq_self.mpr fun w hw => ?_
    obtain ⟨hge,hle,y,hy,he⟩ := mem_spans hw
    have := hys y hy
    simp only [decide_eq_true_eq]
    omega
  have hbehind : (spans (0+xs.sum+ys.sum) zs).filter
      (fun w => decide (xs.sum < w.2 ∧ w.1 < xs.sum+ys.sum)) = [] := by
    refine List.filter_eq_nil_iff.mpr fun w hw => ?_
    obtain ⟨hge,-,-⟩ := mem_spans hw
    simp only [decide_eq_true_eq]
    omega
  rw [hbefore,hown,hbehind,List.nil_append,List.append_nil,map_sizes_spans]

variable {nWindowInfer : Nat} {lens : List Nat} {i n : Nat}

theorem windowSizes_audio (hne : lens ≠ []) (hinfer : 100 ≤ nWindowInfer)
    (hi : lens[i]? = some n) :
    windowSizes (0 :: cumsum 0 (allWindows nWindowInfer lens)) (firstRow lens i)
      (firstRow lens (i+1)) =
    windowsOf (windowAftercnn 50 nWindowInfer (allChunks lens)) (aftercnnLen n) := by
  have hpos := windowAftercnn_pos hne hinfer
  have hlt : i < lens.length := (List.getElem?_eq_some_iff.mp hi).1
  generalize hW : windowAftercnn 50 nWindowInfer (allChunks lens) = window at hpos
  have htake : lens.take (i+1) = lens.take i ++ [n] := by
    rw [List.take_add_one,hi]
    rfl
  have hsplit : allWindows nWindowInfer lens =
      ((lens.take i).map aftercnnLen).flatMap (windowsOf window) ++
        (windowsOf window (aftercnnLen n) ++
          ((lens.drop (i+1)).map aftercnnLen).flatMap (windowsOf window)) := by
    rw [allWindows,hW]
    conv_lhs => rw [← List.take_append_drop (i+1) lens,htake]
    simp only [List.map_append,List.flatMap_append,List.append_assoc,List.map_singleton,
      List.flatMap_singleton]
  have hown : ∀ w ∈ windowsOf window (aftercnnLen n), 0 < w := windowsOf_pos hpos
  have hmid := windowSizes_middle (((lens.take i).map aftercnnLen).flatMap (windowsOf window))
    (((lens.drop (i+1)).map aftercnnLen).flatMap (windowsOf window)) hown
  rw [← hsplit,sum_flatMap_windowsOf,sum_windowsOf] at hmid
  rw [firstRow,firstRow,htake,List.map_append,List.sum_append,List.map_singleton,
    List.sum_singleton]
  exact hmid

/-- The longest chunk is full if any audio has a full chunk. -/
theorem windowAftercnn_full (hn : n ∈ lens) (hlong : 100 ≤ n) :
    windowAftercnn 50 nWindowInfer (allChunks lens) = 13*(nWindowInfer/100) := by
  have hchunk : 100 ∈ allChunks lens := by
    refine List.mem_flatMap.mpr ⟨n,hn,?_⟩
    by_cases hfirst : n = 100
    · rw [hfirst]
      decide
    · have : (n-1)/100 ≠ 0 := by omega
      simp [chunksOf,this]
  have hwidth : padWidth (allChunks lens) = 100 :=
    Nat.le_antisymm (mem_allChunks (padWidth_mem (List.ne_nil_of_mem hchunk))).2
      (le_padWidth hchunk)
  rw [windowAftercnn,maskWidth_eq (List.ne_nil_of_mem hchunk),hwidth]
  rfl

/-- A short audio is a chunk of its own and fits into the window. -/
theorem le_windowAftercnn (hn : n ∈ lens) (hpos : 0 < n) (hshort : n < 100)
    (hinfer : 100 ≤ nWindowInfer) :
    aftercnnLen n ≤ windowAftercnn 50 nWindowInfer (allChunks lens) := by
  have hchunk : n ∈ allChunks lens := by
    refine List.mem_flatMap.mpr ⟨n,hn,?_⟩
    have : (n-1) % 100+1 = n := by omega
    simp [chunksOf,this]
  have hmask : aftercnnLen n ≤ maskWidth (allChunks lens) :=
    le_padWidth (List.mem_map_of_mem hchunk)
  have hfactor : 1 ≤ nWindowInfer/(50*2) := Nat.div_pos hinfer (by decide)
  exact hmask.trans (Nat.le_mul_of_pos_right _ hfactor)

/-- The windows of an audio from its own length. -/
def ownWindows (nWindowInfer n : Nat) : List Nat :=
  if n < 100 then [aftercnnLen n] else windowsOf (13*(nWindowInfer/100)) (aftercnnLen n)

theorem windowsOf_eq_own (hn : n ∈ lens) (hpos : 0 < n) (hinfer : 100 ≤ nWindowInfer) :
    windowsOf (windowAftercnn 50 nWindowInfer (allChunks lens)) (aftercnnLen n) =
      ownWindows nWindowInfer n := by
  by_cases hshort : n < 100
  · rw [ownWindows,if_pos hshort]
    exact windowsOf_fits (aftercnnLen_pos hpos) (le_windowAftercnn hn hpos hshort hinfer)
  · rw [ownWindows,if_neg hshort,windowAftercnn_full hn (Nat.not_lt.mp hshort)]

variable {φ ε : Type} {lens' : List Nat} {j : Nat}

theorem towerForward_windows (conv : ConvLayers φ ε) (hpos : ∀ n ∈ lens, 0 < n)
    (hinfer : 100 ≤ nWindowInfer) (hi : lens[i]? = some n) {frames : List φ}
    (hframes : frames.length = lens.sum) :
    ∃ out, towerForward 50 nWindowInfer lens conv frames = .ok out ∧
      windowSizes out.cuSeqlens (firstRow lens i) (firstRow lens (i+1)) =
        ownWindows nWindowInfer n := by
  have hmem : n ∈ lens := List.mem_of_getElem? hi
  have hne : lens ≠ [] := List.ne_nil_of_mem hmem
  obtain ⟨rows,hrows,-⟩ := towerForward_eq conv hne hpos hinfer hframes
  exact ⟨_,hrows,(windowSizes_audio hne hinfer hi).trans (windowsOf_eq_own hmem (hpos n hmem) hinfer)⟩

end Invariance
end TLiveOmni
