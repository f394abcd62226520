import TLiveOmni.Embeds

/-! Token prompts in the form `get_placeholder_str` writes, and what the updates make of them:
the spans of a video end up between the delimiters the video token already had. -/
set_option autoImplicit false

namespace TLiveOmni
namespace Vllm
open PySeq Words Expand

/-- `get_placeholder_str`. -/
def getPlaceholderStr : Modality → List Word
  | .image => [.visionStart,.imagePad,.visionEnd]
  | .video => [.visionStart,.videoPad,.visionEnd]
  | .audio => [.audioStart,.audioPad,.audioEnd]

/-- A media item a prompt asks about. -/
inductive Ask (m : Nat) where
  | image (g : Grid m)
  | video (g : Grid m)
  | audio (a : AudioClip)

namespace Ask
variable {m : Nat}

def modality : Ask m → Modality
  | .image _ => .image
  | .video _ => .video
  | .audio _ => .audio

def image? : Ask m → Option (Grid m)
  | .image g => some g
  | _ => none

def video? : Ask m → Option (Grid m)
  | .video g => some g
  | _ => none

def audio? : Ask m → Option AudioClip
  | .audio a => some a
  | _ => none

end Ask

/-- Ordinary text and then a media item. -/
structure AskPart (m : Nat) where
  text : List Nat
  ask : Ask m

def AskPart.wire {m : Nat} (p : AskPart m) : List Token :=
  wireText p.text ++ (getPlaceholderStr p.ask.modality).filterMap Word.token?

structure TokenPrompt (m : Nat) where
  parts : List (AskPart m)
  tail : List Nat

namespace TokenPrompt
variable {m : Nat}

def wire (pr : TokenPrompt m) : List Token := pr.parts.flatMap AskPart.wire ++ wireText pr.tail

def images (pr : TokenPrompt m) : List (Grid m) := pr.parts.filterMap (·.ask.image?)
def videos (pr : TokenPrompt m) : List (Grid m) := pr.parts.filterMap (·.ask.video?)
def clips (pr : TokenPrompt m) : List AudioClip := pr.parts.filterMap (·.ask.audio?)

end TokenPrompt

/-- A media item after the updates. -/
inductive Nest (m : Nat) where
  | plain (a : Media m)
  | wrapped (spans : List (Item m))

namespace Nest
variable {m : Nat}

def wire : Nest m → List Token
  | .plain a => a.wire
  | .wrapped spans => .visionStart :: (wireItems spans ++ [.visionEnd])

/-- The tokens before the `vision_end` tokens, but for the one of a wrapped video itself. -/
def closing : Nest m → List Token
  | .plain a => a.closing
  | .wrapped spans => spans.flatMap (·.media.closing)

def clips : Nest m → List AudioClip
  | .plain a => a.clips
  | .wrapped spans => spans.flatMap (·.media.clips)

end Nest

section Nests
variable {m : Nat}

def nestWire (l : List (List Nat × Nest m)) : List Token :=
  l.flatMap fun x => wireText x.1 ++ x.2.wire

/-- The updated prompt, with the spans of the videos in order. -/
def nest : List (AskPart m) → List (List (Item m)) → List (List Nat × Nest m)
  | [], _ => []
  | ⟨text,.image g⟩ :: parts, videos => (text,.plain (.image g)) :: nest parts videos
  | ⟨text,.audio a⟩ :: parts, videos => (text,.plain (.audio a)) :: nest parts videos
  | ⟨text,.video _⟩ :: parts, [] => (text,.wrapped []) :: nest parts []
  | ⟨text,.video _⟩ :: parts, spans :: videos => (text,.wrapped spans) :: nest parts videos

theorem isPad_wireText (text : List Nat) : ∀ t ∈ wireText text, t.isPad = false := by
  intro t ht
  obtain ⟨i,-,rfl⟩ := List.mem_map.mp ht
  rfl

theorem expand_unpadded {q : List Update} (hq : ∀ u ∈ q, u.mark.isPad = true) {lead : List Token}
    (hlead : ∀ t ∈ lead, t.isPad = false) (rest : List Token) :
    expand Update.mark Update.full q (lead ++ rest) =
      lead ++ expand Update.mark Update.full q rest := by
  refine expand_free (fun u hu hmem => ?_) rest
  have := hlead _ hmem
  rw [hq u hu] at this
  cases this

/-- A media token between its delimiters is replaced by the next content of its kind. -/
theorem expand_framed {q : List Update} (hq : ∀ u ∈ q, u.mark.isPad = true) (text : List Nat)
    {o t c : Token} (ho : o.isPad = false) (hc : c.isPad = false) {full : List Token}
    {more : List (List Token)}
    (hf : (q.filter fun u => decide (u.mark = t)).map Update.full = full :: more)
    (rest : List Token) :
    expand Update.mark Update.full q (wireText text ++ o :: t :: c :: rest) =
      wireText text ++ o :: (full ++ c :: expand Update.mark Update.full (pop Update.mark q t) rest) ∧
    ((pop Update.mark q t).filter fun u => decide (u.mark = t)).map Update.full = more := by
  obtain ⟨u,us,hfilter,rfl,rfl⟩ := List.map_eq_cons_iff.mp hf
  have hnext : next Update.mark q t = some u := by rw [next_eq_head,hfilter]; rfl
  have hpop : ∀ v ∈ pop Update.mark q t, v.mark.isPad = true := fun v hv => hq v (pop_subset v hv)
  have hopen := @expand_unpadded q hq (wireText text ++ [o]) (by
    intro x hx
    rcases List.mem_append.mp hx with hx | hx
    · exact isPad_wireText text x hx
    · rw [List.mem_singleton.mp hx]; exact ho) (t :: c :: rest)
  have hclose := @expand_unpadded _ hpop [c] (by simpa using hc) rest
  refine ⟨?_,by rw [filter_pop,if_pos rfl,hfilter]; rfl⟩
  rw [show wireText text ++ o :: t :: c :: rest = wireText text ++ [o] ++ (t :: c :: rest) by simp,
    hopen,expand_marker hnext,show c :: rest = [c] ++ rest from rfl,hclose]
  simp

theorem expand_parts (parts : List (AskPart m)) (videos : List (List (Item m)))
    (tail : List Nat) {q : List Update} (hq : ∀ u ∈ q, u.mark.isPad = true)
    (hi : (q.filter fun u => decide (u.mark = .imagePad)).map Update.full =
      (parts.filterMap (·.ask.image?)).map fun g => List.replicate (g.t*g.toFrame.tokens) .imagePad)
    (ha : (q.filter fun u => decide (u.mark = .audioPad)).map Update.full =
      (parts.filterMap (·.ask.audio?)).map fun a => List.replicate a.tokens .audioPad)
    (hv : (q.filter fun u => decide (u.mark = .videoPad)).map Update.full = videos.map wireItems)
    (hlen : videos.length = (parts.filterMap (·.ask.video?)).length) :
    expand Update.mark Update.full q (parts.flatMap AskPart.wire ++ wireText tail) =
      nestWire (nest parts videos) ++ wireText tail := by
  induction parts generalizing q videos with
  | nil =>
    have := expand_unpadded hq (isPad_wireText tail) []
    simpa [nest,nestWire,expand] using this
  | cons p parts ih =>
    obtain ⟨text,ask⟩ := p
    have hpop : ∀ t, ∀ v ∈ pop Update.mark q t, v.mark.isPad = true :=
      fun t v hv => hq v (pop_subset v hv)
    have hother {t x : Token} (hx : x ≠ t) :
        (pop Update.mark q t).filter (fun u => decide (u.mark = x)) =
          q.filter fun u => decide (u.mark = x) := by rw [filter_pop,if_neg hx]
    cases ask with
    | image g =>
      obtain ⟨hexp,hrest⟩ := @expand_framed q hq text .visionStart .imagePad .visionEnd rfl rfl
        _ _ hi (parts.flatMap AskPart.wire ++ wireText tail)
      have hih := ih videos (hpop .imagePad) hrest (by rw [hother (by simp)]; exact ha)
        (by rw [hother (by simp)]; exact hv) hlen
      have hwire : (⟨text,.image g⟩ :: parts : List (AskPart m)).flatMap AskPart.wire ++
          wireText tail = wireText text ++ .visionStart :: .imagePad :: .visionEnd ::
            (parts.flatMap AskPart.wire ++ wireText tail) := by
        simp [AskPart.wire,Ask.modality,getPlaceholderStr,Word.token?]
      rw [hwire,hexp,hih]
      simp [nest,nestWire,Nest.wire,Media.wire]
    | audio a =>
      obtain ⟨hexp,hrest⟩ := @expand_framed q hq text .audioStart .audioPad .audioEnd rfl rfl
        _ _ ha (parts.flatMap AskPart.wire ++ wireText tail)
      have hih := ih videos (hpop .audioPad) (by rw [hother (by simp)]; exact hi) hrest
        (by rw [hother (by simp)]; exact hv) hlen
      have hwire : (⟨text,.audio a⟩ :: parts : List (AskPart m)).flatMap AskPart.wire ++
          wireText tail = wireText text ++ .audioStart :: .audioPad :: .audioEnd ::
            (parts.flatMap AskPart.wire ++ wireText tail) := by
        simp [AskPart.wire,Ask.modality,getPlaceholderStr,Word.token?]
      rw [hwire,hexp,hih]
      simp [nest,nestWire,Nest.wire,Media.wire]
    | video g =>
      obtain ⟨spans,videos',rfl⟩ := List.exists_cons_of_length_pos (l := videos) (by
        rw [hlen]; simp [Ask.video?])
      obtain ⟨hexp,hrest⟩ := @expand_framed q hq text .visionStart .videoPad .visionEnd rfl rfl
        _ _ hv (parts.flatMap AskPart.wire ++ wireText tail)
      have hih := ih videos' (hpop .videoPad) (by rw [hother (by simp)]; exact hi)
        (by rw [hother (by simp)]; exact ha) hrest (by simpa [Ask.video?] using hlen)
      have hwire : (⟨text,.video g⟩ :: parts : List (AskPart m)).flatMap AskPart.wire ++
          wireText tail = wireText text ++ .visionStart :: .videoPad :: .visionEnd ::
            (parts.flatMap AskPart.wire ++ wireText tail) := by
        simp [AskPart.wire,Ask.modality,getPlaceholderStr,Word.token?]
      rw [hwire,hexp,hih]
      simp [nest,nestWire,Nest.wire]

/-- The spans inside a video are vision spans. -/
def Nest.Visual : Nest m → Prop
  | .plain _ => True
  | .wrapped spans => ∀ it ∈ spans, it.media.clips = []

theorem getLast_wireItems {spans : List (Item m)} (h : ∀ it ∈ spans, it.media.clips = []) :
    (wireItems spans).getLast? = none ∨ (wireItems spans).getLast? = some .visionEnd := by
  rcases List.eq_nil_or_concat spans with rfl | ⟨init,it,rfl⟩
  · exact .inl rfl
  · right
    have hit := h it (by simp)
    have hlast : it.media.wire.getLast? = some .visionEnd := by
      cases hm : it.media with
      | audio a => rw [hm] at hit; cases hit
      | image g => simp [Media.wire,List.getLast?_cons]
      | grid f last => simp [Media.wire,List.getLast?_cons]
      | avGrid f j track => simp [Media.wire,List.getLast?_cons,List.getLast?_append]
    rw [List.concat_eq_append,wireItems,List.flatMap_append,List.flatMap_singleton,Item.wire,
      List.getLast?_append,List.getLast?_append,hlast]
    rfl

/-- Each vision span is counted once; the outer `vision_end` of a video stands behind another
delimiter. -/
theorem Nest.count_beforeEnds {x : Token} (hs : x ≠ .visionStart) (he : x ≠ .visionEnd)
    (prev : Option Token) {n : Nest m} (hn : n.Visual) :
    (beforeEnds prev n.wire).count x = n.closing.count x := by
  cases n with
  | plain a => rw [wire,Media.beforeEnds_wire,closing]
  | wrapped spans =>
    have hinner := beforeEnds_wireItems (some .visionStart) spans []
    have hnil : wireText [] = [] := rfl
    rw [hnil,List.append_nil] at hinner
    have hone : ∀ o : Option Token, beforeEnds o [.visionEnd] = o.toList := by
      intro o
      simp [beforeEnds]
    rw [wire,beforeEnds,beforeEnds_append,hinner,hone,if_neg (by simp),List.nil_append,
      List.count_append,closing]
    rcases getLast_wireItems hn with h | h
    · simp [h,Ne.symm hs]
    · simp [h,Ne.symm he]

theorem count_visionTokens {x : Token} (hs : x ≠ .visionStart) (he : x ≠ .visionEnd)
    {l : List (List Nat × Nest m)} (hl : ∀ y ∈ l, y.2.Visual) (tail : List Nat) :
    (visionTokens (nestWire l ++ wireText tail)).count x =
      (l.flatMap (·.2.closing)).count x := by
  rw [visionTokens_eq]
  generalize (nestWire l ++ wireText tail).getLast? = prev
  induction l generalizing prev with
  | nil => simp [nestWire,beforeEnds_text]
  | cons y l ih =>
    have hsplit : nestWire (y :: l) ++ wireText tail =
        wireText y.1 ++ (y.2.wire ++ (nestWire l ++ wireText tail)) := by simp [nestWire]
    rw [hsplit,beforeEnds_append,beforeEnds_text,List.nil_append,beforeEnds_append,
      List.count_append,Nest.count_beforeEnds hs he _ (hl y (by simp)),
      ih (fun z hz => hl z (by simp [hz])),List.flatMap_cons,List.count_append]

theorem count_audioStart_nest (l : List (List Nat × Nest m)) (tail : List Nat) :
    (nestWire l ++ wireText tail).count .audioStart =
      (l.flatMap (·.2.clips)).length+(l.flatMap (·.2.closing)).count .audioEnd := by
  have htext (ids : List Nat) : (wireText ids).count .audioStart = 0 :=
    List.count_eq_zero.mpr (notMem_wireText rfl ids)
  induction l with
  | nil => simp [nestWire,htext]
  | cons y l ih =>
    have hsplit : nestWire (y :: l) ++ wireText tail =
        wireText y.1 ++ (y.2.wire ++ (nestWire l ++ wireText tail)) := by simp [nestWire]
    have hone : y.2.wire.count .audioStart = y.2.clips.length+y.2.closing.count .audioEnd := by
      cases y.2 with
      | plain a => exact a.count_audioStart
      | wrapped spans =>
        have := count_audioStart spans []
        rw [show wireText [] = [] from rfl,List.append_nil] at this
        simp [Nest.wire,Nest.clips,Nest.closing,this,clipTotal]
    rw [hsplit,List.count_append,List.count_append,htext,hone,ih,List.flatMap_cons,
      List.flatMap_cons,List.length_append,List.count_append]
    omega

end Nests
end Vllm
end TLiveOmni
