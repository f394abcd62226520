import Mathlib.Data.List.Infix
import Mathlib.Data.List.Basic

/-! Strings with embedded words that open and close with brackets. Such words never overlap,
so searching and replacing in the string is searching and replacing in its symbols. -/
set_option autoImplicit false

namespace Words

/-- A character or a whole word. -/
inductive Sym (α ω : Type) where
  | ch (c : α)
  | word (w : ω)
  deriving DecidableEq

section Strings
variable {β : Type} [DecidableEq β]

/-- `s.replace(old, new, 1)` for a non-empty `old`. -/
def replaceFirst (old new : List β) : List β → List β
  | [] => []
  | c :: s => if old.isPrefixOf (c :: s) then new ++ (c :: s).drop old.length
      else c :: replaceFirst old new s

/-- `s.replace(old, new)` for a non-empty `old`, with `skip` characters of a match left. -/
def replaceFrom (old new : List β) : Nat → List β → List β
  | _, [] => []
  | skip+1, _ :: s => replaceFrom old new skip s
  | 0, c :: s => if old.isPrefixOf (c :: s) then new ++ replaceFrom old new (old.length-1) s
      else c :: replaceFrom old new 0 s

def replaceAll (old new s : List β) : List β := replaceFrom old new 0 s

/-- `sub in s`. -/
def isIn (sub s : List β) : Bool := decide (sub <:+: s)

end Strings

section Lexer
variable {α ω : Type} [DecidableEq α] (spell : ω → List α) (ws : List ω)

/-- Leftmost non-overlapping occurrences of the words, as `re.finditer` over the alternatives
finds them, and the characters between, with `skip` characters of a match left. -/
def lexFrom : Nat → List α → List (Sym α ω)
  | _, [] => []
  | skip+1, _ :: s => lexFrom skip s
  | 0, c :: s =>
      match ws.find? fun w => (spell w).isPrefixOf (c :: s) with
      | some w => .word w :: lexFrom ((spell w).length-1) s
      | none => .ch c :: lexFrom 0 s

def lex (s : List α) : List (Sym α ω) := lexFrom spell ws 0 s

end Lexer

def Sym.word? {α ω : Type} : Sym α ω → Option ω
  | .word w => some w
  | .ch _ => none

/-- The words found in a string, in order. -/
def findWords {α ω : Type} [DecidableEq α] (spell : ω → List α) (ws : List ω) (s : List α) :
    List ω := (lex spell ws s).filterMap Sym.word?

def Sym.spelled {α ω : Type} (spell : ω → List α) : Sym α ω → List α
  | .ch c => [c]
  | .word w => spell w

/-- The string the symbols stand for. -/
def flat {α ω : Type} (spell : ω → List α) (l : List (Sym α ω)) : List α :=
  l.flatMap (Sym.spelled spell)

/-- Words differ and are of the form `lt body gt` without brackets in the body. -/
structure Bracketed {α ω : Type} (spell : ω → List α) (lt gt : α) : Prop where
  ne : lt ≠ gt
  shape : ∀ w, ∃ body, spell w = lt :: (body ++ [gt]) ∧ lt ∉ body ∧ gt ∉ body
  injective : Function.Injective spell

/-- No word is spelled out in characters. -/
def Clean {α ω : Type} (spell : ω → List α) (l : List (Sym α ω)) : Prop :=
  ∀ w, ¬ (spell w).map .ch <:+: l

section Flat
variable {α ω : Type} (spell : ω → List α)

@[simp] theorem flat_nil : flat spell ([] : List (Sym α ω)) = [] := rfl

@[simp] theorem flat_ch (c : α) (l : List (Sym α ω)) :
    flat spell (.ch c :: l) = c :: flat spell l := rfl

@[simp] theorem flat_word (w : ω) (l : List (Sym α ω)) :
    flat spell (.word w :: l) = spell w ++ flat spell l := rfl

@[simp] theorem flat_append (a b : List (Sym α ω)) :
    flat spell (a ++ b) = flat spell a ++ flat spell b := by simp [flat]

@[simp] theorem flat_chars (s : List α) : flat spell (s.map .ch : List (Sym α ω)) = s := by
  induction s with
  | nil => rfl
  | cons c s ih => simp [ih]

variable {spell}

theorem Clean.tail {x : Sym α ω} {l : List (Sym α ω)} (h : Clean spell (x :: l)) :
    Clean spell l := fun w hw => h w (hw.trans (List.suffix_cons x l).isInfix)

theorem Clean.suffix {a b : List (Sym α ω)} (h : Clean spell (a ++ b)) : Clean spell b :=
  fun w hw => h w (hw.trans (List.suffix_append a b).isInfix)

end Flat

section Match
variable {α ω : Type} {spell : ω → List α} {lt gt : α}

theorem eq_of_closed {g : α} {a b r : List α} (ha : g ∉ a) (hb : g ∉ b)
    (h : a ++ [g] <+: b ++ g :: r) : a = b := by
  induction a generalizing b with
  | nil =>
    cases b with
    | nil => rfl
    | cons y b =>
      have : g = y := by simpa using (List.cons_prefix_cons.mp h).1
      exact absurd (by simp [this]) hb
  | cons x a ih =>
    cases b with
    | nil =>
      have : x = g := by simpa using (List.cons_prefix_cons.mp h).1
      exact absurd (by simp [this]) ha
    | cons y b =>
      obtain ⟨rfl,hrest⟩ := List.cons_prefix_cons.mp h
      rw [ih (fun e => ha (by simp [e])) (fun e => hb (by simp [e])) hrest]

variable (hb : Bracketed spell lt gt)
include hb

/-- The words form a prefix code. -/
theorem Bracketed.eq_of_prefix {w x : ω} {r : List α} (h : spell w <+: spell x ++ r) : w = x := by
  obtain ⟨a,ha,-,hga⟩ := hb.shape w
  obtain ⟨b,hx,-,hgb⟩ := hb.shape x
  have heq : a = b := by
    rw [ha,hx] at h
    have := (List.cons_prefix_cons.mp h).2
    exact eq_of_closed hga hgb (by simpa using this)
  exact hb.injective (by rw [ha,hx,heq])

theorem Bracketed.cons (w : ω) : ∃ t, spell w = lt :: t ∧ lt ∉ t := by
  obtain ⟨body,h,hlt,-⟩ := hb.shape w
  exact ⟨body ++ [gt],h,by simp [hlt,hb.ne]⟩

/-- A string without opening bracket matches characters only. -/
theorem prefix_chars {t : List α} {l : List (Sym α ω)} (ht : lt ∉ t) (h : t <+: flat spell l) :
    t.map .ch <+: l := by
  induction t generalizing l with
  | nil => exact List.nil_prefix
  | cons c t ih =>
    cases l with
    | nil => simp at h
    | cons x l =>
      cases x with
      | word w =>
        obtain ⟨s,hs,-⟩ := hb.cons w
        rw [flat_word,hs,List.cons_append] at h
        exact absurd (by simp [(List.cons_prefix_cons.mp h).1]) ht
      | ch c' =>
        obtain ⟨rfl,hrest⟩ := List.cons_prefix_cons.mp h
        exact List.cons_prefix_cons.mpr ⟨rfl,ih (fun e => ht (by simp [e])) hrest⟩

/-- In a clean list a word is found exactly where its symbol stands. -/
theorem word_of_prefix {w : ω} {l : List (Sym α ω)} (hc : Clean spell l)
    (h : spell w <+: flat spell l) : ∃ l', l = .word w :: l' := by
  obtain ⟨t,ht,hlt⟩ := hb.cons w
  cases l with
  | nil => simp [ht] at h
  | cons x l =>
    cases x with
    | word x => exact ⟨l,by rw [hb.eq_of_prefix h]⟩
    | ch c =>
      rw [ht,flat_ch] at h
      obtain ⟨rfl,hrest⟩ := List.cons_prefix_cons.mp h
      refine absurd ?_ (hc w)
      rw [ht]
      exact (List.cons_prefix_cons.mpr ⟨rfl,prefix_chars hb hlt hrest⟩).isInfix

theorem words_prefix_iff {ws : List ω} {l : List (Sym α ω)} (hc : Clean spell l) :
    flat spell (ws.map .word) <+: flat spell l ↔ ws.map .word <+: l := by
  induction ws generalizing l with
  | nil => simp
  | cons w ws ih =>
    constructor
    · intro h
      obtain ⟨l',rfl⟩ := word_of_prefix hb hc ((List.prefix_append _ _).trans h)
      rw [List.map_cons,flat_word,flat_word,List.prefix_append_right_inj] at h
      exact List.cons_prefix_cons.mpr ⟨rfl,(ih hc.tail).mp h⟩
    · rintro ⟨r,rfl⟩
      exact ⟨flat spell r,by simp⟩

end Match

section Replace
variable {α ω : Type} [DecidableEq α] [DecidableEq ω] {spell : ω → List α} {lt gt : α}

theorem replaceFirst_skip {old new t s : List α} (ho : ∃ o, old = lt :: o) (ht : lt ∉ t) :
    replaceFirst old new (t ++ s) = t ++ replaceFirst old new s := by
  obtain ⟨o,rfl⟩ := ho
  induction t with
  | nil => rfl
  | cons c t ih =>
    have hc : lt ≠ c := fun e => ht (by simp [e])
    have hnot : (lt :: o).isPrefixOf (c :: (t ++ s)) = false := by
      simp [List.isPrefixOf,hc]
    rw [List.cons_append,replaceFirst,hnot,ih fun e => ht (by simp [e])]
    rfl

theorem replaceFrom_skip {old new t s : List α} (ho : ∃ o, old = lt :: o) (ht : lt ∉ t) :
    replaceFrom old new 0 (t ++ s) = t ++ replaceFrom old new 0 s := by
  obtain ⟨o,rfl⟩ := ho
  induction t with
  | nil => rfl
  | cons c t ih =>
    have hc : lt ≠ c := fun e => ht (by simp [e])
    have hnot : (lt :: o).isPrefixOf (c :: (t ++ s)) = false := by
      simp [List.isPrefixOf,hc]
    rw [List.cons_append,replaceFrom,hnot,ih fun e => ht (by simp [e])]
    rfl

theorem replaceFrom_drop (old new t s : List α) :
    replaceFrom old new t.length (t ++ s) = replaceFrom old new 0 s := by
  induction t with
  | nil => rfl
  | cons c t ih => simpa [replaceFrom] using ih

variable (hb : Bracketed spell lt gt)
include hb

theorem replaceFirst_flat {w : ω} {ws : List ω} (new : List (Sym α ω)) {l : List (Sym α ω)}
    (hc : Clean spell l) :
    replaceFirst (flat spell ((w :: ws).map .word)) (flat spell new) (flat spell l) =
      flat spell (replaceFirst ((w :: ws).map .word) new l) := by
  have ho : ∃ o, flat spell ((w :: ws).map .word) = lt :: o := by
    obtain ⟨t,ht,-⟩ := hb.cons w
    exact ⟨t ++ flat spell (ws.map .word),by simp [ht]⟩
  induction l with
  | nil => rfl
  | cons x l ih =>
    have hiff := @words_prefix_iff _ _ _ _ _ hb (w :: ws) _ hc
    cases x with
    | ch c =>
      have hsym : ¬ (w :: ws).map .word <+: (.ch c :: l : List (Sym α ω)) := by
        intro h
        have := (List.cons_prefix_cons.mp h).1
        cases this
      have hstr := mt hiff.mp hsym
      rw [flat_ch] at hstr ⊢
      rw [replaceFirst,replaceFirst,if_neg (by simpa using hstr),if_neg (by simp),
        ih hc.tail,flat_ch]
    | word x =>
      by_cases hsym : (w :: ws).map .word <+: (.word x :: l : List (Sym α ω))
      · obtain ⟨r,hr⟩ := hsym
        have hfirst : ∀ (β : Type) [DecidableEq β] (old new r : List β), old ≠ [] →
            replaceFirst old new (old ++ r) = new ++ r := by
          intro β _ old new r hne
          obtain ⟨a,o,rfl⟩ := List.exists_cons_of_ne_nil hne
          simp [replaceFirst]
        have hne : flat spell ((w :: ws).map .word) ≠ [] := by
          obtain ⟨o,ho⟩ := ho
          rw [ho]
          exact List.cons_ne_nil _ _
        rw [← hr,flat_append,hfirst _ _ _ _ hne,hfirst _ _ _ _ (by simp),flat_append]
      · have hstr := mt hiff.mp hsym
        obtain ⟨t,ht,hlt⟩ := hb.cons x
        have hpass := @replaceFirst_skip α _ lt (flat spell ((w :: ws).map .word))
          (flat spell new) t (flat spell l) ho hlt
        rw [flat_word,ht,List.cons_append] at hstr ⊢
        rw [replaceFirst,replaceFirst,if_neg (by simpa using hstr),if_neg (by simpa using hsym),
          hpass,ih hc.tail,flat_word,ht]
        rfl

theorem replaceAll_flat (w : ω) (new : List (Sym α ω)) {l : List (Sym α ω)}
    (hc : Clean spell l) :
    replaceAll (spell w) (flat spell new) (flat spell l) =
      flat spell (l.flatMap fun x => if x = .word w then new else [x]) := by
  obtain ⟨o,ho,hlt⟩ := hb.cons w
  unfold replaceAll
  induction l with
  | nil => rfl
  | cons x l ih =>
    cases x with
    | ch c =>
      have hstr : ¬ spell w <+: flat spell (.ch c :: l) := by
        intro h
        obtain ⟨l',hl⟩ := word_of_prefix hb hc h
        cases hl
      rw [flat_ch] at hstr ⊢
      rw [replaceFrom,if_neg (by simpa using hstr),ih hc.tail]
      simp
    | word x =>
      obtain ⟨t,ht,hlt'⟩ := hb.cons x
      by_cases hx : x = w
      · subst hx
        have hlen : (spell x).length-1 = t.length := by simp [ht]
        rw [flat_word]
        conv_lhs => rw [show spell x ++ flat spell l = lt :: (t ++ flat spell l) by simp [ht]]
        rw [replaceFrom,if_pos (by simp [ht]),hlen,replaceFrom_drop,ih hc.tail]
        simp
      · have hstr : ¬ spell w <+: flat spell (.word x :: l) := by
          intro h
          obtain ⟨l',hl⟩ := word_of_prefix hb hc h
          cases hl
          exact hx rfl
        rw [flat_word,ht,List.cons_append] at hstr ⊢
        rw [replaceFrom,if_neg (by simpa using hstr),
          replaceFrom_skip ⟨o,ho⟩ hlt',ih hc.tail]
        simp [hx,ht]

omit [DecidableEq ω] in
theorem lexFrom_skip (ws : List ω) {t s : List α} (ht : lt ∉ t) :
    lexFrom spell ws 0 (t ++ s) = t.map .ch ++ lexFrom spell ws 0 s := by
  induction t with
  | nil => rfl
  | cons c t ih =>
    have hc : lt ≠ c := fun e => ht (by simp [e])
    have hnone : (ws.find? fun w => (spell w).isPrefixOf (c :: (t ++ s))) = none := by
      rw [List.find?_eq_none]
      intro w _
      obtain ⟨o,ho,-⟩ := hb.cons w
      simp [ho,hc]
    rw [List.cons_append,lexFrom,hnone,ih fun e => ht (by simp [e])]
    rfl

omit hb [DecidableEq ω] in
theorem lexFrom_drop (ws : List ω) (t s : List α) :
    lexFrom spell ws t.length (t ++ s) = lexFrom spell ws 0 s := by
  induction t with
  | nil => rfl
  | cons c t ih => simpa [lexFrom] using ih

/-- The lexer gives back the symbols, with the words it does not know spelled out. -/
theorem lex_flat (ws : List ω) {l : List (Sym α ω)} (hc : Clean spell l) :
    lex spell ws (flat spell l) = l.flatMap fun x => match x with
      | .ch c => [.ch c]
      | .word w => if w ∈ ws then [.word w] else (spell w).map .ch := by
  unfold lex
  induction l with
  | nil => rfl
  | cons x l ih =>
    cases x with
    | ch c =>
      have hnone : (ws.find? fun w => (spell w).isPrefixOf (c :: flat spell l)) = none := by
        rw [List.find?_eq_none]
        intro w _ hw
        obtain ⟨l',hl⟩ := word_of_prefix hb hc (by simpa using hw)
        cases hl
      rw [flat_ch,lexFrom,hnone,ih hc.tail]
      rfl
    | word x =>
      obtain ⟨t,ht,hlt⟩ := hb.cons x
      have hstr : ∀ w, spell w <+: flat spell (.word x :: l) → w = x := by
        intro w hw
        obtain ⟨l',hl⟩ := word_of_prefix hb hc hw
        cases hl
        rfl
      rw [flat_word,ht,List.cons_append] at hstr ⊢
      by_cases hx : x ∈ ws
      · have hfind : (ws.find? fun w => (spell w).isPrefixOf (lt :: (t ++ flat spell l))) =
            some x := by
          cases hf : ws.find? fun w => (spell w).isPrefixOf (lt :: (t ++ flat spell l)) with
          | none =>
            have := List.find?_eq_none.mp hf x hx
            simp [ht] at this
          | some w =>
            have := List.find?_some hf
            rw [hstr w (by simpa using this)]
        have hlen : (spell x).length-1 = t.length := by simp [ht]
        rw [lexFrom,hfind]
        simp only [hlen,lexFrom_drop,ih hc.tail,List.flatMap_cons,hx,if_true]
        rfl
      · have hnone : (ws.find? fun w => (spell w).isPrefixOf (lt :: (t ++ flat spell l))) =
            none := by
          rw [List.find?_eq_none]
          intro w hw hp
          exact hx (hstr w (by simpa using hp) ▸ hw)
        rw [lexFrom,hnone]
        simp only [lexFrom_skip hb ws hlt,ih hc.tail,List.flatMap_cons,hx,if_false,ht]
        rfl

/-- A list of known words and characters is read back as it is. -/
theorem lex_flat_of_mem {ws : List ω} {l : List (Sym α ω)} (hc : Clean spell l)
    (h : ∀ w, .word w ∈ l → w ∈ ws) : lex spell ws (flat spell l) = l := by
  rw [lex_flat hb ws hc]
  clear hc
  induction l with
  | nil => rfl
  | cons x l ih =>
    rw [List.flatMap_cons,ih fun w hw => h w (by simp [hw])]
    cases x with
    | ch c => rfl
    | word w => simp [h w (by simp)]

theorem findWords_flat (ws : List ω) {l : List (Sym α ω)} (hc : Clean spell l) :
    findWords spell ws (flat spell l) =
      (l.filterMap Sym.word?).filter fun w => decide (w ∈ ws) := by
  rw [findWords,lex_flat hb ws hc]
  clear hc
  have hchars : ∀ s : List α, (s.map (Sym.ch : α → Sym α ω)).filterMap Sym.word? = [] := by
    intro s
    simp [List.filterMap_map,Function.comp_def,Sym.word?]
  induction l with
  | nil => rfl
  | cons x l ih =>
    rw [List.flatMap_cons,List.filterMap_append,ih]
    cases x with
    | ch c => rfl
    | word w => by_cases hw : w ∈ ws <;> simp [Sym.word?,hw,hchars]

end Replace

section Single
variable {β : Type} [DecidableEq β]

theorem replaceFirst_one {x : β} {a : List β} (new b : List β) (h : x ∉ a) :
    replaceFirst [x] new (a ++ x :: b) = a ++ (new ++ b) := by
  induction a with
  | nil => simp [replaceFirst]
  | cons c a ih =>
    have hc : x ≠ c := fun e => h (by simp [e])
    simp [replaceFirst,hc,ih fun e => h (by simp [e])]

/-- A pattern of three is first found where its middle symbol stands. -/
theorem replaceFirst_three {x y z : β} {a : List β} (new b : List β) (hxy : x ≠ y) (h : y ∉ a) :
    replaceFirst [x,y,z] new (a ++ x :: y :: z :: b) = a ++ (new ++ b) := by
  induction a with
  | nil => simp [replaceFirst]
  | cons c a ih =>
    have hnot : ¬ [x,y,z] <+: c :: (a ++ x :: y :: z :: b) := by
      intro hp
      have hp := (List.cons_prefix_cons.mp hp).2
      cases a with
      | nil => exact hxy (by simpa using (List.cons_prefix_cons.mp hp).1.symm)
      | cons d a =>
        have : y = d := by simpa using (List.cons_prefix_cons.mp hp).1
        exact h (by simp [this])
    rw [List.cons_append,replaceFirst,if_neg (by simpa using hnot),
      ih fun e => h (by simp [e])]
    rfl

end Single

section Runs
variable {α ω : Type} {spell : ω → List α} {lt gt : α}

/-- A run of characters that spells no word. -/
def Plain (spell : ω → List α) (s : List α) : Prop := ∀ w, ¬ spell w <:+: s

theorem clean_chars {s : List α} : Clean spell (s.map .ch) ↔ Plain spell s := by
  refine forall_congr' fun w => not_congr ⟨?_,fun h => h.map _⟩
  rintro ⟨a,b,h⟩
  have hflat := congrArg (flat spell) h
  simp only [flat_append,flat_chars] at hflat
  exact ⟨flat spell a,flat spell b,hflat⟩

/-- An infix across a cut lies on one side of it or has the first symbol behind the cut
inside, not at its start. -/
theorem infix_append_cons {β : Type} {u a b : List β} {x : β} (h : u <:+: a ++ x :: b) :
    u <:+: a ∨ u <:+: x :: b ∨ ∃ y u₁ u₂, u = y :: (u₁ ++ x :: u₂) := by
  obtain ⟨l,r,h⟩ := h
  rw [List.append_assoc] at h
  rcases List.append_eq_append_iff.mp h with ⟨c,rfl,hu⟩ | ⟨c,rfl,hb⟩
  · rcases List.append_eq_append_iff.mp hu with ⟨d,rfl,-⟩ | ⟨d,rfl,hd⟩
    · exact .inl ⟨l,d,by simp⟩
    · cases c with
      | nil => exact .inr (.inl ⟨[],r,by simpa using hd.symm⟩)
      | cons y c =>
        cases d with
        | nil => exact .inl ⟨l,[],by simp⟩
        | cons z d =>
          obtain ⟨rfl,-⟩ := List.cons.inj hd
          exact .inr (.inr ⟨y,c,d,by simp⟩)
  · exact .inr (.inl ⟨c,r,by simpa using hb.symm⟩)

/-- A word symbol cuts a list into parts that can be checked separately. -/
theorem Clean.append_word {a b : List (Sym α ω)} (ha : Clean spell a) (w : ω)
    (hb : Clean spell b) : Clean spell (a ++ .word w :: b) := by
  intro v hv
  have hno : ∀ t : List α, (.word w : Sym α ω) ∉ t.map .ch := by simp
  rcases infix_append_cons hv with h | h | ⟨y,u₁,u₂,h⟩
  · exact ha v h
  · obtain ⟨l,r,h⟩ := h
    cases l with
    | nil =>
      cases ht : (spell v).map (Sym.ch : α → Sym α ω) with
      | nil =>
        refine hb v ?_
        rw [ht]
        exact List.nil_infix
      | cons y t =>
        rw [ht] at h
        simp only [List.nil_append,List.cons_append,List.cons.injEq] at h
        exact hno (spell v) (by simp [ht,h.1])
    | cons y l =>
      simp only [List.cons_append,List.cons.injEq] at h
      exact hb v ⟨l,r,h.2⟩
  · exact hno (spell v) (by rw [h]; simp)

theorem Clean.words_append (ws : List ω) {b : List (Sym α ω)} (h : Clean spell b) :
    Clean spell (ws.map .word ++ b) := by
  induction ws with
  | nil => exact h
  | cons w ws ih =>
    have hnil : Clean spell ([] : List (Sym α ω)) := fun v hv => by
      have := List.infix_nil.mp hv
      exact h v (by rw [this]; exact List.nil_infix)
    exact hnil.append_word w ih

/-- Behind a plain run another one may follow that starts with a bracket. -/
theorem Plain.append (hb : Bracketed spell lt gt) {a b : List α} (ha : Plain spell a)
    (h : Plain spell (lt :: b)) : Plain spell (a ++ lt :: b) := by
  intro w hw
  obtain ⟨t,ht,hlt⟩ := hb.cons w
  rcases infix_append_cons hw with hw | hw | ⟨y,u₁,u₂,hw⟩
  · exact ha w hw
  · exact h w hw
  · rw [ht] at hw
    exact hlt (by rw [(List.cons.inj hw).2]; simp)

end Runs

section Lexed
variable {α ω : Type} [DecidableEq α] {spell : ω → List α} {lt gt : α}
variable (hb : Bracketed spell lt gt)
include hb

theorem flat_lexFrom (ws : List ω) (skip : Nat) (s : List α) :
    flat spell (lexFrom spell ws skip s) = s.drop skip := by
  induction s generalizing skip with
  | nil => cases skip <;> rfl
  | cons c s ih =>
    cases skip with
    | succ skip => exact ih skip
    | zero =>
      rw [lexFrom]
      split
      · next w hw =>
        have hpre := List.find?_some hw
        obtain ⟨r,hr⟩ := List.isPrefixOf_iff_prefix.mp hpre
        obtain ⟨t,ht,-⟩ := hb.cons w
        rw [ht,List.cons_append] at hr
        obtain ⟨rfl,rfl⟩ := List.cons.inj hr
        rw [flat_word,ih,ht]
        simp
      · rw [flat_ch,ih]
        rfl

theorem flat_lex (ws : List ω) (s : List α) : flat spell (lex spell ws s) = s :=
  flat_lexFrom hb ws 0 s

/-- The lexer that knows all words leaves none in characters. -/
theorem clean_lex {ws : List ω} (hws : ∀ w, w ∈ ws) (s : List α) :
    Clean spell (lex spell ws s) := by
  unfold lex
  generalize 0 = skip
  induction s generalizing skip with
  | nil =>
    intro w hw
    obtain ⟨t,ht,-⟩ := hb.cons w
    have : lexFrom spell ws skip ([] : List α) = [] := by cases skip <;> rfl
    rw [this,ht] at hw
    simp at hw
  | cons c s ih =>
    cases skip with
    | succ skip => exact ih skip
    | zero =>
      rw [lexFrom]
      split
      · next w hw => exact (ih _).words_append [w]
      · next hnone =>
        intro w hw
        rcases List.infix_cons_iff.mp hw with hp | hi
        · -- the word would have been found here
          have hpre : spell w <+: c :: s := by
            have hflat := flat_lexFrom hb ws 0 s
            obtain ⟨r,hr⟩ := hp
            have := congrArg (flat spell) hr
            rw [flat_append,flat_chars,flat_ch,hflat,List.drop_zero] at this
            exact ⟨_,this⟩
          exact List.find?_eq_none.mp hnone w (hws w) (by simpa using hpre)
        · exact ih 0 w hi

/-- A string stands for one clean list only. -/
theorem lex_flat_all [DecidableEq ω] {ws : List ω} (hws : ∀ w, w ∈ ws) {l : List (Sym α ω)}
    (hc : Clean spell l) : lex spell ws (flat spell l) = l :=
  lex_flat_of_mem hb hc fun w _ => hws w

end Lexed

section Rewritten
variable {α ω : Type} {spell : ω → List α} {lt gt : α} {a b : List (Sym α ω)}

theorem Clean.left (h : Clean spell (a ++ b)) : Clean spell a :=
  fun w hw => h w (hw.trans (List.prefix_append a b).isInfix)

theorem Clean.insert (h : Clean spell (a ++ b)) (ws : List ω) :
    Clean spell (a ++ (ws.map .word ++ b)) := by
  cases ws with
  | nil => exact h
  | cons w ws => exact h.left.append_word w (h.suffix.words_append ws)

/-- A list that can stand between any two others: it starts with a word or an opening bracket
and ends with a word. -/
structure Sealed (spell : ω → List α) (lt : α) (new : List (Sym α ω)) : Prop where
  clean : Clean spell new
  start : ∃ x r, new = x :: r ∧ (x = .ch lt ∨ ∃ w, x = .word w)
  stop : ∃ r w, new = r ++ [.word w]

theorem Clean.append_open (hb : Bracketed spell lt gt) {r : List (Sym α ω)} (ha : Clean spell a)
    (hr : Clean spell (.ch lt :: r)) : Clean spell (a ++ .ch lt :: r) := by
  intro w hw
  obtain ⟨t,ht,hlt⟩ := hb.cons w
  rcases infix_append_cons hw with h | h | ⟨y,u₁,u₂,h⟩
  · exact ha w h
  · exact hr w h
  · rw [ht,List.map_cons] at h
    have hmem : (.ch lt : Sym α ω) ∈ t.map .ch := by rw [(List.cons.inj h).2]; simp
    obtain ⟨c,hc,heq⟩ := List.mem_map.mp hmem
    exact hlt (Sym.ch.inj heq ▸ hc)

theorem Sealed.between (hb : Bracketed spell lt gt) {new : List (Sym α ω)}
    (h : Sealed spell lt new) (ha : Clean spell a) (hc : Clean spell b) :
    Clean spell (a ++ (new ++ b)) := by
  obtain ⟨r,w,rfl⟩ := h.stop
  have hleft : Clean spell (a ++ r) := by
    obtain ⟨x,r',hnew,hx⟩ := h.start
    cases r with
    | nil => simpa using ha
    | cons y r =>
      obtain rfl : y = x := (List.cons.inj hnew).1
      have hclean : Clean spell (y :: r) := h.clean.left
      rcases hx with rfl | ⟨v,rfl⟩
      · exact ha.append_open hb hclean
      · exact ha.append_word v hclean.tail
  have := hleft.append_word w hc
  simpa using this

theorem Sealed.append {b : List (Sym α ω)} (ha : Sealed spell lt a) (hs : Sealed spell lt b) :
    Sealed spell lt (a ++ b) where
  clean := by
    obtain ⟨r,w,rfl⟩ := ha.stop
    have := ha.clean.left.append_word w hs.clean
    simpa using this
  start := by
    obtain ⟨x,r,rfl,hx⟩ := ha.start
    exact ⟨x,r ++ b,rfl,hx⟩
  stop := by
    obtain ⟨r,w,rfl⟩ := hs.stop
    exact ⟨a ++ r,w,by simp⟩

/-- Exchanging words for words does not change what the characters spell. -/
theorem Clean.map_words {f : Sym α ω → Sym α ω} (hch : ∀ c, f (.ch c) = .ch c)
    (hword : ∀ w, ∃ v, f (.word w) = .word v) (h : Clean spell a) : Clean spell (a.map f) := by
  intro w hw
  obtain ⟨l,hl,heq⟩ := List.infix_map_iff.mp hw
  refine h w ?_
  have hl' : (spell w).map .ch = l := by
    clear hw hl
    generalize spell w = s at heq
    induction s generalizing l with
    | nil => exact (List.map_eq_nil_iff.mp heq.symm).symm
    | cons c s ih =>
      obtain ⟨x,l,rfl,hx,hrest⟩ := List.map_eq_cons_iff.mp heq.symm
      rw [List.map_cons,ih _ hrest.symm]
      cases x with
      | ch d => rw [← hx,hch]
      | word v =>
        obtain ⟨u,hu⟩ := hword v
        rw [hu] at hx
        cases hx
  exact hl' ▸ hl

theorem length_findWords [DecidableEq α] [DecidableEq ω] (hb : Bracketed spell lt gt) (w : ω)
    (hc : Clean spell a) : (findWords spell [w] (flat spell a)).length = a.count (.word w) := by
  rw [findWords_flat hb [w] hc]
  clear hc
  induction a with
  | nil => rfl
  | cons x a ih =>
    cases x with
    | ch c => simpa [List.filterMap_cons,Sym.word?] using ih
    | word v =>
      by_cases hv : v = w
      · subst hv
        simpa [List.filterMap_cons,Sym.word?] using ih
      · simpa [List.filterMap_cons,Sym.word?,hv] using ih

theorem replaceFirst_of_infix {β : Type} [DecidableEq β] {old l : List β} (new : List β)
    (hne : old ≠ []) (h : old <:+: l) :
    ∃ a b, l = a ++ (old ++ b) ∧ replaceFirst old new l = a ++ (new ++ b) := by
  induction l with
  | nil => exact absurd (List.infix_nil.mp h) hne
  | cons c l ih =>
    by_cases hp : old <+: c :: l
    · obtain ⟨b,hb⟩ := hp
      refine ⟨[],b,hb.symm,?_⟩
      rw [replaceFirst,if_pos (by simpa using ⟨b,hb⟩),← hb,List.drop_left]
      rfl
    · obtain ⟨a,b,hl,hr⟩ := ih ((List.infix_cons_iff.mp h).resolve_left hp)
      refine ⟨c :: a,b,by rw [hl]; rfl,?_⟩
      rw [replaceFirst,if_neg (by simpa using hp),hr]
      rfl

/-- Nothing is found in front of `r` if no occurrence starts there. -/
theorem replaceFirst_behind {β : Type} [DecidableEq β] {old p r : List β} (new : List β)
    (h : ∀ s, s ≠ [] → s <:+ p → ¬ old <+: s ++ r) :
    replaceFirst old new (p ++ r) = p ++ replaceFirst old new r ∧
      (old <:+: p ++ r ↔ old <:+: r) := by
  induction p with
  | nil => exact ⟨rfl,Iff.rfl⟩
  | cons c p ih =>
    obtain ⟨hrep,hin⟩ := ih fun s hs hsuf => h s hs (hsuf.trans (List.suffix_cons c p))
    have hnot : ¬ old <+: c :: (p ++ r) := h (c :: p) (by simp) (List.suffix_refl _)
    constructor
    · rw [List.cons_append,replaceFirst,if_neg (by simpa using hnot),hrep]
      rfl
    · rw [List.cons_append,List.infix_cons_iff,hin]
      exact or_iff_right hnot

theorem infix_of_skip {t s o : List α} (ht : lt ∉ t) (h : lt :: o <:+: t ++ s) :
    lt :: o <:+: s := by
  induction t with
  | nil => exact h
  | cons c t ih =>
    rcases List.infix_cons_iff.mp h with hp | hi
    · exact absurd (by simp [(List.cons_prefix_cons.mp hp).1]) ht
    · exact ih (fun e => ht (by simp [e])) hi

/-- A sequence of words is contained in the string where its symbols are in the list. -/
theorem words_infix_iff (hb : Bracketed spell lt gt) {w : ω} {ws : List ω}
    (hc : Clean spell a) :
    flat spell ((w :: ws).map .word) <:+: flat spell a ↔ (w :: ws).map .word <:+: a := by
  obtain ⟨t,ht,-⟩ := hb.cons w
  have ho : flat spell ((w :: ws).map .word) = lt :: (t ++ flat spell (ws.map .word)) := by
    simp [ht]
  constructor
  · intro h
    induction a with
    | nil =>
      rw [ho] at h
      simp at h
    | cons x a ih =>
      by_cases hp : flat spell ((w :: ws).map .word) <+: flat spell (x :: a)
      · exact ((words_prefix_iff hb hc).mp hp).isInfix
      · refine (ih hc.tail ?_).trans (List.suffix_cons x a).isInfix
        cases x with
        | ch c => exact (List.infix_cons_iff.mp h).resolve_left hp
        | word v =>
          obtain ⟨tv,htv,hlt⟩ := hb.cons v
          rw [flat_word,htv,List.cons_append] at h hp
          have hrest := (List.infix_cons_iff.mp h).resolve_left hp
          rw [ho] at hrest ⊢
          exact infix_of_skip hlt hrest
  · rintro ⟨p,r,rfl⟩
    exact ⟨flat spell p,flat spell r,by simp⟩

theorem isIn_word [DecidableEq α] [DecidableEq ω] (hb : Bracketed spell lt gt) (w : ω)
    (hc : Clean spell a) : isIn (spell w) (flat spell a) = decide ((.word w) ∈ a) := by
  have hone : flat spell ([w].map .word) = spell w := by simp
  have hiff := @words_infix_iff _ _ _ _ _ _ hb w [] hc
  rw [hone,List.map_singleton,List.singleton_infix_iff] at hiff
  exact decide_eq_decide.mpr hiff

end Rewritten
end Words
