import TLiveOmni.EncoderCache
import TLiveOmni.Lib.Linked

/-! `FreeKVCacheBlockQueue`: the free blocks in the order in which they are handed out, as a doubly
linked list whose links are kept in the blocks. -/
set_option autoImplicit false

namespace TLiveOmni.Kv
open Sched (Fault)

/-- A block is its id, and the two fake blocks come behind all others. -/
structure FreeKvCacheBlockQueue where
  size : Nat
  numFreeBlocks : Int
  links : Links Nat

namespace FreeKvCacheBlockQueue

section Operations
variable (q : FreeKvCacheBlockQueue)

def fakeFreeListHead : Nat := q.size
def fakeFreeListTail : Nat := q.size+1

/-- `__init__`. -/
def init (size : Nat) : FreeKvCacheBlockQueue where
  size := size
  numFreeBlocks := size
  links :=
    { prev := fun a =>
        if a < size then some (if a = 0 then size else a-1)
        else if a = size+1 then some (if size = 0 then size else size-1)
        else none
      next := fun a =>
        if a < size then some (if a+1 = size then size+1 else a+1)
        else if a = size then some (if size = 0 then size+1 else 0)
        else none }

def popleft : Except Fault (Nat × FreeKvCacheBlockQueue) :=
  let noFreeBlocks : Fault :=
    if q.numFreeBlocks = 0 then .valueError "No free blocks available" else .assertionError
  match q.links.next q.fakeFreeListHead with
  | none => .error noFreeBlocks
  | some firstBlock =>
    if firstBlock = q.fakeFreeListTail then .error noFreeBlocks
    else match q.links.next firstBlock with
      | none => .error (.runtimeError
          "Invalid block found in popleft() which doesn't have a valid next_free_block")
      | some secondBlock => .ok (firstBlock,{ q with
          links := q.links.unlink q.fakeFreeListHead firstBlock secondBlock
          numFreeBlocks := q.numFreeBlocks-1 })

/-- The loop of `popleft_n`: the blocks, the one it stops at, and the links. -/
def popBlocks : Nat → Option Nat → Links Nat → Except Fault (List Nat × Option Nat × Links Nat)
  | 0, currBlock, links => .ok ([],currBlock,links)
  | _+1, none, _ => .error .assertionError
  | n+1, some lastBlock, links => do
    let rest ← popBlocks n (links.next lastBlock) (links.clear lastBlock)
    pure (lastBlock :: rest.1,rest.2)

def popleftN (n : Nat) : Except Fault (List Nat × FreeKvCacheBlockQueue) :=
  if n = 0 then .ok ([],q)
  else do
    check (n ≤ q.numFreeBlocks) .assertionError
    let popped ← popBlocks n (q.links.next q.fakeFreeListHead) q.links
    let links := match popped.2.1 with
      | none => popped.2.2
      | some currBlock => (popped.2.2.setNext q.fakeFreeListHead (some currBlock)).setPrev currBlock
          (some q.fakeFreeListHead)
    pure (popped.1,{ q with links := links, numFreeBlocks := q.numFreeBlocks-n })

def remove (block : Nat) : Except Fault FreeKvCacheBlockQueue :=
  match q.links.prev block,q.links.next block with
  | some prevBlock,some nextBlock => .ok { q with
      links := q.links.unlink prevBlock block nextBlock
      numFreeBlocks := q.numFreeBlocks-1 }
  | _,_ => .error (.runtimeError "remove() called on an invalid block")

def append (block : Nat) : Except Fault FreeKvCacheBlockQueue :=
  match q.links.prev q.fakeFreeListTail with
  | none => .error (.runtimeError "prev_free_block of fake_free_list_tail should always exist")
  | some lastBlock => .ok { q with
      links := q.links.link lastBlock block q.fakeFreeListTail
      numFreeBlocks := q.numFreeBlocks+1 }

/-- A round of the loop of `append_n`. -/
def connect (s : Links Nat × Nat) (block : Nat) : Links Nat × Nat :=
  ((s.1.setPrev block (some s.2)).setNext s.2 (some block),block)

def appendN (blocks : List Nat) : Except Fault FreeKvCacheBlockQueue :=
  if blocks = [] then .ok q
  else match q.links.prev q.fakeFreeListTail with
    | none => .error .assertionError
    | some lastBlock =>
      let connected := blocks.foldl connect (q.links,lastBlock)
      .ok { q with
        links := (connected.1.setNext connected.2 (some q.fakeFreeListTail)).setPrev
          q.fakeFreeListTail (some connected.2)
        numFreeBlocks := q.numFreeBlocks+blocks.length }

/-- The loop of `get_all_free_blocks`, which meets every node at most once. -/
def walk (links : Links Nat) : Nat → Nat → List Nat
  | 0, _ => []
  | rounds+1, currBlock => match links.next currBlock with
    | none => []
    | some nextBlock => currBlock :: walk links rounds nextBlock

def getAllFreeBlocks : Except Fault (List Nat) :=
  match q.links.next q.fakeFreeListHead with
  | none => .error (.runtimeError "next_free_block of fake_free_list_head should always exist")
  | some currBlock => .ok (walk q.links (q.size+1) currBlock)

end Operations

/-- The queue stands for the list. -/
structure Lists (q : FreeKvCacheBlockQueue) (l : List Nat) : Prop where
  holds : q.links.Holds (q.fakeFreeListHead :: l ++ [q.fakeFreeListTail])
  nodup : l.Nodup
  lt : ∀ b ∈ l, b < q.size
  count : q.numFreeBlocks = l.length
  stops : q.links.next q.fakeFreeListTail = none
  out : ∀ b < q.size, b ∉ l → q.links.prev b = none ∧ q.links.next b = none

section Spec
variable {q : FreeKvCacheBlockQueue} {l : List Nat} {b : Nat}

/-- The fake blocks are none of the blocks. -/
theorem nodup_all (q : FreeKvCacheBlockQueue) (hl : l.Nodup) (hlt : ∀ b ∈ l, b < q.size) :
    (q.fakeFreeListHead :: l ++ [q.fakeFreeListTail]).Nodup := by
  have hhead : q.fakeFreeListHead ∉ l := fun hmem => absurd (hlt _ hmem) (lt_irrefl _)
  have htail : q.fakeFreeListTail ∉ l := fun hmem =>
    absurd (hlt _ hmem) (not_lt.mpr (Nat.le_succ _))
  refine (List.perm_append_singleton _ _).nodup_iff.mpr (List.nodup_cons.mpr ⟨?_,
    List.nodup_cons.mpr ⟨hhead,hl⟩⟩)
  rw [List.mem_cons,not_or]
  exact ⟨Nat.succ_ne_self _,htail⟩

theorem Lists.nodup_all (h : q.Lists l) :
    (q.fakeFreeListHead :: l ++ [q.fakeFreeListTail]).Nodup :=
  FreeKvCacheBlockQueue.nodup_all q h.nodup h.lt

theorem lists_init (size : Nat) : (init size).Lists (List.range size) := by
  refine ⟨?_,List.nodup_range,fun b hb => List.mem_range.mp hb,by simp [init],?_,?_⟩
  · have hchain : ∀ n a, a+n = size → (init size).links.Holds ((List.range' a n) ++ [size+1]) := by
      intro n
      induction n with
      | zero => exact fun _ _ => .singleton _
      | succ n ih =>
        intro a ha
        rw [List.range'_succ,List.cons_append]
        refine (ih (a+1) (by omega)).cons fun y hy => ?_
        cases n with
        | zero =>
          cases hy
          subst ha
          simp [init]
        | succ n =>
          rw [List.range'_succ] at hy
          cases hy
          subst ha
          have hlt : a+1 < a+(n+1+1) := by omega
          simp [init,hlt]
    rw [List.range_eq_range',List.cons_append]
    refine (hchain size 0 (Nat.zero_add _)).cons fun y hy => ?_
    cases size with
    | zero =>
      cases hy
      simp [init,fakeFreeListHead]
    | succ n =>
      rw [List.range'_succ] at hy
      cases hy
      simp [init,fakeFreeListHead]
  · simp [init,fakeFreeListTail]
  · exact fun b hb hmem => absurd (List.mem_range.mpr hb) hmem

theorem Lists.next_head (h : q.Lists l) :
    q.links.next q.fakeFreeListHead = (l ++ [q.fakeFreeListTail]).head? := by
  obtain ⟨a,m,hm⟩ := List.exists_cons_of_ne_nil
    (List.append_ne_nil_of_right_ne_nil l (List.cons_ne_nil q.fakeFreeListTail []))
  have hholds := h.holds
  rw [List.cons_append,hm] at hholds
  rw [hm]
  exact (List.isChain_cons_cons.mp hholds).1.1

theorem Lists.prev_tail (h : q.Lists l) :
    ∃ xs last, q.fakeFreeListHead :: l = xs ++ [last] ∧
      q.links.prev q.fakeFreeListTail = some last := by
  obtain ⟨xs,last,hl⟩ := (List.eq_nil_or_concat' (q.fakeFreeListHead :: l)).resolve_left
    (List.cons_ne_nil _ _)
  have hholds := h.holds
  rw [hl,List.append_assoc,List.singleton_append,Links.holds_split] at hholds
  exact ⟨xs,last,hl,hholds.2.1.2⟩

/-- Taking a block of the list out. -/
theorem Lists.unlink (h : q.Lists l) (hb : b ∈ l) : ∃ p s,
    q.links.prev b = some p ∧ q.links.next b = some s ∧
      ({ q with links := q.links.unlink p b s, numFreeBlocks := q.numFreeBlocks-1 } :
        FreeKvCacheBlockQueue).Lists (l.erase b) := by
  obtain ⟨xs,p,s,ys,hall,herase⟩ := Links.exists_around q.fakeFreeListHead
    q.fakeFreeListTail hb
  have hholds := h.holds
  have hnodup := h.nodup_all
  rw [hall] at hholds hnodup
  obtain ⟨-,hpb,hbs,-⟩ := Links.holds_three.mp hholds
  refine ⟨p,s,hpb.2,hbs.1,?_,h.nodup.erase _,fun c hc => h.lt c (List.mem_of_mem_erase hc),?_,?_,?_⟩
  · change (q.links.unlink p b s).Holds _
    have := hholds.unlink (.of_nodup hnodup)
    rw [← herase] at this
    exact this
  · have hpos := List.length_pos_of_mem hb
    simp only [h.count,List.length_erase_of_mem hb]
    omega
  · have hne : q.fakeFreeListTail ≠ p := by
      rintro rfl
      rw [h.stops] at hpb
      cases hpb.1
    change (q.links.unlink p b s).next q.fakeFreeListTail = none
    rw [Links.unlink_next,if_neg hne]
    split
    · rfl
    · exact h.stops
  · intro c hc hmem
    change (q.links.unlink p b s).prev c = none ∧ (q.links.unlink p b s).next c = none
    rw [Links.unlink_prev,Links.unlink_next]
    by_cases hcb : c = b
    · exact ⟨if_pos hcb,if_pos hcb⟩
    · have hout : c ∉ l := fun hl => hmem ((List.mem_erase_of_ne hcb).mpr hl)
      obtain ⟨hprev,hnext⟩ := h.out c hc hout
      have hcp : c ≠ p := by
        rintro rfl
        rw [hnext] at hpb
        cases hpb.1
      have hcs : c ≠ s := by
        rintro rfl
        rw [hprev] at hbs
        cases hbs.2
      rw [if_neg hcb,if_neg hcb,if_neg hcs,if_neg hcp]
      exact ⟨hprev,hnext⟩

theorem Lists.remove_spec (h : q.Lists l) (hb : b ∈ l) :
    Returns (q.remove b) fun q' => q'.Lists (l.erase b) ∧ q'.size = q.size := by
  obtain ⟨p,s,hp,hs,hlists⟩ := h.unlink hb
  rw [remove,hp,hs]
  exact .ok ⟨hlists,rfl⟩

theorem Lists.remove_invalid (h : q.Lists l) (hb : b < q.size) (hmem : b ∉ l) :
    q.remove b = .error (.runtimeError "remove() called on an invalid block") := by
  rw [remove,(h.out b hb hmem).1]

theorem Lists.popleft_spec (h : q.Lists (b :: l)) :
    Returns q.popleft fun out => out.1 = b ∧ out.2.Lists l ∧ out.2.size = q.size := by
  obtain ⟨p,s,hp,hs,hlists⟩ := h.unlink List.mem_cons_self
  have hfirst := h.next_head
  have hback : q.links.prev b = some q.fakeFreeListHead := by
    have := h.holds
    rw [List.cons_append,List.cons_append] at this
    exact (List.isChain_cons_cons.mp this).1.2
  obtain rfl : q.fakeFreeListHead = p := Option.some.inj (hback.symm.trans hp)
  have hne : b ≠ q.fakeFreeListTail := by
    have := h.lt b List.mem_cons_self
    rw [fakeFreeListTail]
    omega
  rw [popleft,hfirst]
  simp only [List.cons_append,List.head?_cons,if_neg hne,hs]
  rw [List.erase_cons_head] at hlists
  exact .ok ⟨rfl,hlists,rfl⟩

theorem Lists.popleft_empty (h : q.Lists []) :
    q.popleft = .error (.valueError "No free blocks available") := by
  have hnum : q.numFreeBlocks = 0 := h.count
  rw [popleft,h.next_head]
  simp [hnum]

/-- The loop takes the first blocks and leaves the links of the others as they are. -/
theorem popBlocks_spec {k : Links Nat} {back : Nat} (hk : k.Holds (l ++ [back]))
    (hnodup : (l ++ [back]).Nodup) {n : Nat} (hn : n ≤ l.length) :
    ∃ k', popBlocks n (l ++ [back]).head? k = .ok (l.take n,(l.drop n ++ [back]).head?,k') ∧
      k'.Holds (l.drop n ++ [back]) ∧
      ∀ c, (k'.next c = if c ∈ l.take n then none else k.next c) ∧
        k'.prev c = if c ∈ l.take n then none else k.prev c := by
  induction n generalizing l k with
  | zero => exact ⟨k,rfl,hk,fun c => by simp⟩
  | succ n ih =>
    cases l with
    | nil => cases hn
    | cons b l =>
      obtain ⟨hb,hrest⟩ := List.nodup_cons.mp hnodup
      have hnext : k.next b = (l ++ [back]).head? := by
        obtain ⟨a,m,hm⟩ := List.exists_cons_of_ne_nil
          (List.append_ne_nil_of_right_ne_nil l (List.cons_ne_nil back []))
        rw [List.cons_append,hm] at hk
        rw [hm]
        exact (List.isChain_cons_cons.mp hk).1.1
      have hholds : (k.clear b).Holds (l ++ [back]) := by
        refine Links.Holds.congr hk.tail (fun a ha => ?_) fun a ha => ?_
        · rw [Links.clear_next,if_neg (ne_of_mem_of_not_mem (List.dropLast_subset _ ha) hb)]
        · rw [Links.clear_prev,if_neg (ne_of_mem_of_not_mem (List.mem_of_mem_tail ha) hb)]
      obtain ⟨k',heq,hk',hsame⟩ := ih hholds hrest (Nat.le_of_succ_le_succ hn)
      refine ⟨k',?_,hk',fun c => ?_⟩
      · rw [List.cons_append,List.head?_cons,popBlocks,hnext,heq]
        rfl
      · rw [(hsame c).1,(hsame c).2,Links.clear_next,Links.clear_prev,List.take_succ_cons]
        by_cases hc : c = b <;> by_cases hl : c ∈ l.take n <;> simp [hc,hl]

theorem Lists.popleftN_spec (h : q.Lists l) {n : Nat} (hn : n ≤ l.length) :
    Returns (q.popleftN n) fun out => out.1 = l.take n ∧ out.2.Lists (l.drop n) ∧
      out.2.size = q.size := by
  rw [popleftN]
  by_cases hzero : n = 0
  · rw [if_pos hzero,hzero]
    exact .ok ⟨rfl,h,rfl⟩
  · rw [if_neg hzero]
    have hholds := h.holds
    have hnodup := h.nodup_all
    obtain ⟨hhead,htail⟩ := List.nodup_cons.mp hnodup
    have hbehind : q.links.Holds (l ++ [q.fakeFreeListTail]) := hholds.tail
    obtain ⟨k,heq,hk,hsame⟩ := popBlocks_spec hbehind htail hn
    obtain ⟨c,m,hm⟩ := List.exists_cons_of_ne_nil
      (List.append_ne_nil_of_right_ne_nil (l.drop n) (List.cons_ne_nil q.fakeFreeListTail []))
    have hsub : ∀ a ∈ c :: m, a ∈ l ++ [q.fakeFreeListTail] := by
      intro a ha
      rw [← hm,List.mem_append] at ha
      exact List.mem_append.mpr (ha.imp_left List.mem_of_mem_drop)
    have hnodup' : (c :: m).Nodup := by
      rw [← hm]
      exact htail.sublist ((List.drop_sublist _ _).append_right _)
    refine (Returns.check_of (by rw [h.count]; exact_mod_cast hn)).bind fun _ _ => ?_
    rw [h.next_head,heq,hm]
    have hout : ∀ a, a ∉ c :: m → a ≠ q.fakeFreeListHead →
        ((k.setNext q.fakeFreeListHead (some c)).setPrev c (some q.fakeFreeListHead)).next a =
          k.next a ∧
        ((k.setNext q.fakeFreeListHead (some c)).setPrev c (some q.fakeFreeListHead)).prev a =
          k.prev a := by
      intro a ha hne
      have hc : a ≠ c := fun h => ha (List.mem_cons.mpr (.inl h))
      simp [hne,hc]
    refine .ok ⟨rfl,⟨?_,h.nodup.sublist (List.drop_sublist _ _),
      fun b hb => h.lt b (List.mem_of_mem_drop hb),?_,?_,?_⟩,rfl⟩
    · change ((k.setNext q.fakeFreeListHead (some c)).setPrev c (some q.fakeFreeListHead)).Holds
        (q.fakeFreeListHead :: l.drop n ++ [q.fakeFreeListTail])
      rw [List.cons_append,hm]
      rw [hm] at hk
      refine List.isChain_cons_cons.mpr ⟨by simp,hk.congr (fun a ha => ?_) fun a ha => ?_⟩
      · have hne : a ≠ q.fakeFreeListHead :=
          ne_of_mem_of_not_mem (hsub a (List.dropLast_subset _ ha)) hhead
        simp [hne]
      · have hne : a ≠ c := ne_of_mem_of_not_mem ha (List.nodup_cons.mp hnodup').1
        simp [hne]
    · simp only [h.count,List.length_drop]
      omega
    · change ((k.setNext q.fakeFreeListHead (some c)).setPrev c (some q.fakeFreeListHead)).next
        q.fakeFreeListTail = none
      have hne : q.fakeFreeListTail ≠ q.fakeFreeListHead := Nat.succ_ne_self _
      rw [Links.setPrev_next,Links.setNext_next,if_neg hne,(hsame _).1]
      split
      · rfl
      · exact h.stops
    · intro b hb hmem
      have hb' : b < q.size := hb
      have hne : b ≠ q.fakeFreeListHead := hb'.ne
      have hnm : b ∉ c :: m := by
        rw [← hm,List.mem_append,List.mem_singleton,not_or]
        refine ⟨hmem,?_⟩
        rw [fakeFreeListTail]
        omega
      obtain ⟨hn',hp'⟩ := hout b hnm hne
      change Links.prev _ b = none ∧ Links.next _ b = none
      refine ⟨hp'.trans ?_,hn'.trans ?_⟩
      · rw [(hsame b).2]
        split
        · rfl
        · rename_i hnt
          refine (h.out b hb' fun hl => ?_).1
          rw [← List.take_append_drop n l,List.mem_append] at hl
          exact hl.elim hnt hmem
      · rw [(hsame b).1]
        split
        · rfl
        · rename_i hnt
          refine (h.out b hb' fun hl => ?_).2
          rw [← List.take_append_drop n l,List.mem_append] at hl
          exact hl.elim hnt hmem

theorem Lists.popleftN_short (h : q.Lists l) {n : Nat} (hn : l.length < n) :
    q.popleftN n = .error .assertionError := by
  rw [popleftN,if_neg (by omega),check,if_neg (by rw [h.count]; omega)]
  rfl

theorem Lists.append_spec (h : q.Lists l) (hb : b < q.size) (hmem : b ∉ l) :
    Returns (q.append b) fun q' => q'.Lists (l ++ [b]) ∧ q'.size = q.size := by
  obtain ⟨xs,last,hl,hlast⟩ := h.prev_tail
  have hlt : ∀ c ∈ l ++ [b], c < q.size := by
    intro c hc
    rcases List.mem_append.mp hc with hc | hc
    · exact h.lt c hc
    · exact List.mem_singleton.mp hc ▸ hb
  have hnodup : (l ++ [b]).Nodup :=
    List.nodup_append_comm.mp (List.nodup_cons.mpr ⟨hmem,h.nodup⟩)
  have hall : q.fakeFreeListHead :: (l ++ [b]) ++ [q.fakeFreeListTail] =
      xs ++ last :: b :: [q.fakeFreeListTail] := by
    rw [← List.cons_append,hl]
    simp
  have hapart := FreeKvCacheBlockQueue.nodup_all q hnodup hlt
  have hholds := h.holds
  rw [hall] at hapart
  rw [hl,List.append_assoc,List.singleton_append] at hholds
  have hhead : last = q.fakeFreeListHead ∨ last ∈ l := by
    have : last ∈ q.fakeFreeListHead :: l := hl ▸ List.mem_append_right _ (List.mem_singleton_self _)
    exact List.mem_cons.mp this
  rw [append,hlast]
  refine .ok ⟨⟨?_,hnodup,hlt,?_,?_,?_⟩,rfl⟩
  · change (q.links.link last b q.fakeFreeListTail).Holds
      (q.fakeFreeListHead :: (l ++ [b]) ++ [q.fakeFreeListTail])
    rw [hall]
    exact hholds.link (.of_nodup hapart)
  · simp [h.count]
  · change (q.links.link last b q.fakeFreeListTail).next q.fakeFreeListTail = none
    obtain ⟨-,-,-,hlt',hbt⟩ := Links.Apart.of_nodup hapart
    rw [Links.link_next,if_neg (Ne.symm hbt),if_neg (Ne.symm hlt')]
    exact h.stops
  · intro c hc hout
    have hc' : c < q.size := hc
    rw [List.mem_append,List.mem_singleton,not_or] at hout
    have hne : c ≠ last := by
      rintro rfl
      exact hhead.elim hc'.ne hout.1
    have htail : c ≠ q.fakeFreeListTail := by
      rw [fakeFreeListTail]
      omega
    change (q.links.link last b q.fakeFreeListTail).prev c = none ∧
      (q.links.link last b q.fakeFreeListTail).next c = none
    rw [Links.link_prev,Links.link_next,if_neg htail,if_neg hout.2,if_neg hout.2,if_neg hne]
    exact h.out c hc' hout.1

/-- The loop of `append_n` links the blocks behind the last one. -/
theorem foldl_connect {k : Links Nat} {xs blocks : List Nat} {p : Nat} (hk : k.Holds (xs ++ [p]))
    (hnodup : (xs ++ p :: blocks).Nodup) :
    (blocks.foldl connect (k,p)).1.Holds (xs ++ p :: blocks) ∧
    (∃ ys, p :: blocks = ys ++ [(blocks.foldl connect (k,p)).2]) ∧
    ∀ c, (c ∉ p :: blocks → (blocks.foldl connect (k,p)).1.next c = k.next c) ∧
      (c ∉ blocks → (blocks.foldl connect (k,p)).1.prev c = k.prev c) := by
  induction blocks generalizing k xs p with
  | nil => exact ⟨hk,⟨[],rfl⟩,fun c => ⟨fun _ => rfl,fun _ => rfl⟩⟩
  | cons b blocks ih =>
    have hsplit : xs ++ p :: b :: blocks = (xs ++ [p]) ++ b :: blocks := by simp
    obtain ⟨⟨hpx,hbx⟩,hpb⟩ : (p ∉ xs ∧ b ∉ xs) ∧ p ≠ b := by
      rw [List.nodup_append,List.nodup_cons] at hnodup
      obtain ⟨-,⟨hp,-⟩,hxs⟩ := hnodup
      exact ⟨⟨fun h => hxs p h p List.mem_cons_self rfl,
        fun h => hxs b h b (List.mem_cons_of_mem _ List.mem_cons_self) rfl⟩,
        fun h => hp (h ▸ List.mem_cons_self)⟩
    have hk' : ((k.setPrev b (some p)).setNext p (some b)).Holds ((xs ++ [p]) ++ [b]) := by
      rw [List.append_assoc,List.singleton_append,Links.holds_split]
      refine ⟨hk.congr (fun a ha => ?_) fun a ha => ?_,by simp,.singleton _⟩
      · rw [List.dropLast_concat] at ha
        simp [ne_of_mem_of_not_mem ha hpx]
      · have hne : a ≠ b := by
          rintro rfl
          have := List.mem_of_mem_tail ha
          rw [List.mem_append,List.mem_singleton] at this
          exact this.elim hbx (Ne.symm hpb)
        simp [hne]
    obtain ⟨hholds,⟨ys,hys⟩,hsame⟩ := ih hk' (hsplit ▸ hnodup)
    refine ⟨hsplit ▸ hholds,⟨p :: ys,congrArg (List.cons p) hys⟩,fun c => ⟨fun hc => ?_,
      fun hc => ?_⟩⟩
    · rw [List.mem_cons,not_or] at hc
      refine ((hsame c).1 hc.2).trans ?_
      simp [hc.1]
    · rw [List.mem_cons,not_or] at hc
      refine ((hsame c).2 hc.2).trans ?_
      simp [hc.1]

theorem Lists.appendN_spec (h : q.Lists l) {blocks : List Nat} (hlt : ∀ b ∈ blocks, b < q.size)
    (hnodup : (l ++ blocks).Nodup) :
    Returns (q.appendN blocks) fun q' => q'.Lists (l ++ blocks) ∧ q'.size = q.size := by
  rw [appendN]
  by_cases hnil : blocks = []
  · rw [if_pos hnil,hnil,List.append_nil]
    exact .ok ⟨h,rfl⟩
  · rw [if_neg hnil]
    obtain ⟨xs,last,hl,hlast⟩ := h.prev_tail
    have hlt' : ∀ c ∈ l ++ blocks, c < q.size := fun c hc =>
      (List.mem_append.mp hc).elim (h.lt c) (hlt c)
    have hall := FreeKvCacheBlockQueue.nodup_all q hnodup hlt'
    have hfront : q.fakeFreeListHead :: (l ++ blocks) = xs ++ last :: blocks := by
      rw [← List.cons_append,hl]
      simp
    rw [hfront] at hall
    obtain ⟨hxs,-,htail⟩ := List.nodup_append.mp hall
    have hk : q.links.Holds (xs ++ [last]) := by
      have hholds := h.holds
      rw [hl,List.append_assoc,List.singleton_append,Links.holds_split] at hholds
      exact hholds.1
    obtain ⟨hholds,⟨ys,hys⟩,hsame⟩ := foldl_connect hk hxs
    simp only [hlast]
    generalize blocks.foldl connect (q.links,last) = r at hholds hys hsame ⊢
    obtain ⟨k,p⟩ := r
    have htailout : ∀ c ∈ xs ++ last :: blocks, c ≠ q.fakeFreeListTail := fun c hc =>
      htail c hc _ (List.mem_singleton_self _)
    have hsplit : xs ++ last :: blocks = (xs ++ ys) ++ [p] := by
      rw [List.append_assoc,← hys]
    refine .ok ⟨⟨?_,hnodup,hlt',?_,?_,?_⟩,rfl⟩
    · change ((k.setNext p (some q.fakeFreeListTail)).setPrev q.fakeFreeListTail (some p)).Holds
        (q.fakeFreeListHead :: (l ++ blocks) ++ [q.fakeFreeListTail])
      rw [hfront,hsplit,List.append_assoc,List.singleton_append,Links.holds_split]
      rw [hsplit] at hholds hxs htailout
      refine ⟨hholds.congr (fun a ha => ?_) fun a ha => ?_,by simp,.singleton _⟩
      · rw [List.dropLast_concat] at ha
        have hne : a ≠ p := fun h => (List.nodup_append.mp hxs).2.2 a ha p
          (List.mem_singleton_self _) h
        simp [hne]
      · have hne := htailout a (List.mem_of_mem_tail ha)
        simp [hne]
    · simp [h.count]
    · have hpt : q.fakeFreeListTail ≠ p :=
        (htailout p (hsplit ▸ List.mem_append_right _ (List.mem_singleton_self _))).symm
      have hout : q.fakeFreeListTail ∉ last :: blocks := fun h =>
        htailout _ (List.mem_append_right _ h) rfl
      change ((k.setNext p (some q.fakeFreeListTail)).setPrev q.fakeFreeListTail (some p)).next
        q.fakeFreeListTail = none
      rw [Links.setPrev_next,Links.setNext_next,if_neg hpt,(hsame _).1 hout]
      exact h.stops
    · intro c hc hout
      have hc' : c < q.size := hc
      have hout' : c ∉ last :: blocks := by
        intro hmem
        have : c ∈ q.fakeFreeListHead :: (l ++ blocks) := hfront ▸ List.mem_append_right _ hmem
        exact (List.mem_cons.mp this).elim hc'.ne hout
      rw [List.mem_append,not_or] at hout
      have hcp : c ≠ p := by
        rintro rfl
        exact hout' (hys ▸ List.mem_append_right _ (List.mem_singleton_self _))
      have hct : c ≠ q.fakeFreeListTail := by
        rw [fakeFreeListTail]
        omega
      obtain ⟨hprev,hnext⟩ := h.out c hc' hout.1
      change Links.prev _ c = none ∧ Links.next _ c = none
      rw [Links.setPrev_prev,Links.setPrev_next,Links.setNext_next,Links.setNext_prev,if_neg hct,
        if_neg hcp,(hsame c).1 hout',(hsame c).2 hout.2]
      exact ⟨hprev,hnext⟩

theorem walk_spec {k : Links Nat} {back rounds : Nat} (hk : k.Holds (l ++ [back]))
    (hstops : k.next back = none) (hrounds : l.length < rounds) {a : Nat} {m : List Nat}
    (ha : l ++ [back] = a :: m) : walk k rounds a = l := by
  induction l generalizing rounds a m with
  | nil =>
    obtain ⟨rfl,-⟩ := List.cons.inj ha
    cases rounds with
    | zero => rfl
    | succ rounds => rw [walk,hstops]
  | cons b l ih =>
    obtain ⟨rfl,rfl⟩ := List.cons.inj ha
    cases rounds with
    | zero => cases hrounds
    | succ rounds =>
      obtain ⟨c,m,hm⟩ := List.exists_cons_of_ne_nil
        (List.append_ne_nil_of_right_ne_nil l (List.cons_ne_nil back []))
      have hrest := hk.tail
      rw [List.cons_append,hm] at hk
      rw [walk,(List.isChain_cons_cons.mp hk).1.1]
      exact congrArg _ (ih hrest (Nat.lt_of_succ_lt_succ hrounds) hm)

theorem Lists.getAllFreeBlocks_eq (h : q.Lists l) : q.getAllFreeBlocks = .ok l := by
  obtain ⟨c,m,hm⟩ := List.exists_cons_of_ne_nil
    (List.append_ne_nil_of_right_ne_nil l (List.cons_ne_nil q.fakeFreeListTail []))
  have hlen : l.length ≤ q.size := by
    have hsub : l ⊆ List.range q.size := fun b hb => List.mem_range.mpr (h.lt b hb)
    have := h.nodup.length_le_of_subset hsub
    rwa [List.length_range] at this
  rw [getAllFreeBlocks,h.next_head,hm]
  have hholds : q.links.Holds (l ++ [q.fakeFreeListTail]) := h.holds.tail
  simp only [List.head?_cons,walk_spec hholds h.stops (Nat.lt_succ_of_le hlen) hm]

end Spec
end FreeKvCacheBlockQueue

inductive QueueOp where
  | popleft | popleftN (n : Nat) | remove (block : Nat) | append (block : Nat)
  | appendN (blocks : List Nat) | getAllFreeBlocks

namespace QueueOp

/-- The operation on the linked list: what it returns, and the queue. -/
def onQueue (q : FreeKvCacheBlockQueue) : QueueOp → Except Fault (List Nat × FreeKvCacheBlockQueue)
  | .popleft => do
    let popped ← q.popleft
    pure ([popped.1],popped.2)
  | .popleftN n => q.popleftN n
  | .remove block => do
    let q ← q.remove block
    pure ([],q)
  | .append block => do
    let q ← q.append block
    pure ([],q)
  | .appendN blocks => do
    let q ← q.appendN blocks
    pure ([],q)
  | .getAllFreeBlocks => do
    let blocks ← q.getAllFreeBlocks
    pure (blocks,q)

/-- The same operation on a list. -/
def onList (l : List Nat) : QueueOp → Except Fault (List Nat × List Nat)
  | .popleft => match l with
    | [] => .error (.valueError "No free blocks available")
    | b :: l => .ok ([b],l)
  | .popleftN n => if n ≤ l.length then .ok (l.take n,l.drop n) else .error .assertionError
  | .remove block =>
    if block ∈ l then .ok ([],l.erase block)
    else .error (.runtimeError "remove() called on an invalid block")
  | .append block => .ok ([],l ++ [block])
  | .appendN blocks => .ok ([],l ++ blocks)
  | .getAllFreeBlocks => .ok (l,l)

/-- Only blocks are handed over, and only those that are not in the queue are appended. -/
def Legal (size : Nat) (l : List Nat) : QueueOp → Prop
  | .remove block => block < size
  | .append block => block < size ∧ block ∉ l
  | .appendN blocks => (∀ b ∈ blocks, b < size) ∧ (l ++ blocks).Nodup
  | _ => True

/-- What a run of operations returns. -/
def outputs {σ : Type} (step : σ → QueueOp → Except Fault (List Nat × σ)) :
    σ → List QueueOp → Except Fault (List (List Nat))
  | _, [] => .ok []
  | s, op :: ops => do
    let r ← step s op
    let rest ← outputs step r.2 ops
    pure (r.1 :: rest)

def LegalRun (size : Nat) : List Nat → List QueueOp → Prop
  | _, [] => True
  | l, op :: ops => op.Legal size l ∧ ∀ r, onList l op = .ok r → LegalRun size r.2 ops

/-- A step on the linked list and on the list: the same fault, or the same output and again the
linked list of the list. -/
theorem onQueue_step {q : FreeKvCacheBlockQueue} {l : List Nat} (h : q.Lists l) {op : QueueOp}
    (hlegal : op.Legal q.size l) :
    (∃ e, onList l op = .error e ∧ onQueue q op = .error e) ∨
    ∃ out l' q', onList l op = .ok (out,l') ∧ onQueue q op = .ok (out,q') ∧ q'.Lists l' ∧
      q'.size = q.size := by
  cases op with
  | popleft =>
    cases l with
    | nil => exact .inl ⟨_,rfl,by rw [onQueue,h.popleft_empty]; rfl⟩
    | cons b l =>
      obtain ⟨⟨b',q'⟩,heq,rfl,hq',hsize⟩ := h.popleft_spec
      exact .inr ⟨_,_,q',rfl,by rw [onQueue,heq]; rfl,hq',hsize⟩
  | popleftN n =>
    by_cases hn : n ≤ l.length
    · obtain ⟨⟨out,q'⟩,heq,rfl,hq',hsize⟩ := h.popleftN_spec hn
      exact .inr ⟨_,_,q',if_pos hn,heq,hq',hsize⟩
    · exact .inl ⟨_,if_neg hn,h.popleftN_short (not_le.mp hn)⟩
  | remove block =>
    by_cases hb : block ∈ l
    · obtain ⟨q',heq,hq',hsize⟩ := h.remove_spec hb
      exact .inr ⟨_,_,q',if_pos hb,by rw [onQueue,heq]; rfl,hq',hsize⟩
    · exact .inl ⟨_,if_neg hb,by rw [onQueue,h.remove_invalid hlegal hb]; rfl⟩
  | append block =>
    obtain ⟨q',heq,hq',hsize⟩ := h.append_spec hlegal.1 hlegal.2
    exact .inr ⟨_,_,q',rfl,by rw [onQueue,heq]; rfl,hq',hsize⟩
  | appendN blocks =>
    obtain ⟨q',heq,hq',hsize⟩ := h.appendN_spec hlegal.1 hlegal.2
    exact .inr ⟨_,_,q',rfl,by rw [onQueue,heq]; rfl,hq',hsize⟩
  | getAllFreeBlocks =>
    exact .inr ⟨_,_,q,rfl,by rw [onQueue,h.getAllFreeBlocks_eq]; rfl,h,rfl⟩

theorem outputs_eq {q : FreeKvCacheBlockQueue} {l : List Nat} (h : q.Lists l) {ops : List QueueOp}
    (hlegal : LegalRun q.size l ops) : outputs onQueue q ops = outputs onList l ops := by
  induction ops generalizing q l with
  | nil => rfl
  | cons op ops ih =>
    obtain ⟨hop,hops⟩ := hlegal
    rw [outputs,outputs]
    obtain ⟨e,hl,hq⟩ | ⟨out,l',q',hl,hq,h',hsize⟩ := onQueue_step h hop
    · rw [hl,hq]
      rfl
    · rw [hl,hq]
      have := ih h' (hsize ▸ hops _ hl)
      change (outputs onQueue q' ops >>= _) = (outputs onList l' ops >>= _)
      rw [this]

/-- The linked list of free blocks behaves like a list of them, over any run. -/
theorem freeBlockQueue_refines {size : Nat} {ops : List QueueOp}
    (hlegal : LegalRun size (List.range size) ops) :
    outputs onQueue (.init size) ops = outputs onList (List.range size) ops :=
  outputs_eq (FreeKvCacheBlockQueue.lists_init size) hlegal

theorem freeBlockQueue_refines_four : outputs onQueue (.init 4)
    [.popleftN 3,.appendN [2,0],.remove 3,.append 1,.popleft,.getAllFreeBlocks] =
      .ok [[0,1,2],[],[],[],[2],[0,1]] :=
  (freeBlockQueue_refines (by simp [LegalRun,Legal,onList,List.range,List.range.loop])).trans rfl

end QueueOp
end TLiveOmni.Kv
