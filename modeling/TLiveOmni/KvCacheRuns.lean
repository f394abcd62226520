import TLiveOmni.BlockHashMeaning
import TLiveOmni.KvCacheInv

/-! What holds of the KV cache whatever requests come, grow, are preempted and end. -/
set_option autoImplicit false

namespace TLiveOmni.Kv
open Sched (Fault)

/-- The manager, and the requests that have been added and not finished. -/
structure KvSystem (H : Type) where
  manager : KvCacheManager H
  requests : String → Option (Request H)

/-- What can happen to the requests. -/
inductive KvEvent (H : Type) where
  | add (r : Request H)
  | append (requestId : String) (tokenIds : List Nat)
  | start (requestId : String) (numNewTokens : Nat)
  | grow (requestId : String) (numComputedTokens numNewTokens : Nat)
  | preempt (requestId : String)
  | finish (requestId : String)
  | resetPrefixCache

namespace KvSystem
variable {H : Type} [DecidableEq H] (hasher : BlockHasher H) (maxModelLen : Nat)

/-- The slots that the scheduler asks for, with the hits if the request is new or was preempted. -/
def step (s : KvSystem H) : KvEvent H → Except Fault (KvSystem H)
  | .add r => .ok { s with requests := Function.update s.requests r.requestId (some r) }
  | .append requestId tokenIds =>
    match s.requests requestId with
    | none => .ok s
    | some r => do
      let r' ← hasher.appendOutputTokenIds tokenIds r
      pure { s with requests := Function.update s.requests requestId (some r') }
  | .start requestId numNewTokens =>
    match s.requests requestId with
    | none => .ok s
    | some r => do
      let found := s.manager.getComputedBlocks hasher.blockSize r
      let out ← s.manager.allocateSlots hasher.blockSize maxModelLen r 0 numNewTokens found.2 found.1
      pure { s with manager := out.2 }
  | .grow requestId numComputedTokens numNewTokens =>
    match s.requests requestId with
    | none => .ok s
    | some r => do
      let out ← s.manager.allocateSlots hasher.blockSize maxModelLen r numComputedTokens numNewTokens
        0 []
      pure { s with manager := out.2 }
  | .preempt requestId => do
    let m ← s.manager.free requestId
    pure { s with manager := m }
  | .finish requestId => do
    let m ← s.manager.free requestId
    pure ⟨m,Function.update s.requests requestId none⟩
  | .resetPrefixCache => .ok { s with manager := s.manager.resetPrefixCache.2 }

/-- A request is added once and as it was built, stays within the model's length, looks for hits
when it has no blocks, and is scheduled with at least one token. -/
def Legal (s : KvSystem H) : KvEvent H → Prop
  | .add r => s.requests r.requestId = none ∧ r.allTokenIds.length ≤ maxModelLen ∧
      ∃ n, hasher.Built n r
  | .append requestId tokenIds => ∀ r, s.requests requestId = some r →
      r.allTokenIds.length+tokenIds.length ≤ maxModelLen
  | .start requestId numNewTokens => 0 < numNewTokens ∧ s.manager.blocksOf requestId = []
  | .grow _ _ numNewTokens => 0 < numNewTokens
  | _ => True

inductive Reachable : KvSystem H → Prop
  | init {numGpuBlocks : Nat} {enableCaching : Bool} {m : KvCacheManager H} :
      KvCacheManager.init numGpuBlocks enableCaching = .ok m → Reachable ⟨m,fun _ => none⟩
  | step {s s' : KvSystem H} {e : KvEvent H} : Reachable s → s.Legal hasher maxModelLen e →
      s.step hasher maxModelLen e = .ok s' → Reachable s'

variable {hasher maxModelLen} {s : KvSystem H}

/-- The block hashes of the requests. -/
def hashes (s : KvSystem H) (requestId : String) : List H :=
  ((s.requests requestId).map Request.blockHashes).getD []

/-- A block has its hash from before, or a request that holds it in this place has it now. -/
def Fills (s s' : KvSystem H) : Prop :=
  ∀ b k, s'.manager.blockPool.blockHash b = some k → s.manager.blockPool.blockHash b = some k ∨
    ∃ (id : String) (r : Request H) (i : Nat), s'.requests id = some r ∧
      (s'.manager.blocksOf id)[i]? = some b ∧ r.blockHashes[i]? = some k

structure Ok (hasher : BlockHasher H) (maxModelLen : Nat) (s : KvSystem H) : Prop where
  manager : ∃ l, s.manager.Ok s.hashes l
  known : ∀ id, s.requests id = none → s.manager.blocksOf id = []
  built : ∀ id r, s.requests id = some r → r.requestId = id ∧ r.allTokenIds.length ≤ maxModelLen ∧
    ∃ n, hasher.Built n r

/-- No two things that are hashed for requests have the same hash. -/
def Separated (hasher : BlockHasher H) : Prop :=
  ∀ {n n' : Nat} {r r' : Request H}, hasher.Built n r → hasher.Built n' r' → hasher.TellsApart n r n' r'

omit [DecidableEq H] in
theorem hashes_of {r : Request H} {id : String} (h : s.requests id = some r) :
    s.hashes id = r.blockHashes := by
  rw [hashes,h]
  rfl

omit [DecidableEq H] in
/-- A request does not hash two of its blocks to the same. -/
theorem nodup_blockHashes {n : Nat} {r : Request H} (h : hasher.Built n r)
    (hapart : hasher.TellsApart n r n r) : r.blockHashes.Nodup := by
  refine List.nodup_iff_getElem?_ne_getElem?.mpr fun i j hij hj heq => ?_
  have hlen := hj
  rw [h.hashed.length] at hlen
  rw [h.hashed.hashes,HashChain.Separates.getElem?_eq_iff hapart
    (by simpa [BlockHasher.pieces] using hij.trans hlen)
    (by simpa [BlockHasher.pieces] using hlen)] at heq
  exact hij.ne heq.1

theorem init_blockHash {numGpuBlocks : Nat} {enableCaching : Bool} {m : KvCacheManager H}
    (h : KvCacheManager.init numGpuBlocks enableCaching = .ok m) (b : Nat) :
    m.blockPool.blockHash b = none := by
  obtain ⟨pool,hpool,hm⟩ := Returns.exists_of_bind h
  cases hm
  obtain ⟨-,-,-,-,-,hnone⟩ :=
    (BlockPool.init_spec enableCaching (Returns.of_check_bind hpool).1).of_eq hpool
  exact hnone b

theorem init_ok {numGpuBlocks : Nat} {enableCaching : Bool} {m : KvCacheManager H}
    (h : KvCacheManager.init numGpuBlocks enableCaching = .ok m) :
    Ok hasher maxModelLen ⟨m,fun _ => none⟩ := by
  obtain ⟨pool,hpool,hm⟩ := Returns.exists_of_bind h
  cases hm
  have hpos : 0 < numGpuBlocks := (Returns.of_check_bind hpool).1
  obtain ⟨hok,hsize,hnull,-,href,-⟩ := (BlockPool.init_spec enableCaching hpos).of_eq hpool
  refine ⟨⟨_,hok,?_,fun b k hk => ?_,fun id => List.nodup_nil,nofun,
    fun b => ⟨∅,fun id => by simp [KvCacheManager.blocksOf],href b⟩,nofun,fun id => le_rfl,
    fun id i b hi => absurd hi (Nat.not_lt_zero _),fun id i b _ hb => ?_⟩,fun id _ => rfl,nofun⟩
  · rw [hnull,hsize]
    exact hpos
  · rw [init_blockHash h b] at hk
    cases hk
  · simp [KvCacheManager.blocksOf] at hb

/-- Slots for a request. -/
theorem Ok.allocates (h : s.Ok hasher maxModelLen) {id : String} {r : Request H}
    (hr : s.requests id = some r) {hits : List Nat} (hhits : s.manager.Hits r hits)
    (numComputedTokens : Nat) {numNewTokens : Nat} (hnew : 0 < numNewTokens)
    (numNewComputedTokens : Nat) :
    Returns (s.manager.allocateSlots hasher.blockSize maxModelLen r numComputedTokens numNewTokens
      numNewComputedTokens hits) fun out => Ok hasher maxModelLen { s with manager := out.2 } ∧
        s.Fills { s with manager := out.2 } := by
  obtain ⟨l,hm⟩ := h.manager
  obtain ⟨rfl,hmax,n,hb⟩ := h.built id r hr
  refine (hm.allocateSlots (hashes_of hr) hb.hashed.length hmax hhits numComputedTokens hnew
    numNewComputedTokens).mono fun out ⟨hout,hfills,hother⟩ => ⟨⟨hout,fun id hid => ?_,h.built⟩,
      fun b k hk => (hfills b k hk).imp_right fun ⟨i,hi,hik⟩ => ⟨_,r,i,hr,hi,hik⟩⟩
  have hne : id ≠ r.requestId := fun heq => by
    rw [heq,hr] at hid
    cases hid
  rw [hother id hne]
  exact h.known id hid

/-- No legal event fails, and each keeps the accounts. -/
theorem Ok.step (hapart : Separated hasher) (h : s.Ok hasher maxModelLen) {e : KvEvent H}
    (he : s.Legal hasher maxModelLen e) :
    Returns (s.step hasher maxModelLen e) fun s' => s'.Ok hasher maxModelLen ∧ s.Fills s' := by
  obtain ⟨l,hm⟩ := h.manager
  have hsame : ∀ s' : KvSystem H, s'.manager.blockPool.blockHash = s.manager.blockPool.blockHash →
      s.Fills s' := fun s' heq b k hk => .inl (heq ▸ hk)
  cases e with
  | add r =>
    obtain ⟨hnone,hmax,hb⟩ := he
    refine .ok ⟨⟨⟨l,hm.mono fun id i k hid hik => ?_⟩,fun id hid => ?_,fun id r' hr' => ?_⟩,
      hsame _ rfl⟩
    · have hne : id ≠ r.requestId := fun heq => hid (heq ▸ h.known _ hnone)
      simpa only [hashes,Function.update_of_ne hne] using hik
    · by_cases hne : id = r.requestId
      · simp [hne] at hid
      · exact h.known id (by simpa [hne] using hid)
    · by_cases hne : id = r.requestId
      · subst hne
        simp only [Function.update_self,Option.some.injEq] at hr'
        exact hr' ▸ ⟨rfl,hmax,hb⟩
      · exact h.built id r' (by simpa [hne] using hr')
  | append requestId tokenIds =>
    rw [KvSystem.step]
    cases hr : s.requests requestId with
    | none => exact .ok ⟨h,hsame _ rfl⟩
    | some r =>
      obtain ⟨hid,hmax,n,hb⟩ := h.built requestId r hr
      refine (BlockHasher.appendOutputTokenIds_spec hb.hashed tokenIds).with_eq.bind
        fun r' ⟨⟨_,heq⟩,hr'⟩ => ?_
      obtain ⟨new,-,hnew⟩ := Returns.exists_of_bind hr'
      have hgrows : r'.blockHashes = r.blockHashes ++ new := (congrArg _ (Except.ok.inj hnew)).symm
      refine .ok ⟨⟨⟨l,hm.mono fun id i k hblocks hik => ?_⟩,fun id hnone => ?_,
        fun id r₁ hr₁ => ?_⟩,hsame _ rfl⟩
      · by_cases hne : id = requestId
        · subst hne
          rw [hashes_of hr] at hik
          have hlt := (List.getElem?_eq_some_iff.mp hik).1
          simp only [hashes,Function.update_self,Option.map_some,Option.getD_some,hgrows]
          rw [List.getElem?_append_left hlt,hik]
        · simpa only [hashes,Function.update_of_ne hne] using hik
      · by_cases hne : id = requestId
        · simp [hne] at hnone
        · exact h.known id (by simpa [hne] using hnone)
      · by_cases hne : id = requestId
        · subst hne
          simp only [Function.update_self,Option.some.injEq] at hr₁
          subst hr₁
          refine ⟨?_,?_,n,.append hb hr'⟩
          · rw [heq]
            exact hid
          · rw [heq,List.length_append]
            exact he r hr
        · exact h.built id r₁ (by simpa [hne] using hr₁)
  | start requestId numNewTokens =>
    rw [KvSystem.step]
    cases hr : s.requests requestId with
    | none => exact .ok ⟨h,hsame _ rfl⟩
    | some r =>
      obtain ⟨hid,hmax,n,hb⟩ := h.built requestId r hr
      have hhits := hm.getComputedBlocks hasher.blockSize
        (nodup_blockHashes hb (hapart hb hb)) (hid ▸ he.2)
      exact (h.allocates hr hhits 0 he.1 _).bind fun out hout => .ok hout
  | grow requestId numComputedTokens numNewTokens =>
    rw [KvSystem.step]
    cases hr : s.requests requestId with
    | none => exact .ok ⟨h,hsame _ rfl⟩
    | some r => exact (h.allocates hr (.inl rfl) _ he 0).bind fun out hout => .ok hout
  | preempt requestId =>
    refine (hm.free requestId).bind fun m ⟨hok,hhash,hof⟩ =>
      .ok ⟨⟨hok,fun id hid => ?_,h.built⟩,hsame _ hhash⟩
    rw [hof]
    split
    · rfl
    · exact h.known id hid
  | finish requestId =>
    refine (hm.free requestId).bind fun m ⟨⟨l',hok⟩,hhash,hof⟩ =>
      .ok ⟨⟨⟨l',hok.mono fun id i k hblocks hik => ?_⟩,fun id hid => ?_,fun id r hr => ?_⟩,
        hsame _ hhash⟩
    · have hne : id ≠ requestId := fun heq => hblocks (by rw [hof,if_pos heq])
      simpa only [hashes,Function.update_of_ne hne] using hik
    · rw [hof]
      split
      · rfl
      · rename_i hne
        exact h.known id (by simpa [hne] using hid)
    · by_cases hne : id = requestId
      · simp [hne] at hr
      · exact h.built id r (by simpa [hne] using hr)
  | resetPrefixCache =>
    exact .ok ⟨⟨⟨l,hm.resetPrefixCache.1⟩,h.known,h.built⟩,
      fun b k hk => .inl (hm.resetPrefixCache.2 b k hk)⟩

theorem Reachable.ok (hapart : Separated hasher) (h : Reachable hasher maxModelLen s) :
    s.Ok hasher maxModelLen := by
  induction h with
  | init hm => exact init_ok hm
  | step _ he heq ih => exact ((ih.step hapart he).of_eq heq).1

/-- A legal event after which the block has the hash. -/
def Keeps (hasher : BlockHasher H) (maxModelLen b : Nat) (k : H) (s s' : KvSystem H) : Prop :=
  (∃ e, s.Legal hasher maxModelLen e ∧ s.step hasher maxModelLen e = .ok s') ∧
    s'.manager.blockPool.blockHash b = some k

/-- A block with a hash got it when a request held it in the place of this hash, and has kept it
since. -/
theorem Reachable.filled (hapart : Separated hasher) (h : Reachable hasher maxModelLen s) {b : Nat}
    {k : H} (hk : s.manager.blockPool.blockHash b = some k) :
    ∃ (s₀ : KvSystem H) (id : String) (r : Request H) (i : Nat), Reachable hasher maxModelLen s₀ ∧
      Relation.ReflTransGen (Keeps hasher maxModelLen b k) s₀ s ∧ s₀.requests id = some r ∧
      (s₀.manager.blocksOf id)[i]? = some b ∧ r.blockHashes[i]? = some k := by
  induction h with
  | init hm =>
    rw [init_blockHash hm] at hk
    cases hk
  | step hs he heq ih =>
    obtain hold | ⟨id,r,i,hr,hi,hik⟩ := (((hs.ok hapart).step hapart he).of_eq heq).2 b k hk
    · obtain ⟨s₀,id,r,i,h₀,hkept,hfilled⟩ := ih hold
      exact ⟨s₀,id,r,i,h₀,hkept.tail ⟨⟨_,he,heq⟩,hk⟩,hfilled⟩
    · exact ⟨_,id,r,i,hs.step he heq,.refl,hr,hi,hik⟩

section Runs
variable (hapart : Separated hasher) (h : Reachable hasher maxModelLen s)
include hapart h

end Runs

section Small
open BlockHasher

/-- A prompt of four tokens that others have too, and one more. -/
def smallRequest (requestId : String) (last : Nat) : Request Digest :=
  ⟨requestId,[1,2,3,4,last],[],none,none,[.block .root [1,2,3,4] none]⟩

theorem smallRequest_built (requestId : String) (last : Nat) :
    fours.Built 5 (smallRequest requestId last) := by
  have hplaced : Placed [] [1,2,3,4,last].length := ⟨.nil,nofun,nofun⟩
  exact (Built.new hplaced rfl : fours.Built [1,2,3,4,last].length (smallRequest requestId last))

/-- Two requests in a cache of four blocks. -/
def smallRun : Except Fault (KvSystem Digest) := do
  let m ← KvCacheManager.init 4 true
  [.add (smallRequest "r" 5),.start "r" 5,.add (smallRequest "s" 6),.start "s" 1].foldlM
    (KvSystem.step fours 8) ⟨m,fun _ => none⟩

theorem fours_separated : Separated fours := fun _ _ => digests_tellsApart _ _ _ _ _

/-- What a slot request changes is the manager. -/
theorem start_requests {hasher : BlockHasher Digest} {maxModelLen : Nat} {s s' : KvSystem Digest}
    {requestId : String} {numNewTokens : Nat}
    (h : s.step hasher maxModelLen (.start requestId numNewTokens) = .ok s') :
    s'.requests = s.requests := by
  rw [KvSystem.step] at h
  split at h
  · cases h
    rfl
  · obtain ⟨out,-,heq⟩ := Returns.exists_of_bind h
    cases heq
    rfl

theorem small_eq {α : Type} {g : KvSystem Digest → α} {s : KvSystem Digest} {a : α}
    (hs : smallRun = .ok s) (h : smallRun.map g = .ok a) : g s = a := by
  rw [hs] at h
  exact Except.ok.inj h

/-- The second request finds the first block of the first one. -/
theorem small_reachable : ∃ s, smallRun = .ok s ∧ Reachable fours 8 s ∧
    s.requests "r" = some (smallRequest "r" 5) ∧ s.requests "s" = some (smallRequest "s" 6) := by
  have hreturns : smallRun.isOk := by decide
  cases hrun : smallRun with
  | error e => simp [hrun,Except.isOk,Except.toBool] at hreturns
  | ok s₄ =>
    obtain ⟨m,hm,hsteps⟩ := Returns.exists_of_bind hrun
    rw [List.foldlM_cons] at hsteps
    obtain ⟨s₁,h₁,hsteps⟩ := Returns.exists_of_bind hsteps
    rw [List.foldlM_cons] at hsteps
    obtain ⟨s₂,h₂,hsteps⟩ := Returns.exists_of_bind hsteps
    rw [List.foldlM_cons] at hsteps
    obtain ⟨s₃,h₃,hsteps⟩ := Returns.exists_of_bind hsteps
    rw [List.foldlM_cons] at hsteps
    obtain ⟨s,h₄,hsteps⟩ := Returns.exists_of_bind hsteps
    cases hsteps
    have hr₀ : Reachable fours 8 ⟨m,fun _ => none⟩ := .init hm
    have hr₁ := hr₀.step (e := .add (smallRequest "r" 5))
      ⟨rfl,by decide,5,smallRequest_built "r" 5⟩ h₁
    have hempty := (hr₀.ok fours_separated).known
    cases h₁
    have hr₂ := hr₁.step (e := .start "r" 5) ⟨by decide,hempty "r" rfl⟩ h₂
    have hreq := start_requests h₂
    have hnone : s₂.requests "s" = none := by rw [hreq]; rfl
    have hr₃ := hr₂.step (e := .add (smallRequest "s" 6))
      ⟨hnone,by decide,5,smallRequest_built "s" 6⟩ h₃
    have hempty' := (hr₂.ok fours_separated).known "s" hnone
    cases h₃
    have hr₄ := hr₃.step (e := .start "s" 1) ⟨by decide,hempty'⟩ h₄
    refine ⟨s₄,rfl,hr₄,?_,?_⟩
    · rw [start_requests h₄]
      change Function.update s₂.requests "s" (some (smallRequest "s" 6)) "r" = _
      rw [Function.update_of_ne (by decide),hreq]
      rfl
    · rw [start_requests h₄]
      rfl

end Small
end KvSystem
end TLiveOmni.Kv
