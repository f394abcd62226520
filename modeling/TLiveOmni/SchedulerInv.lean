import Mathlib.Data.List.Perm.Basic
import TLiveOmni.Scheduler

/-! What the scheduler's queues, its shares and its encoder cache satisfy in the course of a step,
and what a preemption, an admission and a share change. -/
set_option autoImplicit false

namespace TLiveOmni.Sched
open Vllm (Feature)

/-- A request the engine accepts: its prompt is not empty, and neither the tokens it has nor those
it must produce go beyond the model's length. -/
structure Request.Ok (cfg : SchedulerConfig) (size : String → Nat) (r : Request) : Prop where
  features : Features size r.mmFeatures
  prompt : 0 < r.numPromptTokens
  computed : r.numComputedTokens ≤ r.numTokens
  short : r.numTokens < cfg.maxModelLen
  minTokens : r.numPromptTokens+r.minTokens ≤ cfg.maxModelLen

/-- The two queues: no request is in them twice. -/
structure Queues (cfg : SchedulerConfig) (size : String → Nat) (running waiting : List Request) :
    Prop where
  ids : ((running ++ waiting).map Request.requestId).Nodup
  ok : ∀ r ∈ running ++ waiting, r.Ok cfg size
  runs : ∀ r ∈ running, r.status = .running
  waits : ∀ r ∈ waiting, r.status ≠ .running ∧ r.numComputedTokens = 0
  room : running.length ≤ cfg.maxNumRunningReqs

/-- Every reference belongs to a request of the queues, and to one of its features. -/
def Owned (cache : EncoderCacheManager) (requests : List Request) : Prop :=
  ∀ h x, x ∈ cache.refs h → ∃ r ∈ requests, r.requestId = x ∧ ∃ f ∈ r.mmFeatures, f.identifier = h

/-- The shares of a step: each has tokens left to compute, and together they keep the budgets. -/
structure Shares (cfg : SchedulerConfig) (prev : List String) (running : List Request)
    (scheduled : List Scheduled) (tokenBudget encoderComputeBudget : Int) : Prop where
  mem : ∀ s ∈ scheduled, s.request ∈ running
  nodup : (scheduled.map fun s => s.request.requestId).Nodup
  pos : ∀ s ∈ scheduled, 0 < s.numNewTokens ∧
    s.request.numComputedTokens+s.numNewTokens ≤ s.request.numTokens
  resumed : ∀ s ∈ scheduled, s.origin = .resumed → s.request.requestId ∉ prev
  budget : 0 ≤ tokenBudget
  spent : tokenBudget+(scheduled.map Scheduled.numNewTokens).sum ≤ cfg.maxNumScheduledTokens
  encoderBudget : 0 ≤ encoderComputeBudget
  encoderSpent : encoderComputeBudget+(scheduled.map fun s => numEmbeds s.encoderInputs).sum ≤
    cfg.maxNumEncoderInputTokens

/-- The scheduled requests hold what they need, and the cache is what the workers will have. -/
structure Synced (before : String → Prop) (cache : EncoderCacheManager)
    (scheduled : List Scheduled) : Prop where
  covered : ∀ s ∈ scheduled, ∀ f ∈ s.request.mmFeatures,
    f.touches s.request.numComputedTokens s.numNewTokens.toNat →
      s.request.requestId ∈ cache.refs f.identifier
  held : ∀ s ∈ scheduled, ∀ f ∈ s.encoderInputs, s.request.requestId ∈ cache.refs f.identifier
  keys : ∀ h, h ∈ cache.cached ↔ before h ∧ h ∉ cache.freed ∨
    ∃ s ∈ scheduled, ∃ f ∈ s.encoderInputs, f.identifier = h

/-- The references of a request are to features that it has begun and not finished. -/
def Begun (cache : EncoderCacheManager) (r : Request) : Prop :=
  ∀ h, r.requestId ∈ cache.refs h → ∃ f ∈ r.mmFeatures, f.identifier = h ∧
    f.offset < r.numComputedTokens ∧ r.numComputedTokens < f.offset+f.length

/-- The references of a request are to features that start before its tokens end. -/
def Reaches (cache : EncoderCacheManager) (r : Request) (n : Int) : Prop :=
  ∀ h, r.requestId ∈ cache.refs h → ∃ f ∈ r.mmFeatures, f.identifier = h ∧
    (f.offset : Int) < r.numComputedTokens+n

/-- What the requests hold in the course of a step, but for one that is being served, if their
features share no tokens. -/
def Held (busy : Option String) (cache : EncoderCacheManager) (requests : List Request)
    (scheduled : List Scheduled) : Prop :=
  ∀ r ∈ requests, Apart r.mmFeatures → busy ≠ some r.requestId →
    Begun cache r ∨ ∃ s ∈ scheduled, s.request = r ∧ Reaches cache r s.numNewTokens

section Queue
variable {cfg : SchedulerConfig} {size : String → Nat} {running waiting : List Request}
  {r victim : Request}

theorem insertByPriority_perm (r : Request) (queue : List Request) :
    (insertByPriority r queue).Perm (r :: queue) := by
  induction queue with
  | nil => exact .refl _
  | cons r' queue ih =>
    rw [insertByPriority]
    split
    · exact .refl _
    · exact (ih.cons r').trans (.swap r r' queue)

theorem prependRequest_perm (policy : SchedulingPolicy) (r : Request) (queue : List Request) :
    (prependRequest policy r queue).Perm (r :: queue) := by
  cases policy with
  | fcfs => exact .refl _
  | priority => exact insertByPriority_perm r queue

theorem addToQueue_perm (policy : SchedulingPolicy) (queue : List Request) (r : Request) :
    (addToQueue policy queue r).Perm (r :: queue) := by
  cases policy with
  | fcfs => exact List.perm_append_singleton r queue
  | priority => exact insertByPriority_perm r queue

theorem mem_removeRequest {l : List Request} {requestId : String} :
    r ∈ removeRequest requestId l ↔ r ∈ l ∧ r.requestId ≠ requestId := by
  rw [removeRequest,List.mem_filter,decide_eq_true_eq]

theorem removeRequest_perm {l : List Request} (hids : (l.map Request.requestId).Nodup)
    (hv : victim ∈ l) : (victim :: removeRequest victim.requestId l).Perm l :=
  Dict.cons_filter_perm hids hv

/-- The preempted request goes to the waiting ones, with nothing computed. -/
theorem Queues.preempt (h : Queues cfg size running waiting) (hv : victim ∈ running) :
    Queues cfg size (removeRequest victim.requestId running)
      (prependRequest cfg.policy victim.preempt waiting) := by
  have hperm := prependRequest_perm cfg.policy victim.preempt waiting
  have hrunning : (running.map Request.requestId).Nodup := by
    have hids := h.ids
    rw [List.map_append] at hids
    exact (List.nodup_append.mp hids).1
  have hremove := removeRequest_perm hrunning hv
  refine ⟨?_,fun r hr => ?_,fun r hr => h.runs r (mem_removeRequest.mp hr).1,fun r hr => ?_,?_⟩
  · have hall : ((removeRequest victim.requestId running ++ prependRequest cfg.policy
        victim.preempt waiting).map Request.requestId).Perm ((running ++ waiting).map Request.requestId) := by
      rw [List.map_append,List.map_append]
      refine ((hperm.map Request.requestId).append_left _).trans ?_
      rw [List.map_cons]
      refine List.perm_middle.trans ?_
      have := (hremove.map Request.requestId).append_right (waiting.map Request.requestId)
      rwa [List.map_cons,List.cons_append] at this
    exact hall.nodup_iff.mpr h.ids
  · rcases List.mem_append.mp hr with hr | hr
    · exact h.ok r (List.mem_append_left _ (mem_removeRequest.mp hr).1)
    · rcases List.mem_cons.mp (hperm.mem_iff.mp hr) with rfl | hr
      · have hok := h.ok victim (List.mem_append_left _ hv)
        exact ⟨hok.features,hok.prompt,Nat.zero_le _,hok.short,hok.minTokens⟩
      · exact h.ok r (List.mem_append_right _ hr)
  · rcases List.mem_cons.mp (hperm.mem_iff.mp hr) with rfl | hr
    · exact ⟨by simp [Request.preempt],rfl⟩
    · exact h.waits r hr
  · exact (List.length_filter_le _ _).trans h.room

/-- The first waiting request starts to run. -/
theorem Queues.start (h : Queues cfg size running (r :: waiting))
    (hroom : running.length ≠ cfg.maxNumRunningReqs) {n : Nat} (hn : n ≤ r.numTokens) :
    Queues cfg size (running ++ [r.start n]) waiting := by
  refine ⟨?_,fun r' hr' => ?_,fun r' hr' => ?_,fun r' hr' => h.waits r' (by simp [hr']),?_⟩
  · have hids := h.ids
    simpa [Request.start] using hids
  · rcases List.mem_append.mp hr' with hr' | hr'
    · rcases List.mem_append.mp hr' with hr' | hr'
      · exact h.ok r' (by simp [hr'])
      · have hok := h.ok r (by simp)
        rw [List.mem_singleton.mp hr']
        exact ⟨hok.features,hok.prompt,hn,hok.short,hok.minTokens⟩
    · exact h.ok r' (by simp [hr'])
  · rcases List.mem_append.mp hr' with hr' | hr'
    · exact h.runs r' hr'
    · rw [List.mem_singleton.mp hr']
      rfl
  · have := h.room
    rw [List.length_append,List.length_singleton]
    omega

/-- Requests that keep their ids and states, and stay acceptable. -/
theorem Queues.map (h : Queues cfg size running waiting) (g g' : Request → Request)
    (hg : ∀ r ∈ running, (g r).requestId = r.requestId ∧ (g r).status = r.status ∧
      (g r).Ok cfg size)
    (hg' : ∀ r ∈ waiting, (g' r).requestId = r.requestId ∧ (g' r).status = r.status ∧
      (g' r).Ok cfg size ∧ (g' r).numComputedTokens = r.numComputedTokens) :
    Queues cfg size (running.map g) (waiting.map g') := by
  refine ⟨?_,fun r' hr' => ?_,fun r' hr' => ?_,fun r' hr' => ?_,?_⟩
  · have hids := h.ids
    rw [List.map_append] at hids ⊢
    have hrunning : (running.map g).map Request.requestId = running.map Request.requestId := by
      rw [List.map_map]
      exact List.map_congr_left fun r hr => (hg r hr).1
    have hwaiting : (waiting.map g').map Request.requestId = waiting.map Request.requestId := by
      rw [List.map_map]
      exact List.map_congr_left fun r hr => (hg' r hr).1
    rwa [hrunning,hwaiting]
  · rcases List.mem_append.mp hr' with hr' | hr'
    · obtain ⟨r,hr,rfl⟩ := List.mem_map.mp hr'
      exact (hg r hr).2.2
    · obtain ⟨r,hr,rfl⟩ := List.mem_map.mp hr'
      exact (hg' r hr).2.2.1
  · obtain ⟨r,hr,rfl⟩ := List.mem_map.mp hr'
    rw [(hg r hr).2.1]
    exact h.runs r hr
  · obtain ⟨r,hr,rfl⟩ := List.mem_map.mp hr'
    rw [(hg' r hr).2.1,(hg' r hr).2.2.2]
    exact h.waits r hr
  · rw [List.length_map]
    exact h.room

end Queue

section Cache
variable {size : String → Nat} {cache cache' : EncoderCacheManager} {requests requests' : List Request}
  {r : Request} {before : String → Prop} {scheduled : List Scheduled} {requestId : String}
  {ids : String → Prop}
open EncoderCacheManager

theorem Owned.of_subset (h : Owned cache requests)
    (hsub : ∀ r ∈ requests, ∃ r' ∈ requests', r'.requestId = r.requestId ∧
      r'.mmFeatures = r.mmFeatures) : Owned cache requests' := by
  intro k x hx
  obtain ⟨r,hr,hid,hf⟩ := h k x hx
  obtain ⟨r',hr',hid',hf'⟩ := hsub r hr
  exact ⟨r',hr',hid'.trans hid,hf' ▸ hf⟩

theorem Owned.touched (h : Owned cache requests) (hr : r ∈ requests)
    (ht : Touched r.requestId (fun h => ∃ f ∈ r.mmFeatures, f.identifier = h) cache cache') :
    Owned cache' requests := by
  intro k x hx
  rcases ht.added k x hx with hx | hx
  · exact h k x hx
  · exact ⟨r,hr,hx.1.symm,hx.2⟩

theorem Owned.released (h : Owned cache requests) (ht : Released requestId ids cache cache') :
    Owned cache' requests := fun k x hx => h k x (ht.sub k hx)

theorem Synced.touched (h : Synced before cache scheduled)
    (ht : Touched requestId ids cache cache') : Synced before cache' scheduled := by
  obtain ⟨evicted,hfreed,hkeys⟩ := ht.freed
  refine ⟨fun s hs f hf htouch => ht.kept _ (h.covered s hs f hf htouch),
    fun s hs f hf => ht.kept _ (h.held s hs f hf),fun k => ?_⟩
  rw [hkeys,h.keys,hfreed,List.mem_append,not_or]
  constructor
  · intro hk
    exact hk.1.imp_left fun hb => ⟨hb.1,hb.2,hk.2⟩
  · intro hk
    rcases hk with hb | hs
    · exact ⟨.inl ⟨hb.1,hb.2.1⟩,hb.2.2⟩
    · -- what runs in this step has a reference, so it is not evicted
      refine ⟨.inr hs,?_⟩
      obtain ⟨s,hs,f,hf,rfl⟩ := hs
      exact ((hkeys f.identifier).mp
        (mem_cached_of_refs (ht.kept _ (h.held s hs f hf)))).2

theorem Synced.released (h : Synced before cache scheduled)
    (ht : Released requestId ids cache cache')
    (hnot : ∀ s ∈ scheduled, s.request.requestId ≠ requestId) : Synced before cache' scheduled := by
  refine ⟨fun s hs f hf htouch => ht.others _ _ (h.covered s hs f hf htouch) (hnot s hs),
    fun s hs f hf => ht.others _ _ (h.held s hs f hf) (hnot s hs),fun k => ?_⟩
  rw [ht.keys,h.keys,ht.freed]

theorem Begun.of_sub (h : Begun cache r)
    (hsub : ∀ k, r.requestId ∈ cache'.refs k → r.requestId ∈ cache.refs k) : Begun cache' r :=
  fun k hk => h k (hsub k hk)

/-- A request without references. -/
theorem Begun.of_none (h : ∀ k, r.requestId ∉ cache.refs k) : Begun cache r :=
  fun k hk => absurd hk (h k)

theorem Held.of_sub {busy busy' : Option String} (h : Held busy cache requests scheduled)
    (hbusy : ∀ x, busy = some x → busy' = some x)
    (hsub : ∀ k x, busy' ≠ some x → x ∈ cache'.refs k → x ∈ cache.refs k) :
    Held busy' cache' requests scheduled := by
  intro r hr hapart hfree
  refine (h r hr hapart fun hb => hfree (hbusy _ hb)).imp (·.of_sub fun k => hsub k _ hfree) ?_
  rintro ⟨s,hs,heq,hreach⟩
  exact ⟨s,hs,heq,fun k hk => hreach k (hsub k _ hfree hk)⟩

theorem foldl_freeEncoderInput (hc : cache.Ok size) (requestId : String)
    {mmFeatures inputs : List Feature} (hf : Features size mmFeatures)
    (hsub : ∀ f ∈ inputs, f ∈ mmFeatures) :
    (inputs.foldl (fun m f => m.freeEncoderInput requestId f) cache).Ok size ∧
      Released requestId (fun h => ∃ f ∈ mmFeatures, f.identifier = h) cache
        (inputs.foldl (fun m f => m.freeEncoderInput requestId f) cache) ∧
      ∀ f ∈ inputs, requestId ∉
        (inputs.foldl (fun m f => m.freeEncoderInput requestId f) cache).refs f.identifier := by
  induction inputs generalizing cache with
  | nil => exact ⟨hc,.refl cache,by simp⟩
  | cons f inputs ih =>
    have hmem := hsub f (by simp)
    obtain ⟨hok,hrel,hgone⟩ := freeEncoderInput_spec hc requestId (hf.weight f hmem)
    obtain ⟨hok',hrel',hgone'⟩ := ih hok fun g hg => hsub g (by simp [hg])
    have hrel₀ : Released requestId (fun h => ∃ f ∈ mmFeatures, f.identifier = h) cache
        (cache.freeEncoderInput requestId f) :=
      ⟨hrel.size,hrel.slots,hrel.freed,hrel.keys,hrel.sub,hrel.others,fun h hh =>
        hrel.kept h fun heq => hh ⟨f,hmem,heq.symm⟩⟩
    refine ⟨hok',hrel₀.trans hrel',fun g hg => ?_⟩
    rcases List.mem_cons.mp hg with rfl | hg
    · exact fun hx => hgone (hrel'.sub _ hx)
    · exact hgone' g hg

theorem mem_getCachedInputIds {order : SetOrder} {mmFeatures : List Feature} {f : Feature} :
    f ∈ order.iter (cache.getCachedInputIds mmFeatures) ↔
      f ∈ mmFeatures ∧ f.identifier ∈ cache.cached := by
  rw [(order.perm _).mem_iff,getCachedInputIds,List.mem_filter,decide_eq_true_eq]

theorem free_spec (hc : cache.Ok size) (order : SetOrder) (requestId : String)
    {mmFeatures : List Feature} (hf : Features size mmFeatures) :
    (cache.free requestId order mmFeatures).Ok size ∧
      Released requestId (fun h => ∃ f ∈ mmFeatures, f.identifier = h) cache
        (cache.free requestId order mmFeatures) ∧
      ∀ f ∈ mmFeatures, requestId ∉ (cache.free requestId order mmFeatures).refs f.identifier := by
  have hsub : ∀ f ∈ order.iter (cache.getCachedInputIds mmFeatures), f ∈ mmFeatures :=
    fun f hf => (mem_getCachedInputIds.mp hf).1
  obtain ⟨hok,hrel,hgone⟩ := foldl_freeEncoderInput hc requestId hf hsub
  refine ⟨hok,hrel,fun f hmem => ?_⟩
  by_cases hk : f.identifier ∈ cache.cached
  · exact hgone f (mem_getCachedInputIds.mpr ⟨hmem,hk⟩)
  · -- an output that is not in the cache has no references
    exact fun hx => hk (mem_cached_of_refs (hrel.sub _ hx))

/-- A request that frees its inputs keeps no reference. -/
theorem Owned.free_gone (h : Owned cache requests) (hids : (requests.map Request.requestId).Nodup)
    (hr : r ∈ requests) (hc : cache.Ok size) (order : SetOrder) (hf : Features size r.mmFeatures)
    (k : String) : r.requestId ∉ (cache.free r.requestId order r.mmFeatures).refs k := by
  intro hx
  obtain ⟨-,hrel,hgone⟩ := free_spec hc order r.requestId hf
  obtain ⟨r',hr',hid,f,hmem,rfl⟩ := h k _ (hrel.sub k hx)
  rw [List.inj_on_of_nodup_map hids hr' hr hid] at hmem
  exact hgone f hmem hx

theorem freeEncoderInputs_spec (hc : cache.Ok size) (order : SetOrder)
    (hf : Features size r.mmFeatures) : (freeEncoderInputs order r cache).Ok size ∧
      Released r.requestId (fun h => ∃ f ∈ r.mmFeatures, f.identifier = h) cache
        (freeEncoderInputs order r cache) ∧
      ∀ f ∈ r.mmFeatures, f.offset+f.length ≤ r.numComputedTokens →
        r.requestId ∉ (freeEncoderInputs order r cache).refs f.identifier := by
  have hfilter : freeEncoderInputs order r cache =
      ((order.iter (cache.getCachedInputIds r.mmFeatures)).filter fun f =>
        decide (f.offset+f.length ≤ r.numComputedTokens)).foldl
        (fun m f => m.freeEncoderInput r.requestId f) cache := by
    rw [freeEncoderInputs,List.foldl_filter]
    simp only [decide_eq_true_eq]
  rw [hfilter]
  obtain ⟨hok,hrel,hgone⟩ := foldl_freeEncoderInput hc r.requestId hf
    fun f hf => (mem_getCachedInputIds.mp (List.mem_filter.mp hf).1).1
  refine ⟨hok,hrel,fun f hmem hdone hx => ?_⟩
  have hk := mem_cached_of_refs (hrel.sub _ hx)
  exact hgone f (List.mem_filter.mpr ⟨mem_getCachedInputIds.mpr ⟨hmem,hk⟩,by simpa using hdone⟩) hx

/-- After a step: of the scheduled requests nobody keeps a reference to what is used up. -/
theorem foldl_freeEncoderInputs (order : SetOrder) {scheduled : List Scheduled}
    (hf : ∀ s ∈ scheduled, Features size s.request.mmFeatures) {m : EncoderCacheManager}
    (hm : m.Ok size) {m' : EncoderCacheManager}
    (heq : scheduled.foldl (fun cache s => freeEncoderInputs order s.after cache) m = m') :
    m'.Ok size ∧ m'.cacheSize = m.cacheSize ∧ m'.freed = m.freed ∧
      (∀ h, h ∈ m'.cached ↔ h ∈ m.cached) ∧ (∀ h, m'.refs h ⊆ m.refs h) ∧
      ∀ s ∈ scheduled, ∀ f ∈ s.request.mmFeatures, f.offset+f.length ≤ s.after.numComputedTokens →
        s.request.requestId ∉ m'.refs f.identifier := by
  induction scheduled generalizing m with
  | nil =>
    cases heq
    exact ⟨hm,rfl,rfl,fun _ => Iff.rfl,fun _ => Finset.Subset.refl _,by simp⟩
  | cons s scheduled ih =>
    have hfs : Features size s.after.mmFeatures := hf s (by simp)
    obtain ⟨hok,hrel,hgone⟩ := freeEncoderInputs_spec (r := s.after) hm order hfs
    obtain ⟨hok',hsize,hfreed,hkeys,hsub,hgone'⟩ := ih (fun s hs => hf s (by simp [hs])) hok heq
    refine ⟨hok',hsize.trans hrel.size,hfreed.trans hrel.freed,
      fun h => (hkeys h).trans (hrel.keys h),fun h => (hsub h).trans (hrel.sub h),
      fun s' hs' f hmem hdone => ?_⟩
    rcases List.mem_cons.mp hs' with rfl | hs'
    · exact fun hx => hgone f hmem hdone (hsub _ hx)
    · exact hgone' s' hs' f hmem hdone

end Cache
end TLiveOmni.Sched
