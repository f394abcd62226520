import TLiveOmni.SchedulerStep

/-! What happens to the scheduler between its steps: requests come and end, sampled tokens are
counted, and the caches are reset. -/
set_option autoImplicit false

namespace TLiveOmni.Sched
open Vllm (Feature)

section Events
variable {K : Type} (cfg : SchedulerConfig) (kvm : KvCacheManager K) (order : SetOrder)

/-- `add_request`. -/
def addRequest (r : Request) (s : Scheduler K) : Except Fault (Scheduler K) := do
  check (∀ r' ∈ s.running ++ s.waiting, r'.requestId ≠ r.requestId) .assertionError
  pure { s with waiting := addToQueue cfg.policy s.waiting r }

/-- `_free_request`, for a request that has left its queue. -/
def freeRequest (r : Request) (s : Scheduler K) : Scheduler K :=
  { s with
    kv := kvm.free s.kv r
    cache := s.cache.free r.requestId order r.mmFeatures
    running := removeRequest r.requestId s.running
    waiting := removeRequest r.requestId s.waiting
    finishedReqIds := s.finishedReqIds ++ [r.requestId] }

/-- `self.requests.get`. -/
def Scheduler.getRequest (s : Scheduler K) (requestId : String) : Option Request :=
  (s.running ++ s.waiting).find? fun r => r.requestId = requestId

/-- `finish_requests`, for the ids in the order in which the set is read. -/
def finishRequests (requestIds : List String) (s : Scheduler K) : Scheduler K :=
  requestIds.foldl (fun s requestId =>
    match s.getRequest requestId with
    | none => s
    | some r => freeRequest kvm order r s) s

/-- `check_stop`: whether the token is one that the request stops at is decided by its sampling
parameters. -/
def checkStop (r : Request) (stopToken : Bool) : Bool :=
  if r.numOutputTokens < r.minTokens then false
  else stopToken || decide (cfg.maxModelLen ≤ r.numTokens) ||
    decide (r.maxTokens ≤ r.numOutputTokens)

/-- `_update_request_with_output`. -/
def updateRequestWithOutput : Request → List Bool → Request × Bool
  | r, [] => (r,false)
  | r, stopToken :: tokens =>
    let r := { r with numOutputTokens := r.numOutputTokens+1 }
    if checkStop cfg r stopToken then (r,true) else updateRequestWithOutput r tokens

/-- The new state of a request in the place of the old one. -/
def Request.updatedBy (r new : Request) : Request := if r.requestId = new.requestId then new else r

/-- The iteration of `update_from_output` for one request. -/
def updateOne (sampled : String → List Bool) (s : Scheduler K) (x : Scheduled) :
    Except Fault (Scheduler K) := do
  check (0 < x.numNewTokens) .assertionError
  match s.getRequest x.request.requestId with
  | none => pure s
  | some r =>
    let updated := updateRequestWithOutput cfg r (sampled r.requestId)
    if updated.2 then pure (freeRequest kvm order updated.1 s)
    else pure { s with
      running := s.running.map (·.updatedBy updated.1)
      waiting := s.waiting.map (·.updatedBy updated.1) }

/-- `update_from_output`. -/
def updateFromOutput (out : SchedulerOutput) (sampled : String → List Bool) (s : Scheduler K) :
    Except Fault (Scheduler K) :=
  out.scheduled.foldlM (updateOne cfg kvm order sampled) s

/-- `while self.running: pop, preempt`. -/
def preemptAll : List Request → Pass K → Except Fault (Pass K)
  | [], p => .ok p
  | victim :: victims, p => do
    let p ← preemptRequest cfg kvm order victim
      { p with running := removeRequest victim.requestId p.running }
    preemptAll victims p

/-- `reset_prefix_cache`. -/
def resetPrefixCache (resetRunningRequests : Bool) (s : Scheduler K) :
    Except Fault (Bool × Scheduler K) := do
  let p : Pass K := ⟨s.kv,s.cache,s.running,s.waiting,[],[],0,0⟩
  let p ← preemptAll cfg kvm order (if resetRunningRequests then s.running.reverse else []) p
  let reset := kvm.resetPrefixCache p.kv
  check (¬ (resetRunningRequests ∧ ¬ reset.1)) (.runtimeError
    ("Failed to reset KV cache even when all the running requests are preempted and moved to " ++
      "the waiting queue. This is likely due to the presence of running requests waiting for " ++
      "remote KV transfer, which is not supported yet."))
  pure (reset.1,{ s with
    kv := reset.2
    cache := p.cache
    running := p.running
    waiting := p.waiting
    prevStepScheduledReqIds := if resetRunningRequests then [] else s.prevStepScheduledReqIds })

/-- `reset_encoder_cache`. -/
def resetEncoderCache (s : Scheduler K) : Scheduler K := { s with cache := s.cache.reset }

/-- `set_pause_state`. -/
def setPauseState (pauseState : PauseState) (s : Scheduler K) : Scheduler K :=
  { s with pauseState := pauseState }

end Events

section Specs
variable {K : Type} {cfg : SchedulerConfig} {kvm : KvCacheManager K} {order : SetOrder}
  {size : String → Nat} {s : Scheduler K} {r : Request}
open EncoderCacheManager (Released)

/-- A request as it is submitted. -/
structure Request.Fresh (r : Request) : Prop where
  status : r.status = .waiting
  computed : r.numComputedTokens = 0
  output : r.numOutputTokens = 0

theorem addRequest_ok (hs : s.Ok cfg size) (hr : r.Ok cfg size) (hfresh : r.Fresh)
    {s' : Scheduler K} (h : addRequest cfg r s = .ok s') : s'.Ok cfg size ∧ s'.cache = s.cache := by
  obtain ⟨hnew,h⟩ := Returns.of_check_bind h
  cases h
  have hperm := addToQueue_perm cfg.policy s.waiting r
  refine ⟨⟨hs.accounts,hs.capacity,⟨?_,fun r' hr' => ?_,hs.queues.runs,fun r' hr' => ?_,
    hs.queues.room⟩,hs.owned.of_subset fun r' hr' => ?_,hs.freed,fun r' hr' hst => ?_,
    fun hmamba r' hr' hapart => ?_⟩,rfl⟩
  · rw [((hperm.append_left s.running).map Request.requestId).nodup_iff,
      (List.perm_middle.map Request.requestId).nodup_iff,List.map_cons]
    refine List.nodup_cons.mpr ⟨fun hmem => ?_,hs.queues.ids⟩
    obtain ⟨r',hr',heq⟩ := List.mem_map.mp hmem
    exact hnew r' hr' heq
  · rcases List.mem_append.mp hr' with hr' | hr'
    · exact hs.queues.ok r' (List.mem_append_left _ hr')
    · rcases List.mem_cons.mp (hperm.mem_iff.mp hr') with rfl | hr'
      · exact hr
      · exact hs.queues.ok r' (List.mem_append_right _ hr')
  · rcases List.mem_cons.mp (hperm.mem_iff.mp hr') with rfl | hr'
    · exact ⟨by simp [hfresh.status],hfresh.computed⟩
    · exact hs.queues.waits r' hr'
  · rcases List.mem_append.mp hr' with hr' | hr'
    · exact ⟨r',List.mem_append_left _ hr',rfl,rfl⟩
    · exact ⟨r',List.mem_append_right _ (hperm.mem_iff.mpr (by simp [hr'])),rfl,rfl⟩
  · rcases List.mem_cons.mp (hperm.mem_iff.mp hr') with rfl | hr'
    · rw [hfresh.status] at hst
      cases hst
    · exact hs.resumable r' hr' hst
  · rcases List.mem_append.mp hr' with hr' | hr'
    · exact hs.begun hmamba r' (List.mem_append_left _ hr') hapart
    · rcases List.mem_cons.mp (hperm.mem_iff.mp hr') with rfl | hr'
      · refine .of_none fun k hk => ?_
        obtain ⟨r₁,hr₁,hid,-⟩ := hs.owned k _ hk
        exact hnew r₁ hr₁ hid
      · exact hs.begun hmamba r' (List.mem_append_right _ hr') hapart

theorem getRequest_eq_some {requestId : String} (h : s.getRequest requestId = some r) :
    r ∈ s.running ++ s.waiting ∧ r.requestId = requestId :=
  ⟨List.mem_of_find?_eq_some h,by simpa using List.find?_some h⟩

/-- A request that ends takes its references along. -/
theorem freeRequest_ok (kvm : KvCacheManager K) (order : SetOrder) (hs : s.Ok cfg size) {r₀ : Request} (hr : r₀ ∈ s.running ++ s.waiting)
    (hid : r.requestId = r₀.requestId) (hf : r.mmFeatures = r₀.mmFeatures) :
    (freeRequest kvm order r s).Ok cfg size ∧
      (∀ h, h ∈ (freeRequest kvm order r s).cache.cached ↔ h ∈ s.cache.cached) := by
  have hfeatures : Features size r.mmFeatures := hf ▸ (hs.queues.ok r₀ hr).features
  obtain ⟨hok,hrel,hgone⟩ := free_spec hs.accounts order r.requestId hfeatures
  have hsub : (removeRequest r.requestId s.running ++ removeRequest r.requestId s.waiting).Sublist
      (s.running ++ s.waiting) := List.filter_sublist.append List.filter_sublist
  refine ⟨⟨hok,hrel.size.trans hs.capacity,⟨hs.queues.ids.sublist (hsub.map _),
    fun r' hr' => hs.queues.ok r' (hsub.subset hr'),
    fun r' hr' => hs.queues.runs r' (mem_removeRequest.mp hr').1,
    fun r' hr' => hs.queues.waits r' (mem_removeRequest.mp hr').1,
    (List.length_filter_le _ _).trans hs.queues.room⟩,fun h x hx => ?_,hrel.freed.trans hs.freed,
    fun r' hr' hst => hs.resumable r' (mem_removeRequest.mp hr').1 hst,fun hmamba r' hr' hapart =>
      (hs.begun hmamba r' (hsub.subset hr') hapart).of_sub fun k hk => hrel.sub k hk⟩,hrel.keys⟩
  obtain ⟨r',hr',hid',f,hmem,rfl⟩ := hs.owned h x (hrel.sub h hx)
  have hne : r'.requestId ≠ r.requestId := by
    intro heq
    have hsame := List.inj_on_of_nodup_map hs.queues.ids hr' hr (heq.trans hid)
    have hx' : x ∈ (s.cache.free r.requestId order r.mmFeatures).refs f.identifier := hx
    rw [← hid',heq] at hx'
    refine hgone f ?_ hx'
    rw [hf,← hsame]
    exact hmem
  refine ⟨r',?_,hid',f,hmem,rfl⟩
  rcases List.mem_append.mp hr' with hr' | hr'
  · exact List.mem_append_left _ (mem_removeRequest.mpr ⟨hr',hne⟩)
  · exact List.mem_append_right _ (mem_removeRequest.mpr ⟨hr',hne⟩)

theorem finishRequests_ok (kvm : KvCacheManager K) (order : SetOrder) (requestIds : List String) (hs : s.Ok cfg size) :
    (finishRequests kvm order requestIds s).Ok cfg size ∧
      ∀ h, h ∈ (finishRequests kvm order requestIds s).cache.cached ↔ h ∈ s.cache.cached := by
  induction requestIds generalizing s with
  | nil => exact ⟨hs,fun _ => Iff.rfl⟩
  | cons requestId requestIds ih =>
    rw [finishRequests,List.foldl_cons]
    cases hr : s.getRequest requestId with
    | none => exact ih hs
    | some r =>
      obtain ⟨hok,hkeys⟩ := freeRequest_ok kvm order hs
        (getRequest_eq_some hr).1 rfl rfl
      obtain ⟨hok',hkeys'⟩ := ih hok
      exact ⟨hok',fun h => (hkeys' h).trans (hkeys h)⟩

/-- Output tokens change nothing but their number, and only a stopped request can outgrow the
model. -/
theorem updateRequestWithOutput_spec (hr : r.Ok cfg size) (tokens : List Bool) :
    ∃ n, (updateRequestWithOutput cfg r tokens).1 = { r with numOutputTokens := n } ∧
      ((updateRequestWithOutput cfg r tokens).2 = false →
        (updateRequestWithOutput cfg r tokens).1.Ok cfg size) := by
  induction tokens generalizing r with
  | nil => exact ⟨r.numOutputTokens,rfl,fun _ => hr⟩
  | cons stopToken tokens ih =>
    rw [updateRequestWithOutput]
    split
    · exact ⟨r.numOutputTokens+1,rfl,by simp⟩
    · rename_i hgoes
      have hr' : ({ r with numOutputTokens := r.numOutputTokens+1 } : Request).Ok cfg size := by
        refine ⟨hr.features,hr.prompt,?_,?_,hr.minTokens⟩
        · have := hr.computed
          simp only [Request.numTokens] at this ⊢
          omega
        · have hmin := hr.minTokens
          simp only [checkStop] at hgoes
          split at hgoes
          · rename_i hfew
            simp only [Request.numTokens] at hfew ⊢
            omega
          · simp only [Bool.or_eq_true,decide_eq_true_eq,not_or,not_le] at hgoes
            exact hgoes.1.2
      obtain ⟨n,heq,hok⟩ := ih hr'
      exact ⟨n,heq,hok⟩

theorem updatedBy_spec {l : List Request} (hids : (l.map Request.requestId).Nodup) (hr : r ∈ l)
    (hl : ∀ r ∈ l, r.Ok cfg size) {new : Request} {n : Nat}
    (hnew : new = { r with numOutputTokens := n }) (hok : new.Ok cfg size) {r' : Request}
    (hr' : r' ∈ l) : (r'.updatedBy new).requestId = r'.requestId ∧
      (r'.updatedBy new).status = r'.status ∧ (r'.updatedBy new).Ok cfg size ∧
      (r'.updatedBy new).numComputedTokens = r'.numComputedTokens ∧
      (r'.updatedBy new).mmFeatures = r'.mmFeatures := by
  rw [Request.updatedBy]
  split
  · rename_i hid
    rw [hnew] at hid
    rw [List.inj_on_of_nodup_map hids hr' hr hid]
    refine ⟨?_,?_,hok,?_,?_⟩ <;> rw [hnew]
  · exact ⟨rfl,rfl,hl r' hr',rfl,rfl⟩

theorem updateOne_ok {sampled : String → List Bool} {x : Scheduled} (hs : s.Ok cfg size)
    (hx : 0 < x.numNewTokens) : Returns (updateOne cfg kvm order sampled s x) fun s' =>
      s'.Ok cfg size ∧ ∀ h, h ∈ s'.cache.cached ↔ h ∈ s.cache.cached := by
  rw [updateOne]
  refine (Returns.check_of hx).bind fun _ _ => ?_
  cases hr : s.getRequest x.request.requestId with
  | none => exact .ok ⟨hs,fun _ => Iff.rfl⟩
  | some r =>
    have hmem := (getRequest_eq_some hr).1
    obtain ⟨n,heq,hok⟩ := updateRequestWithOutput_spec (hs.queues.ok r hmem) (sampled r.requestId)
    simp only
    split
    · exact .ok (freeRequest_ok kvm order hs hmem (by rw [heq]) (by rw [heq]))
    · rename_i hgoes
      have hput : ∀ r' ∈ s.running ++ s.waiting, _ := fun r' hr' =>
        updatedBy_spec hs.queues.ids hmem hs.queues.ok heq (hok (by simpa using hgoes)) hr'
      refine .ok ⟨⟨hs.accounts,hs.capacity,hs.queues.map _ _ (fun r' hr' => ?_) fun r' hr' => ?_,
        hs.owned.of_subset fun r' hr' => ?_,hs.freed,fun r' hr' hst => ?_,
        fun hmamba r' hr' hapart => ?_⟩,fun _ => Iff.rfl⟩
      · obtain ⟨hid,hst,hok',-,-⟩ := hput r' (List.mem_append_left _ hr')
        exact ⟨hid,hst,hok'⟩
      · obtain ⟨hid,hst,hok',hnc,-⟩ := hput r' (List.mem_append_right _ hr')
        exact ⟨hid,hst,hok',hnc⟩
      · obtain ⟨hid,-,-,-,hf⟩ := hput r' hr'
        refine ⟨r'.updatedBy _,?_,hid,hf⟩
        rcases List.mem_append.mp hr' with hr' | hr'
        · exact List.mem_append_left _ (List.mem_map.mpr ⟨r',hr',rfl⟩)
        · exact List.mem_append_right _ (List.mem_map.mpr ⟨r',hr',rfl⟩)
      · obtain ⟨r₀,hr₀,rfl⟩ := List.mem_map.mp hr'
        obtain ⟨hid,hst',-,-,-⟩ := hput r₀ (List.mem_append_right _ hr₀)
        rw [hst'] at hst
        rw [hid]
        exact hs.resumable r₀ hr₀ hst
      · rw [← List.map_append] at hr'
        obtain ⟨r₀,hr₀,rfl⟩ := List.mem_map.mp hr'
        obtain ⟨hid,-,-,hnc,hf⟩ := hput r₀ hr₀
        rw [hf] at hapart
        rw [Begun,hid,hnc,hf]
        exact hs.begun hmamba r₀ hr₀ hapart

/-- The output of a step is taken in without an exception. -/
theorem updateFromOutput_ok (kvm : KvCacheManager K) (order : SetOrder) {out : SchedulerOutput}
    (hs : s.Ok cfg size)
    (hout : ∀ x ∈ out.scheduled, 0 < x.numNewTokens) (sampled : String → List Bool) :
    Returns (updateFromOutput cfg kvm order out sampled s) fun s' => s'.Ok cfg size ∧
      ∀ h, h ∈ s'.cache.cached ↔ h ∈ s.cache.cached := by
  have hinit : ([] ++ out.scheduled = out.scheduled) ∧ s.Ok cfg size ∧
      ∀ h, h ∈ s.cache.cached ↔ h ∈ s.cache.cached := ⟨rfl,hs,fun _ => Iff.rfl⟩
  refine (Returns.foldlM (fun pre post s' => pre ++ post = out.scheduled ∧ s'.Ok cfg size ∧
    ∀ h, h ∈ s'.cache.cached ↔ h ∈ s.cache.cached) (fun pre x post s' h => ?_) hinit).mono
      fun s' h => h.2
  obtain ⟨hall,hok,hkeys⟩ := h
  have hx : x ∈ out.scheduled := by rw [← hall]; simp
  refine (updateOne_ok hok (hout x hx)).mono fun s'' h => ?_
  exact ⟨by rw [List.append_assoc]; exact hall,h.1,fun k => (h.2 k).trans (hkeys k)⟩

theorem preemptAll_spec {before : String → Prop} {prev : List String} {victims : List Request}
    {p : Pass K} (hp : p.Ok cfg size before prev none) (hnone : p.scheduled = [])
    (hall : victims.Sublist p.running.reverse) :
    Returns (preemptAll cfg kvm order victims p) fun p' => p'.Ok cfg size before prev none ∧
      p'.scheduled = [] ∧ p'.cache.freed = p.cache.freed ∧ ∀ h, h ∈ p'.cache.cached ↔ h ∈ p.cache.cached := by
  induction victims generalizing p with
  | nil => exact .ok ⟨hp,hnone,rfl,fun _ => Iff.rfl⟩
  | cons victim victims ih =>
    have hv : victim ∈ p.running := by simpa using hall.subset List.mem_cons_self
    have hd : Dropped cfg prev victim p
        { p with running := removeRequest victim.requestId p.running } 0 :=
      .unscheduled hp (by simp [hnone])
    rw [preemptAll]
    refine (preempt_spec hp hv hd (fun _ => rfl) none (by simp)).bind fun p' hp' => ?_
    obtain ⟨hok,hrunning,hscheduled,-,-,hrel,-⟩ := hp'
    refine (ih hok (hscheduled.trans hnone) ?_).mono fun p'' h =>
      ⟨h.1,h.2.1,h.2.2.1.trans hrel.freed,fun k => (h.2.2.2 k).trans (hrel.keys k)⟩
    -- the ids are unique, so the other victims are still there
    rw [hrunning]
    have hnd : (victim :: victims).map Request.requestId |>.Nodup := by
      refine List.Nodup.sublist (hall.map _) ?_
      rw [List.map_reverse,List.nodup_reverse]
      exact hp.nodup_running
    have hrest : victims.filter (fun r => r.requestId ≠ victim.requestId) = victims := by
      refine List.filter_eq_self.mpr fun r hr => ?_
      have hne : r.requestId ≠ victim.requestId := fun heq =>
        (List.nodup_cons.mp hnd).1 (List.mem_map.mpr ⟨r,hr,heq⟩)
      simpa using hne
    have hsub := ((List.sublist_cons_self victim victims).trans hall).filter
      fun r => decide (r.requestId ≠ victim.requestId)
    rwa [hrest,List.filter_reverse] at hsub

/-- Before a reset; nothing is scheduled. -/
theorem Pass.Ok.resting (hs : s.Ok cfg size) :
    (⟨s.kv,s.cache,s.running,s.waiting,[],[],0,0⟩ : Pass K).Ok cfg size (· ∈ s.cache.cached) []
      none :=
  ⟨hs.accounts,hs.capacity,hs.queues,hs.owned,
    ⟨by simp,by simp,by simp,by simp,le_rfl,by simp,le_rfl,by simp⟩,by simp,
    fun _ => ⟨by simp,by simp,by simp [hs.freed]⟩,fun hmamba r hr hapart _ =>
      .inl (hs.begun hmamba r hr hapart)⟩

/-- A reset of the prefix cache sends the running requests back to the queue. It fails only where
the KV cache manager does. -/
theorem resetPrefixCache_ok {resetRunningRequests : Bool} (hs : s.Ok cfg size) {b : Bool}
    {s' : Scheduler K} (h : resetPrefixCache cfg kvm order resetRunningRequests s = .ok (b,s')) :
    s'.Ok cfg size ∧ ∀ h, h ∈ s'.cache.cached ↔ h ∈ s.cache.cached := by
  have hresting := Pass.Ok.resting hs
  rw [resetPrefixCache] at h
  cases resetRunningRequests with
  | true =>
    obtain ⟨p,⟨hok,hnone,hfreed,hkeys⟩,h⟩ := (preemptAll_spec hresting rfl (List.Sublist.refl _)).of_bind h
    obtain ⟨-,h⟩ := Returns.of_check_bind h
    cases h
    exact ⟨⟨hok.accounts,hok.capacity,hok.queues,hok.owned,hfreed.trans hs.freed,by simp,
      fun hmamba r hr hapart => (hok.held hmamba r hr hapart (by simp)).resolve_right (by simp [hnone])⟩,
      hkeys⟩
  | false =>
    have hsame : Returns (preemptAll cfg kvm order []
        ⟨s.kv,s.cache,s.running,s.waiting,[],[],0,0⟩)
        (· = ⟨s.kv,s.cache,s.running,s.waiting,[],[],0,0⟩) := .ok rfl
    obtain ⟨p,rfl,h⟩ := hsame.of_bind h
    obtain ⟨-,h⟩ := Returns.of_check_bind h
    cases h
    exact ⟨⟨hs.accounts,hs.capacity,hs.queues,hs.owned,hs.freed,hs.resumable,hs.begun⟩,fun _ => Iff.rfl⟩

theorem resetEncoderCache_ok (hs : s.Ok cfg size) : (resetEncoderCache s).Ok cfg size ∧
    ∀ h, h ∉ (resetEncoderCache s).cache.cached := by
  have hnone : ∀ h x, x ∉ (resetEncoderCache s).cache.refs h := fun h x hx =>
    Dict.not_mem_empty (EncoderCacheManager.mem_cached_of_refs hx)
  exact ⟨⟨.init s.cache.cacheSize,hs.capacity,hs.queues,fun h x hx => absurd hx (hnone h x),rfl,
    hs.resumable,fun _ r _ _ => .of_none fun k => hnone k _⟩,fun h => Dict.not_mem_empty⟩

theorem setPauseState_ok (pauseState : PauseState) (hs : s.Ok cfg size) :
    (setPauseState pauseState s).Ok cfg size :=
  ⟨hs.accounts,hs.capacity,hs.queues,hs.owned,hs.freed,hs.resumable,hs.begun⟩

end Specs
end TLiveOmni.Sched
