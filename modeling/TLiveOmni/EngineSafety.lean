import TLiveOmni.EngineSystem
import TLiveOmni.SchedulerProgress

/-! What a reachable state of the engine promises: the encoder cache's accounts are right, no step
fails, the requests get on, and under the first-come policy no worker misses an encoder output. -/
set_option autoImplicit false

namespace TLiveOmni.Sched
open PySeq
open Vllm (Feature Worker CacheOk Model executeStep gatherMmEmbeddings)

/-- A KV cache with room for everything, and no prefix in it. -/
def roomyKv : KvCacheManager Unit :=
  ⟨id,fun kv _ => (0,kv),fun _ _ _ => true,fun kv _ _ _ => some kv,fun kv _ => kv,
    fun kv => (true,kv)⟩

theorem roomyKv_ok : roomyKv.Ok := fun _ _ h => h

def smallConfig : SchedulerConfig where
  policy := .fcfs
  maxNumScheduledTokens := 3
  maxNumEncoderInputTokens := 8
  encoderCacheSize := 8
  maxNumRunningReqs := 2
  maxModelLen := 16
  longPrefillTokenThreshold := 0
  enableChunkedPrefill := true
  disableChunkedMmInput := false
  schedulerReserveFullIsl := false
  mambaBlockSize := none

/-- Five tokens, of which three are an image. -/
def imageRequest : Request where
  requestId := "r"
  priority := 0
  arrivalTime := 0
  numPromptTokens := 5
  minTokens := 0
  maxTokens := 1
  mmFeatures := [⟨.image,"i",1,3,none,by simp⟩]
  status := .waiting
  numOutputTokens := 0
  numComputedTokens := 0

def asRead : SetOrder := ⟨id,fun _ => .refl _⟩

/-- What the small engine reaches. -/
abbrev SmallReachable (σ : System Unit Nat) : Prop :=
  System.Reachable smallConfig roomyKv asRead (fun _ => 3) (fun _ _ => true) (fun _ => [7,8,9]) () σ

/-- The only step of the small engine. -/
abbrev smallSchedule : Except Fault (SchedulerOutput × Scheduler Unit) :=
  schedule smallConfig roomyKv asRead ⟨(),.init 8,[],[imageRequest],[],[],.unpaused⟩

theorem small_added : System.Step smallConfig roomyKv asRead (fun _ => 3) (fun _ _ => true)
    (fun _ => [7,8,9]) (.init smallConfig ())
    ⟨⟨(),.init 8,[],[imageRequest],[],[],.unpaused⟩,[],[],.init⟩ :=
  .add (r := imageRequest) ⟨⟨by simp [imageRequest],by simp [imageRequest],by decide⟩,by decide,
    by decide,by decide,by decide⟩ ⟨rfl,rfl,rfl⟩ rfl

/-- The request is added and scheduled, and its output is on the way to the worker. -/
theorem small_reachable : ∃ out s, smallSchedule = .ok (out,s) ∧
    SmallReachable ⟨s,[.execute out],[],.init⟩ := by
  have hreturns : smallSchedule.isOk := by decide
  cases hsched : smallSchedule with
  | error e => simp [hsched,Except.isOk,Except.toBool] at hreturns
  | ok x => exact ⟨x.1,x.2,rfl,.tail (.tail .refl small_added) (.schedule hsched)⟩

theorem small_eq {α : Type} {g : SchedulerOutput × Scheduler Unit → α}
    {x : SchedulerOutput × Scheduler Unit} {a : α} (hx : smallSchedule = .ok x)
    (h : smallSchedule.map g = .ok a) : g x = a := by
  rw [hx] at h
  exact Except.ok.inj h

section Reachable
variable {K E : Type} {cfg : SchedulerConfig} {kvm : KvCacheManager K} {order : SetOrder}
  {size : String → Nat} {sameFields : Feature → Feature → Bool} {encode : String → List E}
  {kv : K} {σ : System K E}

/-- In every reachable state the free slots are those that no output takes, the freeable slots are
those that no referenced output takes, and the eviction queue holds exactly the unreferenced. -/
theorem encoderCache_accounts (hkvm : kvm.Ok)
    (h : System.Reachable cfg kvm order size sameFields encode kv σ) :
    0 ≤ σ.scheduler.cache.numFreeSlots ∧
    σ.scheduler.cache.numFreeSlots+σ.scheduler.cache.cached.total size = cfg.encoderCacheSize ∧
    σ.scheduler.cache.numFreeableSlots =
      σ.scheduler.cache.numFreeSlots+σ.scheduler.cache.freeable.total size ∧
    ∀ k, k ∈ σ.scheduler.cache.freeable ↔ σ.scheduler.cache.cached.get? k = some ∅ := by
  obtain ⟨haccounts,hcapacity,-⟩ := (h.ok hkvm).scheduler
  refine ⟨haccounts.nonneg,?_,haccounts.freeable,haccounts.unreferenced⟩
  rw [haccounts.taken,hcapacity]

theorem encoderCache_accounts_small : ∃ σ : System Unit Nat, SmallReachable σ ∧
    σ.queue.length = 1 ∧
    σ.scheduler.cache.numFreeSlots+σ.scheduler.cache.cached.total (fun _ => 3) = 8 := by
  obtain ⟨out,s,-,h⟩ := small_reachable
  exact ⟨_,h,rfl,(encoderCache_accounts roomyKv_ok h).2.1⟩

/-- No reference outlives its request, and when all requests have ended the whole cache is free
for new ones. -/
theorem references_owned (hkvm : kvm.Ok)
    (h : System.Reachable cfg kvm order size sameFields encode kv σ) :
    (∀ k x, x ∈ σ.scheduler.cache.refs k → ∃ r ∈ σ.scheduler.running ++ σ.scheduler.waiting,
      r.requestId = x ∧ ∃ f ∈ r.mmFeatures, f.identifier = k) ∧
    (σ.scheduler.running = [] → σ.scheduler.waiting = [] →
      σ.scheduler.cache.numFreeableSlots = cfg.encoderCacheSize) := by
  have hs := (h.ok hkvm).scheduler
  refine ⟨hs.owned,fun hrunning hwaiting => ?_⟩
  have hrefs : ∀ k, σ.scheduler.cache.refs k = ∅ := by
    intro k
    refine Finset.eq_empty_of_forall_notMem fun x hx => ?_
    obtain ⟨r,hr,-⟩ := hs.owned k x hx
    simp [hrunning,hwaiting] at hr
  rw [hs.accounts.freeable_of_unreferenced hrefs,hs.capacity]

theorem references_owned_small : ∃ σ : System Unit Nat, SmallReachable σ ∧
    "i" ∈ σ.scheduler.cache.cached ∧ σ.scheduler.running = [] ∧ σ.scheduler.waiting = [] ∧
    σ.scheduler.cache.numFreeableSlots = 8 := by
  obtain ⟨out,s,hsched,h⟩ := small_reachable
  have hfinished := Relation.ReflTransGen.tail h (.finish _ ["r"])
  have hcached : "i" ∈ (finishRequests roomyKv asRead ["r"] s).cache.cached :=
    of_decide_eq_true (small_eq hsched (g := fun x => decide
      ("i" ∈ (finishRequests roomyKv asRead ["r"] x.2).cache.cached)) (by decide))
  have hrunning := List.eq_nil_of_length_eq_zero (small_eq hsched
    (g := fun x => (finishRequests roomyKv asRead ["r"] x.2).running.length) (a := 0) (by decide))
  have hwaiting := List.eq_nil_of_length_eq_zero (small_eq hsched
    (g := fun x => (finishRequests roomyKv asRead ["r"] x.2).waiting.length) (a := 0) (by decide))
  exact ⟨_,hfinished,hcached,hrunning,hwaiting,
    (references_owned roomyKv_ok hfinished).2 hrunning hwaiting⟩

/-- A request whose features share no token holds one reference at most: to the feature it is in
the middle of. -/
theorem references_begun (hkvm : kvm.Ok) (hwhole : cfg.mambaBlockSize = none)
    (h : System.Reachable cfg kvm order size sameFields encode kv σ) {r : Request}
    (hr : r ∈ σ.scheduler.running ++ σ.scheduler.waiting) (hapart : Apart r.mmFeatures) :
    Begun σ.scheduler.cache r ∧ ∀ k k', r.requestId ∈ σ.scheduler.cache.refs k →
      r.requestId ∈ σ.scheduler.cache.refs k' → k = k' := by
  have hbegun := (h.ok hkvm).scheduler.begun hwhole r hr hapart
  refine ⟨hbegun,fun k k' hk hk' => ?_⟩
  obtain ⟨f,hf,rfl,hstart,hend⟩ := hbegun k hk
  obtain ⟨g,hg,rfl,hstart',hend'⟩ := hbegun k' hk'
  rw [Apart.eq_of_holds hapart hf hg ⟨hstart.le,hend⟩ ⟨hstart'.le,hend'⟩]

theorem references_begun_small : ∃ (σ : System Unit Nat) (r : Request), SmallReachable σ ∧
    r ∈ σ.scheduler.running ∧ r.requestId ∈ σ.scheduler.cache.refs "i" ∧
    Begun σ.scheduler.cache r := by
  obtain ⟨out,s,hsched,h⟩ := small_reachable
  have hlength := small_eq hsched (g := fun x => x.2.running.length) (a := 1) (by decide)
  obtain ⟨r,hr⟩ := List.exists_mem_of_length_pos (hlength ▸ Nat.one_pos)
  have hrefs := of_decide_eq_true (small_eq hsched (g := fun x => decide (∀ r ∈ x.2.running,
    r.requestId ∈ x.2.cache.refs "i" ∧ Apart r.mmFeatures)) (by decide)) r hr
  exact ⟨_,r,h,hr,hrefs.1,
    (references_begun roomyKv_ok rfl h (List.mem_append_left _ hr) hrefs.2).1⟩

theorem mapM_ok {α β : Type} {f : α → Py β} {g : α → β} {l : List α}
    (h : ∀ a ∈ l, f a = .ok (g a)) : l.mapM f = .ok (l.map g) := by
  induction l with
  | nil => rfl
  | cons a l ih =>
    rw [List.mapM_cons,h a (by simp),ok_bind,ih fun b hb => h b (by simp [hb])]
    rfl

/-- The worker's cache at the head of the queue has what the scheduled tokens need. -/
theorem System.Ok.head_served (hσ : σ.Ok cfg size encode) (hpol : cfg.policy = .fcfs)
    {out : SchedulerOutput} {queue : List Message} (hqueue : σ.queue = .execute out :: queue)
    {x : Scheduled} (hx : x ∈ out.scheduled) {f : Feature} (hf : f ∈ x.request.mmFeatures)
    (ht : f.touches x.request.numComputedTokens x.numNewTokens.toNat) :
    ((encodeScheduled sameFields encode σ.worker out).encoderCache f.identifier).isSome := by
  have hleads := hσ.leads hpol
  rw [hqueue] at hleads
  obtain ⟨next,hserved,-⟩ := hleads
  exact (encodeScheduled_keys _ _ _).mpr ((hserved.keys _).mp (hserved.covered x hx f hf ht))

theorem System.Ok.gathers (sameFields : Feature → Feature → Bool) (hσ : σ.Ok cfg size encode) (hpol : cfg.policy = .fcfs)
    {out : SchedulerOutput} {queue : List Message} (hqueue : σ.queue = .execute out :: queue)
    {x : Scheduled} (hx : x ∈ out.scheduled) :
    gatherScheduled (encodeScheduled sameFields encode σ.worker out).encoderCache x =
      .ok (ownRows encode x) := by
  have hout := hσ.sent out (by simp [hqueue])
  exact gatherScheduled_eq (encodeScheduled_cacheOk hσ.cache out) (hout.features x hx)
    (hout.pos x hx).1 fun f hf => hσ.head_served hpol hqueue hx hf

/-- Whatever has happened before, the worker finds an encoder output for every place it has to
fill, and it is the one of the item at that place. -/
theorem executes_ownRows (hkvm : kvm.Ok) (hpol : cfg.policy = .fcfs)
    (h : System.Reachable cfg kvm order size sameFields encode kv σ)
    {out : SchedulerOutput} {queue : List Message} (hqueue : σ.queue = .execute out :: queue) :
    ∃ w, executeModel sameFields encode σ.worker out = .ok (out.scheduled.map (ownRows encode),w) := by
  refine ⟨encodeScheduled sameFields encode σ.worker out,?_⟩
  rw [executeModel,mapM_ok fun x hx => (h.ok hkvm).gathers sameFields hpol hqueue hx]
  rfl

theorem executes_ownRows_small : ∃ (σ : System Unit Nat) (out : SchedulerOutput) (w : Worker Nat),
    SmallReachable σ ∧ σ.queue = [.execute out] ∧ out.scheduled.map Scheduled.numNewTokens = [3] ∧
    executeModel (fun _ _ => true) (fun _ => [7,8,9]) σ.worker out =
      .ok (out.scheduled.map (ownRows fun _ => [7,8,9]),w) := by
  obtain ⟨out,s,hsched,h⟩ := small_reachable
  obtain ⟨w,hw⟩ := executes_ownRows roomyKv_ok rfl h rfl
  exact ⟨_,out,w,h,rfl,small_eq hsched (g := fun x => x.1.scheduled.map Scheduled.numNewTokens)
    (by decide),hw⟩

/-- The worker's step for an output: what it is told to free and to encode, and the batch. -/
structure Presents (step : Vllm.Step encode) (out : SchedulerOutput) : Prop where
  freed : step.freeEncoderMmHashes = out.freeEncoderMmHashes
  inputs : step.scheduledEncoderInputs = out.scheduled.flatMap Scheduled.encoderInputs
  batch : step.batch.map (fun r => (r.features,r.numComputedTokens,r.numScheduledTokens)) =
    out.scheduled.map fun x =>
      (x.request.mmFeatures,x.request.numComputedTokens,x.numNewTokens.toNat)

/-- The parts of a batch are gathered as the scheduled requests are. -/
theorem Presents.gathers {step : Vllm.Step encode} {out : SchedulerOutput} (h : Presents step out)
    {cache : String → Option (List E)}
    (hg : ∀ x ∈ out.scheduled, gatherScheduled cache x = .ok (ownRows encode x)) :
    gatherMmEmbeddings cache step.batch = .ok
      ((out.scheduled.map (ownRows encode)).flatMap (·.1),
        (out.scheduled.map (ownRows encode)).flatMap (·.2)) := by
  let gather (t : List Feature × Nat × Nat) := Vllm.gatherFeatures cache t.2.1 t.2.2 t.1
    ([],List.replicate t.2.2 false)
  have hparts : step.batch.mapM (fun r => gather (r.features,r.numComputedTokens,
      r.numScheduledTokens)) = .ok (out.scheduled.map (ownRows encode)) := by
    rw [← mapM_ok hg]
    have hmap := congrArg (List.mapM gather) h.batch
    rwa [List.mapM_map,List.mapM_map] at hmap
  rw [gatherMmEmbeddings,hparts]
  rfl

/-- So a step of the worker for the output always comes to the merge, with the rows of the
scheduled requests. -/
theorem executeStep_eq (hkvm : kvm.Ok) (hpol : cfg.policy = .fcfs)
    (h : System.Reachable cfg kvm order size sameFields encode kv σ)
    {out : SchedulerOutput} {queue : List Message} (hqueue : σ.queue = .execute out :: queue)
    {step : Vllm.Step encode} (hstep : Presents step out) (model : Model E) :
    executeStep model sameFields σ.worker step =
      (model.embedInputIds (encodeScheduled sameFields encode σ.worker out).labels
        (step.batch.flatMap Vllm.Request.inputIds)
        ((out.scheduled.map (ownRows encode)).flatMap (·.1))
        (some ((out.scheduled.map (ownRows encode)).flatMap (·.2)))).map fun merged =>
          (merged.1,⟨merged.2,(encodeScheduled sameFields encode σ.worker out).encoderCache⟩) := by
  have hg := hstep.gathers fun x hx => (h.ok hkvm).gathers sameFields hpol hqueue hx
  rw [executeStep,hstep.freed,hstep.inputs]
  simp only [encodeScheduled] at hg ⊢
  rw [hg]
  rfl

end Reachable
end TLiveOmni.Sched
