import Mathlib.Logic.Relation
import TLiveOmni.EngineRun
import TLiveOmni.SchedulerEvents

/-! The scheduler and its worker, with the messages between them in a queue: what holds whatever
the order in which requests come and end, steps are scheduled, executed and taken in. -/
set_option autoImplicit false

namespace TLiveOmni.Sched
open PySeq
open Vllm (Feature Worker CacheOk executeMmEncoder gatherFeatures Gathered)

/-- What the scheduler's process sends to the worker. -/
inductive Message where
  | execute (out : SchedulerOutput)
  | resetEncoderCache

section Worker
variable {E : Type} (sameFields : Feature → Feature → Bool) (encode : String → List E)

/-- `_update_states` and `_execute_mm_encoder`: what is freed goes first, then the outputs of the
scheduled inputs are stored. -/
def encodeScheduled (w : Worker E) (out : SchedulerOutput) : Worker E :=
  executeMmEncoder sameFields encode
    ⟨w.labels,out.freeEncoderMmHashes.foldl (fun cache h => Function.update cache h none)
      w.encoderCache⟩ (out.scheduled.flatMap Scheduled.encoderInputs)

/-- `_gather_mm_embeddings` for one request. -/
def gatherScheduled (encoderCache : String → Option (List E)) (x : Scheduled) :
    Py (List (List E) × List Bool) :=
  gatherFeatures encoderCache x.request.numComputedTokens x.numNewTokens.toNat x.request.mmFeatures
    ([],List.replicate x.numNewTokens.toNat false)

/-- `execute_model` up to the embeddings of the batch. -/
def executeModel (w : Worker E) (out : SchedulerOutput) :
    Py (List (List (List E) × List Bool) × Worker E) := do
  let w := encodeScheduled sameFields encode w out
  let gathered ← out.scheduled.mapM (gatherScheduled w.encoderCache)
  pure (gathered,w)

/-- The rows that belong to the scheduled tokens of a request, and their places. -/
def ownRows (x : Scheduled) : List (List E) × List Bool :=
  ((x.request.mmFeatures.filter
      (·.touches x.request.numComputedTokens x.numNewTokens.toNat)).map fun f =>
      f.slice x.request.numComputedTokens x.numNewTokens.toNat (encode f.identifier),
    (List.range' x.request.numComputedTokens x.numNewTokens.toNat).map fun i =>
      x.request.mmFeatures.any (·.embedsAt i))

end Worker

/-- The two processes and the messages on their way. -/
structure System (K E : Type) where
  scheduler : Scheduler K
  queue : List Message
  executed : List SchedulerOutput
  worker : Worker E

section Steps
variable {K E : Type} (cfg : SchedulerConfig) (kvm : KvCacheManager K) (order : SetOrder)
  (size : String → Nat) (sameFields : Feature → Feature → Bool) (encode : String → List E)

/-- Before the first request. -/
def System.init (kv : K) : System K E :=
  ⟨⟨kv,.init cfg.encoderCacheSize,[],[],[],[],.unpaused⟩,[],[],.init⟩

/-- What can happen next. Embedding the gathered rows may change the worker's labels. -/
inductive System.Step : System K E → System K E → Prop
  | add {σ : System K E} {r : Request} {s : Scheduler K} : r.Ok cfg size → r.Fresh →
      addRequest cfg r σ.scheduler = .ok s → Step σ { σ with scheduler := s }
  | schedule {σ : System K E} {out : SchedulerOutput} {s : Scheduler K} :
      schedule cfg kvm order σ.scheduler = .ok (out,s) →
      Step σ { σ with scheduler := s, queue := σ.queue ++ [.execute out] }
  | execute {σ : System K E} {out : SchedulerOutput} {queue : List Message}
      {gathered : List (List (List E) × List Bool)} {w : Worker E} (labels : Vllm.Labels) :
      σ.queue = .execute out :: queue →
      executeModel sameFields encode σ.worker out = .ok (gathered,w) →
      Step σ { σ with
        queue := queue
        executed := σ.executed ++ [out]
        worker := ⟨labels,w.encoderCache⟩ }
  | resetWorker {σ : System K E} {queue : List Message} :
      σ.queue = .resetEncoderCache :: queue →
      Step σ { σ with queue := queue, worker := ⟨σ.worker.labels,fun _ => none⟩ }
  | update {σ : System K E} {out : SchedulerOutput} {executed : List SchedulerOutput}
      {s : Scheduler K} (sampled : String → List Bool) : σ.executed = out :: executed →
      updateFromOutput cfg kvm order out sampled σ.scheduler = .ok s →
      Step σ { σ with scheduler := s, executed := executed }
  | finish (σ : System K E) (requestIds : List String) :
      Step σ { σ with scheduler := finishRequests kvm order requestIds σ.scheduler }
  | resetPrefixCache {σ : System K E} {b : Bool} {s : Scheduler K} (resetRunningRequests : Bool) :
      resetPrefixCache cfg kvm order resetRunningRequests σ.scheduler = .ok (b,s) →
      Step σ { σ with scheduler := s }
  | resetEncoderCache (σ : System K E) :
      Step σ { σ with
        scheduler := resetEncoderCache σ.scheduler
        queue := σ.queue ++ [.resetEncoderCache] }
  | pause (σ : System K E) (pauseState : PauseState) :
      Step σ { σ with scheduler := setPauseState pauseState σ.scheduler }

/-- Any number of steps from the start. -/
def System.Reachable (kv : K) (σ : System K E) : Prop :=
  Relation.ReflTransGen (System.Step cfg kvm order size sameFields encode) (.init cfg kv) σ

end Steps

section Keys
variable {E : Type} {encode : String → List E} {sameFields : Feature → Feature → Bool}
  {cache : String → Option (List E)}

theorem isSome_free (hashes : List String) (h : String) :
    (hashes.foldl (fun cache h => Function.update cache h none) cache h).isSome ↔
      (cache h).isSome ∧ h ∉ hashes := by
  induction hashes generalizing cache with
  | nil => simp
  | cons k hashes ih =>
    rw [List.foldl_cons,ih]
    by_cases hk : h = k
    · simp [hk]
    · rw [Function.update_of_ne hk]
      simp [hk]

theorem isSome_store (items : List Feature) (h : String) :
    ((items.zip (items.map fun f => encode f.identifier)).foldl
      (fun (cache : String → Option (List E)) (x : Feature × List E) =>
        Function.update cache x.1.identifier (some x.2)) cache h).isSome ↔
      (cache h).isSome ∨ ∃ f ∈ items, f.identifier = h := by
  induction items generalizing cache with
  | nil => simp
  | cons f items ih =>
    rw [List.map_cons,List.zip_cons_cons,List.foldl_cons,ih]
    by_cases hf : h = f.identifier
    · simp [hf]
    · rw [Function.update_of_ne hf]
      simp [Ne.symm hf]

/-- Executing an output changes the worker's keys as the output says. -/
theorem encodeScheduled_keys (w : Worker E) (out : SchedulerOutput) (h : String) :
    ((encodeScheduled sameFields encode w out).encoderCache h).isSome ↔
      (w.encoderCache h).isSome ∧ h ∉ out.freeEncoderMmHashes ∨
        ∃ x ∈ out.scheduled, ∃ f ∈ x.encoderInputs, f.identifier = h := by
  simp only [encodeScheduled,executeMmEncoder,Vllm.encodeBatches_group]
  rw [isSome_store,isSome_free]
  refine or_congr_right ?_
  constructor
  · rintro ⟨f,hf,heq⟩
    obtain ⟨x,hx,hf⟩ := List.mem_flatMap.mp hf
    exact ⟨x,hx,f,hf,heq⟩
  · rintro ⟨x,hx,f,hf,heq⟩
    exact ⟨f,List.mem_flatMap.mpr ⟨x,hx,hf⟩,heq⟩

theorem encodeScheduled_cacheOk {w : Worker E} (hc : CacheOk encode w.encoderCache)
    (out : SchedulerOutput) :
    CacheOk encode (encodeScheduled sameFields encode w out).encoderCache := by
  simp only [encodeScheduled,executeMmEncoder,Vllm.encodeBatches_group]
  exact (hc.free _).store _

/-- The loop over the features ends without an exception if everything that is needed is there. -/
theorem gatherFeatures_returns {features : List Feature} {numComputedTokens n : Nat}
    {acc : List (List E) × List Bool} (hn : 0 < n) (hpos : ∀ f ∈ features, 0 < f.length)
    (hcached : ∀ f ∈ features, f.touches numComputedTokens n → (cache f.identifier).isSome) :
    ∃ r, gatherFeatures cache numComputedTokens n features acc = .ok r := by
  induction features generalizing acc with
  | nil => exact ⟨acc,rfl⟩
  | cons f features ih =>
    have hrest := fun acc => @ih acc (fun g hg => hpos g (by simp [hg]))
      fun g hg => hcached g (by simp [hg])
    have hlen := hpos f (by simp)
    rw [gatherFeatures]
    by_cases hbehind : numComputedTokens+n ≤ f.offset
    · rw [if_pos hbehind]
      exact ⟨_,rfl⟩
    rw [if_neg hbehind]
    by_cases hdone : f.offset+f.length ≤ numComputedTokens
    · rw [if_pos hdone]
      exact hrest acc
    rw [if_neg hdone]
    have hlt : numComputedTokens-f.offset < min (numComputedTokens+n-f.offset) f.length := by omega
    simp only [raiseIf_of_not (not_not.mpr hlt),ok_bind,Vllm.Feature.getEmbedsIndicesInRange_eq hlt]
    split
    · exact hrest _
    · rename_i hne
      obtain ⟨rows,hrows⟩ := Option.isSome_iff_exists.mp
        (hcached f (by simp) (Vllm.Feature.touches_iff_ne.mpr hne))
      rw [hrows]
      exact hrest _

/-- From a cache of encoder outputs that has what is needed, a request gathers its own rows. -/
theorem gatherScheduled_eq (hc : CacheOk encode cache) {size : String → Nat} {x : Scheduled}
    (hf : Features size x.request.mmFeatures) (hn : 0 < x.numNewTokens)
    (hcached : ∀ f ∈ x.request.mmFeatures, f.touches x.request.numComputedTokens
      x.numNewTokens.toNat → (cache f.identifier).isSome) :
    gatherScheduled cache x = .ok (ownRows encode x) := by
  have hinit : List.replicate x.numNewTokens.toNat false = (List.range' x.request.numComputedTokens
      x.numNewTokens.toNat).map fun _ => false := by
    simp [List.map_const']
  rw [gatherScheduled,hinit]
  obtain ⟨r,hr⟩ := @gatherFeatures_returns E cache x.request.mmFeatures
    x.request.numComputedTokens x.numNewTokens.toNat
    ([],(List.range' x.request.numComputedTokens x.numNewTokens.toNat).map fun _ => false)
    (by omega) hf.pos hcached
  have hg := Vllm.gatherFeatures_gathered hf.sorted hr
  rw [hr]
  congr 1
  refine Prod.ext ?_ ?_
  · rw [hg.chunks,List.nil_append,ownRows]
    refine List.map_congr_left fun f hf => ?_
    obtain ⟨hmem,ht⟩ := List.mem_filter.mp hf
    rw [hc.getD (hcached f hmem ht)]
  · simp [hg.mask,ownRows]

end Keys

section Runs
variable {K E : Type} {cfg : SchedulerConfig} {kvm : KvCacheManager K} {order : SetOrder}
  {size : String → Nat} {sameFields : Feature → Feature → Bool} {encode : String → List E}
  {kv : K} {σ σ' : System K E}

/-- The messages lead from the keys the worker has to those the scheduler counts on. -/
def Leads : (String → Prop) → List Message → (String → Prop) → Prop
  | keys, [], last => ∀ h, keys h ↔ last h
  | keys, .execute out :: queue, last => ∃ next, out.Served keys next ∧ Leads next queue last
  | _, .resetEncoderCache :: queue, last => Leads (fun _ => False) queue last

theorem Leads.congr {keys last last' : String → Prop} {queue : List Message}
    (h : Leads keys queue last) (hlast : ∀ h, last h ↔ last' h) : Leads keys queue last' := by
  induction queue generalizing keys with
  | nil => exact fun k => (h k).trans (hlast k)
  | cons m queue ih =>
    cases m with
    | execute out =>
      obtain ⟨next,hserved,h⟩ := h
      exact ⟨next,hserved,ih h⟩
    | resetEncoderCache => exact ih h

theorem SchedulerOutput.Served.congr {before before' after : String → Prop} {out : SchedulerOutput}
    (h : out.Served before after) (hb : ∀ k, before k ↔ before' k) : out.Served before' after :=
  ⟨fun k => by rw [h.keys,hb],h.covered⟩

theorem Leads.execute {keys last next : String → Prop} {queue : List Message}
    {out : SchedulerOutput} (h : Leads keys queue last) (hout : out.Served last next) :
    Leads keys (queue ++ [.execute out]) next := by
  induction queue generalizing keys with
  | nil => exact ⟨next,hout.congr fun k => (h k).symm,fun _ => Iff.rfl⟩
  | cons m queue ih =>
    cases m with
    | execute out' =>
      obtain ⟨next',hserved,h⟩ := h
      exact ⟨next',hserved,ih h⟩
    | resetEncoderCache => exact ih h

theorem Leads.reset {keys last : String → Prop} {queue : List Message} (h : Leads keys queue last) :
    Leads keys (queue ++ [.resetEncoderCache]) fun _ => False := by
  induction queue generalizing keys with
  | nil => exact fun _ => Iff.rfl
  | cons m queue ih =>
    cases m with
    | execute out =>
      obtain ⟨next,hserved,h⟩ := h
      exact ⟨next,hserved,ih h⟩
    | resetEncoderCache => exact ih h

/-- The invariant of the system. -/
structure System.Ok (cfg : SchedulerConfig) (size : String → Nat) (encode : String → List E)
    (σ : System K E) : Prop where
  scheduler : σ.scheduler.Ok cfg size
  sent : ∀ out, .execute out ∈ σ.queue → out.Ok cfg size
  executed : ∀ out ∈ σ.executed, out.Ok cfg size
  cache : CacheOk encode σ.worker.encoderCache
  leads : cfg.policy = .fcfs → Leads (fun h => (σ.worker.encoderCache h).isSome) σ.queue
    (· ∈ σ.scheduler.cache.cached)

theorem System.Ok.init (cfg : SchedulerConfig) (kv : K) :
    (System.init cfg kv : System K E).Ok cfg size encode := by
  refine ⟨⟨.init _,rfl,⟨by simp [System.init],by simp [System.init],by simp [System.init],
    by simp [System.init],by simp [System.init]⟩,fun h x hx => ?_,rfl,by simp [System.init],
    by simp [System.init]⟩,
    by simp [System.init],by simp [System.init],Vllm.cacheOk_init,fun _ h => ?_⟩
  · exact absurd (EncoderCacheManager.mem_cached_of_refs hx) Dict.not_mem_empty
  · simp [System.init,Worker.init,EncoderCacheManager.init]

/-- A scheduler that keeps its keys keeps the invariant. -/
theorem System.Ok.rescheduled (h : σ.Ok cfg size encode) {s : Scheduler K} (hs : s.Ok cfg size)
    (hkeys : ∀ k, k ∈ s.cache.cached ↔ k ∈ σ.scheduler.cache.cached) :
    ({ σ with scheduler := s } : System K E).Ok cfg size encode :=
  ⟨hs,h.sent,h.executed,h.cache,fun hpol => (h.leads hpol).congr fun k => (hkeys k).symm⟩

theorem executeModel_worker {w w' : Worker E} {out : SchedulerOutput}
    {gathered : List (List (List E) × List Bool)}
    (h : executeModel sameFields encode w out = .ok (gathered,w')) :
    w' = encodeScheduled sameFields encode w out := by
  obtain ⟨_,-,h⟩ := bind_eq_ok.mp h
  cases h
  rfl

theorem System.Step.ok (hkvm : kvm.Ok) (hstep : System.Step cfg kvm order size sameFields encode σ σ')
    (h : σ.Ok cfg size encode) : σ'.Ok cfg size encode := by
  cases hstep with
  | add hr hfresh hadd =>
    obtain ⟨hs,hcache⟩ := addRequest_ok h.scheduler hr hfresh hadd
    exact h.rescheduled hs fun k => by rw [hcache]
  | schedule hsched =>
    obtain ⟨hout,hs,hserved⟩ := (schedule_spec order hkvm h.scheduler).of_eq hsched
    refine ⟨hs,fun out' hmem => ?_,h.executed,h.cache,fun hpol => (h.leads hpol).execute (hserved hpol)⟩
    rcases List.mem_append.mp hmem with hmem | hmem
    · exact h.sent out' hmem
    · cases List.mem_singleton.mp hmem
      exact hout
  | execute labels hqueue hexec =>
    have hw := executeModel_worker hexec
    refine ⟨h.scheduler,fun out' hmem => h.sent out' (by simp [hqueue,hmem]),fun out' hmem => ?_,?_,
      fun hpol => ?_⟩
    · rcases List.mem_append.mp hmem with hmem | hmem
      · exact h.executed out' hmem
      · rw [List.mem_singleton.mp hmem]
        exact h.sent _ (by simp [hqueue])
    · rw [hw]
      exact encodeScheduled_cacheOk h.cache _
    · have hleads := h.leads hpol
      rw [hqueue] at hleads
      obtain ⟨next,hserved,hleads⟩ := hleads
      have hnext : next = fun k =>
          ((encodeScheduled sameFields encode σ.worker _).encoderCache k).isSome = true :=
        funext fun k => propext ((hserved.keys k).trans (encodeScheduled_keys _ _ k).symm)
      rw [hw]
      rwa [hnext] at hleads
  | resetWorker hqueue =>
    refine ⟨h.scheduler,fun out' hmem => h.sent out' (by simp [hqueue,hmem]),h.executed,?_,
      fun hpol => ?_⟩
    · intro k v hk
      cases hk
    · have hleads := h.leads hpol
      rw [hqueue] at hleads
      have hnone : (fun k => ((fun _ => none : String → Option (List E)) k).isSome = true) =
          fun _ => False := by
        funext k
        simp
      rw [hnone]
      exact hleads
  | update sampled hexecuted hupdate =>
    obtain ⟨hs,hkeys⟩ := (updateFromOutput_ok kvm order h.scheduler (fun x hx =>
      ((h.executed _ (by simp [hexecuted])).pos x hx).1) sampled).of_eq hupdate
    have hok := h.rescheduled hs hkeys
    exact ⟨hok.scheduler,hok.sent,fun out' hmem => h.executed out' (by simp [hexecuted,hmem]),
      hok.cache,hok.leads⟩
  | finish requestIds =>
    obtain ⟨hs,hkeys⟩ := finishRequests_ok kvm order requestIds h.scheduler
    exact h.rescheduled hs hkeys
  | resetPrefixCache resetRunningRequests hreset =>
    obtain ⟨hs,hkeys⟩ := resetPrefixCache_ok h.scheduler hreset
    exact h.rescheduled hs hkeys
  | resetEncoderCache =>
    obtain ⟨hs,hkeys⟩ := resetEncoderCache_ok h.scheduler
    refine ⟨hs,fun out' hmem => ?_,h.executed,h.cache,fun hpol =>
      ((h.leads hpol).reset).congr fun k => ?_⟩
    · rcases List.mem_append.mp hmem with hmem | hmem
      · exact h.sent out' hmem
      · cases List.mem_singleton.mp hmem
    · exact ⟨False.elim,hkeys k⟩
  | pause pauseState =>
    exact h.rescheduled (setPauseState_ok pauseState h.scheduler) fun _ => Iff.rfl

theorem System.Reachable.ok (hkvm : kvm.Ok)
    (h : System.Reachable cfg kvm order size sameFields encode kv σ) : σ.Ok cfg size encode := by
  induction h with
  | refl => exact .init cfg kv
  | tail _ hstep ih => exact hstep.ok hkvm ih

end Runs
end TLiveOmni.Sched
