import TLiveOmni.EncoderSchedule

/-! `Scheduler`: one call of `schedule` gives tokens to the running requests, preempts some of
them if the KV cache is full, admits waiting ones, and tells the workers what to encode and what
to forget. -/
set_option autoImplicit false

namespace TLiveOmni.Sched
open Vllm (Feature)

inductive SchedulingPolicy where
  | fcfs | priority
  deriving DecidableEq, Repr

inductive PauseState where
  | unpaused | pausedNew | pausedAll
  deriving DecidableEq, Repr

structure SchedulerConfig where
  policy : SchedulingPolicy
  maxNumScheduledTokens : Nat
  maxNumEncoderInputTokens : Nat
  encoderCacheSize : Nat
  maxNumRunningReqs : Nat
  maxModelLen : Nat
  longPrefillTokenThreshold : Nat
  enableChunkedPrefill : Bool
  disableChunkedMmInput : Bool
  schedulerReserveFullIsl : Bool
  mambaBlockSize : Option Nat

/-- The KV cache manager: what the scheduler asks of it. The blocks it hands out are part of its
own state. -/
structure KvCacheManager (K : Type) where
  newStepStarts : K → K
  getComputedBlocks : K → Request → Nat × K
  canFitFullSequence : K → Request → Nat → Bool
  allocateSlots : K → Request → Int → Nat → Option K
  free : K → Request → K
  resetPrefixCache : K → Bool × K

/-- How a request got its tokens. -/
inductive Origin where
  | running | new | resumed
  deriving DecidableEq, Repr

/-- A scheduled request as it was before the step, with its share of the step. -/
structure Scheduled where
  request : Request
  numNewTokens : Int
  encoderInputs : List Feature
  origin : Origin

structure SchedulerOutput where
  scheduled : List Scheduled
  preemptedReqIds : List String
  finishedReqIds : List String
  freeEncoderMmHashes : List String

structure Scheduler (K : Type) where
  kv : K
  cache : EncoderCacheManager
  running : List Request
  waiting : List Request
  prevStepScheduledReqIds : List String
  finishedReqIds : List String
  pauseState : PauseState

/-- The local variables of `schedule`. -/
structure Pass (K : Type) where
  kv : K
  cache : EncoderCacheManager
  running : List Request
  waiting : List Request
  scheduled : List Scheduled
  preempted : List Request
  tokenBudget : Int
  encoderComputeBudget : Int

/-- `__lt__`. -/
def Request.before (r r' : Request) : Bool :=
  if r.priority ≠ r'.priority then decide (r.priority < r'.priority)
  else if r.arrivalTime ≠ r'.arrivalTime then decide (r.arrivalTime < r'.arrivalTime)
  else decide (r.requestId < r'.requestId)

/-- A heap of requests, as the list in which they are popped. -/
def insertByPriority (r : Request) : List Request → List Request
  | [] => [r]
  | r' :: queue => if r.before r' then r :: r' :: queue else r' :: insertByPriority r queue

/-- `add_request` of the queue. -/
def addToQueue (policy : SchedulingPolicy) (queue : List Request) (r : Request) : List Request :=
  match policy with
  | .fcfs => queue ++ [r]
  | .priority => insertByPriority r queue

/-- `prepend_request` of the queue. -/
def prependRequest (policy : SchedulingPolicy) (r : Request) (queue : List Request) :
    List Request :=
  match policy with
  | .fcfs => r :: queue
  | .priority => insertByPriority r queue

/-- A request is the object with its id. -/
def removeRequest (requestId : String) (queue : List Request) : List Request :=
  queue.filter fun r => r.requestId ≠ requestId

/-- A round of `max` with the key `(priority, arrival_time)`: an earlier one of two equals stays. -/
def leastUrgent (best : Option Request) (r : Request) : Option Request :=
  match best with
  | none => some r
  | some b =>
    if b.priority < r.priority ∨ b.priority = r.priority ∧ b.arrivalTime < r.arrivalTime then some r
    else some b

/-- Whom to preempt: the last one, or the first among those of the lowest priority. -/
def selectVictim (policy : SchedulingPolicy) (running : List Request) : Option Request :=
  match policy with
  | .fcfs => running.getLast?
  | .priority => running.foldl leastUrgent none

/-- `_mamba_block_aligned_split`. -/
def mambaBlockAlignedSplit (blockSize : Nat) (r : Request) (numNewTokens : Int)
    (numNewLocalComputedTokens : Nat) : Int :=
  let numComputedTokens : Int := r.numComputedTokens+numNewLocalComputedTokens
  if numComputedTokens < max (r.numPromptTokens : Int) (r.numTokens-1) then
    let lastCachePosition : Int := r.numTokens-r.numTokens%blockSize
    if numComputedTokens+numNewTokens < lastCachePosition then numNewTokens/blockSize*blockSize
    else if numComputedTokens < lastCachePosition ∧
        lastCachePosition < numComputedTokens+numNewTokens then lastCachePosition-numComputedTokens
    else numNewTokens
  else numNewTokens

section Schedule
variable {K : Type} (cfg : SchedulerConfig) (kvm : KvCacheManager K) (order : SetOrder)

/-- `if self.need_mamba_block_aligned_split`. -/
def alignedSplit (r : Request) (numNewTokens : Int) (numNewLocalComputedTokens : Nat) : Int :=
  match cfg.mambaBlockSize with
  | none => numNewTokens
  | some blockSize => mambaBlockAlignedSplit blockSize r numNewTokens numNewLocalComputedTokens

/-- `if 0 < long_prefill_token_threshold < num_new_tokens`. -/
def cutLongPrefill (numNewTokens : Int) : Int :=
  if 0 < cfg.longPrefillTokenThreshold ∧ cfg.longPrefillTokenThreshold < numNewTokens then
    cfg.longPrefillTokenThreshold
  else numNewTokens

/-- A request that goes back to the waiting ones. -/
def Request.preempt (r : Request) : Request :=
  { r with status := .preempted, numComputedTokens := 0 }

/-- A request that starts to run with some tokens computed. -/
def Request.start (r : Request) (numComputedTokens : Nat) : Request :=
  { r with status := .running, numComputedTokens := numComputedTokens }

/-- `_preempt_request`. -/
def preemptRequest (victim : Request) (p : Pass K) : Except Fault (Pass K) := do
  check (victim.status = .running) .assertionError
  pure { p with
    kv := kvm.free p.kv victim
    cache := p.cache.free victim.requestId order victim.mmFeatures
    waiting := prependRequest cfg.policy victim.preempt p.waiting
    preempted := p.preempted ++ [victim] }

/-- A victim that has its tokens already gives them back. -/
def unschedule (victim : Request) (p : Pass K) : Pass K × Nat :=
  match p.scheduled.find? fun s => s.request.requestId = victim.requestId with
  | none => (p,0)
  | some s => ({ p with
      scheduled := p.scheduled.filter fun s => s.request.requestId ≠ victim.requestId
      tokenBudget := p.tokenBudget+s.numNewTokens
      encoderComputeBudget := p.encoderComputeBudget+numEmbeds s.encoderInputs },1)

/-- `self.running.remove(preempted_req)`, with what the policy does about its tokens. -/
def takeVictim (victim : Request) (p : Pass K) : Pass K × Nat :=
  let p := { p with running := removeRequest victim.requestId p.running }
  match cfg.policy with
  | .fcfs => (p,0)
  | .priority => unschedule victim p

/-- The loop around `allocate_slots`: it preempts until there is room, or until the request has
preempted itself. The result says which, and how far the index has moved back. -/
def allocateOrPreempt (r : Request) (numNewTokens : Int) :
    Nat → Nat → Pass K → Except Fault (Bool × Nat × Pass K)
  | 0, reqIndex, p =>
    match kvm.allocateSlots p.kv r numNewTokens 0 with
    | some kv => .ok (true,reqIndex,{ p with kv := kv })
    | none => .error .indexError
  | rounds+1, reqIndex, p =>
    match kvm.allocateSlots p.kv r numNewTokens 0 with
    | some kv => .ok (true,reqIndex,{ p with kv := kv })
    | none =>
      match selectVictim cfg.policy p.running with
      | none => .error .indexError
      | some victim => do
        let back := takeVictim cfg victim p
        let p ← preemptRequest cfg kvm order victim back.1
        if victim.requestId = r.requestId then pure (false,reqIndex-back.2,p)
        else allocateOrPreempt r numNewTokens rounds (reqIndex-back.2) p

/-- `for i in encoder_inputs_to_schedule: allocate(request, i)`. -/
def allocateInputs (requestId : String) (inputs : List Feature) (cache : EncoderCacheManager) :
    Except Fault EncoderCacheManager :=
  inputs.foldlM (fun cache f => cache.allocate requestId f) cache

/-- The end of an iteration: the request gets its tokens. -/
def scheduleRequest (r : Request) (numNewTokens : Int) (e : EncoderPass) (origin : Origin)
    (p : Pass K) : Except Fault (Pass K) := do
  let cache ← allocateInputs r.requestId e.encoderInputs p.cache
  pure { p with
    cache := cache
    scheduled := p.scheduled ++ [⟨r,numNewTokens,e.encoderInputs,origin⟩]
    tokenBudget := p.tokenBudget-numNewTokens
    encoderComputeBudget :=
      if e.encoderInputs = [] then p.encoderComputeBudget else e.encoderComputeBudget }

/-- The loop over the running requests, of which there are at most as many as rounds. -/
def scheduleRunning : Nat → Nat → Pass K → Except Fault (Pass K)
  | 0, _, p => .ok p
  | rounds+1, reqIndex, p =>
    match p.running[reqIndex]? with
    | none => .ok p
    | some r =>
      if p.tokenBudget ≤ 0 then .ok p
      else do
        let numNewTokens := min (min (cutLongPrefill cfg ((r.numTokens : Int)-r.numComputedTokens))
          p.tokenBudget) ((cfg.maxModelLen : Int)-1-r.numComputedTokens)
        let e ← tryScheduleEncoderInputs cfg.disableChunkedMmInput r.requestId r.numComputedTokens
          r.mmFeatures numNewTokens p.encoderComputeBudget p.cache
        let p := { p with cache := e.cache }
        let numNewTokens := alignedSplit cfg r e.numNewTokens 0
        if numNewTokens = 0 then scheduleRunning rounds (reqIndex+1) p
        else do
          let room ← allocateOrPreempt cfg kvm order r numNewTokens p.running.length reqIndex p
          if room.1 then do
            let p ← scheduleRequest r numNewTokens e .running room.2.2
            scheduleRunning rounds (room.2.1+1) p
          else pure room.2.2

/-- Where a waiting request comes from. -/
def originOf : RequestStatus → Except Fault Origin
  | .waiting => .ok .new
  | .preempted => .ok .resumed
  | status => .error (.runtimeError s!"Invalid request status: {status.str}")

/-- The loop over the waiting requests, which are the list: each is admitted, or ends it. -/
def scheduleWaiting : List Request → Pass K → Except Fault (Pass K)
  | [], p => .ok p
  | r :: queue, p =>
    if p.tokenBudget ≤ 0 ∨ p.running.length = cfg.maxNumRunningReqs then .ok p
    else do
      let found := if r.numComputedTokens = 0 then kvm.getComputedBlocks p.kv r else (0,p.kv)
      let p := { p with kv := found.2 }
      let numComputedTokens := r.numComputedTokens+found.1
      check (r.numComputedTokens = 0 → numComputedTokens ≤ r.numTokens) .assertionError
      let numNewTokens := cutLongPrefill cfg ((r.numTokens : Int)-numComputedTokens)
      if ¬ cfg.enableChunkedPrefill ∧ p.tokenBudget < numNewTokens then pure p
      else do
        let numNewTokens := min numNewTokens p.tokenBudget
        check (0 < numNewTokens) .assertionError
        let e ← tryScheduleEncoderInputs cfg.disableChunkedMmInput r.requestId numComputedTokens
          r.mmFeatures numNewTokens p.encoderComputeBudget p.cache
        let p := { p with cache := e.cache }
        let numNewTokens := alignedSplit cfg r e.numNewTokens found.1
        if e.numNewTokens = 0 ∨ numNewTokens = 0 then pure p
        else
          let released := { p with cache := p.cache.free r.requestId order r.mmFeatures }
          if cfg.schedulerReserveFullIsl ∧ ¬ kvm.canFitFullSequence p.kv r found.1 then pure released
          else match kvm.allocateSlots p.kv r numNewTokens found.1 with
            | none => pure released
            | some kv => do
              let origin ← originOf r.status
              let p ← scheduleRequest (r.start numComputedTokens) numNewTokens e origin
                { p with
                  kv := kv
                  running := p.running ++ [r.start numComputedTokens]
                  waiting := queue }
              scheduleWaiting queue p

/-- Nobody is admitted in a step that preempts, or while the scheduler pauses. -/
def admitWaiting (pauseState : PauseState) (p : Pass K) : Except Fault (Pass K) :=
  if p.preempted = [] ∧ pauseState = .unpaused then scheduleWaiting cfg kvm order p.waiting p
  else .ok p

/-- `_free_encoder_inputs`: what the tokens computed so far have used up. -/
def freeEncoderInputs (r : Request) (cache : EncoderCacheManager) : EncoderCacheManager :=
  (order.iter (cache.getCachedInputIds r.mmFeatures)).foldl (fun cache f =>
    if f.offset+f.length ≤ r.numComputedTokens then cache.freeEncoderInput r.requestId f
    else cache) cache

/-- `num_computed_tokens += num_scheduled_token`. -/
def Scheduled.after (s : Scheduled) : Request :=
  { s.request with
    numComputedTokens := (s.request.numComputedTokens+s.numNewTokens).toNat }

def countScheduled (scheduled : List Scheduled) (r : Request) : Request :=
  match scheduled.find? fun s => s.request.requestId = r.requestId with
  | none => r
  | some s => s.after

/-- `_update_after_schedule`. -/
def updateAfterSchedule (scheduled : List Scheduled) (running : List Request)
    (cache : EncoderCacheManager) : List Request × EncoderCacheManager :=
  (running.map (countScheduled scheduled),
    scheduled.foldl (fun cache s => freeEncoderInputs order s.after cache) cache)

/-- `schedule`. -/
def schedule (s : Scheduler K) : Except Fault (SchedulerOutput × Scheduler K) := do
  let tokenBudget : Nat := if s.pauseState = .pausedAll then 0 else cfg.maxNumScheduledTokens
  let p ← scheduleRunning cfg kvm order s.running.length 0 ⟨kvm.newStepStarts s.kv,s.cache,s.running,
    s.waiting,[],[],tokenBudget,cfg.maxNumEncoderInputTokens⟩
  let p ← admitWaiting cfg kvm order s.pauseState p
  check ((p.scheduled.map Scheduled.numNewTokens).sum ≤ cfg.maxNumScheduledTokens) .assertionError
  check (0 ≤ p.tokenBudget) .assertionError
  check (p.running.length ≤ cfg.maxNumRunningReqs) .assertionError
  check (p.scheduled.length ≤ p.running.length) .assertionError
  check (∀ x ∈ p.scheduled, x.origin = .resumed →
    x.request.requestId ∉ s.prevStepScheduledReqIds) .assertionError
  let freed := p.cache.getFreedMmHashes
  let updated := updateAfterSchedule order p.scheduled p.running freed.2
  pure (⟨p.scheduled,p.preempted.map Request.requestId,s.finishedReqIds,freed.1⟩,
    { s with
      kv := p.kv
      cache := updated.2
      running := updated.1
      waiting := p.waiting
      prevStepScheduledReqIds := p.scheduled.map fun x => x.request.requestId
      finishedReqIds := [] })

end Schedule
end TLiveOmni.Sched
