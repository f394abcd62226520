import Mathlib.Algebra.Order.BigOperators.Group.List
import TLiveOmni.SchedulerEvents

/-! The encoder cache stops nobody: if the features of each request share no token, and each of
them can be encoded and held alone, a step with anything to do does something. -/
set_option autoImplicit false

namespace TLiveOmni.Sched
open Vllm (Feature)

/-- A request whose features lie apart in its prompt, and that the encoder and its cache have room
for, one at a time. -/
structure Request.Fits (cfg : SchedulerConfig) (r : Request) : Prop where
  apart : Apart r.mmFeatures
  within : ∀ f ∈ r.mmFeatures, f.offset+f.length ≤ r.numPromptTokens
  small : ∀ f ∈ r.mmFeatures, f.getNumEmbeds ≤ cfg.encoderCacheSize ∧
    f.getNumEmbeds ≤ cfg.maxNumEncoderInputTokens

/-- The KV cache has room whenever it is asked. -/
def KvCacheManager.Roomy {K : Type} (kvm : KvCacheManager K) : Prop :=
  ∀ kv r c, kvm.canFitFullSequence kv r c ∧ ∀ n, (kvm.allocateSlots kv r n c).isSome

/-- What lets a step go on: prompts may be cut, tokens may be scheduled, and the KV cache is not
what is short. -/
structure SchedulerConfig.Flows {K : Type} (cfg : SchedulerConfig) (kvm : KvCacheManager K) :
    Prop where
  chunked : cfg.enableChunkedPrefill
  tokens : 0 < cfg.maxNumScheduledTokens
  whole : cfg.mambaBlockSize = none
  roomy : kvm.Roomy

/-- The request's next token is that of a feature which is missing and has no room. -/
def Blocked (cache : EncoderCacheManager) (encoderComputeBudget : Int) (numComputedTokens : Nat)
    (r : Request) : Prop :=
  ∃ f ∈ r.mmFeatures, Blocks numComputedTokens cache encoderComputeBudget f

section Progress
variable {K : Type} {cfg : SchedulerConfig} {kvm : KvCacheManager K} {order : SetOrder}
  {size : String → Nat} {p p' : Pass K} {r : Request} {n : Int} {e : EncoderPass}

/-- A request that asks for tokens and gets none is blocked, and has changed nothing. -/
theorem tryScheduleEncoderInputs_none {numComputedTokens : Nat} (hf : Features size r.mmFeatures)
    (hapart : Apart r.mmFeatures) {requestId : String}
    (heq : tryScheduleEncoderInputs cfg.disableChunkedMmInput requestId numComputedTokens
      r.mmFeatures n p.encoderComputeBudget p.cache = .ok e) (hn : 0 ≤ n)
    (hzero : e.numNewTokens = 0) : e.cache = p.cache ∧
      (0 < n → Blocked p.cache p.encoderComputeBudget numComputedTokens r) := by
  rw [tryScheduleEncoderInputs] at heq
  split at heq
  · cases heq
    exact ⟨rfl,fun hpos => absurd hzero hpos.ne'⟩
  · rename_i hsome
    have hpos : 0 < n := hn.lt_of_ne fun h => hsome (.inl h.symm)
    obtain ⟨hcache,hblocked⟩ := (scheduleInputs_reach hapart hf.pos (List.Sublist.refl _)
      ⟨fun _ => .inl,by simp,.inl ⟨rfl,rfl,rfl⟩⟩ hpos heq).2 hzero
    exact ⟨hcache,fun _ => hblocked⟩

theorem allocateOrPreempt_roomy (cfg : SchedulerConfig) (order : SetOrder) (hroomy : kvm.Roomy)
    (r : Request) (n : Int) (rounds i : Nat) (p : Pass K) : ∃ kv, allocateOrPreempt cfg kvm order r n rounds i p =
      .ok (true,i,{ p with kv := kv }) := by
  obtain ⟨kv,hkv⟩ := Option.isSome_iff_exists.mp ((hroomy p.kv r 0).2 n)
  cases rounds <;> exact ⟨kv,by rw [allocateOrPreempt,hkv]⟩

theorem scheduleRequest_scheduled {origin : Origin} (h : scheduleRequest r n e origin p = .ok p') :
    p'.scheduled = p.scheduled ++ [⟨r,n,e.encoderInputs,origin⟩] ∧ p'.preempted = p.preempted ∧
      p'.running = p.running ∧ p'.waiting = p.waiting := by
  obtain ⟨cache,-,h⟩ := Returns.exists_of_bind h
  cases h
  exact ⟨rfl,rfl,rfl,rfl⟩

/-- The tokens a running request asks for. -/
def askedRunning (cfg : SchedulerConfig) (p : Pass K) (r : Request) : Int :=
  min (min (cutLongPrefill cfg ((r.numTokens : Int)-r.numComputedTokens)) p.tokenBudget)
    ((cfg.maxModelLen : Int)-1-r.numComputedTokens)

/-- One iteration over the running requests, with room in the KV cache: the loop ends, or passes
the request over, or gives it its share. -/
theorem scheduleRunning_step (hroomy : kvm.Roomy) {rounds i : Nat}
    (heq : scheduleRunning cfg kvm order (rounds+1) i p = .ok p') :
    p' = p ∧ (p.running[i]? = none ∨ p.tokenBudget ≤ 0) ∨
    ∃ r e, p.running[i]? = some r ∧ tryScheduleEncoderInputs cfg.disableChunkedMmInput r.requestId
        r.numComputedTokens r.mmFeatures (askedRunning cfg p r) p.encoderComputeBudget p.cache =
          .ok e ∧
      (alignedSplit cfg r e.numNewTokens 0 = 0 ∧
        scheduleRunning cfg kvm order rounds (i+1) { p with cache := e.cache } = .ok p' ∨
      ∃ kv p₁, scheduleRequest r (alignedSplit cfg r e.numNewTokens 0) e .running
          { p with cache := e.cache, kv := kv } = .ok p₁ ∧
        scheduleRunning cfg kvm order rounds (i+1) p₁ = .ok p') := by
  rw [scheduleRunning] at heq
  cases hi : p.running[i]? with
  | none =>
    rw [hi] at heq
    cases heq
    exact .inl ⟨rfl,.inl rfl⟩
  | some r =>
    rw [hi] at heq
    change (if p.tokenBudget ≤ 0 then _ else _) = _ at heq
    split at heq
    · rename_i hbudget
      cases heq
      exact .inl ⟨rfl,.inr hbudget⟩
    · obtain ⟨e,he,heq⟩ := Returns.exists_of_bind heq
      refine .inr ⟨r,e,rfl,he,?_⟩
      simp only at heq
      split at heq
      · rename_i hzero
        exact .inl ⟨hzero,heq⟩
      · obtain ⟨kv,hkv⟩ := allocateOrPreempt_roomy cfg order hroomy r
          (alignedSplit cfg r e.numNewTokens 0) p.running.length i { p with cache := e.cache }
        rw [hkv] at heq
        change (scheduleRequest r _ e .running _ >>= _) = _ at heq
        obtain ⟨p₁,hp₁,heq⟩ := Returns.exists_of_bind heq
        exact .inr ⟨kv,p₁,hp₁,heq⟩

/-- With room in the KV cache nobody is preempted, and a share is never taken back. -/
theorem scheduleRunning_keeps (hroomy : kvm.Roomy) {rounds i : Nat}
    (heq : scheduleRunning cfg kvm order rounds i p = .ok p') :
    p'.preempted = p.preempted ∧ p'.running = p.running ∧ p'.waiting = p.waiting ∧
      p.scheduled <+: p'.scheduled := by
  induction rounds generalizing i p with
  | zero =>
    cases heq
    exact ⟨rfl,rfl,rfl,List.prefix_rfl⟩
  | succ rounds ih =>
    rcases scheduleRunning_step hroomy heq with ⟨rfl,-⟩ | ⟨r,e,-,-,⟨-,heq⟩ | ⟨kv,p₁,hp₁,heq⟩⟩
    · exact ⟨rfl,rfl,rfl,List.prefix_rfl⟩
    · exact ih (p := { p with cache := e.cache }) heq
    · obtain ⟨hscheduled,hpreempted,hrunning,hwaiting⟩ := scheduleRequest_scheduled hp₁
      obtain ⟨h₁,h₂,h₃,h₄⟩ := ih heq
      exact ⟨h₁.trans hpreempted,h₂.trans hrunning,h₃.trans hwaiting,
        (hscheduled ▸ List.prefix_append _ _).trans h₄⟩

/-- If the loop over the running requests gives no tokens, it has changed nothing, and every
request with tokens left is blocked. -/
theorem scheduleRunning_none (hcfg : cfg.Flows kvm) {rounds i : Nat} (hnone : p.scheduled = [])
    (hbudget : 0 < p.tokenBudget) (hok : ∀ r ∈ p.running, r.Ok cfg size ∧ r.Fits cfg)
    (heq : scheduleRunning cfg kvm order rounds i p = .ok p') (hnone' : p'.scheduled = []) :
    p' = p ∧ ∀ r ∈ (p.running.drop i).take rounds, r.numComputedTokens < r.numTokens →
      Blocked p.cache p.encoderComputeBudget r.numComputedTokens r := by
  induction rounds generalizing i with
  | zero =>
    cases heq
    exact ⟨rfl,by simp⟩
  | succ rounds ih =>
    rcases scheduleRunning_step hcfg.roomy heq with ⟨rfl,hstop⟩ | ⟨r,e,hi,he,⟨hzero,heq⟩ |
      ⟨kv,p₁,hp₁,heq⟩⟩
    · refine ⟨rfl,?_⟩
      rcases hstop with hi | hstop
      · simp [List.drop_eq_nil_of_le (List.getElem?_eq_none_iff.mp hi)]
      · omega
    · obtain ⟨hrok,hfits⟩ := hok r (List.mem_of_getElem? hi)
      rw [alignedSplit_none hcfg.whole] at hzero
      have hcomputed := hrok.computed
      have hshort := hrok.short
      obtain ⟨hcut,-,hcutpos⟩ := cutLongPrefill_le cfg
        (n := (r.numTokens : Int)-r.numComputedTokens) (by omega)
      have hasked : 0 ≤ askedRunning cfg p r := by
        rw [askedRunning]
        omega
      obtain ⟨hcache,hblocked⟩ := tryScheduleEncoderInputs_none hrok.features hfits.apart he
        hasked hzero
      rw [hcache] at heq
      obtain ⟨hsame,hrest⟩ := ih heq
      refine ⟨hsame,fun r' hr' hwork => ?_⟩
      obtain ⟨hlt,hget⟩ := List.getElem?_eq_some_iff.mp hi
      rw [List.drop_eq_getElem_cons hlt,List.take_succ_cons,hget] at hr'
      rcases List.mem_cons.mp hr' with rfl | hr'
      · refine hblocked ?_
        have := hcutpos (by omega)
        rw [askedRunning]
        omega
      · exact hrest r' hr' hwork
    · have hscheduled := (scheduleRequest_scheduled hp₁).1
      have hkept := (scheduleRunning_keeps hcfg.roomy heq).2.2.2
      rw [hnone',List.prefix_nil] at hkept
      simp [hkept] at hscheduled

/-- What the prefix cache finds for a waiting request. -/
def foundBlocks (kvm : KvCacheManager K) (p : Pass K) (r : Request) : Nat × K :=
  if r.numComputedTokens = 0 then kvm.getComputedBlocks p.kv r else (0,p.kv)

/-- The tokens a waiting request asks for. -/
def askedWaiting (cfg : SchedulerConfig) (kvm : KvCacheManager K) (p : Pass K) (r : Request) : Int :=
  min (cutLongPrefill cfg ((r.numTokens : Int)-(r.numComputedTokens+(foundBlocks kvm p r).1 : Nat)))
    p.tokenBudget

/-- One iteration over the waiting requests: the loop ends, if only since the request gets no
tokens, or admits the request. -/
theorem scheduleWaiting_step (hcfg : cfg.Flows kvm) {queue : List Request}
    (heq : scheduleWaiting cfg kvm order (r :: queue) p = .ok p') :
    p' = p ∧ (p.tokenBudget ≤ 0 ∨ p.running.length = cfg.maxNumRunningReqs) ∨
    ∃ e, tryScheduleEncoderInputs cfg.disableChunkedMmInput r.requestId
        (r.numComputedTokens+(foundBlocks kvm p r).1) r.mmFeatures (askedWaiting cfg kvm p r)
          p.encoderComputeBudget p.cache = .ok e ∧ 0 < askedWaiting cfg kvm p r ∧
      (e.numNewTokens = 0 ∧ p' = { p with kv := (foundBlocks kvm p r).2, cache := e.cache } ∨
      ∃ kv origin p₁, scheduleRequest (r.start (r.numComputedTokens+(foundBlocks kvm p r).1))
          e.numNewTokens e origin { p with
            cache := e.cache
            kv := kv
            running := p.running ++ [r.start (r.numComputedTokens+(foundBlocks kvm p r).1)]
            waiting := queue } = .ok p₁ ∧ scheduleWaiting cfg kvm order queue p₁ = .ok p') := by
  rw [scheduleWaiting] at heq
  split at heq
  · rename_i hstop
    cases heq
    exact .inl ⟨rfl,hstop⟩
  · obtain ⟨-,heq⟩ := Returns.of_check_bind heq
    simp only [hcfg.chunked,not_true,false_and,if_false] at heq
    obtain ⟨hasked,heq⟩ := Returns.of_check_bind heq
    obtain ⟨e,he,heq⟩ := Returns.exists_of_bind heq
    refine .inr ⟨e,he,hasked,?_⟩
    simp only [alignedSplit_none hcfg.whole,or_self] at heq
    split at heq
    · rename_i hzero
      cases heq
      exact .inl ⟨hzero,rfl⟩
    · have hroomy := hcfg.roomy (foundBlocks kvm p r).2 r (foundBlocks kvm p r).1
      obtain ⟨kv,hkv⟩ := Option.isSome_iff_exists.mp (hroomy.2 e.numNewTokens)
      rw [foundBlocks] at hroomy hkv
      simp only [hroomy.1,not_true,and_false,if_false,hkv] at heq
      obtain ⟨origin,-,heq⟩ := Returns.exists_of_bind heq
      obtain ⟨p₁,hp₁,heq⟩ := Returns.exists_of_bind heq
      exact .inr ⟨kv,origin,p₁,hp₁,heq⟩

/-- The tokens that are left to compute. -/
def remaining (requests : List Request) : Nat :=
  (requests.map fun r => r.numTokens-r.numComputedTokens).sum

/-- The requests after are the ones before, further on. -/
structure Further (before after : List Request) : Prop where
  same : ∀ r' ∈ after, ∃ r ∈ before, r'.mmFeatures = r.mmFeatures ∧
    r'.numPromptTokens = r.numPromptTokens
  remaining : remaining after ≤ remaining before

theorem Further.refl (requests : List Request) : Further requests requests :=
  ⟨fun r hr => ⟨r,hr,rfl,rfl⟩,le_rfl⟩

theorem Further.trans {l l' l'' : List Request} (h : Further l l') (h' : Further l' l'') :
    Further l l'' := by
  refine ⟨fun r hr => ?_,h'.remaining.trans h.remaining⟩
  obtain ⟨r',hr',hf',hn'⟩ := h'.same r hr
  obtain ⟨r₀,hr₀,hf,hn⟩ := h.same r' hr'
  exact ⟨r₀,hr₀,hf'.trans hf,hn'.trans hn⟩

theorem Further.fits {l l' : List Request} (h : Further l l') (hl : ∀ r ∈ l, r.Fits cfg) :
    ∀ r ∈ l', r.Fits cfg := by
  intro r' hr'
  obtain ⟨r,hr,hf,hn⟩ := h.same r' hr'
  have hfits := hl r hr
  exact ⟨hf ▸ hfits.apart,hn ▸ hf ▸ hfits.within,hf ▸ hfits.small⟩

theorem Further.start (running queue : List Request) (r : Request) (n : Nat) :
    Further (running ++ r :: queue)
      (running ++ [r.start (r.numComputedTokens+n)] ++ queue) := by
  refine ⟨fun r' hr' => ?_,?_⟩
  · simp only [List.mem_append,List.mem_singleton] at hr'
    rcases hr' with (hr' | rfl) | hr'
    · exact ⟨r',by simp [hr'],rfl,rfl⟩
    · exact ⟨r,by simp,rfl,rfl⟩
    · exact ⟨r',by simp [hr'],rfl,rfl⟩
  · have hless : r.numTokens-(r.numComputedTokens+n) ≤ r.numTokens-r.numComputedTokens := by omega
    simp only [Sched.remaining,Request.start,Request.numTokens,List.map_append,List.map_cons,
      List.map_nil,List.sum_append,List.sum_cons,List.sum_nil] at hless ⊢
    omega

/-- The shares stay when requests are admitted. -/
theorem scheduleWaiting_keeps (hcfg : cfg.Flows kvm) {queue : List Request}
    (hwaiting : p.waiting = queue) (heq : scheduleWaiting cfg kvm order queue p = .ok p') :
    p.scheduled <+: p'.scheduled ∧ Further (p.running ++ p.waiting) (p'.running ++ p'.waiting) := by
  induction queue generalizing p with
  | nil =>
    cases heq
    exact ⟨List.prefix_rfl,.refl _⟩
  | cons r queue ih =>
    rcases scheduleWaiting_step hcfg heq with ⟨rfl,-⟩ | ⟨e,-,-,⟨-,rfl⟩ | ⟨kv,origin,p₁,hp₁,heq⟩⟩
    · exact ⟨List.prefix_rfl,.refl _⟩
    · exact ⟨List.prefix_rfl,.refl _⟩
    · obtain ⟨hscheduled,-,hrunning,hqueue⟩ := scheduleRequest_scheduled hp₁
      obtain ⟨hkept,hfurther⟩ := ih hqueue heq
      rw [hrunning,hqueue] at hfurther
      rw [hscheduled] at hkept
      rw [hwaiting]
      exact ⟨(List.prefix_append _ _).trans hkept,(Further.start _ _ _ _).trans hfurther⟩

/-- If no waiting request is admitted where there is one, and room for it, the first is blocked. -/
theorem scheduleWaiting_none (hcfg : cfg.Flows kvm) {queue : List Request}
    (hbudget : 0 < p.tokenBudget) (hroom : p.running.length ≠ cfg.maxNumRunningReqs)
    (hf : Features size r.mmFeatures) (hapart : Apart r.mmFeatures)
    (heq : scheduleWaiting cfg kvm order (r :: queue) p = .ok p') (hnone' : p'.scheduled = []) :
    ∃ n, Blocked p.cache p.encoderComputeBudget n r := by
  rcases scheduleWaiting_step hcfg heq with ⟨-,hstop⟩ | ⟨e,he,hasked,⟨hzero,-⟩ |
    ⟨kv,origin,p₁,hp₁,heq⟩⟩
  · exact absurd hstop (not_or.mpr ⟨not_le.mpr hbudget,hroom⟩)
  · exact ⟨_,(tryScheduleEncoderInputs_none hf hapart he hasked.le hzero).2 hasked⟩
  · obtain ⟨hscheduled,-,-,hqueue⟩ := scheduleRequest_scheduled hp₁
    have hkept := (scheduleWaiting_keeps hcfg hqueue heq).1
    rw [hnone',List.prefix_nil] at hkept
    simp [hkept] at hscheduled

end Progress

section Drain
variable {K : Type} {cfg : SchedulerConfig} {kvm : KvCacheManager K} {order : SetOrder}
  {size : String → Nat} {s s' : Scheduler K} {r : Request}

/-- Where every request with tokens left is blocked, nobody holds a reference: a request that holds
one has begun a feature that is in the cache, and goes on with it. -/
theorem refs_of_blocked (hcfg : cfg.Flows kvm) (hs : s.Ok cfg size)
    (hfits : ∀ r ∈ s.running ++ s.waiting, r.Fits cfg) {encoderComputeBudget : Int}
    (hblocked : ∀ r ∈ s.running, r.numComputedTokens < r.numTokens →
      Blocked s.cache encoderComputeBudget r.numComputedTokens r) (k : String) :
    s.cache.refs k = ∅ := by
  refine Finset.eq_empty_of_forall_notMem fun x hx => ?_
  obtain ⟨r,hr,rfl,-⟩ := hs.owned k x hx
  obtain ⟨hapart,hwithin,-⟩ := hfits r hr
  obtain ⟨f,hf,rfl,hbegun,hopen⟩ := hs.begun hcfg.whole r hr hapart k hx
  have hin := hwithin f hf
  have hrunning : r ∈ s.running := by
    refine (List.mem_append.mp hr).resolve_right fun hr' => ?_
    have := (hs.queues.waits r hr').2
    omega
  obtain ⟨g,hg,hblocks⟩ := hblocked r hrunning (by rw [Request.numTokens]; omega)
  -- only one feature holds the next token
  have hsame : g = f := Apart.eq_of_holds hapart hg hf ⟨hblocks.begun,hblocks.unfinished⟩
    ⟨hbegun.le,hopen⟩
  rw [hsame] at hblocks
  exact hblocks.missing (EncoderCacheManager.mem_cached_of_refs hx)

/-- Without references the whole cache can be had, so nobody is blocked who fits into it. -/
theorem not_blocked (hs : s.Ok cfg size) (hrefs : ∀ k, s.cache.refs k = ∅) (hfits : r.Fits cfg)
    (n : Nat) : ¬ Blocked s.cache cfg.maxNumEncoderInputTokens n r := by
  rintro ⟨f,hf,hblocks⟩
  obtain ⟨hcache,hencoder⟩ := hfits.small f hf
  have hfreeable := hs.accounts.freeable_of_unreferenced hrefs
  rw [hs.capacity] at hfreeable
  have := hblocks.short
  omega

/-- What a step consists of. -/
theorem schedule_parts {out : SchedulerOutput} (heq : schedule cfg kvm order s = .ok (out,s')) :
    ∃ p p' : Pass K, scheduleRunning cfg kvm order s.running.length 0 ⟨kvm.newStepStarts s.kv,
        s.cache,s.running,s.waiting,[],[],
        (if s.pauseState = .pausedAll then 0 else cfg.maxNumScheduledTokens : Nat),
        cfg.maxNumEncoderInputTokens⟩ = .ok p ∧
      admitWaiting cfg kvm order s.pauseState p = .ok p' ∧ out.scheduled = p'.scheduled ∧
      s'.running = p'.running.map (countScheduled p'.scheduled) ∧ s'.waiting = p'.waiting ∧
      s'.pauseState = s.pauseState := by
  rw [schedule] at heq
  obtain ⟨p,hp,heq⟩ := Returns.exists_of_bind heq
  obtain ⟨p',hp',heq⟩ := Returns.exists_of_bind heq
  obtain ⟨-,heq⟩ := Returns.of_check_bind heq
  obtain ⟨-,heq⟩ := Returns.of_check_bind heq
  obtain ⟨-,heq⟩ := Returns.of_check_bind heq
  obtain ⟨-,heq⟩ := Returns.of_check_bind heq
  obtain ⟨-,heq⟩ := Returns.of_check_bind heq
  cases heq
  exact ⟨p,p',hp,hp',rfl,rfl,rfl,rfl⟩

/-- Some request could have tokens: one that runs, or a waiting one that there is room for. -/
def Scheduler.HasWork (cfg : SchedulerConfig) (s : Scheduler K) : Prop :=
  (∃ r ∈ s.running, r.numComputedTokens < r.numTokens) ∨
    (s.waiting ≠ [] ∧ s.running.length ≠ cfg.maxNumRunningReqs)

/-- A step with anything to do does something. -/
theorem schedule_progress (hcfg : cfg.Flows kvm) (hs : s.Ok cfg size)
    (hfits : ∀ r ∈ s.running ++ s.waiting, r.Fits cfg) (hpause : s.pauseState = .unpaused)
    (hwork : s.HasWork cfg) {out : SchedulerOutput}
    (heq : schedule cfg kvm order s = .ok (out,s')) : out.scheduled ≠ [] := by
  intro hnone
  obtain ⟨p,p',hp,hp',hscheduled,-⟩ := schedule_parts heq
  rw [hscheduled] at hnone
  obtain ⟨hpreempted,-,-,-⟩ := scheduleRunning_keeps hcfg.roomy hp
  rw [hpause] at hp hp'
  rw [admitWaiting,if_pos ⟨hpreempted,rfl⟩] at hp'
  have hnone₁ : p.scheduled = [] := by
    have := (scheduleWaiting_keeps hcfg rfl hp').1
    rwa [hnone,List.prefix_nil] at this
  obtain ⟨rfl,hblocked⟩ := scheduleRunning_none hcfg rfl (by simpa using hcfg.tokens)
    (fun r hr => ⟨hs.queues.ok r (List.mem_append_left _ hr),hfits r (List.mem_append_left _ hr)⟩)
    hp hnone₁
  simp only [List.drop_zero,List.take_length] at hblocked
  have hrefs := refs_of_blocked hcfg hs hfits hblocked
  rcases hwork with ⟨r,hr,hleft⟩ | ⟨hwaiting,hroom⟩
  · exact not_blocked hs hrefs (hfits r (List.mem_append_left _ hr)) _ (hblocked r hr hleft)
  · cases hqueue : s.waiting with
    | nil => exact hwaiting hqueue
    | cons r queue =>
      have hr : r ∈ s.running ++ s.waiting := by simp [hqueue]
      simp only [hqueue] at hp'
      obtain ⟨n,hn⟩ := scheduleWaiting_none hcfg (by simpa using hcfg.tokens) hroom
        (hs.queues.ok r hr).features (hfits r hr).apart hp' hnone
      exact not_blocked hs hrefs (hfits r hr) n hn

theorem remaining_append (l l' : List Request) :
    remaining (l ++ l') = remaining l+remaining l' := by
  simp [remaining]

theorem remaining_countScheduled {size : String → Nat} {before : String → Prop}
    {prev : List String} {p : Pass K} (hp : p.Ok cfg size before prev none) :
    remaining (p.running.map (countScheduled p.scheduled)) ≤ remaining p.running ∧
      (p.scheduled ≠ [] →
        remaining (p.running.map (countScheduled p.scheduled)) < remaining p.running) := by
  have hless : ∀ r ∈ p.running, (countScheduled p.scheduled r).numTokens-
      (countScheduled p.scheduled r).numComputedTokens ≤ r.numTokens-r.numComputedTokens := by
    intro r hr
    by_cases hin : ∃ s ∈ p.scheduled, s.request = r
    · obtain ⟨s,hs,rfl⟩ := hin
      have hpos := (hp.shares.pos s hs).1
      rw [countScheduled_of_mem hp hs]
      simp only [Scheduled.after,Request.numTokens]
      omega
    · rw [countScheduled_of_not_mem hp hr fun s hs heq => hin ⟨s,hs,heq⟩]
  simp only [remaining,List.map_map]
  refine ⟨List.sum_le_sum hless,fun hsome => ?_⟩
  obtain ⟨s,hs⟩ := List.exists_mem_of_ne_nil _ hsome
  refine List.sum_lt_sum _ _ hless ⟨s.request,hp.shares.mem s hs,?_⟩
  obtain ⟨hpos,hleft⟩ := hp.shares.pos s hs
  rw [Function.comp,countScheduled_of_mem hp hs]
  simp only [Scheduled.after,Request.numTokens] at hleft ⊢
  omega

/-- A step brings the requests further, by at least a token if it schedules any. -/
theorem schedule_further (hkvm : kvm.Ok) (hcfg : cfg.Flows kvm) (hs : s.Ok cfg size)
    {out : SchedulerOutput} (heq : schedule cfg kvm order s = .ok (out,s')) :
    Further (s.running ++ s.waiting) (s'.running ++ s'.waiting) ∧ s'.pauseState = s.pauseState ∧
      (out.scheduled ≠ [] →
        remaining (s'.running ++ s'.waiting) < remaining (s.running ++ s.waiting)) := by
  obtain ⟨p,p',hp,hp',hscheduled,hrunning,hwaiting,hpause⟩ := schedule_parts heq
  have hok := (scheduleRunning_spec (Pass.Ok.init hs (by split <;> omega)) (by simp)).of_eq hp
  have hok' := (admitWaiting_spec hkvm hok s.pauseState).of_eq hp'
  obtain ⟨-,hsame,hsame',-⟩ := scheduleRunning_keeps hcfg.roomy hp
  have hfurther : Further (s.running ++ s.waiting) (p'.running ++ p'.waiting) := by
    rw [admitWaiting] at hp'
    split at hp'
    · have := (scheduleWaiting_keeps hcfg rfl hp').2
      rwa [hsame,hsame'] at this
    · cases hp'
      rw [hsame,hsame']
      exact .refl _
  obtain ⟨hle,hlt⟩ := remaining_countScheduled hok'
  rw [hrunning,hwaiting,hscheduled]
  have hfar := hfurther.remaining
  simp only [remaining_append] at hfar ⊢
  refine ⟨hfurther.trans ⟨fun r hr => ?_,?_⟩,hpause,fun hsome => ?_⟩
  · rcases List.mem_append.mp hr with hr | hr
    · obtain ⟨r₀,hr₀,rfl⟩ := List.mem_map.mp hr
      obtain ⟨n,hn,-⟩ := countScheduled_eq hok' hr₀
      exact ⟨r₀,List.mem_append_left _ hr₀,by rw [hn],by rw [hn]⟩
    · exact ⟨r,List.mem_append_right _ hr,rfl,rfl⟩
  · simp only [remaining_append]
    omega
  · have := hlt hsome
    omega

/-- So many steps in a row. -/
def scheduleTimes (cfg : SchedulerConfig) (kvm : KvCacheManager K) (order : SetOrder) :
    Nat → Scheduler K → Except Fault (Scheduler K)
  | 0, s => .ok s
  | k+1, s => do
    let x ← schedule cfg kvm order s
    scheduleTimes cfg kvm order k x.2

/-- Scheduling alone comes to an end, with every token computed that can be: after at most as many
steps as there are tokens left, no running request has any, and nobody waits for whom there is
room. -/
theorem schedule_drains (hkvm : kvm.Ok) (hcfg : cfg.Flows kvm) (hs : s.Ok cfg size)
    (hfits : ∀ r ∈ s.running ++ s.waiting, r.Fits cfg) (hpause : s.pauseState = .unpaused) :
    ∃ k, k ≤ remaining (s.running ++ s.waiting) ∧ ∃ s', scheduleTimes cfg kvm order k s = .ok s' ∧
      ¬ s'.HasWork cfg := by
  induction hn : remaining (s.running ++ s.waiting) using Nat.strong_induction_on generalizing s with
  | _ n ih =>
    by_cases hwork : s.HasWork cfg
    · obtain ⟨⟨out,s₁⟩,heq,-,hs₁,-⟩ := schedule_spec order hkvm hs
      have hsome := schedule_progress hcfg hs hfits hpause hwork heq
      obtain ⟨hfurther,hpause₁,hless⟩ := schedule_further hkvm hcfg hs heq
      obtain ⟨k,hk,s',htimes,hdone⟩ := ih _ (hn ▸ hless hsome) hs₁ (hfurther.fits hfits)
        (hpause₁.trans hpause) rfl
      refine ⟨k+1,?_,s',?_,hdone⟩
      · have := hless hsome
        simp only at hk
        omega
      · rw [scheduleTimes,heq]
        exact htimes
    · exact ⟨0,Nat.zero_le _,s,rfl,hwork⟩

end Drain
end TLiveOmni.Sched
