import TLiveOmni.SchedulerInv

/-! One call of `schedule`: it never raises, and keeps the accounts, the budgets and, under the
FCFS policy, what the workers rely on. -/
set_option autoImplicit false

namespace TLiveOmni.Sched
open Vllm (Feature)
open EncoderCacheManager (Touched Released)

section Allocate
variable {size : String → Nat} {cache : EncoderCacheManager} {requestId : String}
  {inputs : List Feature}

theorem allocateInputs_spec (hm : cache.Ok size)
    (hweight : ∀ f ∈ inputs, size f.identifier = f.getNumEmbeds)
    (hfresh : ∀ f ∈ inputs, f.identifier ∉ cache.cached)
    (hnodup : (inputs.map Feature.identifier).Nodup)
    (hroom : (numEmbeds inputs : Int) ≤ cache.numFreeSlots) :
    Returns (allocateInputs requestId inputs cache) fun m => m.Ok size ∧
      m.cacheSize = cache.cacheSize ∧ m.freed = cache.freed ∧
      (∀ h, h ∈ m.cached ↔ (∃ f ∈ inputs, f.identifier = h) ∨ h ∈ cache.cached) ∧
      (∀ f ∈ inputs, m.refs f.identifier = {requestId}) ∧
      ∀ h, (∀ f ∈ inputs, f.identifier ≠ h) → m.refs h = cache.refs h := by
  induction inputs generalizing cache with
  | nil => exact .ok ⟨hm,rfl,rfl,by simp,by simp,by simp⟩
  | cons f inputs ih =>
    obtain ⟨hnew,hnodup⟩ := List.nodup_cons.mp hnodup
    have hsum : numEmbeds (f :: inputs) = f.getNumEmbeds+numEmbeds inputs := by simp [numEmbeds]
    rw [hsum] at hroom
    push_cast at hroom
    rw [allocateInputs,List.foldlM_cons]
    refine (EncoderCacheManager.allocate_spec hm requestId (hfresh f (by simp))
      (hweight f (by simp)) (by omega)).bind fun m hm' => ?_
    obtain ⟨hok,hsize,hfreed,hslots,hkeys,hrefs⟩ := hm'
    have hother : ∀ g ∈ inputs, g.identifier ≠ f.identifier := fun g hg heq =>
      hnew (List.mem_map.mpr ⟨g,hg,heq⟩)
    have hrest := ih hok (fun g hg => hweight g (by simp [hg])) (fun g hg hmem => ?_) hnodup
      (by omega)
    · refine hrest.mono fun m' hm' => ?_
      obtain ⟨hok',hsize',hfreed',hkeys',hown',hrefs'⟩ := hm'
      refine ⟨hok',hsize'.trans hsize,hfreed'.trans hfreed,fun h => ?_,fun g hg => ?_,
        fun h hh => ?_⟩
      · rw [hkeys',hkeys]
        constructor
        · intro hk
          rcases hk with ⟨g,hg,heq⟩ | heq | hc
          · exact .inl ⟨g,by simp [hg],heq⟩
          · exact .inl ⟨f,by simp,heq.symm⟩
          · exact .inr hc
        · intro hk
          rcases hk with ⟨g,hg,heq⟩ | hc
          · rcases List.mem_cons.mp hg with rfl | hg
            · exact .inr (.inl heq.symm)
            · exact .inl ⟨g,hg,heq⟩
          · exact .inr (.inr hc)
      · rcases List.mem_cons.mp hg with rfl | hg
        · rw [hrefs' _ hother,hrefs,if_pos rfl]
        · exact hown' g hg
      · have hne : h ≠ f.identifier := fun heq => hh f (by simp) heq.symm
        rw [hrefs' h fun g hg => hh g (by simp [hg]),hrefs,if_neg hne]
    · rcases (hkeys g.identifier).mp hmem with heq | hc
      · exact hother g hg heq
      · exact hfresh g (by simp [hg]) hc

end Allocate

/-- The invariant of a step. -/
structure Pass.Ok {K : Type} (cfg : SchedulerConfig) (size : String → Nat) (before : String → Prop)
    (prev : List String) (busy : Option String) (p : Pass K) : Prop where
  accounts : p.cache.Ok size
  capacity : p.cache.cacheSize = cfg.encoderCacheSize
  queues : Queues cfg size p.running p.waiting
  owned : Owned p.cache (p.running ++ p.waiting)
  shares : Shares cfg prev p.running p.scheduled p.tokenBudget p.encoderComputeBudget
  resumable : ∀ r ∈ p.waiting, r.status = .preempted →
    r.requestId ∉ prev ∨ r.requestId ∈ p.preempted.map Request.requestId
  synced : cfg.policy = .fcfs → Synced before p.cache p.scheduled
  held : cfg.mambaBlockSize = none → Held busy p.cache (p.running ++ p.waiting) p.scheduled

/-- The request can have `n` tokens: the inputs that are chosen for it are new, can be held and
paid, and with the references it has they are all that the tokens need. -/
structure Pending {K : Type} (cfg : SchedulerConfig) (r : Request) (n : Int) (e : EncoderPass) (p : Pass K) : Prop where
  inputs : ∀ f ∈ e.encoderInputs, f ∈ r.mmFeatures ∧ f.identifier ∉ p.cache.cached
  nodup : (e.encoderInputs.map Feature.identifier).Nodup
  room : (numEmbeds e.encoderInputs : Int) ≤ p.cache.numFreeSlots
  budget : 0 ≤ e.encoderComputeBudget
  paid : e.encoderComputeBudget+numEmbeds e.encoderInputs ≤ p.encoderComputeBudget
  covered : ∀ f ∈ r.mmFeatures, f.touches r.numComputedTokens n.toNat →
    f.identifier ∈ e.encoderInputs.map Feature.identifier ∨ r.requestId ∈ p.cache.refs f.identifier
  reaches : cfg.mambaBlockSize = none → Apart r.mmFeatures → Reaches p.cache r n ∧
    ∀ f ∈ e.encoderInputs, (f.offset : Int) < r.numComputedTokens+n

section Step
variable {K : Type} {cfg : SchedulerConfig} {kvm : KvCacheManager K} {order : SetOrder}
  {size : String → Nat} {before : String → Prop} {prev : List String} {p : Pass K} {r : Request}
  {n : Int} {e : EncoderPass} {busy : Option String}

theorem Pass.Ok.nodup_running (hp : p.Ok cfg size before prev busy) :
    (p.running.map Request.requestId).Nodup := by
  have hids := hp.queues.ids
  rw [List.map_append] at hids
  exact (List.nodup_append.mp hids).1

theorem Pass.Ok.not_both (hp : p.Ok cfg size before prev busy) (hr : r ∈ p.running) :
    r ∉ p.waiting := by
  intro hr'
  have hids := hp.queues.ids
  rw [List.map_append] at hids
  exact (List.nodup_append.mp hids).2.2 _ (List.mem_map.mpr ⟨r,hr,rfl⟩) _
    (List.mem_map.mpr ⟨r,hr',rfl⟩) rfl

/-- The ids tell the requests of the queues apart. -/
theorem Pass.Ok.eq_of_id (hp : p.Ok cfg size before prev busy) {r' : Request}
    (hr : r ∈ p.running ++ p.waiting) (hr' : r' ∈ p.running ++ p.waiting)
    (hid : r'.requestId = r.requestId) : r' = r :=
  List.inj_on_of_nodup_map hp.queues.ids hr' hr hid

/-- Asking for encoder inputs keeps the invariant but for what the request itself holds, and the
request can have the tokens that are left to it, or fewer. -/
theorem tryScheduleEncoderInputs_spec (hp : p.Ok cfg size before prev none)
    (hr : r ∈ p.running ++ p.waiting) (hnew : ∀ s ∈ p.scheduled, s.request ≠ r)
    {numComputedTokens : Nat} (hnc : r.numComputedTokens ≤ numComputedTokens) (hn : 0 ≤ n) :
    Returns (tryScheduleEncoderInputs cfg.disableChunkedMmInput r.requestId numComputedTokens
      r.mmFeatures n p.encoderComputeBudget p.cache) fun e =>
      ({ p with cache := e.cache } : Pass K).Ok cfg size before prev (some r.requestId) ∧
      0 ≤ e.numNewTokens ∧ e.numNewTokens ≤ n ∧
      (cfg.mambaBlockSize = none → e.numNewTokens = 0 →
        ({ p with cache := e.cache } : Pass K).Ok cfg size before prev none) ∧
      ∀ n', n' ≤ e.numNewTokens → (cfg.mambaBlockSize = none → n' = e.numNewTokens) →
        ∀ r' : Request, r'.requestId = r.requestId → r'.mmFeatures = r.mmFeatures →
        r'.numComputedTokens = numComputedTokens →
        ∀ p' : Pass K, p'.cache = e.cache → p'.encoderComputeBudget = p.encoderComputeBudget →
          Pending cfg r' n' e p' := by
  have hfeatures := (hp.queues.ok r hr).features
  have hbegun : cfg.mambaBlockSize = none → Apart r.mmFeatures → Begun p.cache r :=
    fun hmamba hapart => (hp.held hmamba r hr hapart (by simp)).resolve_right
      fun ⟨s,hs,heq,_⟩ => hnew s hs heq
  rw [tryScheduleEncoderInputs]
  split
  · rename_i hnone
    refine .ok ⟨⟨hp.accounts,hp.capacity,hp.queues,hp.owned,hp.shares,hp.resumable,hp.synced,
      fun hmamba => (hp.held hmamba).of_sub (by simp) fun _ _ _ => id⟩,hn,le_rfl,fun _ _ => hp,
      fun n' hn' heq r' hid hf' hnc' p' hcache hbudget =>
        ⟨by simp,by simp,?_,hp.shares.encoderBudget,?_,fun f hf ht => ?_,fun hmamba hapart =>
          ⟨fun k hk => ?_,by simp⟩⟩⟩
    · rw [hcache]
      exact hp.accounts.nonneg
    · rw [hbudget]
      simp [numEmbeds]
    · rcases hnone with hzero | hnil
      · have hz : n'.toNat = 0 := by
          simp only at hn'
          omega
        simp [hz,Feature.touches] at ht
      · simp [hf',hnil] at hf
    · rw [hf'] at hapart
      rw [hid,hcache] at hk
      obtain ⟨f,hf,hfid,hlt,-⟩ := hbegun hmamba hapart k hk
      have heq := heq hmamba
      simp only at heq
      exact ⟨f,hf' ▸ hf,hfid,by omega⟩
  · rename_i hsome
    have hinit : (⟨n,p.encoderComputeBudget,[],p.cache⟩ : EncoderPass).Ok size r.requestId
        r.mmFeatures p.cache p.encoderComputeBudget :=
      ⟨hp.accounts,.refl _,by simp,by simp,by simpa [numEmbeds] using hp.accounts.nonneg,
        by simp [numEmbeds],hp.shares.encoderBudget⟩
    have hreach : (⟨n,p.encoderComputeBudget,[],p.cache⟩ : EncoderPass).Reach r.requestId
        numComputedTokens r.mmFeatures p.cache p.encoderComputeBudget r.mmFeatures :=
      ⟨fun _ => .inl,by simp,.inl ⟨rfl,rfl,rfl⟩⟩
    have hpos : 0 < n := by
      rcases hn.eq_or_lt with hzero | hpos
      · exact absurd (.inl hzero.symm) hsome
      · exact hpos
    refine (scheduleInputs_spec hfeatures (List.Sublist.refl _) hinit hpos).with_eq.mono
      fun e he => ?_
    obtain ⟨⟨hok,hnonneg,hle,-,hcovers⟩,heq⟩ := he
    have hreached := fun hapart => scheduleInputs_reach hapart hfeatures.pos (List.Sublist.refl _)
      hreach hpos heq
    have hheld : cfg.mambaBlockSize = none → Held (some r.requestId) e.cache
        (p.running ++ p.waiting) p.scheduled := by
      refine fun hmamba => (hp.held hmamba).of_sub (by simp) fun k x hx hk => ?_
      exact (hok.touched.added k x hk).resolve_right fun hxr => hx (congrArg some hxr.1.symm)
    have hok' : ({ p with cache := e.cache } : Pass K).Ok cfg size before prev
        (some r.requestId) :=
      ⟨hok.accounts,hok.touched.size.trans hp.capacity,hp.queues,hp.owned.touched hr hok.touched,
        hp.shares,hp.resumable,fun hpol => (hp.synced hpol).touched hok.touched,hheld⟩
    refine ⟨hok',hnonneg,hle,fun hmamba hzero => ⟨hok'.accounts,hok'.capacity,hok'.queues,
      hok'.owned,hok'.shares,hok'.resumable,hok'.synced,fun _ r' hr' hapart _ => ?_⟩,
      fun n' hn' hsame r' hid hf' hnc' p' hcache hbudget => ?_⟩
    · by_cases hid : r'.requestId = r.requestId
      · rw [hp.eq_of_id hr hr' hid] at hapart ⊢
        have hcache := ((hreached hapart).2 hzero).1
        exact .inl ((hbegun hmamba hapart).of_sub fun k hk => hcache ▸ hk)
      · exact hheld hmamba r' hr' hapart fun heq => hid (Option.some.inj heq).symm
    · refine ⟨fun f hf => ?_,hok.nodup,hcache ▸ hok.room,hok.budget,hbudget ▸ hok.spent.le,
        fun f hf ht => ?_,fun hmamba hapart => ?_⟩
      · rw [hf',hcache]
        exact hok.fresh f hf
      · rw [hf'] at hf
        rw [hnc'] at ht
        rw [hid,hcache]
        exact hcovers f hf (touches_mono (by omega) ht)
      · rw [hf'] at hapart
        have hr₁ := (hreached hapart).1
        rw [hsame hmamba,Reaches,hnc',hid,hcache,hf']
        refine ⟨fun k hk => ?_,fun f hf => (hr₁.inputs f hf).1⟩
        rcases hr₁.added k hk with hk | ⟨g,hg,hgid,hlt,-⟩
        · obtain ⟨f,hf,hfid,hlt,-⟩ := hbegun hmamba hapart k hk
          exact ⟨f,hf,hfid,by omega⟩
        · exact ⟨g,hg,hgid,hlt⟩

theorem alignedSplit_le (cfg : SchedulerConfig) (r : Request) (hn : 0 ≤ n) (numNewLocalComputedTokens : Nat) :
    0 ≤ alignedSplit cfg r n numNewLocalComputedTokens ∧
      alignedSplit cfg r n numNewLocalComputedTokens ≤ n := by
  rw [alignedSplit]
  split
  · exact ⟨hn,le_rfl⟩
  · rename_i blockSize _
    simp only [mambaBlockAlignedSplit]
    have hdiv : n/blockSize*blockSize ≤ n := by
      have := Int.emod_nonneg n (b := blockSize)
      have hem := Int.mul_ediv_add_emod n blockSize
      rcases Nat.eq_zero_or_pos blockSize with hz | hz
      · simp [hz,hn]
      · rw [Int.mul_comm] at hem
        have := this (by omega)
        omega
    have hnonneg : 0 ≤ n/blockSize*blockSize :=
      Int.mul_nonneg (Int.ediv_nonneg hn (by omega)) (by omega)
    split
    · split
      · exact ⟨hnonneg,hdiv⟩
      · split
        · rename_i hlast
          omega
        · exact ⟨hn,le_rfl⟩
    · exact ⟨hn,le_rfl⟩

theorem alignedSplit_none (h : cfg.mambaBlockSize = none) {numNewLocalComputedTokens : Nat} :
    alignedSplit cfg r n numNewLocalComputedTokens = n := by
  rw [alignedSplit,h]

/-- A request that gets no tokens has been served. -/
theorem Pass.Ok.served (hp : p.Ok cfg size before prev busy)
    (h : cfg.mambaBlockSize = none → p.Ok cfg size before prev none) :
    p.Ok cfg size before prev none :=
  ⟨hp.accounts,hp.capacity,hp.queues,hp.owned,hp.shares,hp.resumable,hp.synced,fun hmamba =>
    (h hmamba).held hmamba⟩

/-- What is left when a victim has been taken out of the running requests. -/
structure Dropped (cfg : SchedulerConfig) (prev : List String) (victim : Request) (p p' : Pass K)
    (moved : Nat) : Prop where
  running : p'.running = removeRequest victim.requestId p.running
  kv : p'.kv = p.kv
  cache : p'.cache = p.cache
  waiting : p'.waiting = p.waiting
  preempted : p'.preempted = p.preempted
  shares : Shares cfg prev p'.running p'.scheduled p'.tokenBudget p'.encoderComputeBudget
  tokenBudget : p.tokenBudget ≤ p'.tokenBudget
  encoderComputeBudget : p.encoderComputeBudget ≤ p'.encoderComputeBudget
  sub : p'.scheduled.Sublist p.scheduled
  gone : ∀ s ∈ p'.scheduled, s.request.requestId ≠ victim.requestId
  keeps : ∀ s ∈ p.scheduled, s.request.requestId ≠ victim.requestId → s ∈ p'.scheduled
  ahead : ∀ k, (∀ s ∈ p.scheduled, s.request ∈ p.running.take k) →
    (∀ s ∈ p'.scheduled, s.request ∈ p'.running.take (k-moved)) ∧
    ∀ r ∈ p.running.take (k+1), r.requestId ≠ victim.requestId → r ∈ p'.running.take (k-moved+1)

theorem Dropped.unscheduled (hp : p.Ok cfg size before prev busy) {victim : Request}
    (hgone : ∀ s ∈ p.scheduled, s.request.requestId ≠ victim.requestId) :
    Dropped cfg prev victim p { p with running := removeRequest victim.requestId p.running } 0 := by
  have hshares := hp.shares
  refine ⟨rfl,rfl,rfl,rfl,rfl,⟨fun s hs => ?_,hshares.nodup,hshares.pos,hshares.resumed,
    hshares.budget,hshares.spent,hshares.encoderBudget,hshares.encoderSpent⟩,le_rfl,le_rfl,
    List.Sublist.refl _,hgone,fun s hs _ => hs,fun k hk => ⟨fun s hs => ?_,fun r hr hne => ?_⟩⟩
  · exact mem_removeRequest.mpr ⟨hshares.mem s hs,hgone s hs⟩
  · exact Dict.mem_take_filter (hk s hs) (by simpa using hgone s hs)
  · exact Dict.mem_take_filter hr (by simpa using hne)

theorem takeVictim_spec (hp : p.Ok cfg size before prev busy) {victim : Request}
    (hfcfs : cfg.policy = .fcfs → ∀ s ∈ p.scheduled, s.request.requestId ≠ victim.requestId) :
    Dropped cfg prev victim p (takeVictim cfg victim p).1 (takeVictim cfg victim p).2 := by
  rw [takeVictim]
  cases hpol : cfg.policy with
  | fcfs => exact .unscheduled hp (hfcfs hpol)
  | priority =>
    simp only [unschedule]
    split
    · rename_i hnone
      refine .unscheduled hp fun s hs heq => ?_
      simpa [heq] using List.find?_eq_none.mp hnone s hs
    · rename_i s hfound
      have hs := List.mem_of_find?_eq_some hfound
      have hid : s.request.requestId = victim.requestId := by
        simpa using List.find?_some hfound
      have hshares := hp.shares
      have hperm := Dict.cons_filter_perm hshares.nodup hs
      rw [hid] at hperm
      have htokens := (hperm.map Scheduled.numNewTokens).sum_eq
      have hembeds := (hperm.map fun s => numEmbeds s.encoderInputs).sum_eq
      rw [List.map_cons,List.sum_cons] at htokens hembeds
      have hpos := hshares.pos s hs
      have hbudget := hshares.budget
      have hencoderBudget := hshares.encoderBudget
      have hspent := hshares.spent
      have hencoderSpent := hshares.encoderSpent
      have hsub : (p.scheduled.filter fun s => s.request.requestId ≠ victim.requestId).Sublist
          p.scheduled := List.filter_sublist
      have hgone : ∀ s ∈ p.scheduled.filter (fun s => s.request.requestId ≠ victim.requestId),
          s.request.requestId ≠ victim.requestId := by
        intro s hs
        simpa using (List.mem_filter.mp hs).2
      refine ⟨rfl,rfl,rfl,rfl,rfl,⟨fun s' hs' => ?_,hshares.nodup.sublist (hsub.map _),
        fun s' hs' => hshares.pos s' (hsub.subset hs'),
        fun s' hs' => hshares.resumed s' (hsub.subset hs'),?_,?_,?_,?_⟩,?_,?_,hsub,hgone,
        fun s' hs' hne => List.mem_filter.mpr ⟨hs',by simpa using hne⟩,fun k hk => ⟨fun s' hs' => ?_,fun r hr hne => ?_⟩⟩
      · exact mem_removeRequest.mpr ⟨hshares.mem s' (hsub.subset hs'),hgone s' hs'⟩
      · simp only
        omega
      · simp only
        omega
      · simp only
        omega
      · simp only
        omega
      · simp only
        omega
      · simp only
        omega
      · have htake := Dict.mem_take_filter_pred (hk s hs)
          (hk s' (hsub.subset hs')) (fun heq => hgone s' hs' (heq.trans hid))
        rwa [hid] at htake
      · have hfirst : s.request ∈ p.running.take (k+1) :=
          (List.take_sublist_take_left (Nat.le_succ k)).subset (hk s hs)
        have htake := Dict.mem_take_filter_pred hfirst hr
          (fun heq => hne (heq.trans hid))
        rw [hid] at htake
        have hpred : k+1-1 ≤ k-1+1 := by omega
        exact (List.take_sublist_take_left hpred).subset htake

/-- A preemption keeps the invariant, and what the others hold. The victim holds nothing any
more, whether it was being served or not. -/
theorem preempt_spec (hp : p.Ok cfg size before prev busy) {victim : Request}
    (hv : victim ∈ p.running) {p' : Pass K} {moved : Nat} (hd : Dropped cfg prev victim p p' moved)
    (hsame : cfg.policy = .fcfs → p'.scheduled = p.scheduled) (busy' : Option String)
    (hbusy : ∀ x, busy = some x → x = victim.requestId ∨ busy' = some x) :
    Returns (preemptRequest cfg kvm order victim p') fun p'' => p''.Ok cfg size before prev busy' ∧
      p''.running = p'.running ∧ p''.scheduled = p'.scheduled ∧ p''.tokenBudget = p'.tokenBudget ∧
      p''.encoderComputeBudget = p'.encoderComputeBudget ∧
      Released victim.requestId (fun h => ∃ f ∈ victim.mmFeatures, f.identifier = h) p.cache
        p''.cache ∧ p''.preempted ≠ [] := by
  have hvictim := hp.queues.ok victim (List.mem_append_left _ hv)
  obtain ⟨hok,hrel,-⟩ := free_spec hp.accounts order victim.requestId hvictim.features
  have hqueues := hp.queues.preempt hv
  have hperm := prependRequest_perm cfg.policy victim.preempt p.waiting
  rw [preemptRequest]
  refine (Returns.check_of (hp.queues.runs victim hv)).bind fun _ _ => .ok ?_
  refine ⟨⟨?_,?_,?_,?_,hd.shares,?_,?_,?_⟩,rfl,rfl,rfl,rfl,?_,by simp⟩
  · simp only [hd.cache]
    exact hok
  · simp only [hd.cache]
    exact hrel.size.trans hp.capacity
  · simp only [hd.running,hd.waiting]
    exact hqueues
  · simp only [hd.cache,hd.running,hd.waiting]
    refine (hp.owned.released hrel).of_subset fun r hr => ?_
    rcases List.mem_append.mp hr with hr | hr
    · by_cases heq : r.requestId = victim.requestId
      · rw [List.inj_on_of_nodup_map hp.nodup_running hr hv heq]
        exact ⟨victim.preempt,List.mem_append_right _ (hperm.mem_iff.mpr (by simp)),rfl,rfl⟩
      · exact ⟨r,List.mem_append_left _ (mem_removeRequest.mpr ⟨hr,heq⟩),rfl,rfl⟩
    · exact ⟨r,List.mem_append_right _ (hperm.mem_iff.mpr (by simp [hr])),rfl,rfl⟩
  · intro r hr hstatus
    simp only [hd.waiting] at hr
    simp only [hd.preempted,List.map_append,List.mem_append]
    rcases List.mem_cons.mp (hperm.mem_iff.mp hr) with rfl | hr
    · exact .inr (.inr (by simp [Request.preempt]))
    · exact (hp.resumable r hr hstatus).imp_right .inl
  · intro hpol
    simp only [hd.cache,hsame hpol]
    refine (hp.synced hpol).released hrel fun s hs => ?_
    exact hd.gone s (hsame hpol ▸ hs)
  · simp only [hd.cache,hd.running,hd.waiting]
    intro hmamba r hr hapart hfree
    by_cases hid : r.requestId = victim.requestId
    · exact .inl (.of_none (hid ▸ hp.owned.free_gone hp.queues.ids (List.mem_append_left _ hv)
        hp.accounts order hvictim.features))
    · have hr' : r ∈ p.running ++ p.waiting := by
        rcases List.mem_append.mp hr with hr | hr
        · exact List.mem_append_left _ (mem_removeRequest.mp hr).1
        · rcases List.mem_cons.mp (hperm.mem_iff.mp hr) with rfl | hr
          · exact absurd rfl hid
          · exact List.mem_append_right _ hr
      have hfree' : busy ≠ some r.requestId := fun heq => (hbusy _ heq).elim hid hfree
      refine (hp.held hmamba r hr' hapart hfree').imp (·.of_sub fun k hk => hrel.sub k hk) ?_
      rintro ⟨s,hs,rfl,hreach⟩
      exact ⟨s,hd.keeps s hs hid,rfl,fun k hk => hreach k (hrel.sub k hk)⟩
  · simp only [hd.cache]
    exact hrel

theorem leastUrgent_eq (best : Option Request) (r : Request) :
    leastUrgent best r = some r ∨ ∃ b, best = some b ∧ leastUrgent best r = some b := by
  cases best with
  | none => exact .inl rfl
  | some b =>
    by_cases h : b.priority < r.priority ∨ b.priority = r.priority ∧ b.arrivalTime < r.arrivalTime
    · exact .inl (if_pos h)
    · exact .inr ⟨b,rfl,if_neg h⟩

/-- Of all requests that are gone through, and the one before, one is chosen. -/
theorem foldl_leastUrgent (running : List Request) (best : Option Request) :
    running.foldl leastUrgent best = best ∨
      ∃ r ∈ running, running.foldl leastUrgent best = some r := by
  induction running generalizing best with
  | nil => exact .inl rfl
  | cons r running ih =>
    rw [List.foldl_cons]
    obtain heq | ⟨b,rfl,heq⟩ := leastUrgent_eq best r
    · rw [heq]
      obtain h | ⟨r',hr',h⟩ := ih (some r)
      · exact .inr ⟨r,List.mem_cons_self,h⟩
      · exact .inr ⟨r',List.mem_cons_of_mem _ hr',h⟩
    · rw [heq]
      exact (ih (some b)).imp_right fun ⟨r',hr',h⟩ => ⟨r',List.mem_cons_of_mem _ hr',h⟩

theorem selectVictim_mem {policy : SchedulingPolicy} {running : List Request} {victim : Request}
    (h : selectVictim policy running = some victim) : victim ∈ running := by
  cases policy with
  | fcfs => exact List.mem_of_getLast? h
  | priority =>
    obtain hnone | ⟨r,hr,hsome⟩ := foldl_leastUrgent running none
    · cases hnone.symm.trans h
    · cases hsome.symm.trans h
      exact hr

theorem selectVictim_ne_none {policy : SchedulingPolicy} {running : List Request}
    (h : r ∈ running) : selectVictim policy running ≠ none := by
  obtain ⟨r',running,rfl⟩ := List.exists_cons_of_ne_nil (List.ne_nil_of_mem h)
  cases policy with
  | fcfs =>
    rw [selectVictim,Ne,List.getLast?_eq_none_iff]
    exact List.cons_ne_nil _ _
  | priority =>
    rw [selectVictim,List.foldl_cons]
    obtain hfirst | ⟨b,-,hother⟩ := foldl_leastUrgent running (leastUrgent none r')
    · rw [hfirst]
      exact Option.some_ne_none r'
    · rw [hother]
      exact Option.some_ne_none b

theorem not_ahead_of_itself {l : List Request} {i : Nat}
    (hids : (l.map Request.requestId).Nodup) (hi : l[i]? = some r) : r ∉ l.take i := by
  intro hmem
  obtain ⟨j,hj,hget⟩ := List.mem_take_iff_getElem.mp hmem
  have hlt : j < l.length := by omega
  have hsame : l[j]? = l[i]? := by rw [hi,List.getElem?_eq_getElem hlt,hget]
  have := (List.getElem?_inj hlt (List.Nodup.of_map _ hids)).mp hsame
  omega

/-- The last request is not among those before the index of another. -/
theorem last_not_ahead {l : List Request} {victim : Request} {i : Nat}
    (hids : (l.map Request.requestId).Nodup) (hlast : l.getLast? = some victim)
    (hi : i < l.length) : victim ∉ l.take i := by
  obtain ⟨init,rfl⟩ := List.getLast?_eq_some_iff.mp hlast
  rw [List.length_append,List.length_singleton] at hi
  rw [List.take_append_of_le_length (by omega)]
  intro hmem
  rw [List.map_append] at hids
  exact (List.nodup_append.mp hids).2.2 victim.requestId
    (List.mem_map.mpr ⟨victim,List.mem_of_mem_take hmem,rfl⟩) victim.requestId (by simp) rfl

theorem getElem?_removeRequest_last {l : List Request} {victim : Request} {i : Nat}
    (hids : (l.map Request.requestId).Nodup) (hlast : l.getLast? = some victim)
    (hi : l[i]? = some r) (hne : r.requestId ≠ victim.requestId) :
    (removeRequest victim.requestId l)[i]? = some r := by
  obtain ⟨init,rfl⟩ := List.getLast?_eq_some_iff.mp hlast
  have hinit : removeRequest victim.requestId (init ++ [victim]) = init := by
    rw [removeRequest,List.filter_append,List.filter_cons_of_neg (by simp),List.filter_nil,
      List.append_nil]
    refine List.filter_eq_self.mpr fun x hx => ?_
    rw [List.map_append] at hids
    have hx' := (List.nodup_append.mp hids).2.2 x.requestId (List.mem_map.mpr ⟨x,hx,rfl⟩)
      victim.requestId (by simp)
    simpa using hx'
  rw [hinit]
  obtain ⟨hlt,hget⟩ := List.getElem?_eq_some_iff.mp hi
  rw [List.length_append,List.length_singleton] at hlt
  have hlt' : i < init.length := by
    by_contra hge
    obtain rfl : i = init.length := by omega
    rw [List.getElem_append_right le_rfl] at hget
    simp at hget
    exact hne (by rw [hget])
  rw [List.getElem?_append_left hlt'] at hi
  exact hi

theorem Pending.released {p' : Pass K} {requestId : String} {ids : String → Prop}
    (h : Pending cfg r n e p) (hrel : Released requestId ids p.cache p'.cache)
    (hne : r.requestId ≠ requestId) (hpaid : p.encoderComputeBudget ≤ p'.encoderComputeBudget) :
    Pending cfg r n e p' := by
  refine ⟨fun f hf => ⟨(h.inputs f hf).1,fun hc => (h.inputs f hf).2 ((hrel.keys _).mp hc)⟩,h.nodup,
    ?_,h.budget,h.paid.trans hpaid,fun f hf ht =>
      (h.covered f hf ht).imp_right fun hx => hrel.others _ _ hx hne,fun hmamba hapart =>
        (h.reaches hmamba hapart).imp_left fun hreach k hk => hreach k (hrel.sub k hk)⟩
  rw [hrel.slots]
  exact h.room

/-- Where the loop over the running requests stands: the requests that have their tokens come
before the index, and the one that asks is at it, or has moved up. -/
structure At (cfg : SchedulerConfig) (p : Pass K) (i : Nat) (r : Request) : Prop where
  ahead : ∀ s ∈ p.scheduled, s.request ∈ p.running.take i
  place : r ∈ p.running.take (i+1)
  new : ∀ s ∈ p.scheduled, s.request.requestId ≠ r.requestId
  fcfs : cfg.policy = .fcfs → p.running[i]? = some r

theorem At.mem {i : Nat} (h : At cfg p i r) : r ∈ p.running := List.mem_of_mem_take h.place

/-- Under the FCFS policy nobody who has tokens is preempted. -/
theorem At.victim_not_scheduled {i : Nat} (hp : p.Ok cfg size before prev busy) (h : At cfg p i r)
    (hpol : cfg.policy = .fcfs) {victim : Request}
    (hvictim : selectVictim cfg.policy p.running = some victim) :
    ∀ s ∈ p.scheduled, s.request.requestId ≠ victim.requestId := by
  rw [hpol] at hvictim
  have hi := (List.getElem?_eq_some_iff.mp (h.fcfs hpol)).1
  intro s hs heq
  have hv := List.inj_on_of_nodup_map hp.nodup_running (hp.shares.mem s hs)
    (List.mem_of_getLast? hvictim) heq
  exact last_not_ahead hp.nodup_running hvictim hi (hv ▸ h.ahead s hs)

theorem allocateOrPreempt_spec {rounds i : Nat}
    (hp : p.Ok cfg size before prev (some r.requestId)) (hat : At cfg p i r) (hpend : Pending cfg r n e p) (hrounds : p.running.length ≤ rounds) :
    Returns (allocateOrPreempt cfg kvm order r n rounds i p) fun out =>
      (¬ out.1 → out.2.2.Ok cfg size before prev none) ∧
      (out.1 → out.2.2.Ok cfg size before prev (some r.requestId) ∧ At cfg out.2.2 out.2.1 r ∧
        Pending cfg r n e out.2.2 ∧ p.tokenBudget ≤ out.2.2.tokenBudget) := by
  induction rounds generalizing i p with
  | zero =>
    have hpos := List.length_pos_of_mem hat.mem
    omega
  | succ rounds ih =>
    rw [allocateOrPreempt]
    cases hkv : kvm.allocateSlots p.kv r n 0 with
    | some kv =>
      exact .ok ⟨by simp,fun _ => ⟨⟨hp.accounts,hp.capacity,hp.queues,hp.owned,hp.shares,
        hp.resumable,hp.synced,hp.held⟩,⟨hat.ahead,hat.place,hat.new,hat.fcfs⟩,⟨hpend.inputs,
          hpend.nodup,hpend.room,hpend.budget,hpend.paid,hpend.covered,hpend.reaches⟩,le_rfl⟩⟩
    | none =>
      cases hvictim : selectVictim cfg.policy p.running with
      | none => exact absurd hvictim (selectVictim_ne_none hat.mem)
      | some victim =>
        simp only
        have hv := selectVictim_mem hvictim
        have hnot := fun hpol => hat.victim_not_scheduled hp hpol hvictim
        have hd := takeVictim_spec hp hnot
        have hsame : cfg.policy = .fcfs → (takeVictim cfg victim p).1.scheduled = p.scheduled := by
          intro hpol
          rw [takeVictim,hpol]
        have hmoved : cfg.policy = .fcfs → (takeVictim cfg victim p).2 = 0 := by
          intro hpol
          rw [takeVictim,hpol]
        by_cases hself : victim.requestId = r.requestId
        · refine (preempt_spec hp hv hd hsame none fun x hx => .inl ?_).bind fun p' hp' => ?_
          · rw [hself]
            exact (Option.some.inj hx).symm
          · rw [if_pos hself]
            exact .ok ⟨fun _ => hp'.1,by simp⟩
        · refine (preempt_spec hp hv hd hsame _ fun x hx => .inr hx).bind fun p' hp' => ?_
          obtain ⟨hok,hrunning,hscheduled,htokens,hembeds,hrel,-⟩ := hp'
          rw [if_neg hself]
          have hne : r.requestId ≠ victim.requestId := Ne.symm hself
          obtain ⟨hahead,hplace⟩ := hd.ahead i hat.ahead
          have hat' : At cfg p' (i-(takeVictim cfg victim p).2) r := by
            refine ⟨?_,?_,?_,fun hpol => ?_⟩
            · rw [hscheduled,hrunning]
              exact hahead
            · rw [hrunning]
              exact hplace r hat.place hne
            · rw [hscheduled]
              exact fun s hs => hat.new s (hd.sub.subset hs)
            · have hlast : p.running.getLast? = some victim := by
                rw [hpol] at hvictim
                exact hvictim
              rw [hmoved hpol,hrunning,hd.running,Nat.sub_zero]
              exact getElem?_removeRequest_last hp.nodup_running hlast (hat.fcfs hpol) hne
          have hpend' : Pending cfg r n e p' :=
            hpend.released hrel hne (hembeds ▸ hd.encoderComputeBudget)
          have hlen : p'.running.length ≤ rounds := by
            have := (removeRequest_perm hp.nodup_running hv).length_eq
            rw [List.length_cons] at this
            rw [hrunning,hd.running]
            omega
          refine (ih hok hat' hpend' hlen).mono fun out hout => ⟨hout.1,fun ht => ?_⟩
          obtain ⟨hok'',hat'',hpend'',hle⟩ := hout.2 ht
          exact ⟨hok'',hat'',hpend'',(htokens ▸ hd.tokenBudget).trans hle⟩

/-- The request gets its tokens, and the cache the outputs that are chosen for it. -/
theorem scheduleRequest_spec {origin : Origin}
    (hp : p.Ok cfg size before prev (some r.requestId)) (hr : r ∈ p.running) (hnew : ∀ s ∈ p.scheduled, s.request.requestId ≠ r.requestId) (hpend : Pending cfg r n e p)
    (hn : 0 < n) (hbudget : n ≤ p.tokenBudget) (hleft : r.numComputedTokens+n ≤ r.numTokens)
    (hresumed : origin = .resumed → r.requestId ∉ prev) :
    Returns (scheduleRequest r n e origin p) fun p' => p'.Ok cfg size before prev none ∧
      p'.running = p.running ∧ p'.waiting = p.waiting ∧ p'.preempted = p.preempted ∧
      p'.scheduled = p.scheduled ++ [⟨r,n,e.encoderInputs,origin⟩] := by
  have hfeatures := (hp.queues.ok r (List.mem_append_left _ hr)).features
  rw [scheduleRequest]
  refine (allocateInputs_spec hp.accounts
    (fun f hf => hfeatures.weight f (hpend.inputs f hf).1) (fun f hf => (hpend.inputs f hf).2)
    hpend.nodup hpend.room).bind fun cache hcache => .ok ?_
  obtain ⟨hok,hsize,hfreed,hkeys,hown,hrefs⟩ := hcache
  have hold : ∀ h x, x ∈ p.cache.refs h → x ∈ cache.refs h := by
    intro h x hx
    rw [hrefs h fun f hf heq => (hpend.inputs f hf).2 (heq ▸ EncoderCacheManager.mem_cached_of_refs hx)]
    exact hx
  have hshares := hp.shares
  have hspent := hshares.spent
  have hencoderSpent := hshares.encoderSpent
  have hpaid := hpend.paid
  have hpayable := hpend.budget
  refine ⟨⟨hok,hsize.trans hp.capacity,hp.queues,fun h x hx => ?_,⟨fun s hs => ?_,?_,fun s hs => ?_,
    fun s hs => ?_,?_,?_,?_,?_⟩,hp.resumable,fun hpol => ?_,fun hmamba r' hr' hapart _ => ?_⟩,
    rfl,rfl,rfl,rfl⟩
  · by_cases hin : ∃ f ∈ e.encoderInputs, f.identifier = h
    · obtain ⟨f,hf,rfl⟩ := hin
      rw [hown f hf,Finset.mem_singleton] at hx
      exact ⟨r,List.mem_append_left _ hr,hx.symm,f,(hpend.inputs f hf).1,rfl⟩
    · rw [hrefs h fun f hf heq => hin ⟨f,hf,heq⟩] at hx
      exact hp.owned h x hx
  · rcases List.mem_append.mp hs with hs | hs
    · exact hshares.mem s hs
    · rw [List.mem_singleton.mp hs]
      exact hr
  · rw [List.map_append,List.map_singleton]
    refine List.nodup_append_comm.mp (List.nodup_cons.mpr ⟨fun hmem => ?_,hshares.nodup⟩)
    obtain ⟨s,hs,heq⟩ := List.mem_map.mp hmem
    exact hnew s hs heq
  · rcases List.mem_append.mp hs with hs | hs
    · exact hshares.pos s hs
    · rw [List.mem_singleton.mp hs]
      exact ⟨hn,hleft⟩
  · rcases List.mem_append.mp hs with hs | hs
    · exact hshares.resumed s hs
    · rw [List.mem_singleton.mp hs]
      exact hresumed
  · simp only
    omega
  · simp only [List.map_append,List.sum_append,List.map_singleton,List.sum_singleton]
    omega
  · simp only
    split
    · exact hshares.encoderBudget
    · exact hpayable
  · simp only [List.map_append,List.sum_append,List.map_singleton,List.sum_singleton]
    split
    · rename_i hnil
      have hzero : numEmbeds e.encoderInputs = 0 := by
        rw [hnil]
        rfl
      omega
    · rw [Nat.cast_add]
      omega
  · have hsynced := hp.synced hpol
    refine ⟨fun s hs f hf ht => ?_,fun s hs f hf => ?_,fun h => ?_⟩
    · rcases List.mem_append.mp hs with hs | hs
      · exact hold _ _ (hsynced.covered s hs f hf ht)
      · rw [List.mem_singleton] at hs
        subst hs
        rcases hpend.covered f hf ht with hin | hx
        · obtain ⟨g,hg,heq⟩ := List.mem_map.mp hin
          rw [← heq,hown g hg]
          exact Finset.mem_singleton_self _
        · exact hold _ _ hx
    · rcases List.mem_append.mp hs with hs | hs
      · exact hold _ _ (hsynced.held s hs f hf)
      · rw [List.mem_singleton] at hs
        subst hs
        rw [hown f hf]
        exact Finset.mem_singleton_self _
    · simp only [hkeys,hsynced.keys,hfreed]
      constructor
      · intro hk
        rcases hk with ⟨f,hf,heq⟩ | hb | ⟨s,hs,hf⟩
        · exact .inr ⟨_,List.mem_append_right _ (List.mem_singleton.mpr rfl),f,hf,heq⟩
        · exact .inl hb
        · exact .inr ⟨s,List.mem_append_left _ hs,hf⟩
      · intro hk
        rcases hk with hb | ⟨s,hs,hf⟩
        · exact .inr (.inl hb)
        · rcases List.mem_append.mp hs with hs | hs
          · exact .inr (.inr ⟨s,hs,hf⟩)
          · rw [List.mem_singleton.mp hs] at hf
            exact .inl hf
  · by_cases hid : r'.requestId = r.requestId
    · rw [hp.eq_of_id (List.mem_append_left _ hr) hr' hid] at hapart ⊢
      obtain ⟨hreach,hinputs⟩ := hpend.reaches hmamba hapart
      refine .inr ⟨_,List.mem_append_right _ (List.mem_singleton.mpr rfl),rfl,fun k hk => ?_⟩
      by_cases hin : ∃ f ∈ e.encoderInputs, f.identifier = k
      · obtain ⟨f,hf,hfid⟩ := hin
        exact ⟨f,(hpend.inputs f hf).1,hfid,hinputs f hf⟩
      · rw [hrefs k fun f hf heq => hin ⟨f,hf,heq⟩] at hk
        exact hreach k hk
    · have hsub : ∀ k, r'.requestId ∈ cache.refs k → r'.requestId ∈ p.cache.refs k := by
        intro k hk
        by_cases hin : ∃ f ∈ e.encoderInputs, f.identifier = k
        · obtain ⟨f,hf,rfl⟩ := hin
          rw [hown f hf,Finset.mem_singleton] at hk
          exact absurd hk hid
        · rwa [hrefs k fun f hf heq => hin ⟨f,hf,heq⟩] at hk
      refine (hp.held hmamba r' hr' hapart fun heq => hid (Option.some.inj heq).symm).imp
        (·.of_sub hsub) ?_
      rintro ⟨s,hs,heq,hreach⟩
      exact ⟨s,List.mem_append_left _ hs,heq,fun k hk => hreach k (hsub k hk)⟩

theorem cutLongPrefill_le (cfg : SchedulerConfig) (hn : 0 ≤ n) :
    0 ≤ cutLongPrefill cfg n ∧ cutLongPrefill cfg n ≤ n ∧ (0 < n → 0 < cutLongPrefill cfg n) := by
  rw [cutLongPrefill]
  split
  · omega
  · omega

theorem scheduleRunning_spec {rounds i : Nat} (hp : p.Ok cfg size before prev none)
    (hahead : ∀ s ∈ p.scheduled, s.request ∈ p.running.take i) :
    Returns (scheduleRunning cfg kvm order rounds i p) (·.Ok cfg size before prev none) := by
  induction rounds generalizing i p with
  | zero => exact .ok hp
  | succ rounds ih =>
    rw [scheduleRunning]
    cases hi : p.running[i]? with
    | none => exact .ok hp
    | some r =>
      simp only
      split
      · exact .ok hp
      · rename_i hbudget
        have hr : r ∈ p.running := List.mem_of_getElem? hi
        have hrok := hp.queues.ok r (List.mem_append_left _ hr)
        have hcomputed := hrok.computed
        have hshort := hrok.short
        obtain ⟨hcut,hcut',-⟩ := cutLongPrefill_le cfg
          (n := (r.numTokens : Int)-r.numComputedTokens) (by omega)
        have hnew : ∀ s ∈ p.scheduled, s.request.requestId ≠ r.requestId := by
          intro s hs heq
          -- the ids are unique, so a request before the index is another one
          have hs' := List.inj_on_of_nodup_map hp.nodup_running (hp.shares.mem s hs) hr heq
          exact not_ahead_of_itself hp.nodup_running hi (hs' ▸ hahead s hs)
        refine (tryScheduleEncoderInputs_spec hp (List.mem_append_left _ hr)
          (fun s hs heq => hnew s hs (congrArg _ heq)) le_rfl (by omega)).bind fun e he => ?_
        obtain ⟨hok,hnonneg,hle,hnone,hpend⟩ := he
        obtain ⟨⟨hleft,hpay⟩,hlen⟩ := le_min_iff.mp hle |>.imp_left le_min_iff.mp
        obtain ⟨hsplit,hsplit'⟩ := alignedSplit_le cfg r hnonneg 0
        split
        · rename_i hzero
          refine ih (hok.served fun hmamba => hnone hmamba ?_) fun s hs => ?_
          · rwa [alignedSplit_none hmamba] at hzero
          exact (List.take_sublist_take_left (Nat.le_succ i)).subset (hahead s hs)
        · rename_i hsome
          have hat : At cfg { p with cache := e.cache } i r := by
            obtain ⟨hlt,hget⟩ := List.getElem?_eq_some_iff.mp hi
            refine ⟨hahead,?_,hnew,fun _ => hi⟩
            have hlt' : i < min (i+1) p.running.length := by omega
            rw [← hget]
            exact List.mem_take_iff_getElem.mpr ⟨i,hlt',rfl⟩
          refine (allocateOrPreempt_spec hok hat (hpend _ hsplit' (alignedSplit_none ·) r rfl rfl rfl
            _ rfl rfl) le_rfl).bind fun room hroom => ?_
          obtain ⟨hfull,hroom⟩ := hroom
          by_cases hfree : room.1
          · simp only [if_pos hfree]
            obtain ⟨hok',hat',hpend',hmore⟩ := hroom hfree
            simp only at hmore
            refine (scheduleRequest_spec hok' hat'.mem hat'.new hpend' (by omega) (by omega) (by omega)
              (by simp)).bind fun p' hp' => ?_
            obtain ⟨hok'',hrunning,-,-,hscheduled⟩ := hp'
            refine ih hok'' fun s hs => ?_
            rw [hscheduled] at hs
            rw [hrunning]
            rcases List.mem_append.mp hs with hs | hs
            · exact (List.take_sublist_take_left (Nat.le_succ _)).subset (hat'.ahead s hs)
            · rw [List.mem_singleton.mp hs]
              exact hat'.place
          · simp only [if_neg hfree]
            exact .ok (hfull hfree)

/-- The prefix cache never covers all tokens of a request: the last one is computed again. -/
def KvCacheManager.Ok (kvm : KvCacheManager K) : Prop :=
  ∀ kv r, 0 < r.numTokens → (kvm.getComputedBlocks kv r).1 < r.numTokens

/-- A waiting request that gets no room gives up its references. -/
theorem Pass.Ok.released (hp : p.Ok cfg size before prev (some r.requestId)) (hr : r ∈ p.waiting) :
    ({ p with cache := p.cache.free r.requestId order r.mmFeatures } : Pass K).Ok cfg size before
      prev none := by
  have hr' := List.mem_append_right p.running hr
  have hfeatures := (hp.queues.ok r hr').features
  obtain ⟨hok,hrel,-⟩ := free_spec hp.accounts order r.requestId hfeatures
  refine ⟨hok,hrel.size.trans hp.capacity,hp.queues,hp.owned.released hrel,hp.shares,hp.resumable,
    fun hpol => (hp.synced hpol).released hrel fun s hs heq => ?_,fun hmamba r₁ hr₁ hapart _ => ?_⟩
  · have hids := hp.queues.ids
    rw [List.map_append] at hids
    exact (List.nodup_append.mp hids).2.2 _ (List.mem_map.mpr ⟨_,hp.shares.mem s hs,rfl⟩) _
      (List.mem_map.mpr ⟨r,hr,rfl⟩) heq
  · by_cases hid : r₁.requestId = r.requestId
    · exact .inl (.of_none (hid ▸ hp.owned.free_gone hp.queues.ids hr' hp.accounts order hfeatures))
    · refine (hp.held hmamba r₁ hr₁ hapart fun heq => hid (Option.some.inj heq).symm).imp
        (·.of_sub fun k hk => hrel.sub k hk) ?_
      rintro ⟨s,hs,heq,hreach⟩
      exact ⟨s,hs,heq,fun k hk => hreach k (hrel.sub k hk)⟩

/-- The first waiting request moves to the running ones. -/
theorem Pass.Ok.start {queue : List Request} (hp : p.Ok cfg size before prev (some r.requestId))
    (hwaiting : p.waiting = r :: queue) (hroom : p.running.length ≠ cfg.maxNumRunningReqs)
    {numComputedTokens : Nat} (hn : numComputedTokens ≤ r.numTokens) (kv : K) :
    ({ p with
      kv := kv
      running := p.running ++ [r.start numComputedTokens]
      waiting := queue } : Pass K).Ok cfg size before prev (some r.requestId) := by
  have hqueues := hp.queues
  have howned := hp.owned
  rw [hwaiting] at hqueues howned
  have hshares := hp.shares
  refine ⟨hp.accounts,hp.capacity,hqueues.start hroom hn,howned.of_subset fun r' hr' => ?_,
    ⟨fun s hs => List.mem_append_left _ (hshares.mem s hs),hshares.nodup,hshares.pos,
      hshares.resumed,hshares.budget,hshares.spent,hshares.encoderBudget,hshares.encoderSpent⟩,
    fun r' hr' => hp.resumable r' (by simp [hwaiting,hr']),hp.synced,
    fun hmamba r' hr' hapart hfree => ?_⟩
  · rcases List.mem_append.mp hr' with hr' | hr'
    · exact ⟨r',by simp [hr'],rfl,rfl⟩
    · rcases List.mem_cons.mp hr' with rfl | hr'
      · exact ⟨r'.start numComputedTokens,by simp,rfl,rfl⟩
      · exact ⟨r',by simp [hr'],rfl,rfl⟩
  · refine hp.held hmamba r' ?_ hapart hfree
    rw [hwaiting]
    rcases List.mem_append.mp hr' with hr' | hr'
    · rcases List.mem_append.mp hr' with hr' | hr'
      · exact List.mem_append_left _ hr'
      · rw [List.mem_singleton.mp hr'] at hfree
        exact absurd rfl hfree
    · exact List.mem_append_right _ (List.mem_cons_of_mem r hr')

theorem scheduleWaiting_spec {queue : List Request} (hkvm : kvm.Ok)
    (hp : p.Ok cfg size before prev none) (hwaiting : p.waiting = queue) (hpreempted : p.preempted = []) :
    Returns (scheduleWaiting cfg kvm order queue p) (·.Ok cfg size before prev none) := by
  induction queue generalizing p with
  | nil => exact .ok hp
  | cons r queue ih =>
    rw [scheduleWaiting]
    by_cases hstop : p.tokenBudget ≤ 0 ∨ p.running.length = cfg.maxNumRunningReqs
    · rw [if_pos hstop]
      exact .ok hp
    rw [if_neg hstop]
    obtain ⟨hbudget,hroom⟩ := not_or.mp hstop
    have hr : r ∈ p.waiting := by simp [hwaiting]
    have hrok := hp.queues.ok r (List.mem_append_right _ hr)
    obtain ⟨hstatus,hzero⟩ := hp.queues.waits r hr
    have hpos : 0 < r.numTokens := Nat.add_pos_left hrok.prompt _
    have hless := hkvm p.kv r hpos
    simp only [hzero,Nat.zero_add,if_true]
    generalize kvm.getComputedBlocks p.kv r = found at hless
    have hp' : ({ p with kv := found.2 } : Pass K).Ok cfg size before prev none :=
      ⟨hp.accounts,hp.capacity,hp.queues,hp.owned,hp.shares,hp.resumable,hp.synced,hp.held⟩
    obtain ⟨-,hcut,hcutpos⟩ := cutLongPrefill_le cfg (n := (r.numTokens : Int)-found.1) (by omega)
    have hpositive := hcutpos (by omega)
    refine (Returns.check_of fun _ => hless.le).bind fun _ _ => ?_
    by_cases hwhole : ¬ cfg.enableChunkedPrefill ∧
        p.tokenBudget < cutLongPrefill cfg ((r.numTokens : Int)-found.1)
    · rw [if_pos hwhole]
      exact .ok hp'
    rw [if_neg hwhole]
    have hmin : 0 < min (cutLongPrefill cfg ((r.numTokens : Int)-found.1)) p.tokenBudget :=
      lt_min hpositive (not_le.mp hbudget)
    refine (Returns.check_of hmin).bind fun _ _ => ?_
    have hnew : ∀ s ∈ p.scheduled, s.request.requestId ≠ r.requestId := by
      intro s hs heq
      have hids := hp.queues.ids
      rw [List.map_append] at hids
      exact (List.nodup_append.mp hids).2.2 _ (List.mem_map.mpr ⟨_,hp.shares.mem s hs,rfl⟩) _
        (List.mem_map.mpr ⟨r,hr,rfl⟩) heq
    refine (tryScheduleEncoderInputs_spec hp' (List.mem_append_right _ hr)
      (fun s hs heq => hnew s hs (congrArg _ heq)) (hzero ▸ Nat.zero_le found.1) hmin.le).bind
        fun e he => ?_
    obtain ⟨hok,hnonneg,hle,hidle,hpend⟩ := he
    obtain ⟨hleft,hpay⟩ := le_min_iff.mp hle
    obtain ⟨hsplit,hsplit'⟩ := alignedSplit_le cfg r hnonneg found.1
    by_cases hnone : e.numNewTokens = 0 ∨ alignedSplit cfg r e.numNewTokens found.1 = 0
    · rw [if_pos hnone]
      refine .ok (hok.served fun hmamba => hidle hmamba ?_)
      rwa [alignedSplit_none hmamba,or_self] at hnone
    rw [if_neg hnone]
    obtain ⟨-,hsome⟩ := not_or.mp hnone
    by_cases hfull : cfg.schedulerReserveFullIsl ∧ ¬ kvm.canFitFullSequence found.2 r found.1
    · rw [if_pos hfull]
      exact .ok (hok.released hr)
    rw [if_neg hfull]
    cases hkv : kvm.allocateSlots found.2 r (alignedSplit cfg r e.numNewTokens found.1) found.1 with
    | none => exact .ok (hok.released hr)
    | some kv =>
      have horigin : Returns (originOf r.status) fun origin =>
          origin = .resumed → r.requestId ∉ prev := by
        cases hst : r.status with
        | running => exact absurd hst hstatus
        | waiting => exact .ok (by simp)
        | preempted =>
          refine .ok fun _ => (hp.resumable r hr hst).resolve_right ?_
          simp [hpreempted]
      refine horigin.bind fun origin hresumed => ?_
      have hadmit := hok.start hwaiting hroom hless.le kv
      have hnc : (found.1 : Int)+alignedSplit cfg r e.numNewTokens found.1 ≤ r.numTokens := by omega
      have hpending := hpend _ hsplit' (alignedSplit_none ·) (r.start found.1) rfl rfl rfl
      refine (scheduleRequest_spec (r := r.start found.1) hadmit (by simp) hnew
        (hpending _ rfl rfl) (by omega) (hsplit'.trans hpay) hnc hresumed).bind fun p'' hp'' => ?_
      obtain ⟨hok'',-,hwaiting'',hpreempted'',-⟩ := hp''
      exact ih hok'' hwaiting'' (hpreempted''.trans hpreempted)

/-- What holds between the calls of the scheduler. -/
structure Scheduler.Ok (cfg : SchedulerConfig) (size : String → Nat) (s : Scheduler K) : Prop where
  accounts : s.cache.Ok size
  capacity : s.cache.cacheSize = cfg.encoderCacheSize
  queues : Queues cfg size s.running s.waiting
  owned : Owned s.cache (s.running ++ s.waiting)
  freed : s.cache.freed = []
  resumable : ∀ r ∈ s.waiting, r.status = .preempted → r.requestId ∉ s.prevStepScheduledReqIds
  begun : cfg.mambaBlockSize = none → ∀ r ∈ s.running ++ s.waiting, Apart r.mmFeatures →
    Begun s.cache r

/-- What an output promises: its shares are positive and keep the budgets. -/
structure SchedulerOutput.Ok (cfg : SchedulerConfig) (size : String → Nat) (out : SchedulerOutput) :
    Prop where
  features : ∀ s ∈ out.scheduled, Features size s.request.mmFeatures
  nodup : (out.scheduled.map fun s => s.request.requestId).Nodup
  pos : ∀ s ∈ out.scheduled, 0 < s.numNewTokens ∧
    s.request.numComputedTokens+s.numNewTokens ≤ s.request.numTokens
  spent : (out.scheduled.map Scheduled.numNewTokens).sum ≤ cfg.maxNumScheduledTokens
  encoderSpent : (out.scheduled.map fun s => numEmbeds s.encoderInputs).sum ≤
    cfg.maxNumEncoderInputTokens

/-- What the workers do to their cache by the output leads from one key set to the next, and then
the scheduled tokens find what they need. -/
structure SchedulerOutput.Served (before after : String → Prop) (out : SchedulerOutput) : Prop where
  keys : ∀ h, after h ↔ before h ∧ h ∉ out.freeEncoderMmHashes ∨
    ∃ s ∈ out.scheduled, ∃ f ∈ s.encoderInputs, f.identifier = h
  covered : ∀ s ∈ out.scheduled, ∀ f ∈ s.request.mmFeatures,
    f.touches s.request.numComputedTokens s.numNewTokens.toNat → after f.identifier

/-- The requests of an advance differ from the running ones in what is computed. -/
theorem countScheduled_eq (hp : p.Ok cfg size before prev none) (hr : r ∈ p.running) :
    ∃ n, countScheduled p.scheduled r = { r with numComputedTokens := n } ∧ n ≤ r.numTokens := by
  rw [countScheduled]
  split
  · exact ⟨r.numComputedTokens,rfl,(hp.queues.ok r (List.mem_append_left _ hr)).computed⟩
  · rename_i s hfound
    have hs := List.mem_of_find?_eq_some hfound
    have hid : s.request.requestId = r.requestId := by simpa using List.find?_some hfound
    have heq := List.inj_on_of_nodup_map hp.nodup_running (hp.shares.mem s hs) hr hid
    have hpos := hp.shares.pos s hs
    rw [Scheduled.after,heq]
    rw [heq] at hpos
    exact ⟨_,rfl,by omega⟩

theorem countScheduled_of_mem (hp : p.Ok cfg size before prev none) {s : Scheduled}
    (hs : s ∈ p.scheduled) : countScheduled p.scheduled s.request = s.after := by
  rw [countScheduled]
  cases hfound : p.scheduled.find? (fun s' => decide (s'.request.requestId = s.request.requestId)) with
  | none => simpa using List.find?_eq_none.mp hfound s hs
  | some s' =>
    have hid : s'.request.requestId = s.request.requestId := by simpa using List.find?_some hfound
    rw [List.inj_on_of_nodup_map hp.shares.nodup (List.mem_of_find?_eq_some hfound) hs hid]

theorem countScheduled_of_not_mem (hp : p.Ok cfg size before prev none) (hr : r ∈ p.running)
    (hnew : ∀ s ∈ p.scheduled, s.request ≠ r) : countScheduled p.scheduled r = r := by
  rw [countScheduled]
  split
  · rfl
  · rename_i s hfound
    have hs := List.mem_of_find?_eq_some hfound
    have hid : s.request.requestId = r.requestId := by simpa using List.find?_some hfound
    exact absurd (List.inj_on_of_nodup_map hp.nodup_running (hp.shares.mem s hs) hr hid) (hnew s hs)

theorem updateAfterSchedule_spec (hp : p.Ok cfg size before prev none) {cache : EncoderCacheManager}
    (hc : cache.Ok size) (hrefs : ∀ h, cache.refs h = p.cache.refs h)
    {updated : List Request × EncoderCacheManager}
    (hupdated : updateAfterSchedule order p.scheduled p.running cache = updated) :
    Queues cfg size updated.1 p.waiting ∧ updated.2.Ok size ∧
      updated.2.cacheSize = cache.cacheSize ∧ updated.2.freed = cache.freed ∧
      (∀ h, h ∈ updated.2.cached ↔ h ∈ cache.cached) ∧
      Owned updated.2 (updated.1 ++ p.waiting) ∧ (cfg.mambaBlockSize = none →
        ∀ r ∈ updated.1 ++ p.waiting, Apart r.mmFeatures → Begun updated.2 r) := by
  obtain ⟨hok,hsize,hfreed,hkeys,hsub,hgone⟩ := foldl_freeEncoderInputs order (fun s hs =>
    (hp.queues.ok s.request (List.mem_append_left _ (hp.shares.mem s hs))).features) hc
      (congrArg Prod.snd hupdated)
  have hrunning : p.running.map (countScheduled p.scheduled) = updated.1 :=
    congrArg Prod.fst hupdated
  have hqueues : Queues cfg size updated.1 p.waiting := by
    have hmap := hp.queues.map (countScheduled p.scheduled) id (fun r hr => ?_)
      fun r hr => ⟨rfl,rfl,hp.queues.ok r (List.mem_append_right _ hr),rfl⟩
    · rwa [List.map_id,hrunning] at hmap
    · obtain ⟨n,heq,hn⟩ := countScheduled_eq hp hr
      have hok := hp.queues.ok r (List.mem_append_left _ hr)
      rw [heq]
      exact ⟨rfl,rfl,hok.features,hok.prompt,hn,hok.short,hok.minTokens⟩
  refine ⟨hqueues,hok,hsize,hfreed,hkeys,fun h x hx => ?_,fun hmamba r' hr' hapart => ?_⟩
  · obtain ⟨r,hr,hid,hf⟩ := hp.owned h x (hrefs h ▸ hsub h hx)
    rcases List.mem_append.mp hr with hr | hr
    · obtain ⟨n,heq,-⟩ := countScheduled_eq hp hr
      rw [← hrunning]
      exact ⟨_,List.mem_append_left _ (List.mem_map.mpr ⟨r,hr,heq⟩),hid,hf⟩
    · exact ⟨r,List.mem_append_right _ hr,hid,hf⟩
  · have hold : ∀ r, ∀ k, r ∈ updated.2.refs k → r ∈ p.cache.refs k := fun r k hk =>
      hrefs k ▸ hsub k hk
    rcases List.mem_append.mp hr' with hr' | hr'
    · rw [← hrunning] at hr'
      obtain ⟨r,hr,rfl⟩ := List.mem_map.mp hr'
      by_cases hin : ∃ s ∈ p.scheduled, s.request = r
      · obtain ⟨s,hs,rfl⟩ := hin
        rw [countScheduled_of_mem hp hs] at hapart ⊢
        have hpos := hp.shares.pos s hs
        have hafter : (s.after.numComputedTokens : Int) =
            s.request.numComputedTokens+s.numNewTokens := by
          simp only [Scheduled.after]
          omega
        -- what it reaches, and has not used up, it has begun
        have hbegun : ∀ k, s.request.requestId ∈ updated.2.refs k → ∃ f ∈ s.request.mmFeatures,
            f.identifier = k ∧ f.offset < s.after.numComputedTokens := by
          intro k hk
          rcases hp.held hmamba s.request (List.mem_append_left _ hr) hapart (by simp) with hb |
            ⟨s',hs',heq,hreach⟩
          · obtain ⟨f,hf,hid,hlt,-⟩ := hb k (hold _ k hk)
            exact ⟨f,hf,hid,by omega⟩
          · rw [List.inj_on_of_nodup_map hp.shares.nodup hs' hs (congrArg _ heq)] at hreach
            obtain ⟨f,hf,hid,hlt⟩ := hreach k (hold _ k hk)
            exact ⟨f,hf,hid,by omega⟩
        intro k hk
        obtain ⟨f,hf,rfl,hlt⟩ := hbegun k hk
        refine ⟨f,hf,rfl,hlt,?_⟩
        by_contra hdone
        exact hgone s hs f hf (not_lt.mp hdone) hk
      · have hsame := countScheduled_of_not_mem hp hr fun s hs heq => hin ⟨s,hs,heq⟩
        rw [hsame] at hapart ⊢
        have hb := (hp.held hmamba r (List.mem_append_left _ hr) hapart (by simp)).resolve_right
          fun ⟨s,hs,heq,_⟩ => hin ⟨s,hs,heq⟩
        exact hb.of_sub fun k hk => hold _ k hk
    · have hb := (hp.held hmamba r' (List.mem_append_right _ hr') hapart (by simp)).resolve_right
        fun ⟨s,hs,heq,_⟩ => hp.not_both (hp.shares.mem s hs) (heq ▸ hr')
      exact hb.of_sub fun k hk => hold _ k hk

theorem Pass.Ok.init {s : Scheduler K} (hs : s.Ok cfg size) {tokenBudget : Nat}
    (hbudget : tokenBudget ≤ cfg.maxNumScheduledTokens) :
    (⟨kvm.newStepStarts s.kv,s.cache,s.running,s.waiting,[],[],tokenBudget,
      cfg.maxNumEncoderInputTokens⟩ : Pass K).Ok cfg size (· ∈ s.cache.cached)
        s.prevStepScheduledReqIds none :=
  ⟨hs.accounts,hs.capacity,hs.queues,hs.owned,⟨by simp,by simp,by simp,by simp,by simp,
    by simpa using hbudget,by simp,by simp⟩,fun r hr hst => .inl (hs.resumable r hr hst),
    fun _ => ⟨by simp,by simp,by simp [hs.freed]⟩,fun hmamba r hr hapart _ =>
      .inl (hs.begun hmamba r hr hapart)⟩

theorem Pass.Ok.length_scheduled (hp : p.Ok cfg size before prev none) :
    p.scheduled.length ≤ p.running.length := by
  have hsub : (p.scheduled.map fun s => s.request.requestId) ⊆ p.running.map Request.requestId := by
    intro x hx
    obtain ⟨s,hs,rfl⟩ := List.mem_map.mp hx
    exact List.mem_map.mpr ⟨_,hp.shares.mem s hs,rfl⟩
  have := (hp.shares.nodup.subperm hsub).length_le
  rwa [List.length_map,List.length_map] at this

theorem admitWaiting_spec (hkvm : kvm.Ok) (hp : p.Ok cfg size before prev none)
    (pauseState : PauseState) :
    Returns (admitWaiting cfg kvm order pauseState p) (·.Ok cfg size before prev none) := by
  rw [admitWaiting]
  split
  · rename_i hnone
    exact scheduleWaiting_spec hkvm hp rfl hnone.1
  · exact .ok hp

/-- `schedule` raises nothing, and its output and the new state keep their promises. -/
theorem schedule_spec (order : SetOrder) {s : Scheduler K} (hkvm : kvm.Ok) (hs : s.Ok cfg size) :
    Returns (schedule cfg kvm order s) fun out => out.1.Ok cfg size ∧ out.2.Ok cfg size ∧
      (cfg.policy = .fcfs → out.1.Served (· ∈ s.cache.cached) (· ∈ out.2.cache.cached)) := by
  rw [schedule]
  have hbudget : (if s.pauseState = .pausedAll then 0 else cfg.maxNumScheduledTokens) ≤
      cfg.maxNumScheduledTokens := by
    split <;> omega
  refine (scheduleRunning_spec (Pass.Ok.init hs hbudget) (by simp)).bind fun p hp => ?_
  refine (admitWaiting_spec hkvm hp s.pauseState).bind fun p hp => ?_
  have hshares := hp.shares
  have htotal : (p.scheduled.map Scheduled.numNewTokens).sum ≤ cfg.maxNumScheduledTokens := by
    have := hshares.budget
    have := hshares.spent
    omega
  refine (Returns.check_of htotal).bind fun _ _ => ?_
  refine (Returns.check_of hshares.budget).bind fun _ _ => ?_
  refine (Returns.check_of hp.queues.room).bind fun _ _ => ?_
  refine (Returns.check_of hp.length_scheduled).bind fun _ _ => ?_
  refine (Returns.check_of hshares.resumed).bind fun _ _ => .ok ?_
  have hcleared : ({ p.cache with freed := [] } : EncoderCacheManager).Ok size :=
    ⟨hp.accounts.nonneg,hp.accounts.taken,hp.accounts.freeable,hp.accounts.unreferenced,
      hp.accounts.weight⟩
  obtain ⟨hqueues,hok,hsize,hfreed,hkeys,howned,hbegun⟩ := updateAfterSchedule_spec hp hcleared
    (fun _ => rfl) rfl
  have hencoder := hshares.encoderBudget
  have hencoderSpent := hshares.encoderSpent
  refine ⟨⟨fun x hx => (hp.queues.ok _ (List.mem_append_left _ (hshares.mem x hx))).features,
    hshares.nodup,hshares.pos,htotal,by simp only; omega⟩,⟨hok,hsize.trans hp.capacity,hqueues,howned,hfreed,
      fun r hr _ => ?_,hbegun⟩,fun hpol => ⟨fun h => ?_,fun x hx f hf ht => ?_⟩⟩
  · -- what is scheduled is running, and not waiting
    intro hmem
    obtain ⟨x,hx,heq⟩ := List.mem_map.mp hmem
    have hids := hp.queues.ids
    rw [List.map_append] at hids
    exact (List.nodup_append.mp hids).2.2 _ (List.mem_map.mpr ⟨_,hshares.mem x hx,rfl⟩) _
      (List.mem_map.mpr ⟨r,hr,rfl⟩) heq
  · exact (hkeys h).trans ((hp.synced hpol).keys h)
  · exact (hkeys _).mpr (EncoderCacheManager.mem_cached_of_refs ((hp.synced hpol).covered x hx f hf ht))

end Step
end TLiveOmni.Sched
