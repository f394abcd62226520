import Mathlib.Data.Finset.Basic
import TLiveOmni.Gather
import TLiveOmni.Lib.Dict
import TLiveOmni.Lib.Returns

/-! `EncoderCacheManager`: which encoder outputs the workers keep, which requests refer to them,
and how many slots are free or can be freed. -/
set_option autoImplicit false

namespace TLiveOmni.Vllm
open PySeq

/-- `PlaceholderRange.get_num_embeds`. -/
def Feature.getNumEmbeds (f : Feature) : Nat :=
  match f.isEmbed with
  | none => f.length
  | some mask => (cumsum 0 (mask.map Bool.toNat)).getLastD 0

theorem getLastD_cumsum (acc : Nat) (l : List Nat) : (cumsum acc l).getLastD acc = acc+l.sum := by
  induction l generalizing acc with
  | nil => simp [cumsum]
  | cons x l ih =>
    rw [cumsum,List.getLastD_cons,ih,List.sum_cons,Nat.add_assoc]

theorem Feature.getNumEmbeds_eq (f : Feature) : f.getNumEmbeds = f.mask.count true := by
  rw [getNumEmbeds,mask]
  cases f.isEmbed with
  | none => simp
  | some m =>
    have hlast := getLastD_cumsum 0 (m.map Bool.toNat)
    rw [sum_map_toNat,Nat.zero_add] at hlast
    exact hlast

end TLiveOmni.Vllm

namespace TLiveOmni.Sched
open Vllm (Feature)

/-- What the scheduler can raise. -/
inductive Fault where
  | keyError | indexError | assertionError
  | valueError (msg : String)
  | runtimeError (msg : String)
  deriving DecidableEq, Repr

structure EncoderCacheManager where
  cacheSize : Nat
  numFreeSlots : Int
  numFreeableSlots : Int
  cached : Dict String (Finset String)
  freeable : Dict String Nat
  freed : List String

/-- The order in which a set of input ids is read. -/
structure SetOrder where
  iter : List Feature → List Feature
  perm : ∀ l, (iter l).Perm l

namespace EncoderCacheManager

/-- `__init__`. -/
def init (cacheSize : Nat) : EncoderCacheManager := ⟨cacheSize,cacheSize,cacheSize,.empty,.empty,[]⟩

/-- `reset`. -/
def reset (m : EncoderCacheManager) : EncoderCacheManager := init m.cacheSize

section Operations
variable (m : EncoderCacheManager) (requestId : String) (f : Feature)

/-- `check_and_update_cache`. -/
def checkAndUpdateCache : Except Fault (Bool × EncoderCacheManager) :=
  match m.cached.get? f.identifier with
  | none => .ok (false,m)
  | some ids =>
    if ids = ∅ then
      match m.freeable.get? f.identifier with
      | none => .error .keyError
      | some numEncoderEmbeds => .ok (true,{ m with
          numFreeableSlots := m.numFreeableSlots-numEncoderEmbeds
          freeable := m.freeable.erase f.identifier
          cached := m.cached.set f.identifier (insert requestId ids) })
    else .ok (true,{ m with cached := m.cached.set f.identifier (insert requestId ids) })

/-- The eviction loop of `can_allocate`, with as many rounds as there are entries to evict. -/
def evict (numEmbeds : Int) : Nat → EncoderCacheManager → Except Fault EncoderCacheManager
  | 0, m => if numEmbeds ≤ m.numFreeSlots then .ok m else .error .keyError
  | rounds+1, m =>
    if numEmbeds ≤ m.numFreeSlots then .ok m
    else match m.freeable.popFirst with
      | none => .error .keyError
      | some ((mmHash,numFreeEmbeds),freeable) =>
        if mmHash ∈ m.cached then
          evict numEmbeds rounds { m with
            freeable := freeable
            cached := m.cached.erase mmHash
            freed := m.freed ++ [mmHash]
            numFreeSlots := m.numFreeSlots+numFreeEmbeds }
        else .error .keyError

/-- `can_allocate`. -/
def canAllocate (encoderComputeBudget numEmbedsToSchedule : Int) :
    Except Fault (Bool × EncoderCacheManager) :=
  if encoderComputeBudget < f.getNumEmbeds then .ok (false,m)
  else
    let numEmbeds := f.getNumEmbeds+numEmbedsToSchedule
    if numEmbeds ≤ m.numFreeSlots then .ok (true,m)
    else if m.numFreeableSlots < numEmbeds then .ok (false,m)
    else do
      let m ← evict numEmbeds m.freeable.entries.length m
      pure (true,m)

/-- `allocate`. -/
def allocate : Except Fault EncoderCacheManager := do
  let cached := if f.identifier ∈ m.cached then m.cached else m.cached.set f.identifier ∅
  check ((f.getNumEmbeds : Int) ≤ m.numFreeSlots) .assertionError
  check ((f.getNumEmbeds : Int) ≤ m.numFreeableSlots) .assertionError
  pure { m with
    cached := cached.set f.identifier (insert requestId ((cached.get? f.identifier).getD ∅))
    numFreeSlots := m.numFreeSlots-f.getNumEmbeds
    numFreeableSlots := m.numFreeableSlots-f.getNumEmbeds }

/-- `get_cached_input_ids`: an input stands for its index among the features. -/
def getCachedInputIds (mmFeatures : List Feature) : List Feature :=
  mmFeatures.filter fun f => f.identifier ∈ m.cached

/-- `free_encoder_input`. -/
def freeEncoderInput : EncoderCacheManager :=
  match m.cached.get? f.identifier with
  | none => m
  | some ids =>
    if ids = ∅ then m
    else if ids.erase requestId = ∅ then { m with
      cached := m.cached.set f.identifier (ids.erase requestId)
      freeable := m.freeable.set f.identifier f.getNumEmbeds
      numFreeableSlots := m.numFreeableSlots+f.getNumEmbeds }
    else { m with cached := m.cached.set f.identifier (ids.erase requestId) }

/-- `free`. -/
def free (order : SetOrder) (mmFeatures : List Feature) : EncoderCacheManager :=
  (order.iter (m.getCachedInputIds mmFeatures)).foldl (fun m f => m.freeEncoderInput requestId f) m

/-- `get_freed_mm_hashes`. -/
def getFreedMmHashes : List String × EncoderCacheManager := (m.freed,{ m with freed := [] })

/-- The requests that refer to an output. -/
def refs (mmHash : String) : Finset String := (m.cached.get? mmHash).getD ∅

end Operations

/-- The accounts are right: the slots of all outputs in the cache are taken, those of the outputs
without a reference can be freed, and the queue for eviction holds exactly these. -/
structure Ok (size : String → Nat) (m : EncoderCacheManager) : Prop where
  nonneg : 0 ≤ m.numFreeSlots
  taken : m.numFreeSlots+m.cached.total size = m.cacheSize
  freeable : m.numFreeableSlots = m.numFreeSlots+m.freeable.total size
  unreferenced : ∀ h, h ∈ m.freeable ↔ m.cached.get? h = some ∅
  weight : ∀ h n, m.freeable.get? h = some n → n = size h

section Specs
variable {size : String → Nat} {m m' : EncoderCacheManager} {requestId : String} {f : Feature}

theorem Ok.init (cacheSize : Nat) : (init cacheSize).Ok size :=
  ⟨by simp [EncoderCacheManager.init],by simp [EncoderCacheManager.init],
    by simp [EncoderCacheManager.init],by simp [EncoderCacheManager.init],
    by simp [EncoderCacheManager.init]⟩

theorem mem_cached_of_refs {h x : String} (hx : x ∈ m.refs h) : h ∈ m.cached := by
  by_contra hn
  rw [refs,Dict.get?_eq_none.mpr hn] at hx
  simp at hx

/-- An idle cache can be emptied: every output is in the eviction queue. -/
theorem Ok.freeable_of_unreferenced (hm : m.Ok size)
    (hrefs : ∀ k, m.refs k = ∅) : m.numFreeableSlots = m.cacheSize := by
  have hkeys : ∀ k, k ∈ m.freeable ↔ k ∈ m.cached := by
    intro k
    rw [hm.unreferenced]
    refine ⟨Dict.mem_of_get?,fun hk => ?_⟩
    obtain ⟨ids,hids⟩ := Option.isSome_iff_exists.mp (Dict.get?_isSome.mpr hk)
    have hempty := hrefs k
    rw [refs,hids] at hempty
    rw [hids]
    exact congrArg some hempty
  have htotal := Dict.total_congr size hkeys
  have htaken := hm.taken
  have hfreeable := hm.freeable
  omega

theorem get?_cached (h : f.identifier ∈ m.cached) :
    m.cached.get? f.identifier = some (m.refs f.identifier) := by
  obtain ⟨ids,hids⟩ := Option.isSome_iff_exists.mp (Dict.get?_isSome.mpr h)
  rw [refs,hids]
  rfl

/-- What asking for outputs does: some without a reference are evicted, and references of the
request that asks are added. -/
structure Touched (requestId : String) (ids : String → Prop) (m m' : EncoderCacheManager) :
    Prop where
  size : m'.cacheSize = m.cacheSize
  slots : m.numFreeSlots ≤ m'.numFreeSlots
  freed : ∃ evicted, m'.freed = m.freed ++ evicted ∧
    ∀ h, h ∈ m'.cached ↔ h ∈ m.cached ∧ h ∉ evicted
  kept : ∀ h, m.refs h ⊆ m'.refs h
  added : ∀ h x, x ∈ m'.refs h → x ∈ m.refs h ∨ x = requestId ∧ ids h

theorem Touched.refl {ids : String → Prop} (m : EncoderCacheManager) :
    Touched requestId ids m m :=
  ⟨rfl,le_refl _,⟨[],by simp,by simp⟩,fun _ => Finset.Subset.refl _,fun _ _ => .inl⟩

theorem Touched.trans {ids : String → Prop} {m'' : EncoderCacheManager}
    (h : Touched requestId ids m m') (h' : Touched requestId ids m' m'') :
    Touched requestId ids m m'' := by
  obtain ⟨evicted,hfreed,hkeys⟩ := h.freed
  obtain ⟨evicted',hfreed',hkeys'⟩ := h'.freed
  refine ⟨h'.size.trans h.size,h.slots.trans h'.slots,⟨evicted ++ evicted',?_,fun k => ?_⟩,
    fun k => (h.kept k).trans (h'.kept k),fun k x hx => ?_⟩
  · rw [hfreed',hfreed,List.append_assoc]
  · rw [hkeys',hkeys,List.mem_append,not_or,and_assoc]
  · rcases h'.added k x hx with hx | hx
    · exact h.added k x hx
    · exact .inr hx

theorem Touched.mono {ids ids' : String → Prop} (h : Touched requestId ids m m')
    (hids : ∀ k, ids k → ids' k) : Touched requestId ids' m m' :=
  ⟨h.size,h.slots,h.freed,h.kept,fun k x hx => (h.added k x hx).imp_right fun hk =>
    ⟨hk.1,hids k hk.2⟩⟩

theorem refs_set (k : String) (ids : Finset String) (h : String) :
    ({ m with cached := m.cached.set k ids } : EncoderCacheManager).refs h =
      if h = k then ids else m.refs h := by
  simp only [refs,Dict.get?_set]
  split <;> rfl

/-- Adding a reference to an output that has one already. -/
theorem touched_insert (hm : f.identifier ∈ m.cached) (requestId : String) (m' : EncoderCacheManager)
    (hsize : m'.cacheSize = m.cacheSize) (hslots : m'.numFreeSlots = m.numFreeSlots)
    (hfreed : m'.freed = m.freed) (hcached : m'.cached =
      m.cached.set f.identifier (insert requestId (m.refs f.identifier))) :
    Touched requestId (· = f.identifier) m m' ∧ (∀ h, h ∈ m'.cached ↔ h ∈ m.cached) ∧
      requestId ∈ m'.refs f.identifier := by
  have hrefs : ∀ h, m'.refs h = if h = f.identifier then insert requestId (m.refs f.identifier)
      else m.refs h := by
    intro h
    rw [refs,hcached]
    exact refs_set _ _ _
  have hkeys : ∀ h, h ∈ m'.cached ↔ h ∈ m.cached := by
    intro h
    rw [hcached,Dict.mem_set]
    exact ⟨fun hh => hh.elim (fun he => he ▸ hm) id,.inr⟩
  refine ⟨⟨hsize,le_of_eq hslots.symm,⟨[],by simp [hfreed],by simpa using hkeys⟩,?_,?_⟩,hkeys,
    by simp [hrefs]⟩
  · intro h x hx
    rw [hrefs]
    split
    · rename_i heq
      exact Finset.mem_insert_of_mem (heq ▸ hx)
    · exact hx
  · intro h x hx
    rw [hrefs] at hx
    split at hx
    · rename_i heq
      rcases Finset.mem_insert.mp hx with hx | hx
      · exact .inr ⟨hx,heq⟩
      · exact .inl (heq ▸ hx)
    · exact .inl hx

theorem checkAndUpdateCache_spec (hm : m.Ok size) (requestId : String) (f : Feature) :
    Returns (m.checkAndUpdateCache requestId f) fun out => out.2.Ok size ∧
      Touched requestId (· = f.identifier) m out.2 ∧ (∀ h, h ∈ out.2.cached ↔ h ∈ m.cached) ∧
      (out.1 ↔ f.identifier ∈ m.cached) ∧ (out.1 → requestId ∈ out.2.refs f.identifier) := by
  rw [checkAndUpdateCache]
  by_cases hk : f.identifier ∈ m.cached
  · rw [get?_cached hk]
    by_cases hempty : m.refs f.identifier = ∅
    · -- the output leaves the queue for eviction
      have hfree : f.identifier ∈ m.freeable := by
        rw [hm.unreferenced,get?_cached hk,hempty]
      obtain ⟨n,hn⟩ := Option.isSome_iff_exists.mp (Dict.get?_isSome.mpr hfree)
      have hn' : n = size f.identifier := hm.weight _ _ hn
      simp only [hempty,if_true,hn]
      have hcached := touched_insert hk requestId { m with
        numFreeableSlots := m.numFreeableSlots-n
        freeable := m.freeable.erase f.identifier
        cached := m.cached.set f.identifier (insert requestId ∅) } rfl rfl rfl (by simp [hempty])
      refine .ok ⟨⟨hm.nonneg,?_,?_,?_,?_⟩,hcached.1,hcached.2.1,by simpa using hk,fun _ => hcached.2.2⟩
      · rw [Dict.total_set_of_mem size hk]
        exact hm.taken
      · have htotal := Dict.total_erase_of_mem size hfree
        have := hm.freeable
        simp only
        omega
      · intro h
        rw [Dict.mem_erase,Dict.get?_set,hm.unreferenced]
        by_cases heq : h = f.identifier <;> simp [heq]
      · intro h k hget
        rw [Dict.get?_erase] at hget
        split at hget
        · cases hget
        · exact hm.weight h k hget
    · simp only [hempty,if_false]
      have hcached := touched_insert hk requestId { m with
        cached := m.cached.set f.identifier (insert requestId (m.refs f.identifier)) } rfl rfl rfl rfl
      refine .ok ⟨⟨hm.nonneg,?_,hm.freeable,?_,hm.weight⟩,hcached.1,hcached.2.1,by simpa using hk,
        fun _ => hcached.2.2⟩
      · rw [Dict.total_set_of_mem size hk]
        exact hm.taken
      · intro h
        rw [Dict.get?_set,hm.unreferenced]
        by_cases heq : h = f.identifier
        · subst heq
          rw [if_pos rfl,get?_cached hk]
          simp [hempty]
        · rw [if_neg heq]
  · rw [Dict.get?_eq_none.mpr hk]
    exact .ok ⟨hm,.refl m,fun _ => Iff.rfl,by simpa using hk,by simp⟩

/-- One round of the eviction loop. -/
theorem Ok.evictOne (hm : m.Ok size) {mmHash : String} {n : Nat} {freeable : Dict String Nat}
    (hpop : m.freeable.popFirst = some ((mmHash,n),freeable)) (requestId : String) :
    mmHash ∈ m.cached ∧ freeable.entries.length < m.freeable.entries.length ∧
      Ok size { m with
        freeable := freeable
        cached := m.cached.erase mmHash
        freed := m.freed ++ [mmHash]
        numFreeSlots := m.numFreeSlots+n } ∧
      Touched requestId (fun _ => False) m { m with
        freeable := freeable
        cached := m.cached.erase mmHash
        freed := m.freed ++ [mmHash]
        numFreeSlots := m.numFreeSlots+n } := by
  obtain ⟨hget,rfl⟩ := Dict.popFirst_eq_some hpop
  have hfree : mmHash ∈ m.freeable := Dict.mem_of_get? hget
  have hempty : m.cached.get? mmHash = some ∅ := (hm.unreferenced mmHash).mp hfree
  have hcached : mmHash ∈ m.cached := Dict.mem_of_get? hempty
  have hn : n = size mmHash := hm.weight _ _ hget
  refine ⟨hcached,Dict.length_erase_lt hfree,⟨?_,?_,?_,?_,?_⟩,⟨rfl,?_,⟨[mmHash],rfl,?_⟩,?_,?_⟩⟩
  · have := hm.nonneg
    simp only
    omega
  · have htotal := Dict.total_erase_of_mem size hcached
    have := hm.taken
    simp only
    omega
  · have htotal := Dict.total_erase_of_mem size hfree
    have := hm.freeable
    simp only
    omega
  · intro h
    rw [Dict.mem_erase,Dict.get?_erase,hm.unreferenced]
    by_cases heq : h = mmHash <;> simp [heq]
  · intro h k hk
    rw [Dict.get?_erase] at hk
    split at hk
    · cases hk
    · exact hm.weight h k hk
  · simp only
    omega
  · intro h
    rw [Dict.mem_erase,List.mem_singleton,and_comm]
  · -- the evicted output had no reference
    intro h x hx
    have hne : h ≠ mmHash := by
      intro heq
      rw [refs,heq,hempty] at hx
      simp at hx
    rw [refs,Dict.get?_erase,if_neg hne]
    exact hx
  · intro h x hx
    rw [refs,Dict.get?_erase] at hx
    split at hx
    · simp at hx
    · exact .inl hx

theorem evict_spec {numEmbeds : Int} {rounds : Nat} (hm : m.Ok size) (requestId : String)
    (hrounds : m.freeable.entries.length ≤ rounds) (hfit : numEmbeds ≤ m.numFreeableSlots) :
    Returns (evict numEmbeds rounds m) fun m' => m'.Ok size ∧
      Touched requestId (fun _ => False) m m' ∧ numEmbeds ≤ m'.numFreeSlots := by
  induction rounds generalizing m with
  | zero =>
    have hnil : m.freeable.entries = [] := List.length_eq_zero_iff.mp (Nat.le_zero.mp hrounds)
    have hzero : m.freeable.total size = 0 := by simp [Dict.total,Dict.keys,hnil]
    have hslots : numEmbeds ≤ m.numFreeSlots := by
      have := hm.freeable
      omega
    rw [evict,if_pos hslots]
    exact .ok ⟨hm,.refl m,hslots⟩
  | succ rounds ih =>
    rw [evict]
    by_cases hslots : numEmbeds ≤ m.numFreeSlots
    · rw [if_pos hslots]
      exact .ok ⟨hm,.refl m,hslots⟩
    · rw [if_neg hslots]
      cases hpop : m.freeable.popFirst with
      | none =>
        have hnil := Dict.popFirst_eq_none.mp hpop
        have hzero : m.freeable.total size = 0 := by simp [Dict.total,Dict.keys,hnil]
        have := hm.freeable
        omega
      | some e =>
        obtain ⟨⟨mmHash,n⟩,freeable⟩ := e
        obtain ⟨hcached,hlt,hok,htouched⟩ := hm.evictOne hpop requestId
        have hrounds' : freeable.entries.length ≤ rounds := by omega
        simp only [hcached,if_true]
        refine (ih hok hrounds' hfit).mono fun m' hm' => ?_
        exact ⟨hm'.1,htouched.trans hm'.2.1,hm'.2.2⟩

theorem canAllocate_spec (hm : m.Ok size) (requestId : String) (f : Feature)
    (encoderComputeBudget numEmbedsToSchedule : Int) :
    Returns (m.canAllocate f encoderComputeBudget numEmbedsToSchedule) fun out => out.2.Ok size ∧
      Touched requestId (fun _ => False) m out.2 ∧
      (out.1 → f.getNumEmbeds ≤ encoderComputeBudget ∧
        f.getNumEmbeds+numEmbedsToSchedule ≤ out.2.numFreeSlots) := by
  rw [canAllocate]
  by_cases hbudget : encoderComputeBudget < f.getNumEmbeds
  · rw [if_pos hbudget]
    exact .ok ⟨hm,.refl m,by simp⟩
  · rw [if_neg hbudget]
    by_cases hslots : f.getNumEmbeds+numEmbedsToSchedule ≤ m.numFreeSlots
    · simp only [if_pos hslots]
      exact .ok ⟨hm,.refl m,fun _ => ⟨by omega,hslots⟩⟩
    · by_cases hfit : m.numFreeableSlots < f.getNumEmbeds+numEmbedsToSchedule
      · simp only [if_neg hslots,if_pos hfit]
        exact .ok ⟨hm,.refl m,by simp⟩
      · simp only [if_neg hslots,if_neg hfit]
        refine (evict_spec hm requestId le_rfl (not_lt.mp hfit)).bind fun m' hm' => ?_
        exact .ok ⟨hm'.1,hm'.2.1,fun _ => ⟨by omega,hm'.2.2⟩⟩

/-- A miss leaves the cache as it is, and a hit adds one reference. -/
theorem checkAndUpdateCache_eq {out : Bool × EncoderCacheManager}
    (h : m.checkAndUpdateCache requestId f = .ok out) :
    (out.1 = false ∧ out.2 = m ∧ f.identifier ∉ m.cached) ∨ (out.1 = true ∧
      ∀ k x, x ∈ out.2.refs k → x ∈ m.refs k ∨ k = f.identifier) := by
  rw [checkAndUpdateCache] at h
  cases hk : m.cached.get? f.identifier with
  | none =>
    rw [hk] at h
    cases h
    exact .inl ⟨rfl,rfl,Dict.get?_eq_none.mp hk⟩
  | some ids =>
    simp only [hk] at h
    have hset : ∀ m' : EncoderCacheManager, m'.cached = m.cached.set f.identifier
        (insert requestId ids) → ∀ k x, x ∈ m'.refs k → x ∈ m.refs k ∨ k = f.identifier := by
      intro m' hm' k x hx
      by_cases heq : k = f.identifier
      · exact .inr heq
      · rw [refs,hm',Dict.get?_set,if_neg heq] at hx
        exact .inl hx
    split at h
    · cases hn : m.freeable.get? f.identifier with
      | none =>
        rw [hn] at h
        cases h
      | some n =>
        rw [hn] at h
        cases h
        exact .inr ⟨rfl,hset _ rfl⟩
    · cases h
      exact .inr ⟨rfl,hset _ rfl⟩

theorem evict_refs {n : Int} {rounds : Nat} (h : evict n rounds m = .ok m') {k x : String}
    (hx : x ∈ m'.refs k) : x ∈ m.refs k := by
  induction rounds generalizing m with
  | zero =>
    rw [evict] at h
    split at h
    · cases h
      exact hx
    · cases h
  | succ rounds ih =>
    rw [evict] at h
    split at h
    · cases h
      exact hx
    · split at h
      · cases h
      · split at h
        · have hbefore := ih h
          rw [refs,Dict.get?_erase] at hbefore
          split at hbefore
          · simp at hbefore
          · exact hbefore
        · cases h

/-- A refusal leaves the cache as it is and says what is short; room is made of unreferenced
outputs. -/
theorem canAllocate_eq {budget n : Int} {out : Bool × EncoderCacheManager}
    (h : m.canAllocate f budget n = .ok out) :
    (out.1 = false ∧ out.2 = m ∧ (budget < f.getNumEmbeds ∨ m.numFreeableSlots < f.getNumEmbeds+n)) ∨
      (out.1 = true ∧ ∀ k x, x ∈ out.2.refs k → x ∈ m.refs k) := by
  rw [canAllocate] at h
  split at h
  · rename_i hbudget
    cases h
    exact .inl ⟨rfl,rfl,.inl hbudget⟩
  · simp only at h
    split at h
    · cases h
      exact .inr ⟨rfl,fun _ _ => id⟩
    · split at h
      · rename_i hfull
        cases h
        exact .inl ⟨rfl,rfl,.inr hfull⟩
      · cases hev : evict (f.getNumEmbeds+n) m.freeable.entries.length m with
        | error e =>
          rw [hev] at h
          cases h
        | ok m' =>
          rw [hev] at h
          cases h
          exact .inr ⟨rfl,fun _ _ => evict_refs hev⟩

theorem allocate_spec (hm : m.Ok size) (requestId : String) (hnew : f.identifier ∉ m.cached)
    (hsize : size f.identifier = f.getNumEmbeds) (hroom : (f.getNumEmbeds : Int) ≤ m.numFreeSlots) :
    Returns (m.allocate requestId f) fun m' => m'.Ok size ∧ m'.cacheSize = m.cacheSize ∧
      m'.freed = m.freed ∧ m'.numFreeSlots = m.numFreeSlots-f.getNumEmbeds ∧
      (∀ h, h ∈ m'.cached ↔ h = f.identifier ∨ h ∈ m.cached) ∧
      ∀ h, m'.refs h = if h = f.identifier then {requestId} else m.refs h := by
  have hfreeable : (f.getNumEmbeds : Int) ≤ m.numFreeableSlots := by
    have := hm.freeable
    omega
  have hnone : m.cached.get? f.identifier = none := Dict.get?_eq_none.mpr hnew
  rw [allocate]
  refine (Returns.check_of hroom).bind fun _ _ => (Returns.check_of hfreeable).bind fun _ _ => .ok ?_
  simp only [if_neg hnew]
  have hmem : f.identifier ∈ m.cached.set f.identifier ∅ := Dict.mem_set.mpr (.inl rfl)
  have hget : ∀ h, ((m.cached.set f.identifier ∅).set f.identifier
      (insert requestId (((m.cached.set f.identifier ∅).get? f.identifier).getD ∅))).get? h =
      if h = f.identifier then some {requestId} else m.cached.get? h := by
    intro h
    rw [Dict.get?_set]
    by_cases heq : h = f.identifier <;> simp [heq,Dict.get?_set]
  refine ⟨⟨?_,?_,?_,?_,hm.weight⟩,trivial,trivial,trivial,?_,?_⟩
  · simp only
    omega
  · have htotal := Dict.total_set_of_not_mem (v := (∅ : Finset String)) size hnew
    have := hm.taken
    rw [Dict.total_set_of_mem size hmem]
    simp only
    omega
  · have := hm.freeable
    simp only
    omega
  · intro h
    rw [hm.unreferenced,hget]
    by_cases heq : h = f.identifier
    · simp [heq,hnone]
    · rw [if_neg heq]
  · intro h
    rw [Dict.mem_set,Dict.mem_set,← or_assoc,or_self]
  · intro h
    rw [refs,hget]
    split <;> rfl

/-- What freeing the inputs of a request does: its references to them are gone. -/
structure Released (requestId : String) (ids : String → Prop) (m m' : EncoderCacheManager) :
    Prop where
  size : m'.cacheSize = m.cacheSize
  slots : m'.numFreeSlots = m.numFreeSlots
  freed : m'.freed = m.freed
  keys : ∀ h, h ∈ m'.cached ↔ h ∈ m.cached
  sub : ∀ h, m'.refs h ⊆ m.refs h
  others : ∀ h x, x ∈ m.refs h → x ≠ requestId → x ∈ m'.refs h
  kept : ∀ h, ¬ ids h → m'.refs h = m.refs h

theorem Released.refl {ids : String → Prop} (m : EncoderCacheManager) :
    Released requestId ids m m :=
  ⟨rfl,rfl,rfl,fun _ => Iff.rfl,fun _ => Finset.Subset.refl _,fun _ _ hx _ => hx,fun _ _ => rfl⟩

theorem Released.trans {ids : String → Prop} {m'' : EncoderCacheManager}
    (h : Released requestId ids m m') (h' : Released requestId ids m' m'') :
    Released requestId ids m m'' :=
  ⟨h'.size.trans h.size,h'.slots.trans h.slots,h'.freed.trans h.freed,
    fun k => (h'.keys k).trans (h.keys k),fun k => (h'.sub k).trans (h.sub k),
    fun k x hx hne => h'.others k x (h.others k x hx hne) hne,
    fun k hk => (h'.kept k hk).trans (h.kept k hk)⟩

theorem freeEncoderInput_spec (hm : m.Ok size) (requestId : String)
    (hsize : size f.identifier = f.getNumEmbeds) :
    (m.freeEncoderInput requestId f).Ok size ∧
      Released requestId (· = f.identifier) m (m.freeEncoderInput requestId f) ∧
      requestId ∉ (m.freeEncoderInput requestId f).refs f.identifier := by
  rw [freeEncoderInput]
  by_cases hk : f.identifier ∈ m.cached
  · rw [get?_cached hk]
    by_cases hempty : m.refs f.identifier = ∅
    · simp only [hempty,if_true]
      exact ⟨hm,.refl m,Finset.notMem_empty _⟩
    · have hnot : f.identifier ∉ m.freeable := by
        rw [hm.unreferenced,get?_cached hk]
        simpa using hempty
      have hreleased : ∀ m' : EncoderCacheManager, m'.cacheSize = m.cacheSize →
          m'.numFreeSlots = m.numFreeSlots → m'.freed = m.freed →
          m'.cached = m.cached.set f.identifier ((m.refs f.identifier).erase requestId) →
          Released requestId (· = f.identifier) m m' ∧ requestId ∉ m'.refs f.identifier := by
        intro m' hsize hslots hfreed hcached
        have hrefs : ∀ h, m'.refs h = if h = f.identifier then
            (m.refs f.identifier).erase requestId else m.refs h := by
          intro h
          rw [refs,hcached]
          exact refs_set _ _ _
        refine ⟨⟨hsize,hslots,hfreed,fun h => ?_,fun h x hx => ?_,fun h x hx hne => ?_,
          fun h hh => by rw [hrefs,if_neg hh]⟩,by simp [hrefs]⟩
        · rw [hcached,Dict.mem_set]
          exact ⟨fun hh => hh.elim (fun he => he ▸ hk) id,.inr⟩
        · rw [hrefs] at hx
          split at hx
          · rename_i heq
            exact heq ▸ Finset.mem_of_mem_erase hx
          · exact hx
        · rw [hrefs]
          split
          · rename_i heq
            exact Finset.mem_erase.mpr ⟨hne,heq ▸ hx⟩
          · exact hx
      by_cases hlast : (m.refs f.identifier).erase requestId = ∅
      · simp only [hempty,hlast,if_true,if_false]
        refine ⟨⟨hm.nonneg,?_,?_,?_,?_⟩,hreleased _ rfl rfl rfl (by simp [hlast])⟩
        · rw [Dict.total_set_of_mem size hk]
          exact hm.taken
        · have htotal := Dict.total_set_of_not_mem (v := f.getNumEmbeds) size hnot
          have := hm.freeable
          simp only
          omega
        · intro h
          rw [Dict.mem_set,Dict.get?_set,hm.unreferenced]
          by_cases heq : h = f.identifier <;> simp [heq]
        · intro h k hget
          rw [Dict.get?_set] at hget
          split at hget
          · rename_i heq
            rw [heq,hsize]
            exact (Option.some.inj hget).symm
          · exact hm.weight h k hget
      · simp only [hempty,hlast,if_false]
        refine ⟨⟨hm.nonneg,?_,hm.freeable,?_,hm.weight⟩,hreleased _ rfl rfl rfl rfl⟩
        · rw [Dict.total_set_of_mem size hk]
          exact hm.taken
        · intro h
          rw [Dict.get?_set]
          by_cases heq : h = f.identifier
          · subst heq
            simp [hnot,hlast]
          · rw [if_neg heq,hm.unreferenced]
  · have hnone : m.cached.get? f.identifier = none := Dict.get?_eq_none.mpr hk
    rw [hnone]
    exact ⟨hm,.refl m,by simp [refs,hnone]⟩

end Specs
end EncoderCacheManager
end TLiveOmni.Sched
