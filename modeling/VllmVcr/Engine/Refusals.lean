import VllmVcr.BlockPoolHits
import VllmVcr.Engine.Pins

/-!
# Refused admissions

A request is validated after its prompt has been cached. A refusal releases the pins it took, but
the blocks it stored stay, the blocks evicted for them are gone and the events are out.
-/

namespace VllmVcr

variable {env : Env}

/-- Whether `ActiveRequest::new` refuses the request. -/
def EngineCoreRequest.refused (request : EngineCoreRequest) : Bool :=
  request.samplingParams.all (fun params => params.maxTokens = 0)

/-! ## The slots of a reachable pool -/

theorem Fresh.slotted {e : SimEngine env} (h : Fresh e) : e.pool.Slotted := h.pinned.slotted

theorem Move.slotted {now : Instant} {e e' : SimEngine env} {effect : Effect}
    (h : Move now e effect e') (hp : e.pool.Slotted) : e'.pool.Slotted := by
  have hdequeue : ∀ (i : ℕ) (queued : QueuedRequest), (e.dequeue i queued).1.pool.Slotted :=
    fun _ _ => (BlockPool.cachePrompt_held hp _ _ _).1
  cases h with
  | arrivalFailed | arrivalRejected | enqueued | orphaned | configured | adaptersChanged
  | specCleared | statsReset => exact hp
  | @parked i queued hadm =>
      rw [SimEngine.park_pool]
      exact hdequeue i queued
  | @admitted i queued hadm active hbuild =>
      rw [SimEngine.activate_pool, SimEngine.pruneBigAdmissions_pool]
      exact hdequeue i queued
  | @refused i queued hadm reason =>
      rw [SimEngine.failAdmission_pool, SimEngine.pruneBigAdmissions_pool]
      exact BlockPool.unpin_slotted (hdequeue i queued) _
  | promoted =>
      rw [SimEngine.log_pool, SimEngine.activate_pool]
      exact hp
  | pullRefused =>
      rw [SimEngine.failAdmission_pool]
      exact BlockPool.unpin_slotted hp _
  | @withdrawn id e₁ client ticket hwithdraw =>
      rw [SimEngine.countAborted_pool]
      rcases SimEngine.withdraw_some hwithdraw with ⟨r, _, _, _, rfl⟩ | ⟨p, _, _, _, rfl⟩ |
        ⟨i, q, _, _, _, _, rfl⟩
      · unfold SimEngine.retire
        split
        · exact hp
        · exact BlockPool.unpin_slotted hp _
      · exact BlockPool.unpin_slotted hp _
      · exact hp
  | composed anchor => exact (e.composeStep_progress anchor).pool ▸ hp
  | @executed step => exact (e.takeStep.executeStep_progress step).pool ▸ hp
  | flushed =>
      apply SimEngine.flush_preserves (I := fun e => e.pool.Slotted) hp
      intro e id h
      unfold SimEngine.retire
      split
      · exact h
      · exact BlockPool.unpin_slotted h _
  | drained => exact hp
  | cacheReset =>
      unfold SimEngine.resetPrefixCache
      split
      · exact BlockPool.reset_slotted hp
      · exact hp

theorem Run.slotted {e₀ e : SimEngine env} {turns : List (Turn env)} {clock : Instant}
    (hrun : Run e₀ turns e clock) (hfresh : Fresh e₀) : e.pool.Slotted :=
  hrun.invariant hfresh.slotted (fun _ _ _ _ he h => h.slotted he)

/-! ## What a refusal leaves behind -/

namespace SimEngine

/-- Admit a queued request; the pull it may be parked behind completes before anything else. -/
def admission (now : Instant) (queued : QueuedRequest) (e : SimEngine env) : SimEngine env :=
  let id := queued.request.requestId
  let e := (e.admitRequest now queued).1
  match queued.request.extractKvParams.bind parseRemoteKv, e.pendingPulls.get? id with
  | some _, some pending => (e.promote now ⟨id, queued.ticket⟩ pending).1
  | _, _ => e

theorem buildRequest_refused (now : Instant) {queued : QueuedRequest} {e : SimEngine env}
    (h : queued.request.refused = true) (blockIds : List ℕ) (numLocalCached : ℕ) :
    ∃ reason, e.buildRequest now queued blockIds numLocalCached = .error reason := by
  rw [EngineCoreRequest.refused] at h
  unfold buildRequest ActiveRequest.new
  cases hparams : queued.request.samplingParams with
  | none => exact ⟨_, rfl⟩
  | some params =>
      rw [hparams, Option.all_some, decide_eq_true_eq] at h
      simp only [if_pos h]
      exact ⟨_, rfl⟩

theorem admitDirect_refused (now : Instant) {queued : QueuedRequest} (e : SimEngine env)
    (h : queued.request.refused = true) (requestId : String) (clientIndex : ℕ)
    (blockIds : List ℕ) (numLocalCached : ℕ) :
    ∃ output, e.admitDirect now requestId clientIndex queued blockIds numLocalCached =
      ((e.pruneBigAdmissions now).failAdmission blockIds, some output) := by
  obtain ⟨reason, hbuild⟩ := buildRequest_refused (e := e.pruneBigAdmissions now) now h
    blockIds numLocalCached
  unfold admitDirect
  simp only [hbuild]
  exact ⟨_, rfl⟩

theorem promote_refused (now : Instant) {queued : QueuedRequest} (e : SimEngine env)
    (h : queued.request.refused = true) (task : PullTask) (blockIds : List ℕ)
    (numLocalCached clientIndex : ℕ) (loraName : Option String) :
    let e' := (e.promote now task ⟨queued, blockIds, numLocalCached, clientIndex, loraName⟩).1
    e'.pool = e.pool.unpin blockIds ∧ e'.events = e.events := by
  obtain ⟨output, hadmits⟩ := admitDirect_refused now
    { e with pendingPulls := e.pendingPulls.erase task.requestId } h task.requestId clientIndex
    blockIds numLocalCached
  simp only [promote, hadmits]
  exact ⟨rfl, rfl⟩

/-- A refusal takes the prompt through the pool and publishes its events. -/
theorem admission_refused (now : Instant) {queued : QueuedRequest} (e : SimEngine env)
    (h : queued.request.refused = true) :
    let r := e.pool.cachePrompt queued.request.prompt queued.request.requestLoraName
      queued.request.cacheSalt
    (e.admission now queued).pool = r.1.unpin r.2.blockIds ∧
      (e.admission now queued).events = (e.publish r.2.events).events := by
  intro r
  unfold admission
  rw [admitRequest_eq]
  cases hremote : queued.request.extractKvParams.bind parseRemoteKv with
  | none =>
      obtain ⟨output, hadmits⟩ := admitDirect_refused now
        (e.cacheRequest queued.request).1 h queued.request.requestId queued.request.clientIndex
        (e.cacheRequest queued.request).2.blockIds (e.cacheRequest queued.request).2.numCachedTokens
      simp only [hadmits]
      exact ⟨rfl, rfl⟩
  | some remote =>
      simp only [park_pendingPulls, SortedMap.get?_insert_self]
      obtain ⟨hpool, hevents⟩ := promote_refused now
        ((e.cacheRequest queued.request).1.park queued (e.cacheRequest queued.request).2) h
        ⟨queued.request.requestId, queued.ticket⟩ (e.cacheRequest queued.request).2.blockIds
        (e.cacheRequest queued.request).2.numCachedTokens queued.request.clientIndex
        queued.request.requestLoraName
      exact ⟨hpool, hevents⟩

end SimEngine

/-- In every reachable state, admitting a request that is refused leaves the cached blocks and
their pins as they were iff its prompt stores nothing and finds each of its blocks once; it
publishes nothing then. -/
theorem refusal_leaves_cache_iff {e₀ e : SimEngine env} {turns : List (Turn env)} {clock : Instant}
    (hfresh : Fresh e₀) (hrun : Run e₀ turns e clock) (now : Instant) (queued : QueuedRequest)
    (hrefused : queued.request.refused = true) :
    let e' := e.admission now queued
    ((∀ hash, (e'.pool.cached.get? hash).map Slot.refcnt =
        (e.pool.cached.get? hash).map Slot.refcnt) ∧ e'.events = e.events) ↔
      e.pool.Absorbs queued.request.prompt queued.request.requestLoraName
        queued.request.cacheSalt := by
  intro e'
  obtain ⟨hpool, hevents⟩ := e.admission_refused now hrefused
  obtain ⟨hiff, hsilent⟩ := BlockPool.unpin_restores_iff (hrun.slotted hfresh)
    queued.request.prompt queued.request.requestLoraName queued.request.cacheSalt
  simp only [e', hpool, hevents]
  rw [hiff]
  constructor
  · rintro ⟨habsorbs, _⟩
    exact habsorbs
  · intro habsorbs
    refine ⟨habsorbs, ?_⟩
    rw [hsilent habsorbs]
    exact SimEngine.publish_events _ _

/-- A pool of one block, kept by a finished request when another one that cannot run is queued. -/
def evictingOpt : Opt :=
  { demoOpt with maxNumSeqs := 1, kvCacheSize := 1, enableKvCacheEvents := true }

def evictingScript : List (Instant × Op) :=
  let filled (id : String) (maxTokens : ℕ) (token : Token) : EngineCoreRequest :=
    { demoRequest id maxTokens with promptTokenIds := some (List.replicate 16 token) }
  [(0, .input (.request (filled "a" 1 0))), (10, .step),
    (10, .input (.request (demoRequest "b" 5))), (10, .input (.request (filled "c" 0 1)))]

def evicts (e : SimEngine demoEnv) (queued : QueuedRequest) : Bool :=
  queued.request.refused && decide ((e.admission 10 queued).events ≠ e.events) &&
    e.pool.cached.keys.any (fun hash => !(e.admission 10 queued).pool.cached.contains hash)

theorem evictingScript_plays :
    ∃ turns e clock queued, Run (demo evictingOpt none) turns e clock ∧ queued ∈ e.waiting ∧
      evicts e queued = true := by
  have hplays : ((demo evictingOpt none).play 20 evictingScript).any
      (fun played => played.2.waiting.any (evicts played.2)) = true := by decide +kernel
  obtain ⟨turns, e, clock, hrun, _, hany⟩ :=
    Run.of_script (p := fun _ e => e.waiting.any (evicts e)) hplays (by decide +kernel)
  obtain ⟨queued, hqueued, hevicts⟩ := List.any_eq_true.mp hany
  exact ⟨turns, e, clock, queued, hrun, hqueued, hevicts⟩

/-- The refused request evicts the block of the finished one, and its own events are published. -/
theorem evictingScript_evicts :
    ∃ turns e clock queued hash, Run (demo evictingOpt none) turns e clock ∧ queued ∈ e.waiting ∧
      queued.request.refused = true ∧ (e.pool.cached.get? hash).isSome ∧
      (e.admission 10 queued).pool.cached.get? hash = none ∧
      (e.admission 10 queued).events ≠ e.events := by
  obtain ⟨turns, e, clock, queued, hrun, hqueued, hevicts⟩ := evictingScript_plays
  simp only [evicts, Bool.and_eq_true, decide_eq_true_eq] at hevicts
  obtain ⟨⟨hrefused, hevents⟩, hkeys⟩ := hevicts
  obtain ⟨hash, hhash, hgone⟩ := List.any_eq_true.mp hkeys
  refine ⟨turns, e, clock, queued, hash, hrun, hqueued, hrefused, ?_, ?_, hevents⟩
  · obtain ⟨slot, hslot⟩ := SortedMap.mem_keys.mp hhash
    rw [hslot]
    rfl
  · simpa [SortedMap.contains] using hgone

theorem evictingScript_stores :
    ∃ turns e clock queued, Run (demo evictingOpt none) turns e clock ∧ queued ∈ e.waiting ∧
      queued.request.refused = true ∧
      ¬ e.pool.Absorbs queued.request.prompt queued.request.requestLoraName
        queued.request.cacheSalt := by
  obtain ⟨turns, e, clock, queued, hrun, hqueued, hevicts⟩ := evictingScript_plays
  simp only [evicts, Bool.and_eq_true, decide_eq_true_eq] at hevicts
  obtain ⟨⟨hrefused, hevents⟩, _⟩ := hevicts
  refine ⟨turns, e, clock, queued, hrun, hqueued, hrefused, fun habsorbs => ?_⟩
  exact hevents ((refusal_leaves_cache_iff (demo_fresh _ _ _) hrun 10 queued hrefused).mpr
    habsorbs).2

end VllmVcr
