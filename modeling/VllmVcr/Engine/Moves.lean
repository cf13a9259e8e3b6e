import VllmVcr.Engine.Run

/-!
# Moves

Every operation of the engine is a path of the moves below, each the application of one
function of the model under the guards it runs under. Invariants are proved on moves.
-/

namespace VllmVcr

variable {env : Env}

/-- What a move shows: outputs for the clients, a completed step, an accepted request, a received
completion, drained counters, a changed setting. -/
inductive Effect where
  | outputs (os : List EngineCoreOutput)
  | completed (step : EngineStep)
  | accepted (request : EngineCoreRequest)
  | received (task : PullTask) (os : List EngineCoreOutput)
  | drained (snapshot : PrefixStatsSnapshot)
  | configured (patch : ConfigPatch)
  | statsReset

def Effect.toOutputs : Effect → List EngineCoreOutput
  | outputs os => os
  | received _ os => os
  | _ => []

namespace SimEngine

/-- Take a request off the waiting queue and cache its prompt. -/
def dequeue (i : ℕ) (queued : QueuedRequest) (e : SimEngine env) : SimEngine env × CacheOutcome :=
  (e.removeWaiting i).cacheRequest queued.request

/-- Take a request out of `pendingPulls`, before it is admitted or failed. -/
@[simps] def unpark (now : Instant) (requestId : String) (e : SimEngine env) : SimEngine env :=
  { e.pruneBigAdmissions now with pendingPulls := e.pendingPulls.erase requestId }

section Fields

variable (i : ℕ) (queued : QueuedRequest) (e : SimEngine env)

@[simp] theorem dequeue_activeRequests :
    (e.dequeue i queued).1.activeRequests = e.activeRequests := rfl

@[simp] theorem dequeue_pendingPulls : (e.dequeue i queued).1.pendingPulls = e.pendingPulls := rfl

@[simp] theorem dequeue_waiting : (e.dequeue i queued).1.waiting = e.waiting.eraseIdx i := rfl

@[simp] theorem dequeue_stats : (e.dequeue i queued).1.stats = e.stats := rfl

@[simp] theorem dequeue_nextTicket : (e.dequeue i queued).1.nextTicket = e.nextTicket := rfl

@[simp] theorem dequeue_opt : (e.dequeue i queued).1.opt = e.opt := rfl

@[simp] theorem dequeue_loras : (e.dequeue i queued).1.loras = e.loras := rfl

@[simp] theorem dequeue_pullTasks : (e.dequeue i queued).1.pullTasks = e.pullTasks := rfl

@[simp] theorem dequeue_currentStep : (e.dequeue i queued).1.currentStep = e.currentStep := rfl

@[simp] theorem dequeue_prefillOrder : (e.dequeue i queued).1.prefillOrder = e.prefillOrder := rfl

@[simp] theorem dequeue_stepSource : (e.dequeue i queued).1.stepSource = e.stepSource := rfl

@[simp] theorem dequeue_tokenSource : (e.dequeue i queued).1.tokenSource = e.tokenSource := rfl

@[simp] theorem dequeue_engineIndex : (e.dequeue i queued).1.engineIndex = e.engineIndex := rfl

@[simp] theorem dequeue_latency : (e.dequeue i queued).1.latency = e.latency := rfl

@[simp] theorem dequeue_emitSeq : (e.dequeue i queued).1.emitSeq = e.emitSeq := rfl

variable (now : Instant) (requestId : String) (active : ActiveRequest env)

@[simp] theorem activate_pendingPulls :
    (e.activate now requestId active).pendingPulls = e.pendingPulls := rfl

@[simp] theorem activate_waiting : (e.activate now requestId active).waiting = e.waiting := rfl

@[simp] theorem activate_pool : (e.activate now requestId active).pool = e.pool := rfl

@[simp] theorem activate_stats : (e.activate now requestId active).stats = e.stats := rfl

@[simp] theorem activate_nextTicket :
    (e.activate now requestId active).nextTicket = e.nextTicket := rfl

@[simp] theorem activate_opt : (e.activate now requestId active).opt = e.opt := rfl

@[simp] theorem activate_loras : (e.activate now requestId active).loras = e.loras := rfl

@[simp] theorem activate_pullTasks :
    (e.activate now requestId active).pullTasks = e.pullTasks := rfl

@[simp] theorem activate_currentStep :
    (e.activate now requestId active).currentStep = e.currentStep := rfl

@[simp] theorem activate_emitSeq : (e.activate now requestId active).emitSeq = e.emitSeq := rfl

end Fields

/-- The last step the engine completed. -/
def lastCompleted (e : SimEngine env) : Option EngineStep :=
  (e.journal.filterMap (fun | .completed step => some step | _ => none)).getLast?

/-- Where `schedule` finds the request it admits next. -/
structure Admissible (e : SimEngine env) (i : ℕ) (queued : QueuedRequest) : Prop where
  next : e.nextAdmissibleIndex = some i
  waiting : e.waiting[i]? = some queued
  room : e.HasRoom
  adapter : e.loraAdmits queued.request

end SimEngine

open SimEngine

inductive Move (now : Instant) : SimEngine env → Effect → SimEngine env → Prop
  | arrivalFailed (e : SimEngine env) (rng : env.Rng) (requestId : String) (reason : FinishReason) :
      Move now e (.outputs [terminalOutput none requestId reason])
        (e.countReceived.withFailureRng rng).countFailed
  | arrivalRejected (e : SimEngine env) (requestId : String) :
      Move now e (.outputs [terminalOutput none requestId .abort]) e.countReceived.countAborted
  | enqueued (e : SimEngine env) (rng : env.Rng) (request : EngineCoreRequest)
      (hnew : e.isKnown request.requestId = false) :
      Move now e (.accepted request)
        ((e.countReceived.withFailureRng rng).enqueue now request)
  | parked (e : SimEngine env) {i : ℕ} {queued : QueuedRequest} (hadm : e.Admissible i queued)
      (hremote : (queued.request.extractKvParams.bind parseRemoteKv).isSome) :
      Move now e (.outputs []) ((e.dequeue i queued).1.park queued (e.dequeue i queued).2)
  | admitted (e : SimEngine env) {i : ℕ} {queued : QueuedRequest} (hadm : e.Admissible i queued)
      {active : ActiveRequest env}
      (hbuild : ((e.dequeue i queued).1.pruneBigAdmissions now).buildRequest now queued
        (e.dequeue i queued).2.blockIds (e.dequeue i queued).2.numCachedTokens = .ok active) :
      Move now e (.outputs []) (((e.dequeue i queued).1.pruneBigAdmissions now).activate now
        queued.request.requestId active)
  | refused (e : SimEngine env) {i : ℕ} {queued : QueuedRequest} (hadm : e.Admissible i queued)
      (reason : FinishReason) :
      Move now e (.outputs [terminalOutput (some queued.ticket) queued.request.requestId reason])
        (((e.dequeue i queued).1.pruneBigAdmissions now).failAdmission
          (e.dequeue i queued).2.blockIds)
  | promoted (e : SimEngine env) {task : PullTask} (htask : task ∈ e.pullTasks)
      {pending : PendingPull} (hpending : e.pendingPulls.get? task.requestId = some pending)
      {active : ActiveRequest env}
      (hbuild : ((e.receivePull task).unpark now task.requestId).buildRequest now pending.queued
        pending.blockIds pending.numLocalCachedTokens = .ok active) :
      Move now e (.received task []) ((((e.receivePull task).unpark now task.requestId).activate
        now task.requestId active).log (.promoted pending.queued.ticket task.ticket))
  | pullRefused (e : SimEngine env) {task : PullTask} (htask : task ∈ e.pullTasks)
      {pending : PendingPull} (hpending : e.pendingPulls.get? task.requestId = some pending)
      (reason : FinishReason) :
      Move now e
        (.received task [terminalOutput (some pending.queued.ticket) task.requestId reason])
        (((e.receivePull task).unpark now task.requestId).failAdmission pending.blockIds)
  | orphaned (e : SimEngine env) {task : PullTask} (htask : task ∈ e.pullTasks)
      (hpending : e.pendingPulls.get? task.requestId = none) :
      Move now e (.received task []) (e.receivePull task)
  | withdrawn (e : SimEngine env) {requestId : String} {e' : SimEngine env} {client ticket : ℕ}
      (hwithdraw : e.withdraw requestId = (e', some (client, ticket))) :
      Move now e (.outputs [terminalOutput (some ticket) requestId .abort]) e'.countAborted
  | composed (e : SimEngine env) (anchor : Instant) (hidle : e.currentStep = none)
      (hanchor : anchor = now ∨ ∃ step, e.lastCompleted = some step ∧ step.endsAt = anchor) :
      Move now e (.outputs []) (e.composeStep anchor)
  | executed (e : SimEngine env) {step : EngineStep} (hstep : e.currentStep = some step)
      (hdue : step.endsAt ≤ now) :
      Move now e (.completed step) (e.takeStep.executeStep step)
  | flushed (e : SimEngine env) :
      Move now e (.outputs ((e.dueEmits now).map DueEmit.output)) (e.flush now).1
  | drained (e : SimEngine env) :
      Move now e (.drained e.schedulerStats.2.prefixCacheStats) e.schedulerStats.1
  | cacheReset (e : SimEngine env) : Move now e (.outputs []) e.resetPrefixCache.1
  | configured (e : SimEngine env) (patch : ConfigPatch) (latency : LatencyModel env.Rng) :
      Move now e (.configured patch) { e with opt := patch.apply e.opt, latency := latency }
  | adaptersChanged (e : SimEngine env) (loaded : SortedMap ℕ String) :
      Move now e (.outputs []) (e.withLoras { e.loras with loaded := loaded })
  | specCleared (e : SimEngine env) : Move now e (.outputs []) e.clearSpec
  | statsReset (e : SimEngine env) : Move now e .statsReset { e with stats := {} }

/-- The labels that a path of this operation may carry besides outputs. -/
def Op.Allows (op : Op) : Effect → Prop
  | .outputs _ => True
  | .completed _ => op = .step
  | .accepted request => op = .input (.request request)
  | .received task _ => op = .pullCompletion task
  | .drained _ => op = .step ∨ op = .abortAllRequests ∨ ∃ ids, op = .input (.abort ids)
  | .configured patch => op = .input (.control (.patchConfig patch))
  | .statsReset => op = .input (.control .resetStats)

/-- A path of moves that shows the outputs `os` in this order, and besides outputs only what
`P` allows. -/
def Emits (P : Effect → Prop) (now : Instant) (e : SimEngine env) (os : List EngineCoreOutput)
    (e' : SimEngine env) : Prop :=
  ∃ effects, Path (Move now) e effects e' ∧
    (∀ effect ∈ effects, (∃ os, effect = .outputs os) ∨ P effect) ∧
    effects.flatMap Effect.toOutputs = os

namespace Emits

variable {P : Effect → Prop} {now : Instant} {e e' e'' : SimEngine env}
  {os os' : List EngineCoreOutput}

theorem refl (e : SimEngine env) : Emits P now e [] e := ⟨[], Path.nil e, by simp, rfl⟩

theorem of_move {effect : Effect} (h : Move now e effect e') (hallow : P effect) :
    Emits P now e effect.toOutputs e' :=
  ⟨[effect], Path.single h, by simpa using Or.inr hallow, by simp⟩

theorem move (h : Move now e (.outputs os) e') : Emits P now e os e' :=
  ⟨[.outputs os], Path.single h, by simp, by simp [Effect.toOutputs]⟩

/-- What every plain move and every allowed one preserves, the path preserves. -/
theorem invariant {I : SimEngine env → Prop} (h : Emits P now e os e') (hinit : I e)
    (hmove : ∀ e effect e', (∃ os, effect = .outputs os) ∨ P effect → I e →
      Move now e effect e' → I e') : I e' := by
  obtain ⟨effects, hpath, hallow, _⟩ := h
  exact hpath.invariant_of hinit hallow hmove

theorem allows {op : Op} (h : Emits op.Allows now e os e') :
    ∃ effects, Path (Move now) e effects e' ∧ (∀ effect ∈ effects, op.Allows effect) ∧
      effects.flatMap Effect.toOutputs = os := by
  obtain ⟨effects, hpath, hallow, hos⟩ := h
  refine ⟨effects, hpath, fun effect heffect => ?_, hos⟩
  rcases hallow effect heffect with ⟨os, rfl⟩ | hallowed
  · trivial
  · exact hallowed

theorem trans (h : Emits P now e os e') (h' : Emits P now e' os' e'') :
    Emits P now e (os ++ os') e'' := by
  obtain ⟨effects, hpath, hallow, rfl⟩ := h
  obtain ⟨effects', hpath', hallow', rfl⟩ := h'
  refine ⟨effects ++ effects', hpath.append hpath', ?_, List.flatMap_append⟩
  intro effect heffect
  rcases List.mem_append.mp heffect with hleft | hright
  · exact hallow effect hleft
  · exact hallow' effect hright

end Emits

/-- The per-request outputs of a batch of envelopes. -/
def coreOf (outs : List EngineOutput) : List EngineCoreOutput :=
  outs.flatMap (fun out => out.outputs.requestOutputs)

@[simp] theorem coreOf_nil : coreOf [] = [] := rfl

@[simp] theorem coreOf_append (outs outs' : List EngineOutput) :
    coreOf (outs ++ outs') = coreOf outs ++ coreOf outs' := List.flatMap_append

@[simp] theorem coreOf_cons (out : EngineOutput) (outs : List EngineOutput) :
    coreOf (out :: outs) = out.outputs.requestOutputs ++ coreOf outs := rfl

@[simp] theorem requestOutputs_emptyFinish (engineIndex : ℕ) (now : Instant)
    (ticket : Option ℕ) (requestId : String) (reason : FinishReason) :
    (emptyFinishOutputs engineIndex now ticket requestId reason).requestOutputs =
      [terminalOutput ticket requestId reason] := rfl

namespace SimEngine

/-! ## Admission -/

/-- Direct admission activates the request it builds, or fails it. -/
theorem admitDirect_cases (now : Instant) (requestId : String) (clientIndex : ℕ)
    (queued : QueuedRequest) (blockIds : List ℕ) (numLocalCached : ℕ) (e : SimEngine env) :
    (∃ active,
      (e.pruneBigAdmissions now).buildRequest now queued blockIds numLocalCached = .ok active ∧
      e.admitDirect now requestId clientIndex queued blockIds numLocalCached =
        ((e.pruneBigAdmissions now).activate now requestId active, none)) ∨
    ∃ reason, e.admitDirect now requestId clientIndex queued blockIds numLocalCached =
      ((e.pruneBigAdmissions now).failAdmission blockIds, some ⟨clientIndex,
        emptyFinishOutputs e.engineIndex now (some queued.ticket) requestId reason⟩) := by
  simp only [admitDirect]
  split
  · next active hbuild => exact Or.inl ⟨active, hbuild, rfl⟩
  · next reason hbuild => exact Or.inr ⟨reason, rfl⟩

theorem admitRequest_eq (now : Instant) (queued : QueuedRequest) (e : SimEngine env) :
    e.admitRequest now queued =
      match queued.request.extractKvParams.bind parseRemoteKv with
      | some _ =>
          ((e.cacheRequest queued.request).1.park queued (e.cacheRequest queued.request).2, none)
      | none => (e.cacheRequest queued.request).1.admitDirect now queued.request.requestId
          queued.request.clientIndex queued (e.cacheRequest queued.request).2.blockIds
          (e.cacheRequest queued.request).2.numCachedTokens := rfl

theorem admitRequest_emits {P : Effect → Prop} (now : Instant) {e : SimEngine env} {i : ℕ}
    {queued : QueuedRequest} (hadm : e.Admissible i queued) :
    Emits P now e (coreOf ((e.removeWaiting i).admitRequest now queued).2.toList)
      ((e.removeWaiting i).admitRequest now queued).1 := by
  rw [admitRequest_eq]
  split
  · next remote hremote => exact Emits.move (Move.parked e hadm (hremote ▸ rfl))
  · rcases admitDirect_cases now queued.request.requestId queued.request.clientIndex queued
      (e.dequeue i queued).2.blockIds (e.dequeue i queued).2.numCachedTokens
      (e.dequeue i queued).1 with ⟨active, hbuild, hadmits⟩ | ⟨reason, hadmits⟩
    · exact hadmits ▸ Emits.move (Move.admitted e hadm hbuild)
    · exact hadmits ▸ Emits.move (Move.refused e hadm reason)

theorem nextAdmissible_admissible {e : SimEngine env} {i : ℕ} {queued : QueuedRequest}
    (hroom : e.HasRoom)
    (h : e.nextAdmissibleIndex.bind (fun i => e.waiting[i]?.map (fun q => (i, q))) =
      some (i, queued)) : e.Admissible i queued := by
  obtain ⟨j, hj, hq⟩ := Option.bind_eq_some_iff.mp h
  obtain ⟨q, hget, heq⟩ := Option.map_eq_some_iff.mp hq
  cases heq
  obtain ⟨q', hget', hadm⟩ := Scheduler.nextAdmissible_some hj
  rw [hget, Option.some.injEq] at hget'
  exact ⟨hj, hget, hroom, hget' ▸ hadm⟩

theorem scheduleLoop_emits {P : Effect → Prop} (now : Instant) (rounds : ℕ) (e : SimEngine env) :
    Emits P now e (coreOf (scheduleLoop now rounds e).2) (scheduleLoop now rounds e).1 := by
  induction rounds generalizing e with
  | zero => exact Emits.refl e
  | succ rounds ih =>
      unfold scheduleLoop
      split
      · next hroom =>
          split
          · exact Emits.refl e
          · next i queued hnext =>
              have hadm := admitRequest_emits (P := P) now (nextAdmissible_admissible hroom hnext)
              simpa using hadm.trans (ih _)
      · exact Emits.refl e

theorem schedule_emits {P : Effect → Prop} (now : Instant) (e : SimEngine env) :
    Emits P now e (coreOf (e.schedule now).2) (e.schedule now).1 :=
  scheduleLoop_emits now e.waiting.length e

theorem ensureStep_emits {P : Effect → Prop} {now anchor : Instant} {e : SimEngine env}
    (hanchor : anchor = now ∨ ∃ step, e.lastCompleted = some step ∧ step.endsAt = anchor) :
    Emits P now e [] (e.ensureStep anchor) := by
  unfold ensureStep
  split
  · next hidle => exact Emits.move (Move.composed e anchor (Option.isNone_iff_eq_none.mp hidle) hanchor)
  · exact Emits.refl e

theorem refill_emits {P : Effect → Prop} (now : Instant) (e : SimEngine env) :
    Emits P now e (coreOf (e.refill now).2) (e.refill now).1 := by
  change Emits P now e (coreOf (e.schedule now).2) ((e.schedule now).1.ensureStep now)
  simpa using (e.schedule_emits now).trans (ensureStep_emits (Or.inl rfl))

end SimEngine
end VllmVcr
