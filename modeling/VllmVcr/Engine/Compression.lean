import Mathlib.Algebra.Order.Field.Canonical
import Mathlib.Algebra.Order.Field.Basic
import Mathlib.Algebra.Order.Ring.NNRat
import VllmVcr.Engine.Run

/-!
# Time compression

The state of an engine with every instant divided by `s` and the clock `s` times as
fast, and that each engine function commutes with it.
-/

namespace VllmVcr

variable {env : Env} (s : ℚ≥0)

namespace SortedMap

variable {κ ν μ : Type*} [LinearOrder κ] (f : ν → μ) (m : SortedMap κ ν) (k : κ)

theorem mapValues_insert (v : ν) :
    (m.insert k v).mapValues (fun _ => f) = (m.mapValues (fun _ => f)).insert k (f v) := by
  ext k' w
  simp only [get?_mapValues, get?_insert]
  split <;> rfl

theorem mapValues_erase :
    (m.erase k).mapValues (fun _ => f) = (m.mapValues (fun _ => f)).erase k := by
  ext k' w
  simp only [get?_mapValues, get?_erase]
  split <;> rfl

theorem values_mapValues : (m.mapValues (fun _ => f)).values = m.values.map f := by
  simp [values, mapValues, Function.comp_def]

theorem mapValues_mapValues {ω : Type*} (g : μ → ω) :
    (m.mapValues (fun _ => f)).mapValues (fun _ => g) = m.mapValues (fun _ v => g (f v)) := by
  ext k' w
  simp only [get?_mapValues, Option.map_map, Function.comp_def]

@[simp] theorem contains_mapValues : (m.mapValues (fun _ => f)).contains k = m.contains k := by
  simp [contains]

@[simp] theorem isEmpty_mapValues : (m.mapValues (fun _ => f)).isEmpty = m.isEmpty := by
  simp [isEmpty, mapValues]

@[simp] theorem keys_mapValues : (m.mapValues (fun _ => f)).keys = m.keys := by
  simp [keys, mapValues, Function.comp_def]

end SortedMap

theorem argmax_map {α β γ : Type*} [LinearOrder γ] (f : α → β) (g : β → γ) (l : List α) :
    (l.map f).argmax g = (l.argmax (fun a => g (f a))).map f := by
  induction l with
  | nil => rfl
  | cons a l ih =>
      rw [List.map_cons, List.argmax_cons, List.argmax_cons, ih]
      cases l.argmax (fun a => g (f a)) with
      | none => rfl
      | some b =>
          simp only [Option.map_some]
          split <;> rfl

/-! ## The compressed state -/

@[simps] def PendingEmit.compress (p : PendingEmit) : PendingEmit := { p with due := p.due / s }

@[simps] def EngineCoreEvent.compress (ev : EngineCoreEvent) : EngineCoreEvent :=
  { ev with timestamp := ev.timestamp / s }

@[simps] def Emission.compress (em : Emission) : Emission := { em with due := em.due / s }

@[simps] def EngineCoreOutput.compress (o : EngineCoreOutput) : EngineCoreOutput :=
  { o with
    events := o.events.map (List.map (EngineCoreEvent.compress s))
    emission := o.emission.map (Emission.compress s) }

def Envelope.compress : Envelope → Envelope
  | .requestBatch engineIndex outputs stats timestamp finished =>
      .requestBatch engineIndex (outputs.map (EngineCoreOutput.compress s)) stats (timestamp / s)
        finished
  | .utility engineIndex timestamp callId result =>
      .utility engineIndex (timestamp / s) callId result

@[simps] def EngineOutput.compress (out : EngineOutput) : EngineOutput :=
  { out with outputs := out.outputs.compress s }

@[simps] def EngineStep.compress (step : EngineStep) : EngineStep :=
  { step with endsAt := step.endsAt / s }

@[simps] def Generation.compress (g : Generation) : Generation :=
  { g with emit := g.emit.map (PendingEmit.compress s) }

def Event.compress : Event → Event
  | .completed step => .completed (step.compress s)
  | .generated g => .generated (g.compress s)
  | ev => ev

@[simps] def QueuedRequest.compress (q : QueuedRequest) : QueuedRequest :=
  { q with queuedAt := q.queuedAt / s }

@[simps] def PendingPull.compress (p : PendingPull) : PendingPull :=
  { p with queued := p.queued.compress s }

@[simps] def ActiveRequest.compress (r : ActiveRequest env) : ActiveRequest env :=
  { r with
    pendingEmits := r.pendingEmits.map (PendingEmit.compress s)
    pendingEvents := r.pendingEvents.map (EngineCoreEvent.compress s) }

@[simps] def Opt.compress (opt : Opt) : Opt :=
  { opt with timeScale := (opt.effectiveTimeScale * s : ℚ≥0) }

/-- The state of an engine whose clock runs `s` times as fast. -/
@[simps] def SimEngine.compress (e : SimEngine env) : SimEngine env :=
  { e with
    opt := e.opt.compress s
    activeRequests := e.activeRequests.mapValues (fun _ => ActiveRequest.compress s)
    waiting := e.waiting.map (QueuedRequest.compress s)
    pendingPulls := e.pendingPulls.mapValues (fun _ => PendingPull.compress s)
    currentStep := e.currentStep.map (EngineStep.compress s)
    recentBigAdmissions := e.recentBigAdmissions.map (· / s)
    journal := e.journal.map (Event.compress s) }

/-- The same for an engine with what it returns. -/
def compressBoth (p : SimEngine env × List EngineOutput) : SimEngine env × List EngineOutput :=
  (p.1.compress s, p.2.map (EngineOutput.compress s))

variable {s} (hs : 0 < s)

theorem Opt.effectiveTimeScale_pos (opt : Opt) : 0 < opt.effectiveTimeScale := by
  unfold Opt.effectiveTimeScale
  split
  · next h => exact Rat.toNNRat_pos.mpr h
  · exact one_pos

include hs in
theorem Opt.effectiveTimeScale_compress (opt : Opt) :
    (opt.compress s).effectiveTimeScale = opt.effectiveTimeScale * s := by
  have hpos : 0 < opt.effectiveTimeScale * s := mul_pos opt.effectiveTimeScale_pos hs
  have hcast : (0 : ℚ) < (opt.effectiveTimeScale * s : ℚ≥0) := NNRat.coe_pos.mpr hpos
  rw [Opt.effectiveTimeScale, Opt.compress_timeScale, if_pos hcast, NNRat.toNNRat_coe]

/-! ## One request -/

namespace ActiveRequest

variable (r : ActiveRequest env)

theorem generate_compress (source : TokenSource) (stepEnd : Instant) (chunk seq : ℕ)
    (timeScale : ℚ≥0) :
    (r.compress s).generate source (stepEnd / s) chunk (timeScale * s) seq =
      ((r.generate source stepEnd chunk timeScale seq).1.compress s,
        (r.generate source stepEnd chunk timeScale seq).2.1,
        (r.generate source stepEnd chunk timeScale seq).2.2.map (PendingEmit.compress s)) := by
  unfold generate
  have hlen : (r.compress s).chunkLen chunk = r.chunkLen chunk := rfl
  rw [hlen]
  by_cases hzero : r.chunkLen chunk = 0
  · simp only [hzero, if_true]
    rfl
  · simp only [hzero, if_false]
    have hdue : stepEnd / s + r.emitOffset / (timeScale * s) =
        (stepEnd + r.emitOffset / timeScale) / s := by
      rw [add_div, div_div]
    simp only [compress, hdue, List.map_append, List.map_cons, List.map_nil, Option.map_some,
      PendingEmit.compress]

theorem capTokens_compress (opt : Opt) (latency : LatencyModel env.Rng) (promptLen : ℕ)
    (params : EngineCoreSamplingParams) (rng : env.Rng) :
    capTokens (opt.compress s) latency promptLen params rng =
      capTokens opt latency promptLen params rng :=
  rfl

theorem new_compress (engineIndex : ℕ) (now : Instant) (request : EngineCoreRequest)
    (ticket : ℕ) (opt : Opt) (latency : LatencyModel env.Rng) (admission : AdmissionCtx) :
    new engineIndex (now / s) request ticket (opt.compress s) latency
        { admission with queuedAt := admission.queuedAt / s } =
      (new engineIndex now request ticket opt latency admission).map
        (ActiveRequest.compress s) := by
  unfold new
  cases request.samplingParams with
  | none => rfl
  | some params =>
      simp only [capTokens_compress]
      split
      · rfl
      · split <;> rfl

end ActiveRequest

theorem Scheduler.minIndex_map {admissible : EngineCoreRequest → Bool}
    {f : QueuedRequest → QueuedRequest} (hf : ∀ q, (f q).request = q.request) (i : ℕ)
    (waiting : List QueuedRequest) :
    minIndex admissible i (waiting.map f) = minIndex admissible i waiting := by
  induction waiting generalizing i with
  | nil => rfl
  | cons q rest ih => rw [List.map_cons, minIndex, minIndex, ih, hf]

theorem Scheduler.nextAdmissible_map {policy : Scheduler} {admissible : EngineCoreRequest → Bool}
    {f : QueuedRequest → QueuedRequest} (hf : ∀ q, (f q).request = q.request)
    (waiting : List QueuedRequest) :
    policy.nextAdmissible (waiting.map f) admissible =
      policy.nextAdmissible waiting admissible := by
  cases policy with
  | fcfs =>
      rw [nextAdmissible, nextAdmissible, List.findIdx?_map]
      congr 1
      funext q
      exact congrArg admissible (hf q)
  | priority => rw [nextAdmissible, nextAdmissible, minIndex_map hf]

/-! ## Queries -/

namespace SimEngine

variable (e : SimEngine env)

theorem numRunning_compress : (e.compress s).numRunning = e.numRunning := by
  simp [numRunning]

theorem numGenerating_compress : (e.compress s).numGenerating = e.numGenerating := by
  rw [numGenerating, compress_activeRequests, SortedMap.values_mapValues, List.filter_map,
    List.length_map]
  rfl

theorem stepTokenBacklog_compress : (e.compress s).stepTokenBacklog = e.stepTokenBacklog := by
  rw [stepTokenBacklog, compress_activeRequests, SortedMap.values_mapValues, List.map_map,
    compress_pendingPulls, SortedMap.size_mapValues]
  rfl

theorem runningAdapters_compress : (e.compress s).runningAdapters = e.runningAdapters := by
  rw [runningAdapters, compress_activeRequests, SortedMap.values_mapValues, List.filterMap_map,
    compress_pendingPulls, SortedMap.values_mapValues, List.filterMap_map]
  rfl

theorem loraAdmits_compress : (e.compress s).loraAdmits = e.loraAdmits := by
  funext request
  rw [loraAdmits, runningAdapters_compress]
  rfl

theorem nextAdmissibleIndex_compress :
    (e.compress s).nextAdmissibleIndex = e.nextAdmissibleIndex := by
  rw [nextAdmissibleIndex, loraAdmits_compress, compress_waiting]
  exact Scheduler.nextAdmissible_map (f := QueuedRequest.compress s) (fun _ => rfl) e.waiting

theorem numLoraSkipped_compress : (e.compress s).numLoraSkipped = e.numLoraSkipped := by
  rw [numLoraSkipped, loraAdmits_compress, compress_waiting, List.filter_map, List.length_map]
  rfl

theorem hasRoom_compress : (e.compress s).HasRoom ↔ e.HasRoom := by
  rw [HasRoom, numGenerating_compress, stepTokenBacklog_compress, compress_pendingPulls,
    SortedMap.size_mapValues]
  rfl

theorem isKnown_compress (requestId : String) :
    (e.compress s).isKnown requestId = e.isKnown requestId := by
  rw [isKnown, compress_activeRequests, SortedMap.contains_mapValues, compress_pendingPulls,
    SortedMap.contains_mapValues, compress_waiting, List.any_map]
  rfl

theorem schedulerStats_compress :
    (e.compress s).schedulerStats =
      (e.schedulerStats.1.compress s, e.schedulerStats.2) := by
  have hrunning : ({ e.compress s with pool := e.pool.takeStats.1 } : SimEngine env).numRunning =
      ({ e with pool := e.pool.takeStats.1 } : SimEngine env).numRunning :=
    numRunning_compress { e with pool := e.pool.takeStats.1 }
  have hskipped :
      ({ e.compress s with pool := e.pool.takeStats.1 } : SimEngine env).numLoraSkipped =
        ({ e with pool := e.pool.takeStats.1 } : SimEngine env).numLoraSkipped :=
    numLoraSkipped_compress { e with pool := e.pool.takeStats.1 }
  have hwaiting : (e.waiting.map (QueuedRequest.compress s)).length = e.waiting.length :=
    List.length_map _
  apply Prod.ext
  · rfl
  · change (⟨_, _, _, _, _, _⟩ : SchedulerStats) = ⟨_, _, _, _, _, _⟩
    rw [SchedulerStats.mk.injEq]
    exact ⟨hrunning, hwaiting, hskipped, rfl, rfl, rfl⟩

theorem takeSchedule_compress (requestId : String) (prompt : List Token) :
    (e.compress s).takeSchedule requestId prompt = e.takeSchedule requestId prompt :=
  rfl

theorem log_compress (ev : Event) :
    (e.compress s).log (ev.compress s) = (e.log ev).compress s := by
  simp only [log, compress, List.map_append, List.map_cons, List.map_nil]

/-! ## Admission -/

include hs in
theorem pruneBigAdmissions_compress (now : Instant) :
    (e.compress s).pruneBigAdmissions (now / s) = (e.pruneBigAdmissions now).compress s := by
  have hwindow : ∀ t : Instant, 1 / (e.opt.effectiveTimeScale * s) < now / s - t / s ↔
      1 / e.opt.effectiveTimeScale < now - t := by
    intro t
    rw [← tsub_div, ← div_div, div_lt_div_iff_of_pos_right hs]
  have hdrop : (e.recentBigAdmissions.map (· / s)).dropWhile
      (fun t => 1 / (e.opt.compress s).effectiveTimeScale < now / s - t) =
        (e.recentBigAdmissions.dropWhile
          (fun t => 1 / e.opt.effectiveTimeScale < now - t)).map (· / s) := by
    rw [List.dropWhile_map, Opt.effectiveTimeScale_compress hs]
    congr 2
    funext t
    exact decide_eq_decide.mpr (hwindow t)
  rw [pruneBigAdmissions, pruneBigAdmissions, compress_recentBigAdmissions, compress_opt, hdrop]
  rfl

theorem churn_compress : (e.compress s).churn = e.churn := by
  rw [churn, churn, compress_recentBigAdmissions, List.isEmpty_map]

theorem buildRequest_compress (now : Instant) (queued : QueuedRequest) (blockIds : List ℕ)
    (numLocalCached : ℕ) :
    (e.compress s).buildRequest (now / s) (queued.compress s) blockIds numLocalCached =
      (e.buildRequest now queued blockIds numLocalCached).map (ActiveRequest.compress s) := by
  rw [buildRequest, numRunning_compress, churn_compress]
  exact ActiveRequest.new_compress e.engineIndex now queued.request queued.ticket e.opt e.latency
    ⟨e.numRunning + 1, numLocalCached, blockIds, e.churn, queued.queuedAt⟩

theorem script_clamp_compress (r : ActiveRequest env) (len : Option ℕ)
    (schedule : Option ScriptedDecode) :
    ((r.compress s).clampTokens len).script schedule =
      ((r.clampTokens len).script schedule).compress s := by
  cases len <;> cases schedule <;> rfl

theorem any_lists_compress (requestId : String) :
    (e.currentStep.map (EngineStep.compress s)).any (EngineStep.lists · requestId) =
      e.currentStep.any (EngineStep.lists · requestId) := by
  cases e.currentStep <;> rfl

theorem activate_compress (now : Instant) (requestId : String) (active : ActiveRequest env) :
    (e.compress s).activate (now / s) requestId (active.compress s) =
      (e.activate now requestId active).compress s := by
  unfold activate
  simp only [takeSchedule_compress, ActiveRequest.compress_requestId,
    ActiveRequest.compress_promptTokenIds, script_clamp_compress, ActiveRequest.compress_phase,
    compress_tokenSource, compress_currentStep, any_lists_compress]
  generalize ((active.clampTokens _).script _ : ActiveRequest env) = r
  simp only [log, compress, SortedMap.mapValues_insert, List.map_append]
  cases r.phase with
  | decode => rfl
  | prefill remaining =>
      by_cases hbig : bigChunkTokens < remaining
      · simp only [hbig, if_true, List.map_append]
        rfl
      · simp only [hbig, if_false]
        rfl

include hs in
theorem admitDirect_compress (now : Instant) (requestId : String) (clientIndex : ℕ)
    (queued : QueuedRequest) (blockIds : List ℕ) (numLocalCached : ℕ) :
    (e.compress s).admitDirect (now / s) requestId clientIndex (queued.compress s) blockIds
        numLocalCached =
      ((e.admitDirect now requestId clientIndex queued blockIds numLocalCached).1.compress s,
        (e.admitDirect now requestId clientIndex queued blockIds numLocalCached).2.map
          (EngineOutput.compress s)) := by
  unfold admitDirect
  rw [pruneBigAdmissions_compress hs]
  simp only [buildRequest_compress]
  cases (e.pruneBigAdmissions now).buildRequest now queued blockIds numLocalCached with
  | ok active => exact Prod.ext (activate_compress _ now requestId active) rfl
  | error finishReason => rfl

theorem cacheRequest_compress (request : EngineCoreRequest) :
    (e.compress s).cacheRequest request =
      ((e.cacheRequest request).1.compress s, (e.cacheRequest request).2) := by
  apply Prod.ext
  · exact log_compress (({ e with pool := (e.pool.cachePrompt request.prompt
      request.requestLoraName request.cacheSalt).1 } : SimEngine env).publish _) (.cached _)
  · rfl

theorem park_compress (queued : QueuedRequest) (outcome : CacheOutcome) :
    (e.compress s).park (queued.compress s) outcome = (e.park queued outcome).compress s := by
  simp only [park, compress, SortedMap.mapValues_insert]
  rfl

include hs in
theorem admitRequest_compress (now : Instant) (queued : QueuedRequest) :
    (e.compress s).admitRequest (now / s) (queued.compress s) =
      ((e.admitRequest now queued).1.compress s,
        (e.admitRequest now queued).2.map (EngineOutput.compress s)) := by
  unfold admitRequest
  rw [QueuedRequest.compress_request, cacheRequest_compress]
  cases queued.request.extractKvParams.bind parseRemoteKv with
  | some remote => exact Prod.ext (park_compress _ queued _) rfl
  | none => exact admitDirect_compress hs _ now _ _ queued _ _

theorem removeWaiting_compress (i : ℕ) :
    (e.compress s).removeWaiting i = (e.removeWaiting i).compress s := by
  simp only [removeWaiting, compress, List.eraseIdx_map]

include hs in
theorem scheduleLoop_compress (now : Instant) (rounds : ℕ) :
    scheduleLoop (now / s) rounds (e.compress s) = compressBoth s (scheduleLoop now rounds e) := by
  induction rounds generalizing e with
  | zero => rfl
  | succ rounds ih =>
      unfold scheduleLoop
      by_cases hroom : e.HasRoom
      · rw [if_pos hroom, if_pos ((hasRoom_compress e).mpr hroom), nextAdmissibleIndex_compress]
        cases hnext : e.nextAdmissibleIndex with
        | none => rfl
        | some i =>
            simp only [Option.bind_some, compress_waiting, List.getElem?_map]
            cases e.waiting[i]? with
            | none => rfl
            | some queued =>
                simp only [Option.map_some, removeWaiting_compress, admitRequest_compress hs, ih,
                  compressBoth, List.map_append, Option.toList_map]
      · rw [if_neg hroom, if_neg (fun h => hroom ((hasRoom_compress e).mp h))]
        rfl

include hs in
theorem schedule_compress (now : Instant) :
    (e.compress s).schedule (now / s) = compressBoth s (e.schedule now) := by
  rw [schedule, schedule, compress_waiting, List.length_map]
  exact scheduleLoop_compress hs e now _

end SimEngine

end VllmVcr
