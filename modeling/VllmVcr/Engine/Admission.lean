import VllmVcr.Engine.State

/-!
# Admission

Moving a request from the waiting queue into the batch: caching its prompt, parking it
behind a remote pull or building its `ActiveRequest`, and the scheduling loop over the
queue. An operation reads the clock once, as `now`.
-/

namespace VllmVcr

variable {env : Env}

/-- `DEFAULT_MOCK_MAX_MODEL_LEN`. -/
def defaultMockMaxModelLen : ℕ := 1024 * 1024

/-- The context ceiling that an uncapped request is clamped to. -/
def Opt.contextCeiling (opt : Opt) : ℕ :=
  if 0 < opt.maxModelLen then opt.maxModelLen else defaultMockMaxModelLen

structure AdmissionCtx where
  numRunning : ℕ
  numLocalCachedTokens : ℕ
  blockIds : List ℕ
  churn : Churn
  queuedAt : Instant

namespace ActiveRequest

/-- The generation cap of a request: its own, or an output length drawn for it. -/
def capTokens (opt : Opt) (latency : LatencyModel env.Rng) (promptLen : ℕ)
    (params : EngineCoreSamplingParams) (rng : env.Rng) : ℕ × env.Rng :=
  let modelEos := params.eosTokenId.isSome || opt.contextCeiling ≤ promptLen + params.maxTokens
  let verbatim := opt.replaySteps.isSome || opt.replayTokens.isSome
  if verbatim || !modelEos then (params.maxTokens, rng)
  else
    match latency.sampleOutputLen rng with
    | (some sampled, rng) =>
        let lo := max params.minTokens 1
        (max lo (min sampled (max params.maxTokens lo)), rng)
    | (none, rng) => (params.maxTokens, rng)

/-- A new active request, or an immediate finish reason if the request is invalid. -/
def new (engineIndex : ℕ) (now : Instant) (request : EngineCoreRequest) (ticket : ℕ) (opt : Opt)
    (latency : LatencyModel env.Rng) (admission : AdmissionCtx) :
    Except FinishReason (ActiveRequest env) :=
  match request.samplingParams with
  | none => .error .error
  | some params =>
    if params.maxTokens = 0 then .error .length
    else
      let incomingKv := request.extractKvParams
      let remotePrefill := incomingKv.any (fun kv => kvFlag kv "do_remote_prefill")
      let promptLen := request.prompt.length
      let rng := env.seedFromU64 (env.requestSeed opt.seed engineIndex request.requestId)
      let (maxTokens, rng) := capTokens opt latency promptLen params rng
      let (phase, emitOffset, rng, asked) : ReqPhase × Duration × env.Rng × Option ℕ :=
        if remotePrefill then
          let ((offset, rng), load) := latency.askFirstToken rng
            ⟨promptLen, admission.numLocalCachedTokens, true, admission.numRunning⟩
          (.decode, offset, rng, some load)
        else (.prefill (max (promptLen - admission.numLocalCachedTokens) 1), 0, rng, none)
      .ok {
        requestId := request.requestId
        clientIndex := request.clientIndex
        promptLen := promptLen
        promptTokenIds := request.prompt
        maxTokens := maxTokens
        generated := 0
        rng := rng
        pacing := .forPrompt promptLen admission.churn
        prefillAdvertise := incomingKv.any (fun kv => kvFlag kv "do_remote_decode")
        remotePrefill := remotePrefill
        numLocalCachedTokens := admission.numLocalCachedTokens
        blockIds := admission.blockIds
        loraName := request.requestLoraName
        phase := phase
        emitted := 0
        emitOffset := emitOffset
        pendingEmits := []
        pendingEvents := [⟨.queued, admission.queuedAt⟩, ⟨.scheduled, now⟩]
        scriptedDecode := none
        ticket := ticket
        asked := asked }

/-- The uncached prompt tokens a request still has to prefill. -/
def uncached (r : ActiveRequest env) : ℕ :=
  match r.phase with
  | .prefill remaining => remaining
  | .decode => 0

/-- End the stream where the source's recorded stream ends. -/
def clampTokens (r : ActiveRequest env) : Option ℕ → ActiveRequest env
  | some recordedLen => { r with maxTokens := min r.maxTokens recordedLen }
  | none => r

/-- Pin the request to its recorded decode schedule, if it has one. -/
def script (r : ActiveRequest env) : Option ScriptedDecode → ActiveRequest env
  | some schedule =>
      { r with
        maxTokens := min r.maxTokens schedule.outputTokens
        scriptedDecode := some schedule }
  | none => r

end ActiveRequest

namespace SimEngine

def takeSchedule (e : SimEngine env) (requestId : String) (prompt : List Token) :
    Option StepSource × Option ScriptedDecode :=
  match e.stepSource with
  | none => (none, none)
  | some s =>
      let (s, schedule) := s.takeSchedule requestId prompt
      (some s, schedule)

/-- Forget big admissions more than one scaled second old. -/
@[simps] def pruneBigAdmissions (now : Instant) (e : SimEngine env) : SimEngine env :=
  { e with recentBigAdmissions :=
      e.recentBigAdmissions.dropWhile (fun t => 1 / e.opt.effectiveTimeScale < now - t) }

def churn (e : SimEngine env) : Churn :=
  if e.recentBigAdmissions.isEmpty then .calm else .bigChunk

/-- Put a freshly built request into the batch, after the replay sources have pinned it. -/
def activate (now : Instant) (requestId : String) (active : ActiveRequest env)
    (e : SimEngine env) : SimEngine env :=
  let (tokenSource, recordedLen) :=
    e.tokenSource.onRequestAdded active.requestId active.promptTokenIds
  let (stepSource, schedule) := e.takeSchedule active.requestId active.promptTokenIds
  let active := (active.clampTokens recordedLen).script schedule
  { e with
    tokenSource := tokenSource
    stepSource := stepSource
    recentBigAdmissions :=
      match active.phase with
      | .prefill remaining =>
          if bigChunkTokens < remaining then e.recentBigAdmissions ++ [now]
          else e.recentBigAdmissions
      | .decode => e.recentBigAdmissions
    prefillOrder :=
      match active.phase with
      | .prefill _ => e.prefillOrder ++ [requestId]
      | .decode => e.prefillOrder
    activeRequests := e.activeRequests.insert requestId active
    loads := e.loads ++ active.asked.toList }.log
      (.admitted active.ticket active.uncached active.maxTokens
        (e.currentStep.any (EngineStep.lists · requestId)))

def buildRequest (now : Instant) (queued : QueuedRequest) (blockIds : List ℕ)
    (numLocalCached : ℕ) (e : SimEngine env) : Except FinishReason (ActiveRequest env) :=
  ActiveRequest.new e.engineIndex now queued.request queued.ticket e.opt e.latency
    ⟨e.numRunning + 1, numLocalCached, blockIds, e.churn, queued.queuedAt⟩

/-- Count a request that never runs, and release the pins just taken. -/
@[simps] def failAdmission (blockIds : List ℕ) (e : SimEngine env) : SimEngine env :=
  { e.countFailed with pool := e.pool.unpin blockIds }

/-- Build the request and insert it into the running batch, or fail it and drop its pins. -/
def admitDirect (now : Instant) (requestId : String) (clientIndex : ℕ) (queued : QueuedRequest)
    (blockIds : List ℕ) (numLocalCached : ℕ) (e : SimEngine env) :
    SimEngine env × Option EngineOutput :=
  let e := e.pruneBigAdmissions now
  match e.buildRequest now queued blockIds numLocalCached with
  | .ok active => (e.activate now requestId active, none)
  | .error finishReason =>
      (e.failAdmission blockIds, some ⟨clientIndex,
        emptyFinishOutputs e.engineIndex now (some queued.ticket) requestId finishReason⟩)

/-- What `f` added to the pool's prefix counters. -/
def contribution (before after : BlockPool) : PrefixStatsSnapshot :=
  ⟨after.requests - before.requests, after.queries - before.queries, after.hits - before.hits⟩

/-- Cache a waiting request's prompt in the block pool, publishing the events. -/
def cacheRequest (request : EngineCoreRequest) (e : SimEngine env) :
    SimEngine env × CacheOutcome :=
  let (pool, outcome) := e.pool.cachePrompt request.prompt request.requestLoraName request.cacheSalt
  (({ e with pool := pool }.publish outcome.events).log (.cached (contribution e.pool pool)), outcome)

/-- Park a request behind the pull that is spawned for it. -/
@[simps] def park (queued : QueuedRequest) (outcome : CacheOutcome) (e : SimEngine env) : SimEngine env :=
  { e with
    pendingPulls := e.pendingPulls.insert queued.request.requestId {
      queued := queued
      blockIds := outcome.blockIds
      numLocalCachedTokens := outcome.numCachedTokens
      clientIndex := queued.request.clientIndex
      loraName := queued.request.requestLoraName }
    pullTasks := e.pullTasks ++ [⟨queued.request.requestId, queued.ticket⟩] }

/-- Move a request taken from the waiting queue into the running batch. -/
def admitRequest (now : Instant) (queued : QueuedRequest) (e : SimEngine env) :
    SimEngine env × Option EngineOutput :=
  let (e, outcome) := e.cacheRequest queued.request
  match queued.request.extractKvParams.bind parseRemoteKv with
  | some _ => (e.park queued outcome, none)
  | none => e.admitDirect now queued.request.requestId queued.request.clientIndex queued
      outcome.blockIds outcome.numCachedTokens

@[simps] def removeWaiting (i : ℕ) (e : SimEngine env) : SimEngine env :=
  { e with waiting := e.waiting.eraseIdx i }

/-- The admission loop; each round takes one request off the queue, so the queue's length
bounds the rounds. -/
def scheduleLoop (now : Instant) : ℕ → SimEngine env → SimEngine env × List EngineOutput
  | 0, e => (e, [])
  | rounds + 1, e =>
    if e.HasRoom then
      match e.nextAdmissibleIndex.bind (fun i => e.waiting[i]?.map (fun q => (i, q))) with
      | none => (e, [])
      | some (i, queued) =>
          let (e, output) := (e.removeWaiting i).admitRequest now queued
          let (e, outputs) := scheduleLoop now rounds e
          (e, output.toList ++ outputs)
    else (e, [])

def schedule (now : Instant) (e : SimEngine env) : SimEngine env × List EngineOutput :=
  scheduleLoop now e.waiting.length e

end SimEngine
end VllmVcr
