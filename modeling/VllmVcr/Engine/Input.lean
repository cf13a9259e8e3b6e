import VllmVcr.Engine.Emission

/-!
# Engine inputs

`handle_input` and the other entry points of the engine loop: arrivals, aborts, pull
completions, utility calls and the control API.
-/

namespace VllmVcr

variable {env : Env}

structure UtilityRequestSpec where
  clientIndex : ℕ
  callId : ℕ
  methodName : String
  args : MsgpackValue

structure ConfigPatch where
  timeToFirstToken : Option ℕ := none
  timeToFirstTokenStdDev : Option ℕ := none
  interTokenLatency : Option ℕ := none
  interTokenLatencyStdDev : Option ℕ := none
  prefillOverhead : Option ℕ := none
  prefillTimePerToken : Option ℕ := none
  prefillTimeStdDev : Option ℕ := none
  timeFactorUnderLoad : Option ℚ := none
  maxNumSeqs : Option ℕ := none
  maxNumBatchedTokens : Option ℕ := none
  maxModelLen : Option ℕ := none
  failureInjectionRate : Option ℚ := none
  failureTypes : Option (List FailureType) := none
  logRequests : Option Bool := none
  deriving DecidableEq

namespace ConfigPatch

/-- Whether the patch touches a field the latency model is built from. -/
def changesLatency (p : ConfigPatch) : Bool :=
  p.timeToFirstToken.isSome || p.timeToFirstTokenStdDev.isSome || p.interTokenLatency.isSome ||
    p.interTokenLatencyStdDev.isSome || p.prefillOverhead.isSome || p.prefillTimePerToken.isSome ||
    p.prefillTimeStdDev.isSome || p.timeFactorUnderLoad.isSome || p.maxNumSeqs.isSome

def apply (p : ConfigPatch) (opt : Opt) : Opt :=
  { opt with
    timeToFirstToken := p.timeToFirstToken.getD opt.timeToFirstToken
    timeToFirstTokenStdDev := p.timeToFirstTokenStdDev.getD opt.timeToFirstTokenStdDev
    interTokenLatency := p.interTokenLatency.getD opt.interTokenLatency
    interTokenLatencyStdDev := p.interTokenLatencyStdDev.getD opt.interTokenLatencyStdDev
    prefillOverhead := p.prefillOverhead.getD opt.prefillOverhead
    prefillTimePerToken := p.prefillTimePerToken.getD opt.prefillTimePerToken
    prefillTimeStdDev := p.prefillTimeStdDev.getD opt.prefillTimeStdDev
    timeFactorUnderLoad := p.timeFactorUnderLoad.getD opt.timeFactorUnderLoad
    maxNumSeqs := p.maxNumSeqs.getD opt.maxNumSeqs
    maxNumBatchedTokens := p.maxNumBatchedTokens.getD opt.maxNumBatchedTokens
    maxModelLen := p.maxModelLen.getD opt.maxModelLen
    failureInjectionRate := p.failureInjectionRate.getD opt.failureInjectionRate
    failureTypes := p.failureTypes.getD opt.failureTypes
    logRequests := p.logRequests.getD opt.logRequests }

end ConfigPatch

structure Config where
  timeToFirstToken : ℕ
  timeToFirstTokenStdDev : ℕ
  interTokenLatency : ℕ
  interTokenLatencyStdDev : ℕ
  prefillOverhead : ℕ
  prefillTimePerToken : ℕ
  prefillTimeStdDev : ℕ
  timeFactorUnderLoad : ℚ
  maxNumSeqs : ℕ
  maxNumBatchedTokens : ℕ
  maxModelLen : ℕ
  failureInjectionRate : ℚ
  failureTypes : List FailureType
  logRequests : Bool

inductive ControlRequest where
  | getConfig
  | patchConfig (patch : ConfigPatch)
  | getStats
  | resetStats
  deriving DecidableEq

inductive ControlReply where
  | config (config : Config)
  | stats (stats : Stats)

structure ControlError where
  status : ℕ
  error : String

inductive EngineInput where
  | request (request : EngineCoreRequest)
  | abort (requestIds : List String)
  | utility (request : UtilityRequestSpec)
  | startDpWave
  | control (request : ControlRequest)

/-- The lora identity at positions 0 and 1 of a wire `LoraRequest`. -/
def LoraSpec.fromWire (value : MsgpackValue) : Except String LoraSpec :=
  match value.asArray with
  | none => .error "lora_request is not a positional array"
  | some fields =>
    match fields[0]?.bind MsgpackValue.asStr, fields[1]?.bind MsgpackValue.asU64 with
    | none, _ => .error "lora_request[0] (lora_name) missing or not a string"
    | some _, none => .error "lora_request[1] (lora_int_id) missing or not an integer"
    | some name, some id => .ok ⟨name, id⟩

def utilityResponse (methodName : String) : UtilityResult :=
  match methodName with
  | "get_supported_tasks" => .strings ["generate"]
  | "is_sleeping" => .bool false
  | _ => .nil

namespace SimEngine

@[simps] def withFailureRng (rng : env.Rng) (e : SimEngine env) : SimEngine env :=
  { e with failureRng := rng }

@[simps] def withLoras (loras : LoraRegistry) (e : SimEngine env) : SimEngine env := { e with loras := loras }

/-- Whether to fail a request on arrival: too long for the context, or by injection. -/
def maybeFail (request : EngineCoreRequest) (e : SimEngine env) :
    SimEngine env × Option FinishReason :=
  let maxTokens := request.samplingParams.elim 0 EngineCoreSamplingParams.maxTokens
  if 0 < e.opt.maxModelLen ∧ e.opt.maxModelLen < request.prompt.length + maxTokens then
    (e, some .length)
  else if 0 < e.opt.failureInjectionRate ∧ e.opt.failureTypes ≠ [] then
    let (x, rng) := env.randomF64 e.failureRng
    if x < e.opt.failureInjectionRate then
      let (i, rng) := env.randomRange rng e.opt.failureTypes.length
      (e.withFailureRng rng, e.opt.failureTypes[i]?.map FailureType.finishReason)
    else (e.withFailureRng rng, none)
  else (e, none)

/-- Count a failed arrival and answer it with a terminal output. -/
def failArrival (now : Instant) (request : EngineCoreRequest) (reason : FinishReason)
    (e : SimEngine env) : SimEngine env × List EngineOutput :=
  (e.countFailed,
    [⟨request.clientIndex, emptyFinishOutputs e.engineIndex now none request.requestId reason⟩])

/-- Append to the waiting queue, under a new ticket. -/
@[simps] def enqueue (now : Instant) (request : EngineCoreRequest) (e : SimEngine env) : SimEngine env :=
  { e with
    waiting := e.waiting ++ [⟨request, now, e.nextTicket⟩]
    nextTicket := e.nextTicket + 1 }

/-- `schedule` followed by `ensure_step`, as every input that may free capacity ends. -/
def refill (now : Instant) (e : SimEngine env) : SimEngine env × List EngineOutput :=
  let (e, outputs) := e.schedule now
  (e.ensureStep now, outputs)

def handleRequest (now : Instant) (request : EngineCoreRequest) (e : SimEngine env) :
    SimEngine env × List EngineOutput :=
  let e := e.countReceived
  if e.isKnown request.requestId then e.failArrival now request .error
  else
    match e.maybeFail request with
    | (e, some reason) => e.failArrival now request reason
    | (e, none) => (e.enqueue now request).refill now

/-- Take a request out of wherever it stands, releasing its pins; gives its client and ticket. -/
def withdraw (requestId : String) (e : SimEngine env) : SimEngine env × Option (ℕ × ℕ) :=
  match e.activeRequests.get? requestId with
  | some r => (e.retire requestId, some (r.clientIndex, r.ticket))
  | none =>
    match e.pendingPulls.get? requestId with
    | some p =>
        ({ e with
            pendingPulls := e.pendingPulls.erase requestId
            pool := e.pool.unpin p.blockIds }, some (p.clientIndex, p.queued.ticket))
    | none =>
      match e.waiting.findIdx? (fun q => q.request.requestId = requestId) with
      | some i =>
          (e.removeWaiting i, e.waiting[i]?.map (fun q => (q.request.clientIndex, q.ticket)))
      | none => (e, none)

def abortOne (acc : SimEngine env × ByClient) (requestId : String) : SimEngine env × ByClient :=
  match acc.1.withdraw requestId with
  | (e, none) => (e, acc.2)
  | (e, some (clientIndex, ticket)) =>
      (e.countAborted,
        ByClient.add acc.2 clientIndex (terminalOutput (some ticket) requestId .abort) true)

/-- One envelope per client; the first carries the stats. -/
def abortOutputs (engineIndex : ℕ) (now : Instant) (stats : Option SchedulerStats) :
    List (ℕ × ClientBatch) → List EngineOutput
  | [] => []
  | b :: rest =>
    ⟨b.1, .requestBatch engineIndex b.2.outputs stats now (some b.2.finished.keys)⟩ ::
      abortOutputs engineIndex now none rest

def abortRequests (now : Instant) (requestIds : List String) (e : SimEngine env) :
    SimEngine env × List EngineOutput :=
  let (e, byClient) := requestIds.foldl abortOne (e, SortedMap.empty)
  let (e, outputs) := e.schedule now
  let (e, stats) := e.schedulerStats
  (e.ensureStep now, outputs ++ abortOutputs e.engineIndex now (some stats) byClient.entries)

/-- Admit a pending request whose pull is over. -/
def promote (now : Instant) (completion : PullTask) (pending : PendingPull) (e : SimEngine env) :
    SimEngine env × Option EngineOutput :=
  match { e with
      pendingPulls := e.pendingPulls.erase completion.requestId }.admitDirect now
        completion.requestId pending.clientIndex pending.queued pending.blockIds
        pending.numLocalCachedTokens with
  | (e, none) => (e.log (.promoted pending.queued.ticket completion.ticket), none)
  | (e, some output) => (e, some output)

/-- A completed pull promotes the pending request of its id; an orphan is dropped. The
completion's ticket is only journalled: the message carries the id alone. -/
def finishPull (now : Instant) (completion : PullTask) (e : SimEngine env) :
    SimEngine env × List EngineOutput :=
  match e.pendingPulls.get? completion.requestId with
  | none => (e, [])
  | some pending =>
      let (e, output) := e.promote now completion pending
      let (e, outputs) := e.refill now
      (e, output.toList ++ outputs)

def resetPrefixCache (e : SimEngine env) : SimEngine env × Bool :=
  if e.activeRequests.isEmpty && e.pendingPulls.isEmpty then
    let (pool, event) := e.pool.reset
    ({ e with pool := pool }.publish event.toList, true)
  else (e, false)

def loraUtility (request : UtilityRequestSpec) (e : SimEngine env) :
    Except String (Option (SimEngine env × Bool)) :=
  match request.methodName, request.args with
  | "add_lora", .array [value] =>
      ((LoraSpec.fromWire value).mapError ("decoding add_lora lora_request: " ++ ·)).map fun lora =>
        let (loras, ok) := e.loras.add lora
        some (e.withLoras loras, ok)
  | "add_lora", _ => .error "decoding add_lora args tuple"
  | "remove_lora", .array [value] =>
      match value.asU64 with
      | none => .error "decoding remove_lora args"
      | some id =>
          let (loras, ok) := e.loras.remove id
          .ok (some (e.withLoras loras, ok))
  | "remove_lora", _ => .error "decoding remove_lora args"
  | _, _ => .ok none

/-- The engine and the result of a utility call. -/
def runUtility (request : UtilityRequestSpec) (e : SimEngine env) :
    Except String (SimEngine env × UtilityResult) :=
  if request.methodName = "reset_prefix_cache" then
    let (e, ok) := e.resetPrefixCache
    .ok (e, .bool ok)
  else
    (e.loraUtility request).map fun
      | some (e, ok) => (e, .bool ok)
      | none => (e, utilityResponse request.methodName)

def config (e : SimEngine env) : Config where
  timeToFirstToken := e.opt.timeToFirstToken
  timeToFirstTokenStdDev := e.opt.timeToFirstTokenStdDev
  interTokenLatency := e.opt.interTokenLatency
  interTokenLatencyStdDev := e.opt.interTokenLatencyStdDev
  prefillOverhead := e.opt.prefillOverhead
  prefillTimePerToken := e.opt.prefillTimePerToken
  prefillTimeStdDev := e.opt.prefillTimeStdDev
  timeFactorUnderLoad := e.opt.timeFactorUnderLoad
  maxNumSeqs := e.opt.maxNumSeqs
  maxNumBatchedTokens := e.opt.maxNumBatchedTokens
  maxModelLen := e.opt.maxModelLen
  failureInjectionRate := e.opt.failureInjectionRate
  failureTypes := e.opt.failureTypes
  logRequests := e.opt.logRequests

/-- The counters of `GET /stats`, with the live queue depths. -/
def reportedStats (e : SimEngine env) : Stats :=
  { e.stats with running := e.numRunning, waiting := e.waiting.length }

/-- Apply a config patch; the knob latency model is rebuilt when the patch touches it. -/
def applyPatch (now : Instant) (patch : ConfigPatch) (e : SimEngine env) :
    Except ControlError (SimEngine env × List EngineOutput) :=
  if patch.changesLatency && e.opt.latencyTrace.isSome then
    .error ⟨409, "latency knobs cannot be patched while --latency-trace is in use"⟩
  else
    let opt := patch.apply e.opt
    if patch.changesLatency then
      match opt.buildLatency env with
      | .error error => .error ⟨500, "rebuilding latency model: " ++ error⟩
      | .ok latency => .ok ({ e with opt := opt, latency := latency }.refill now)
    else .ok ({ e with opt := opt }.refill now)

def handleControl (now : Instant) (request : ControlRequest) (e : SimEngine env) :
    Except ControlError ControlReply × SimEngine env × List EngineOutput :=
  match request with
  | .getConfig => (.ok (.config e.config), e, [])
  | .patchConfig patch =>
    match e.applyPatch now patch with
    | .ok (e, outputs) => (.ok (.config e.config), e, outputs)
    | .error error => (.error error, e, [])
  | .getStats => (.ok (.stats e.reportedStats), e, [])
  | .resetStats =>
      let e := { e with stats := {} }
      (.ok (.stats e.reportedStats), e, [])

/-- Drain one frontend message; an error ends the engine loop. -/
def handleInput (now : Instant) (input : EngineInput) (e : SimEngine env) :
    Except String (SimEngine env × List EngineOutput) :=
  match input with
  | .request request => .ok (e.handleRequest now request)
  | .abort requestIds => .ok (e.abortRequests now requestIds)
  | .utility request =>
      (e.runUtility request).map fun (e, result) =>
        (e, [⟨request.clientIndex, .utility e.engineIndex now request.callId result⟩])
  | .startDpWave => .ok (e, [])
  | .control request => .ok (e.handleControl now request).2

/-- Every unfinished request, in the order `abort_all_requests` lists them. -/
def unfinishedIds (e : SimEngine env) : List String :=
  e.activeRequests.keys ++ e.pendingPulls.keys ++ e.waiting.map (fun q => q.request.requestId)

def abortAllRequests (now : Instant) (e : SimEngine env) : SimEngine env × List EngineOutput :=
  e.abortRequests now e.unfinishedIds

/-- Refuse a request that arrived during shutdown. -/
def rejectRequest (now : Instant) (request : EngineCoreRequest) (e : SimEngine env) :
    SimEngine env × EngineOutput :=
  (e.countReceived.countAborted,
    ⟨request.clientIndex, emptyFinishOutputs e.engineIndex now none request.requestId .abort⟩)

/-- A fully initialized engine over the sources that the options name. -/
def new (env : Env) (engineIndex : ℕ) (opt : Opt) (tokenSource : TokenSource)
    (stepSource : Option StepSource) : Except String (SimEngine env) :=
  (opt.buildLatency env).map fun latency => {
    engineIndex := engineIndex
    opt := opt
    latency := latency
    tokenSource := tokenSource
    stepSource := stepSource
    specTokens := (stepSource.bind StepSource.specTokens).or latency.specTokens
    scheduler := opt.schedulingPolicy
    pool := .new opt.tokensPerBlock opt.kvCacheSize opt.kvCacheNoneSeed
    events := if opt.enableKvCacheEvents then some [] else none
    failureRng := env.seedFromU64 (opt.seed ^^^ (engineIndex * 0x9e3779b9 % 2 ^ 64))
    loras := .new opt.maxLoras
    activeRequests := SortedMap.empty
    waiting := []
    pendingPulls := SortedMap.empty
    currentStep := none
    prefillOrder := []
    emitSeq := 0
    recentBigAdmissions := []
    pullTasks := []
    pendingSpec := none
    stats := {}
    nextTicket := 0
    journal := []
    loads := [] }

end SimEngine
end VllmVcr
