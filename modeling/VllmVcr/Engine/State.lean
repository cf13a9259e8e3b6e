import Mathlib.Tactic.Simps.Basic
import VllmVcr.Tokens

/-!
# The state of one engine

The fields of `SimEngine` and of the requests it holds. Three parts of the state observe
and are never read by an engine function: every accepted request has an admission
`ticket`, carried through the queue, a pending pull, the batch and the step that names
it; the `journal` lists what the engine did, with the tickets involved; and `loads`
lists the running counts that the latency model was asked with.
-/

namespace VllmVcr

/-- Where a request stands on the engine step clock. -/
inductive ReqPhase where
  | prefill (remaining : ℕ)
  | decode
  deriving DecidableEq

structure PendingEmit where
  due : Instant
  seq : ℕ
  tokens : List Token
  deriving DecidableEq

variable (env : Env)

/-- Per-request decode state owned by one engine. -/
structure ActiveRequest where
  requestId : String
  clientIndex : ℕ
  promptLen : ℕ
  promptTokenIds : List Token
  maxTokens : ℕ
  generated : ℕ
  rng : env.Rng
  pacing : DecodePacing
  prefillAdvertise : Bool
  remotePrefill : Bool
  numLocalCachedTokens : ℕ
  blockIds : List ℕ
  loraName : Option String
  phase : ReqPhase
  emitted : ℕ
  emitOffset : Duration
  pendingEmits : List PendingEmit
  pendingEvents : List EngineCoreEvent
  scriptedDecode : Option ScriptedDecode
  ticket : ℕ
  /-- The running count in the last call of the latency model for this request. -/
  asked : Option ℕ

/-- An admitted request whose remote KV pull is still in flight. -/
structure PendingPull where
  queued : QueuedRequest
  blockIds : List ℕ
  numLocalCachedTokens : ℕ
  clientIndex : ℕ
  loraName : Option String

structure DecoderEntry where
  requestId : String
  tokens : ℕ
  ticket : ℕ
  deriving DecidableEq

structure ChunkEntry where
  requestId : String
  take : ℕ
  ticket : ℕ
  deriving DecidableEq

/-- One composed engine step, frozen at the previous step's end. -/
structure EngineStep where
  endsAt : Instant
  decoders : List DecoderEntry
  chunks : List ChunkEntry
  deriving DecidableEq

/-- Whether the step has an entry for this request id. -/
def EngineStep.lists (step : EngineStep) (requestId : String) : Bool :=
  step.decoders.any (fun d => d.requestId = requestId) ||
    step.chunks.any (fun c => c.requestId = requestId)

/-- A spawned pull whose completion the engine loop has not received yet. -/
structure PullTask where
  requestId : String
  ticket : ℕ
  deriving DecidableEq

structure Stats where
  requestsReceived : ℕ := 0
  requestsCompleted : ℕ := 0
  requestsFailed : ℕ := 0
  requestsAborted : ℕ := 0
  running : ℕ := 0
  waiting : ℕ := 0
  deriving DecidableEq

/-- A call of `generate`: `entry` is the ticket the step's entry was composed for, `ticket`
that of the request it found, `phase` the request's phase at the call. -/
structure Generation where
  entry : ℕ
  ticket : ℕ
  byDecoder : Bool
  phase : ReqPhase
  emit : Option PendingEmit
  deriving DecidableEq

/-- `admitted` records the prompt tokens left to prefill, the generation cap, and whether
the in-flight step listed the request's id when it entered the batch. -/
inductive Event where
  | cached (contribution : PrefixStatsSnapshot)
  | admitted (ticket uncached maxTokens : ℕ) (listed : Bool)
  | promoted (ticket task : ℕ)
  | completed (step : EngineStep)
  | chunked (entry ticket take : ℕ)
  | generated (g : Generation)
  deriving DecidableEq

structure SimEngine where
  engineIndex : ℕ
  opt : Opt
  latency : LatencyModel env.Rng
  tokenSource : TokenSource
  stepSource : Option StepSource
  specTokens : Option ℕ
  scheduler : Scheduler
  pool : BlockPool
  /-- The batches handed to the publisher; `none` when events are disabled. -/
  events : Option (List (List KvCacheEvent))
  failureRng : env.Rng
  loras : LoraRegistry
  activeRequests : SortedMap String (ActiveRequest env)
  waiting : List QueuedRequest
  pendingPulls : SortedMap String PendingPull
  currentStep : Option EngineStep
  prefillOrder : List String
  emitSeq : ℕ
  recentBigAdmissions : List Instant
  pullTasks : List PullTask
  pendingSpec : Option SpecDecodingStats
  stats : Stats
  nextTicket : ℕ
  journal : List Event
  loads : List ℕ

variable {env}

namespace ActiveRequest

variable (r : ActiveRequest env)

/-- The number of tokens this request generates in one engine step. -/
def chunkLen (outputTokenChunkSize : ℕ) : ℕ := min (r.maxTokens - r.generated) outputTokenChunkSize

def isGenerating : Bool := r.generated < r.maxTokens

def isDecoding : Bool := r.phase = .decode && r.isGenerating

/-- Token demand of this request on the next step. -/
def backlog : ℕ :=
  match r.phase with
  | .prefill remaining => remaining
  | .decode => if r.isGenerating then 1 else 0

def pendingTokens : List Token := r.pendingEmits.flatMap PendingEmit.tokens

/-- Draw one output chunk at a completed step's end and queue its emission. -/
def generate (source : TokenSource) (stepEnd : Instant) (outputTokenChunkSize : ℕ)
    (timeScale : ℚ≥0) (seq : ℕ) : ActiveRequest env × TokenSource × Option PendingEmit :=
  let chunkLen := r.chunkLen outputTokenChunkSize
  if chunkLen = 0 then (r, source, none)
  else
    let ctx : TokenCtx := ⟨r.requestId, r.promptTokenIds, r.generated⟩
    let (tokens, rng, source) := source.nextTokens env ctx chunkLen r.rng
    let emit : PendingEmit := ⟨stepEnd + r.emitOffset / timeScale, seq, tokens⟩
    ({ r with
        rng := rng
        generated := r.generated + tokens.length
        pendingEmits := r.pendingEmits ++ [emit] }, source, some emit)

/-- The prompt split into locally cached, externally transferred and computed tokens. -/
def prefillStats : PrefillStats :=
  let prompt := r.promptLen % 2 ^ 32
  let local' := min (r.numLocalCachedTokens % 2 ^ 32) prompt
  let external := if r.remotePrefill then prompt - local' else 0
  let cached := local' + external
  { numPromptTokens := prompt
    numComputedTokens := prompt - cached
    numCachedTokens := cached
    numLocalCachedTokens := local'
    numExternalCachedTokens := external
    numCacheCreationTokens := prompt - local' }

end ActiveRequest

namespace SimEngine

variable (e : SimEngine env)

@[simps] def log (ev : Event) : SimEngine env := { e with journal := e.journal ++ [ev] }

@[simps] def countReceived : SimEngine env :=
  { e with stats := { e.stats with requestsReceived := e.stats.requestsReceived + 1 } }

@[simps] def countFailed : SimEngine env :=
  { e with stats := { e.stats with requestsFailed := e.stats.requestsFailed + 1 } }

@[simps] def countAborted : SimEngine env :=
  { e with stats := { e.stats with requestsAborted := e.stats.requestsAborted + 1 } }

/-- `KvEventTx::publish`: a no-op for an empty batch. -/
@[simps] def publish (batch : List KvCacheEvent) : SimEngine env :=
  { e with events :=
      if batch.isEmpty then e.events else e.events.map (fun sent => sent ++ [batch]) }

/-- Active requests plus pending pulls: the running count of the stats surface. -/
def numRunning : ℕ := e.activeRequests.size + e.pendingPulls.size

/-- Active requests still generating. -/
def numGenerating : ℕ := (e.activeRequests.values.filter ActiveRequest.isGenerating).length

def stepTokenBacklog : ℕ :=
  (e.activeRequests.values.map ActiveRequest.backlog).sum + e.pendingPulls.size

def runningCapacity : ℕ := max e.opt.maxNumSeqs 1

/-- The adapters of the running batch, pending pulls included. -/
def runningAdapters : List String :=
  e.activeRequests.values.filterMap ActiveRequest.loraName ++
    e.pendingPulls.values.filterMap PendingPull.loraName

def loraAdmits (request : EngineCoreRequest) : Bool :=
  e.loras.admits request.requestLoraName e.runningAdapters

def nextAdmissibleIndex : Option ℕ := e.scheduler.nextAdmissible e.waiting e.loraAdmits

def numLoraSkipped : ℕ := (e.waiting.filter (fun q => !e.loraAdmits q.request)).length

/-- The condition under which `schedule` looks for another waiting request. -/
def HasRoom : Prop :=
  e.numGenerating + e.pendingPulls.size < e.runningCapacity ∧ e.stepTokenBacklog < e.opt.stepBudget

instance : Decidable e.HasRoom := inferInstanceAs (Decidable (_ ∧ _))

def isKnown (requestId : String) : Bool :=
  e.activeRequests.contains requestId || e.pendingPulls.contains requestId ||
    e.waiting.any (fun q => q.request.requestId = requestId)

def numUnfinishedRequests : ℕ := e.numRunning + e.waiting.length

/-- The next wake-up: the in-flight step's end or the earliest pending emission. -/
def earliestDeadline : Option Instant :=
  let stepEnd := e.currentStep.map EngineStep.endsAt
  let emit := (e.activeRequests.values.filterMap
    (fun r => r.pendingEmits.head?.map PendingEmit.due)).min?
  match stepEnd, emit with
  | some a, some b => some (min a b)
  | a, b => a.or b

/-- Drain the prefix-cache counters into a scheduler snapshot. -/
def schedulerStats : SimEngine env × SchedulerStats :=
  let (pool, snapshot) := e.pool.takeStats
  let e := { e with pool := pool }
  (e, {
    numRunningReqs := e.numRunning
    numWaitingReqs := e.waiting.length
    numSkippedWaitingReqs := e.numLoraSkipped
    kvCacheUsage := e.pool.usage
    prefixCacheStats := snapshot
    specDecodingStats := e.pendingSpec })

end SimEngine
end VllmVcr
