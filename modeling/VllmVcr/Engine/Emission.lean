import Mathlib.Data.List.Sort
import VllmVcr.Engine.Clock

/-!
# Emission

`step()`: catch up on the due steps, emit every chunk whose deadline has passed, retire
the requests that finished, refill the batch, and report.
-/

namespace VllmVcr

variable {env : Env}

/-- An output leaving the engine, with its sort key and its client. -/
structure DueEmit where
  due : Instant
  seq : ℕ
  clientIndex : ℕ
  finished : Bool
  output : EngineCoreOutput

/-- The outputs of one client in one call, and the requests they finish. -/
structure ClientBatch where
  outputs : List EngineCoreOutput
  finished : SortedMap String Unit

abbrev ByClient := SortedMap ℕ ClientBatch

structure Advert where
  clientIndex : ℕ
  requestId : String
  numTokens : ℕ
  blockIds : List ℕ

namespace ActiveRequest

variable (source : TokenSource)

def emitOne (r : ActiveRequest env) (emit : PendingEmit) : ActiveRequest env × DueEmit :=
  let emitted := r.emitted + emit.tokens.length
  let finished : Bool := r.maxTokens ≤ emitted
  let finishReason :=
    if finished then some ((source.finishReason r.requestId).getD .length) else none
  let output := requestOutput r.requestId emit.tokens finishReason
  ({ r with emitted := emitted, pendingEvents := [] }, {
    due := emit.due
    seq := emit.seq
    clientIndex := r.clientIndex
    finished := finished
    output := { output with
      prefillStats := if r.emitted = 0 then some r.prefillStats else none
      events := if r.pendingEvents.isEmpty then none else some r.pendingEvents
      ticket := some r.ticket
      emission := some ⟨emit.due, emit.seq⟩ } })

/-- Pop the due front of the emission queue, given here apart from the request. -/
def emitQueue (now : Instant) : List PendingEmit → ActiveRequest env →
    ActiveRequest env × List DueEmit
  | [], r => ({ r with pendingEmits := [] }, [])
  | emit :: rest, r =>
    if emit.due ≤ now then
      let (r, d) := r.emitOne source emit
      let (r, ds) := emitQueue now rest r
      (r, d :: ds)
    else ({ r with pendingEmits := emit :: rest }, [])

def emitDue (now : Instant) (r : ActiveRequest env) : ActiveRequest env × List DueEmit :=
  emitQueue source now r.pendingEmits r

/-- The KV descriptors to advertise for this request's finishing outputs. -/
def adverts (now : Instant) (r : ActiveRequest env) : List Advert :=
  if r.prefillAdvertise then
    ((r.emitDue source now).2.filter DueEmit.finished).map
      (fun _ => ⟨r.clientIndex, r.requestId, r.promptLen, r.blockIds⟩)
  else []

end ActiveRequest

/-- Emission order: by deadline, then by generation. -/
def DueEmit.le (a b : DueEmit) : Prop := a.due < b.due ∨ a.due = b.due ∧ a.seq ≤ b.seq

instance : DecidableRel DueEmit.le := fun _ _ => inferInstanceAs (Decidable (_ ∨ _))

namespace ByClient

def batch (byClient : ByClient) (clientIndex : ℕ) : ClientBatch :=
  (byClient.get? clientIndex).getD ⟨[], SortedMap.empty⟩

def add (byClient : ByClient) (clientIndex : ℕ) (output : EngineCoreOutput) (finished : Bool) :
    ByClient :=
  let b := byClient.batch clientIndex
  byClient.insert clientIndex
    ⟨b.outputs ++ [output], if finished then b.finished.insert output.requestId () else b.finished⟩

end ByClient

/-- Stamp the descriptor on the first finishing output of the request. -/
def stampKvParams (requestId : String) (kv : JsonValue) :
    List EngineCoreOutput → List EngineCoreOutput
  | [] => []
  | o :: rest =>
    if o.requestId = requestId ∧ o.finishReason.isSome then
      { o with kvTransferParams := some kv } :: rest
    else o :: stampKvParams requestId kv rest

def advertise (env : Env) (byClient : ByClient) (a : Advert) : ByClient :=
  match env.advertisePrefilled a.requestId a.numTokens a.blockIds with
  | .error _ => byClient
  | .ok remote =>
    match byClient.get? a.clientIndex with
    | none => byClient
    | some b => byClient.insert a.clientIndex { b with
        outputs := stampKvParams a.requestId (buildPrefillKvParams remote a.requestId a.numTokens)
          b.outputs }

namespace SimEngine

/-- Drop a finished request from the batch, with its pins and its replay bookkeeping. -/
def retire (e : SimEngine env) (requestId : String) : SimEngine env :=
  match e.activeRequests.get? requestId with
  | none => e
  | some r => { e with
      activeRequests := e.activeRequests.erase requestId
      pool := e.pool.unpin r.blockIds
      tokenSource := e.tokenSource.onRequestFinished r.requestId }

def dueEmits (now : Instant) (e : SimEngine env) : List DueEmit :=
  e.activeRequests.values.flatMap (fun r => (r.emitDue e.tokenSource now).2)

/-- The ids finished by these emissions, as a sorted set. -/
def finishedIds (emits : List DueEmit) : List String :=
  ((emits.filter DueEmit.finished).foldl
    (fun ids d => ids.insert d.output.requestId ()) (SortedMap.empty : SortedMap String Unit)).keys

/-- Take the due chunks off every queue, counting the requests they complete. -/
@[simps] def popEmits (now : Instant) (e : SimEngine env) : SimEngine env :=
  { e with
    activeRequests := e.activeRequests.mapValues (fun _ r => (r.emitDue e.tokenSource now).1)
    stats := { e.stats with
      requestsCompleted := e.stats.requestsCompleted +
        ((e.dueEmits now).filter DueEmit.finished).length } }

/-- Emit what is due, grouped by client in emission order, and retire what finished. -/
def flush (now : Instant) (e : SimEngine env) : SimEngine env × ByClient :=
  let emits := e.dueEmits now
  let adverts := e.activeRequests.values.flatMap (fun r => r.adverts e.tokenSource now)
  let byClient := (emits.insertionSort DueEmit.le).foldl
    (fun byClient d => ByClient.add byClient d.clientIndex d.output d.finished) SortedMap.empty
  ((finishedIds emits).foldl retire (e.popEmits now), adverts.foldl (advertise env) byClient)

/-- One client's envelope of a `step()` call. -/
def stepOutput (engineIndex : ℕ) (now : Instant) (stats : SchedulerStats)
    (batch : ℕ × ClientBatch) : Option EngineOutput :=
  if batch.2.outputs.isEmpty then none
  else some ⟨batch.1, .requestBatch engineIndex batch.2.outputs (some stats) now
    (if batch.2.finished.isEmpty then none else some batch.2.finished.keys)⟩

/-- The rest of `step()` once the due steps are complete: emit, retire, refill, report. -/
def emitAndRefill (now : Instant) (e : SimEngine env) (caughtUp : List EngineOutput) :
    SimEngine env × List EngineOutput :=
  let (e, byClient) := e.flush now
  let (e, refilled) := e.schedule now
  let (e, stats) := (e.ensureStep now).schedulerStats
  (e, byClient.entries.filterMap (stepOutput e.engineIndex now stats) ++ (caughtUp ++ refilled))

@[simps] def clearSpec (e : SimEngine env) : SimEngine env := { e with pendingSpec := none }

/-- Advance the engine clock to `now`. `none` when `fuel` rounds do not catch up. -/
def step (fuel : ℕ) (now : Instant) (e : SimEngine env) :
    Option (SimEngine env × List EngineOutput) :=
  (catchUp now fuel e.clearSpec).map
    (fun caughtUp => caughtUp.1.emitAndRefill now caughtUp.2)

end SimEngine
end VllmVcr
