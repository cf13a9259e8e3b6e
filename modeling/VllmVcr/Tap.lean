import Mathlib.Data.String.Basic
import Mathlib.Tactic.Simps.Basic
import VllmVcr.TraceFile

/-!
# The recording tap

`observe_request` and `observe_output`: the tap keeps a `RequestState` for every request
in flight and writes a trace record when the request finishes. Messages enter decoded.
-/

namespace VllmVcr

/-- Batch context attached to a single gap, one gap per output chunk. -/
structure GapSample where
  gapMs : ℚ
  tokens : ℕ
  running : ℕ
  prefillTokens : ℕ

structure RequestState where
  arrival : Instant
  promptTokens : ℕ
  blockHashes : Option (List BlockHash)
  remotePrefill : Bool
  lastOutput : Option Instant
  outputTokens : ℕ
  ttftMs : Option ℚ
  gaps : List GapSample
  cachedTokens : ℕ
  concurrency : ℕ
  outputTokenIds : List Token

inductive TokenRecording where
  | off
  | on
  deriving DecidableEq

/-- Elapsed time saturates at zero. -/
def msBetween (start finish : Instant) : ℚ := ((finish - start : ℚ≥0) : ℚ) * 1000

namespace RequestState

def new (req : EngineCoreRequest) (arrival : Instant) (blockSize concurrency : ℕ) :
    RequestState where
  arrival := arrival
  promptTokens := req.prompt.length
  blockHashes := req.promptTokenIds.bind (fun tokens => promptBlockHashes tokens blockSize)
  remotePrefill := req.extractKvParams.any (fun kv => kvFlag kv "do_remote_prefill")
  lastOutput := none
  outputTokens := 0
  ttftMs := none
  gaps := []
  cachedTokens := 0
  concurrency := concurrency
  outputTokenIds := []

def awaitingFirstToken (s : RequestState) : Bool := s.lastOutput.isNone

/-- Fold one non-empty output chunk into the timing state. -/
def recordChunk (arrival : Instant) (numNewTokens stepRunning stepPrefillTokens : ℕ)
    (s : RequestState) : RequestState :=
  let s :=
    match s.lastOutput with
    | none => { s with ttftMs := some (msBetween s.arrival arrival) }
    | some prev =>
        let gap : GapSample := {
          gapMs := msBetween prev arrival
          tokens := numNewTokens % 2 ^ 32
          running := max stepRunning 1
          prefillTokens := stepPrefillTokens }
        { s with gaps := s.gaps ++ [gap] }
  { s with outputTokens := s.outputTokens + numNewTokens, lastOutput := some arrival }

/-- Finalize into a trace record; all-ones chunk sizes are the schema's default and omitted. -/
@[simps] def intoRecord (captureStart : Instant) (finishReason : FinishReason)
    (recordTokens : TokenRecording) (s : RequestState) : TraceRecord where
  promptTokens := s.promptTokens
  cachedTokens := s.cachedTokens
  outputTokens := s.outputTokens
  ttftMs := s.ttftMs.getD 0
  itlMs := if s.gaps.isEmpty then none else some (s.gaps.map GapSample.gapMs)
  itlTokens :=
    if (s.gaps.map GapSample.tokens).any (fun t => 1 < t) then some (s.gaps.map GapSample.tokens)
    else none
  itlSummary := none
  concurrency := s.concurrency
  arrivalMs := some (msBetween captureStart s.arrival)
  itlCtx :=
    if s.gaps.isEmpty then none
    else some ⟨s.gaps.map GapSample.running, s.gaps.map GapSample.prefillTokens⟩
  blockHashes := s.blockHashes
  outputTokenIds := if recordTokens = .on then some s.outputTokenIds else none
  finishReason := some finishReason

end RequestState

/-- What the tap holds, with the records it has written. -/
structure Tap where
  captureStart : Instant
  blockSize : ℕ
  recordTokens : TokenRecording
  requests : SortedMap String RequestState
  written : List TraceRecord

/-- A message the tap forwards and observes. -/
inductive TapMessage where
  | add (req : EngineCoreRequest)
  | abort (requestIds : List String)
  | outputs (envelope : Envelope)

namespace Tap

def new (captureStart : Instant) (blockSize : ℕ) (recordTokens : TokenRecording) : Tap where
  captureStart := captureStart
  blockSize := blockSize
  recordTokens := recordTokens
  requests := SortedMap.empty
  written := []

def observeAdd (arrival : Instant) (req : EngineCoreRequest) (tap : Tap) : Tap :=
  { tap with
    requests := tap.requests.insert req.requestId
      (.new req arrival tap.blockSize (tap.requests.size + 1)) }

def discard (tap : Tap) (requestId : String) : Tap :=
  { tap with requests := tap.requests.erase requestId }

/-- The engine's own running count, or the number of requests in flight. -/
def stepRunning (envelope : Envelope) (tap : Tap) : ℕ :=
  (envelope.schedulerStats.elim tap.requests.size SchedulerStats.numRunningReqs) % 2 ^ 32

/-- The prompt tokens that finished prefill in this step. -/
def stepPrefillTokens (envelope : Envelope) (tap : Tap) : ℕ :=
  ((((envelope.requestOutputs.filter (fun o => !o.newTokenIds.isEmpty)).filterMap
      (fun o => tap.requests.get? o.requestId)).filter
      (fun s => s.awaitingFirstToken && !s.remotePrefill)).map
      (fun s => s.promptTokens % 2 ^ 32)).sum % 2 ^ 32

/-- What an output adds to the state of its request. -/
def observed (arrival : Instant) (running prefillTokens : ℕ) (recordTokens : TokenRecording)
    (output : EngineCoreOutput) (s : RequestState) : RequestState :=
  let s :=
    if recordTokens = .on then { s with outputTokenIds := s.outputTokenIds ++ output.newTokenIds }
    else s
  let s :=
    match output.prefillStats with
    | some stats =>
        { s with cachedTokens :=
            (stats.numLocalCachedTokens + stats.numExternalCachedTokens) % 2 ^ 32 }
    | none => s
  if output.newTokenIds.isEmpty then s
  else s.recordChunk arrival output.newTokenIds.length running prefillTokens

def observeOne (arrival : Instant) (running prefillTokens : ℕ) (tap : Tap)
    (output : EngineCoreOutput) : Tap :=
  match tap.requests.get? output.requestId with
  | none => tap
  | some s =>
    if output.finishReason = some .abort then tap.discard output.requestId
    else
      let s := observed arrival running prefillTokens tap.recordTokens output s
      match output.finishReason with
      | some reason =>
          { tap with
            requests := tap.requests.erase output.requestId
            written := tap.written ++ [s.intoRecord tap.captureStart reason tap.recordTokens] }
      | none => { tap with requests := tap.requests.insert output.requestId s }

/-- Observe a message that came off the wire at `arrival`. -/
def observe (tap : Tap) (message : Instant × TapMessage) : Tap :=
  match message.2 with
  | .add req => tap.observeAdd message.1 req
  | .abort requestIds => requestIds.foldl discard tap
  | .outputs envelope =>
      envelope.requestOutputs.foldl
        (observeOne message.1 (tap.stepRunning envelope) (tap.stepPrefillTokens envelope)) tap

def observeAll (tap : Tap) (messages : List (Instant × TapMessage)) : Tap :=
  messages.foldl observe tap

theorem observeOne_recordTokens (arrival : Instant) (running prefillTokens : ℕ) (tap : Tap)
    (output : EngineCoreOutput) :
    (observeOne arrival running prefillTokens tap output).recordTokens = tap.recordTokens := by
  unfold observeOne
  cases tap.requests.get? output.requestId with
  | none => rfl
  | some s =>
      dsimp only
      split
      · rfl
      · split <;> rfl

theorem observe_recordTokens (tap : Tap) (message : Instant × TapMessage) :
    (tap.observe message).recordTokens = tap.recordTokens := by
  unfold observe
  cases message.2 with
  | add req => rfl
  | abort requestIds =>
      exact List.foldlRecOn requestIds discard (motive := fun t => t.recordTokens = tap.recordTokens)
        rfl (fun t h id _ => (rfl : (t.discard id).recordTokens = t.recordTokens).trans h)
  | outputs envelope =>
      exact List.foldlRecOn envelope.requestOutputs _
        (motive := fun t => t.recordTokens = tap.recordTokens) rfl
        (fun t h output _ => (observeOne_recordTokens _ _ _ t output).trans h)

theorem observeAll_recordTokens (tap : Tap) (messages : List (Instant × TapMessage)) :
    (tap.observeAll messages).recordTokens = tap.recordTokens :=
  List.foldlRecOn messages observe (motive := fun t => t.recordTokens = tap.recordTokens) rfl
    (fun t h message _ => (t.observe_recordTokens message).trans h)

/-- The file the tap leaves: the meta line, then the records. -/
def trace (tap : Tap) : List TraceLine := .header :: tap.written.map .record

end Tap
end VllmVcr
