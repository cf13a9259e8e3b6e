import Mathlib.Data.List.MinMax
import VllmVcr.Engine.Admission

/-!
# The engine step clock

Composing a step, finishing it, and catching up on every step that is due. The draws of
one step do not interact, each reading and updating its own request only, so they are
one map over the batch.
-/

namespace VllmVcr

variable {env : Env}

/-- The decode draw of one request: its recorded step, or one from the latency model. -/
def ActiveRequest.drawStep (latency : LatencyModel env.Rng) (numRunning : ℕ)
    (r : ActiveRequest env) : StepDraw × ActiveRequest env :=
  match r.scriptedDecode with
  | some ⟨first, draw :: rest⟩ =>
      (draw, { r with scriptedDecode := some ⟨first, rest⟩, asked := none })
  | _ =>
      let ((draw, rng, pacing), load) := latency.askStep r.rng numRunning r.pacing
      (draw, { r with rng := rng, pacing := pacing, asked := some load })

/-- The prefill chunks of a step: each takes what its request and the budget `left` allow.
Returns the entries, the budget left over and the cost of the chunks. -/
def planChunks (active : SortedMap String (ActiveRequest env)) (threshold : ℕ)
    (cost : ℕ → ℕ → Duration) : List String → ℕ → List ChunkEntry × ℕ × Duration
  | [], left => ([], left, 0)
  | requestId :: rest, left =>
    if left = 0 then ([], left, 0)
    else
      match active.get? requestId with
      | none => planChunks active threshold cost rest left
      | some r =>
        match r.phase with
        | .decode => planChunks active threshold cost rest left
        | .prefill remaining =>
            let take := if 0 < threshold then min (min remaining left) threshold
              else min remaining left
            let (chunks, left, total) := planChunks active threshold cost rest (left - take)
            (⟨requestId, take, r.ticket⟩ :: chunks, left,
              cost take (r.promptLen - remaining) + total)

def isPrefilling (active : SortedMap String (ActiveRequest env)) (requestId : String) : Bool :=
  (active.get? requestId).any (fun r => r.phase ≠ .decode)

namespace SimEngine

def decoding (e : SimEngine env) : List (ActiveRequest env) :=
  e.activeRequests.values.filter ActiveRequest.isDecoding

def drawFor (e : SimEngine env) (r : ActiveRequest env) : StepDraw × ActiveRequest env :=
  r.drawStep e.latency e.numRunning

/-- The draw of the largest-context decoder paces the whole batch. -/
def decodeBase (e : SimEngine env) : Duration :=
  match e.decoding.argmax (fun r => r.pacing.contextBucket) with
  | some pacer => (e.drawFor pacer).1.delay
  | none => 0

def drawDecoders (e : SimEngine env) : SimEngine env × List DecoderEntry :=
  ({ e with
      activeRequests := e.activeRequests.mapValues
        (fun _ r => if r.isDecoding then (e.drawFor r).2 else r)
      loads := e.loads ++ e.decoding.filterMap (fun r => (e.drawFor r).2.asked) },
    e.decoding.map (fun r => ⟨r.requestId, (e.drawFor r).1.tokens, r.ticket⟩))

/-- The requests in `prefillOrder` that still prefill. -/
@[simps] def prunePrefills (e : SimEngine env) : SimEngine env :=
  { e with prefillOrder := e.prefillOrder.filter (isPrefilling e.activeRequests) }

/-- The prefill chunks of the next step, in the budget the decoders leave. -/
def chunkPlan (e : SimEngine env) (decoders : List DecoderEntry) :
    List ChunkEntry × ℕ × Duration :=
  planChunks e.activeRequests e.opt.longPrefillTokenThreshold e.latency.prefillChunkCost
    e.prefillOrder (e.opt.stepBudget - (decoders.map (fun d => max d.tokens 1)).sum)

/-- Compose the next engine step, anchored at the previous step's end. -/
def composeStep (anchor : Instant) (e : SimEngine env) : SimEngine env :=
  let decodeBase := e.decodeBase
  let (e, decoders) := e.drawDecoders
  let e := e.prunePrefills
  let (chunks, left, chunkCost) := e.chunkPlan decoders
  -- Budget-saturated steps pay the max-shape premium.
  let chunkCost :=
    if left = 0 ∧ chunks ≠ [] then max chunkCost e.latency.budgetFullChunkFloor else chunkCost
  { e with currentStep :=
      if decoders.isEmpty && chunks.isEmpty then e.currentStep
      else some {
        endsAt := anchor + max decodeBase chunkCost / e.opt.effectiveTimeScale
        decoders := decoders
        chunks := chunks } }

/-- (Re)start the step clock if it idles. -/
def ensureStep (anchor : Instant) (e : SimEngine env) : SimEngine env :=
  if e.currentStep.isNone then e.composeStep anchor else e

/-- Let `r` generate a chunk at `stepEnd`, for an entry composed under ticket `entry`. -/
def generateFor (stepEnd : Instant) (requestId : String) (entry : ℕ) (byDecoder : Bool)
    (chunkTokens : ℕ) (r : ActiveRequest env) (e : SimEngine env) : SimEngine env :=
  let (r', tokenSource, emit) :=
    r.generate e.tokenSource stepEnd chunkTokens e.opt.effectiveTimeScale e.emitSeq
  { e with
    tokenSource := tokenSource
    activeRequests := e.activeRequests.insert requestId r'
    emitSeq := e.emitSeq + 1 }.log (.generated ⟨entry, r.ticket, byDecoder, r.phase, emit⟩)

def completeDecoder (stepEnd : Instant) (e : SimEngine env) (d : DecoderEntry) : SimEngine env :=
  match e.activeRequests.get? d.requestId with
  | none => e
  | some r =>
      e.generateFor stepEnd d.requestId d.ticket true
        (if 1 < d.tokens then d.tokens else e.opt.outputTokenChunkSize) r

/-- The first token's overhead delays the request's emissions from its prefill's end on. -/
def startDecode (e : SimEngine env) (numRunning : ℕ) (r : ActiveRequest env) : ActiveRequest env :=
  let ((offset, rng), load) := e.latency.askFirstToken r.rng
    ⟨r.promptLen, r.numLocalCachedTokens, false, numRunning⟩
  { r with emitOffset := offset, rng := rng, phase := .decode, asked := some load }

/-- Note the running count of the call just made for `r`. -/
@[simps] def noteLoad (r : ActiveRequest env) (e : SimEngine env) : SimEngine env :=
  { e with loads := e.loads ++ r.asked.toList }

def completeChunk (stepEnd : Instant) (numRunning : ℕ) (e : SimEngine env) (c : ChunkEntry) :
    SimEngine env :=
  match e.activeRequests.get? c.requestId with
  | none => e
  | some r =>
    match r.phase with
    | .decode => e
    | .prefill remaining =>
        let e := e.log (.chunked c.ticket r.ticket c.take)
        if 0 < remaining - c.take then
          { e with
            activeRequests := e.activeRequests.insert c.requestId
              { r with phase := .prefill (remaining - c.take) } }
        else
          let r := e.startDecode numRunning r
          let firstChunk :=
            match r.scriptedDecode with
            | some s => s.firstChunkTokens
            | none => e.opt.outputTokenChunkSize
          (e.noteLoad r).generateFor stepEnd c.requestId c.ticket false firstChunk r

/-- Credit one decode draw of `drawn` tokens against a budget of `k` draft tokens. -/
def creditDraft (k : ℕ) (acc : SpecDecodingStats) (drawn : ℕ) : SpecDecodingStats :=
  let accepted := min (drawn - 1) k
  { numSpecTokens := acc.numSpecTokens
    numDrafts := acc.numDrafts + 1
    numDraftTokens := acc.numDraftTokens + k
    numAcceptedTokens := acc.numAcceptedTokens + accepted
    numAcceptedTokensPerPos :=
      acc.numAcceptedTokensPerPos.mapIdx (fun i n => if i < accepted then n + 1 else n) }

def foldSpecStats (e : SimEngine env) (decoders : List DecoderEntry) : SimEngine env :=
  match e.specTokens with
  | none => e
  | some k =>
    if decoders.isEmpty then e
    else
      let acc := e.pendingSpec.getD ⟨k, 0, 0, 0, List.replicate k 0⟩
      { e with
        pendingSpec := some (decoders.foldl (fun acc d => creditDraft k acc d.tokens) acc) }

/-- The effects of a due step's entries: decoders generate, then chunks drain. -/
def executeStep (step : EngineStep) (e : SimEngine env) : SimEngine env :=
  let numRunning := e.numRunning
  let e := step.decoders.foldl (completeDecoder step.endsAt) (e.log (.completed step))
  let e := e.foldSpecStats step.decoders
  step.chunks.foldl (completeChunk step.endsAt numRunning) e

/-- Finish a due step, admit into the freed budget, recompose from this step's end. -/
def completeStep (now : Instant) (step : EngineStep) (e : SimEngine env) :
    SimEngine env × List EngineOutput :=
  let (e, outputs) := (e.executeStep step).schedule now
  (e.ensureStep step.endsAt, outputs)

/-- The in-flight step, if it is due. -/
def dueStep (now : Instant) (e : SimEngine env) : Option EngineStep :=
  e.currentStep.filter (fun step => step.endsAt ≤ now)

@[simps] def takeStep (e : SimEngine env) : SimEngine env := { e with currentStep := none }

/-- Complete every due step. `none` when `fuel` rounds do not catch up. -/
def catchUp (now : Instant) : ℕ → SimEngine env → Option (SimEngine env × List EngineOutput)
  | 0, _ => none
  | fuel + 1, e =>
    match e.dueStep now with
    | none => some (e, [])
    | some step =>
        let (e, outputs) := e.takeStep.completeStep now step
        (catchUp now fuel e).map (fun (e, more) => (e, outputs ++ more))

end SimEngine
end VllmVcr
