import VllmVcr.TraceFile

/-!
# Measured records

`measure_one` turns a request's output stream into gaps and chunk sizes, and
`replay_arrivals` turns these into a record in trace schema. What the client's clock and
the transport decide, the time to first token and the timeout, is a parameter.
-/

namespace VllmVcr

/-- An item of a request's output stream. -/
inductive StreamItem where
  | output (newTokenIds : List Token) (finishReason : Option FinishReason) (timestamp : ℚ)
  | error

/-- The chunk sizes and engine timestamps of the non-empty outputs, up to the finishing one. -/
def collectStream : List StreamItem → Option (List (ℕ × ℚ))
  | [] => some []
  | .error :: _ => none
  | .output newTokenIds finishReason timestamp :: rest =>
    let chunk := if newTokenIds.isEmpty then [] else [(newTokenIds.length, timestamp)]
    if finishReason.isSome then some chunk else (collectStream rest).map (chunk ++ ·)

structure ReplayedRequest where
  ttftMs : Option ℚ
  gapsMs : List ℚ
  chunkTokens : List ℕ

def measureOne (ttftMs : ℚ) (timedOut : Bool) (items : List StreamItem) : ReplayedRequest :=
  match (collectStream items).filter (fun _ => !timedOut) with
  | none => ⟨none, [], []⟩
  | some chunks => {
      ttftMs := if chunks.isEmpty then none else some ttftMs
      gapsMs := List.zipWith (fun a b => (b.2 - a.2) * 1000) chunks chunks.tail
      chunkTokens := chunks.map (fun c => c.1 % 2 ^ 32) }

def ReplayedRequest.scaled (timeScale : ℚ) (m : ReplayedRequest) : ReplayedRequest where
  ttftMs := m.ttftMs.map (· * timeScale)
  gapsMs := m.gapsMs.map (· * timeScale)
  chunkTokens := m.chunkTokens

/-- The measured record of a request replayed from `rec`; a request without a first token has
none. -/
def measuredRecord (source : TraceRecord) (m : ReplayedRequest) : Option TraceRecord :=
  m.ttftMs.map fun ttft => {
    promptTokens := source.promptTokens
    cachedTokens := 0
    outputTokens := if m.chunkTokens.isEmpty then m.gapsMs.length + 1 else m.chunkTokens.sum
    ttftMs := ttft
    itlMs := if m.gapsMs.isEmpty then none else some m.gapsMs
    itlTokens := if m.chunkTokens.tail.any (fun c => 1 < c) then some m.chunkTokens.tail else none
    itlSummary := none
    concurrency := source.concurrency
    arrivalMs := source.arrivalMs
    itlCtx := none }

end VllmVcr
