import VllmVcr.BlockPool
import VllmVcr.Numerals

/-!
# The engine-core protocol surface

Requests as the frontend sends them and output envelopes as the engine returns them,
with the fields the engine reads or fills. Durations and instants are exact. An output
also names the admission ticket it answers and the emission it delivers; no modelled
function reads either.
-/

namespace VllmVcr

abbrev Duration := ℚ≥0
abbrev Instant := ℚ≥0

inductive JsonValue where
  | null
  | bool (b : Bool)
  | number (n : ℤ)
  | float (q : ℚ)
  | string (s : String)
  | array (items : List JsonValue)
  | object (fields : List (String × JsonValue))

namespace JsonValue

def get? : JsonValue → String → Option JsonValue
  | object fields, key => fields.lookup key
  | _, _ => none

def asBool : JsonValue → Option Bool
  | bool b => some b
  | _ => none

def asStr : JsonValue → Option String
  | string s => some s
  | _ => none

def asU64 : JsonValue → Option ℕ
  | number n => if 0 ≤ n ∧ n < 2 ^ 64 then some n.toNat else none
  | _ => none

def asI64 : JsonValue → Option ℤ
  | number n => if -2 ^ 63 ≤ n ∧ n < 2 ^ 63 then some n else none
  | _ => none

def asArray : JsonValue → Option (List JsonValue)
  | array items => some items
  | _ => none

end JsonValue

/-- A decoded msgpack value; a string that is not UTF-8 keeps its bytes. -/
inductive MsgpackValue where
  | nil
  | boolean (b : Bool)
  | integer (n : ℤ)
  | f32 (bits : UInt32)
  | f64 (bits : UInt64)
  | string (s : String)
  | rawString (bytes : List UInt8)
  | binary (bytes : List UInt8)
  | array (items : List MsgpackValue)
  | map (entries : List (MsgpackValue × MsgpackValue))
  | ext (tag : ℤ) (bytes : List UInt8)

namespace MsgpackValue

def asStr : MsgpackValue → Option String
  | string s => some s
  | _ => none

def asU64 : MsgpackValue → Option ℕ
  | integer n => if 0 ≤ n ∧ n < 2 ^ 64 then some n.toNat else none
  | _ => none

def asArray : MsgpackValue → Option (List MsgpackValue)
  | array items => some items
  | _ => none

end MsgpackValue

structure EngineCoreSamplingParams where
  maxTokens : ℕ
  minTokens : ℕ
  eosTokenId : Option Token
  extraArgs : Option (List (String × JsonValue))

structure LoraRequest where
  loraName : String
  loraIntId : ℕ

structure EngineCoreRequest where
  requestId : String
  clientIndex : ℕ
  promptTokenIds : Option (List Token)
  samplingParams : Option EngineCoreSamplingParams
  arrivalTime : ℚ
  priority : ℤ
  loraRequest : Option LoraRequest
  cacheSalt : Option String

namespace EngineCoreRequest

def prompt (request : EngineCoreRequest) : List Token := request.promptTokenIds.getD []

def requestLoraName (request : EngineCoreRequest) : Option String :=
  request.loraRequest.map LoraRequest.loraName

/-- The `kv_transfer_params` of the request's extra arguments. -/
def extractKvParams (request : EngineCoreRequest) : Option JsonValue :=
  (request.samplingParams.bind EngineCoreSamplingParams.extraArgs).bind
    (List.lookup "kv_transfer_params")

end EngineCoreRequest

def kvFlag (kv : JsonValue) (key : String) : Bool := ((kv.get? key).bind JsonValue.asBool).getD false

structure RemoteKv where
  engineId : String
  host : String
  port : ℕ
  blockIds : List ℤ
  requestId : String

/-- The remote descriptor of a decode request, when it asks for a remote prefill. -/
def parseRemoteKv (kv : JsonValue) : Option RemoteKv :=
  if kvFlag kv "do_remote_prefill" then do
    let engineId ← (← kv.get? "remote_engine_id").asStr
    let host ← (← kv.get? "remote_host").asStr
    let port ← (← kv.get? "remote_port").asU64
    let blockIds ← (← kv.get? "remote_block_ids").asArray
    some {
      engineId := engineId
      host := host
      port := port % 2 ^ 32
      blockIds := blockIds.filterMap JsonValue.asI64
      requestId := ((kv.get? "remote_request_id").bind JsonValue.asStr).getD "" }
  else none

def buildPrefillKvParams (remote : RemoteKv) (requestId : String) (remoteNumTokens : ℕ) :
    JsonValue :=
  .object [
    ("do_remote_prefill", .bool true),
    ("do_remote_decode", .bool false),
    ("remote_block_ids", .array (remote.blockIds.map .number)),
    ("remote_engine_id", .string remote.engineId),
    ("remote_request_id", .string requestId),
    ("remote_host", .string remote.host),
    ("remote_port", .number remote.port),
    ("tp_size", .number 1),
    ("remote_num_tokens", .number remoteNumTokens)]

inductive FinishReason where
  | stop
  | length
  | abort
  | error
  | repetition
  deriving DecidableEq

inductive EngineCoreEventType where
  | queued
  | scheduled
  deriving DecidableEq

structure EngineCoreEvent where
  type : EngineCoreEventType
  timestamp : Instant
  deriving DecidableEq

structure PrefillStats where
  numPromptTokens : ℕ
  numComputedTokens : ℕ
  numCachedTokens : ℕ
  numLocalCachedTokens : ℕ
  numExternalCachedTokens : ℕ
  numCacheCreationTokens : ℕ
  deriving DecidableEq

structure SpecDecodingStats where
  numSpecTokens : ℕ
  numDrafts : ℕ
  numDraftTokens : ℕ
  numAcceptedTokens : ℕ
  numAcceptedTokensPerPos : List ℕ
  deriving DecidableEq

structure SchedulerStats where
  numRunningReqs : ℕ
  numWaitingReqs : ℕ
  numSkippedWaitingReqs : ℕ
  kvCacheUsage : ℚ≥0
  prefixCacheStats : PrefixStatsSnapshot
  specDecodingStats : Option SpecDecodingStats
  deriving DecidableEq

/-- Where an emitted chunk stands in the order of emission. -/
structure Emission where
  due : Instant
  seq : ℕ
  deriving DecidableEq

structure EngineCoreOutput where
  requestId : String
  newTokenIds : List Token
  finishReason : Option FinishReason
  prefillStats : Option PrefillStats := none
  events : Option (List EngineCoreEvent) := none
  kvTransferParams : Option JsonValue := none
  ticket : Option ℕ := none
  emission : Option Emission := none

/-- One request output with only token ids and terminal status populated. -/
def requestOutput (requestId : String) (newTokenIds : List Token)
    (finishReason : Option FinishReason) : EngineCoreOutput where
  requestId := requestId
  newTokenIds := newTokenIds
  finishReason := finishReason

inductive UtilityResult where
  | strings (values : List String)
  | bool (value : Bool)
  | nil
  deriving DecidableEq

inductive Envelope where
  | requestBatch (engineIndex : ℕ) (outputs : List EngineCoreOutput)
      (schedulerStats : Option SchedulerStats) (timestamp : Instant)
      (finishedRequests : Option (List String))
  | utility (engineIndex : ℕ) (timestamp : Instant) (callId : ℕ) (result : UtilityResult)

namespace Envelope

def requestOutputs : Envelope → List EngineCoreOutput
  | requestBatch _ outputs _ _ _ => outputs
  | utility .. => []

def schedulerStats : Envelope → Option SchedulerStats
  | requestBatch _ _ stats _ _ => stats
  | utility .. => none

end Envelope

structure EngineOutput where
  clientIndex : ℕ
  outputs : Envelope

/-- An output that ends a request without tokens. -/
def terminalOutput (ticket : Option ℕ) (requestId : String) (finishReason : FinishReason) :
    EngineCoreOutput :=
  { requestOutput requestId [] (some finishReason) with ticket := ticket }

/-- An empty output with a terminal finish reason. -/
def emptyFinishOutputs (engineIndex : ℕ) (now : Instant) (ticket : Option ℕ) (requestId : String)
    (finishReason : FinishReason) : Envelope :=
  .requestBatch engineIndex [terminalOutput ticket requestId finishReason] none now
    (some [requestId])

end VllmVcr
