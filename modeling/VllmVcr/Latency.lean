import Mathlib.Data.Nat.Cast.Order.Ring
import VllmVcr.Sched

/-!
# Response timing

The options, the randomness the engine draws, and the `LatencyModel` the engine paces
itself by. The knob model is embedded; a trace-fitted model enters as any value of
`LatencyModel`. Load factors and samples are exact rationals.
-/

namespace VllmVcr

/-! ## Durations from floats -/

/-- A `Duration` counts its seconds in 64 bits. -/
def durationLimit : ℕ := 2 ^ 64

/-- `Duration::from_secs_f64`. -/
def fromSecsF64 (secs : ℚ) : Option Duration :=
  if 0 ≤ secs ∧ secs < durationLimit then some secs.toNNRat else none

theorem fromSecsF64_lt {secs : ℚ} {d : Duration} (h : fromSecsF64 secs = some d) :
    d < durationLimit := by
  unfold fromSecsF64 at h
  split_ifs at h with hsecs
  obtain ⟨hnonneg, hlimit⟩ := hsecs
  obtain rfl := Option.some.inj h
  rw [← NNRat.coe_lt_coe, Rat.coe_toNNRat _ hnonneg]
  exact_mod_cast hlimit

/-- A `Duration` is less than this many milliseconds. -/
def msLimit : ℚ := 1000 * (durationLimit : ℚ)

theorem msLimit_pos : 0 < msLimit :=
  mul_pos Nat.ofNat_pos (Nat.cast_pos.mpr (Nat.two_pow_pos 64))

theorem fromMs_isSome {ms : ℚ} : (fromSecsF64 (ms / 1000)).isSome ↔ 0 ≤ ms ∧ ms < msLimit := by
  have hlow : 0 ≤ ms / 1000 ↔ 0 ≤ ms := by
    rw [le_div_iff₀ Nat.ofNat_pos, zero_mul]
  have hhigh : ms / 1000 < (durationLimit : ℚ) ↔ ms < msLimit := by
    rw [div_lt_iff₀ Nat.ofNat_pos, msLimit, mul_comm]
  rw [← hlow, ← hhigh]
  unfold fromSecsF64
  split_ifs with h
  · simpa using h
  · simpa using h

/-! ## The latency model -/

inductive Churn where
  | calm
  | bigChunk
  deriving DecidableEq

/-- Prefill admissions above this size mark big-chunk churn. -/
def bigChunkTokens : ℕ := 4096

def numConcurrencyBuckets : ℕ := 8

def promptEdges : List ℕ := [0, 65, 129, 257, 513, 1025, 2049, 4097, 8193, 16385, 32769]

/-- The index of the last edge the value reaches. -/
def promptBucket (uncachedPromptTokens : ℕ) : ℕ :=
  (promptEdges.takeWhile (fun edge => edge ≤ uncachedPromptTokens)).length - 1

structure DecodePacing where
  donors : List (Option ℕ)
  pendingStall : Option ℕ
  contextBucket : ℕ
  churn : Churn
  deriving DecidableEq

def DecodePacing.forPrompt (promptTokens : ℕ) (churn : Churn) : DecodePacing where
  donors := List.replicate numConcurrencyBuckets none
  pendingStall := none
  contextBucket := promptBucket promptTokens
  churn := churn

structure StepDraw where
  delay : Duration
  tokens : ℕ
  deriving DecidableEq

structure FirstTokenCtx where
  numPromptTokens : ℕ
  numCachedTokens : ℕ
  doRemotePrefill : Bool
  numRunning : ℕ

/-- A pacing strategy; the random state is threaded through each draw. -/
structure LatencyModel (Rng : Type) where
  pacedStep : Rng → ℕ → DecodePacing → StepDraw × Rng × DecodePacing
  prefillChunkCost : ℕ → ℕ → Duration
  budgetFullChunkFloor : Duration
  firstTokenOverhead : Rng → FirstTokenCtx → Duration × Rng
  specTokens : Option ℕ
  sampleOutputLen : Rng → Option ℕ × Rng

/-- A call of `pacedStep`, with the running count it passes. -/
@[simps] def LatencyModel.askStep {Rng : Type} (latency : LatencyModel Rng) (rng : Rng)
    (numRunning : ℕ) (pacing : DecodePacing) : (StepDraw × Rng × DecodePacing) × ℕ :=
  (latency.pacedStep rng numRunning pacing, numRunning)

/-- A call of `firstTokenOverhead`, with the running count it passes. -/
@[simps] def LatencyModel.askFirstToken {Rng : Type} (latency : LatencyModel Rng) (rng : Rng)
    (ctx : FirstTokenCtx) : (Duration × Rng) × ℕ :=
  (latency.firstTokenOverhead rng ctx, ctx.numRunning)

inductive FailureType where
  | error
  | length
  | repetition
  deriving DecidableEq

def FailureType.finishReason : FailureType → FinishReason
  | error => .error
  | length => .length
  | repetition => .repetition

inductive ReplayMatch where
  | index
  | prefixed
  deriving DecidableEq

structure Opt where
  outputTokenChunkSize : ℕ
  vocabSize : ℕ
  replayTokens : Option String
  replaySteps : Option String
  latencyTrace : Option String
  seed : ℕ
  tokensPerBlock : ℕ
  timeToFirstToken : ℕ
  timeToFirstTokenStdDev : ℕ
  interTokenLatency : ℕ
  interTokenLatencyStdDev : ℕ
  prefillOverhead : ℕ
  prefillTimePerToken : ℕ
  prefillTimeStdDev : ℕ
  kvCacheTransferLatency : ℕ
  kvCacheTransferLatencyStdDev : ℕ
  kvCacheTransferTimePerToken : ℕ
  kvCacheTransferTimeStdDev : ℕ
  timeFactorUnderLoad : ℚ
  maxNumSeqs : ℕ
  maxNumBatchedTokens : ℕ
  longPrefillTokenThreshold : ℕ
  schedulingPolicy : Scheduler
  kvCacheSize : ℕ
  maxLoras : ℕ
  enableKvCacheEvents : Bool
  kvCacheNoneSeed : UInt64
  maxModelLen : ℕ
  failureInjectionRate : ℚ
  timeScale : ℚ
  failureTypes : List FailureType
  logRequests : Bool

/-- What lies outside the repository: the random generator and the per-request seed hash,
the normal deviate built from two draws, the fitted trace model, the KV data plane. -/
structure Env where
  Rng : Type
  seedFromU64 : ℕ → Rng
  requestSeed : ℕ → ℕ → String → ℕ
  randomF64 : Rng → ℚ × Rng
  randomRange : Rng → ℕ → ℕ × Rng
  normalDeviate : Rng → ℚ × Rng
  traceLatency : Opt → Except String (LatencyModel Rng)
  advertisePrefilled : String → ℕ → List ℕ → Except String RemoteKv

variable (env : Env)

/-- Apply the load factor to a millisecond mean, truncating toward zero. -/
def scale (millis : ℕ) (load : ℚ) : ℕ := (millis * load).floor.toNat

def randomNorm (rng : env.Rng) (mean stddev : ℚ) : ℚ × env.Rng :=
  if stddev = 0 then (mean, rng)
  else
    let (z, rng) := env.normalDeviate rng
    (z * stddev + mean, rng)

/-- A sample clamped to within 0.7 of the mean, in whole milliseconds. -/
def randomNormTruncated (rng : env.Rng) (mean stddev : ℕ) : ℕ × env.Rng :=
  let (value, rng) := randomNorm env rng mean stddev
  ((max (3 / 10 * (mean : ℚ)) (min value (17 / 10 * (mean : ℚ)))).floor.toNat, rng)

def fromMillis (millis : ℕ) : Duration := (millis : ℚ≥0) / 1000

structure KnobLatency where
  timeToFirstToken : ℕ
  timeToFirstTokenStdDev : ℕ
  interTokenLatency : ℕ
  interTokenLatencyStdDev : ℕ
  prefillOverhead : ℕ
  prefillTimePerToken : ℕ
  prefillTimeStdDev : ℕ
  kvCacheTransferLatency : ℕ
  kvCacheTransferLatencyStdDev : ℕ
  kvCacheTransferTimePerToken : ℕ
  kvCacheTransferTimeStdDev : ℕ
  timeFactorUnderLoad : ℚ
  maxNumSeqs : ℕ

namespace KnobLatency

def loadFactor (k : KnobLatency) (numRunning : ℕ) : ℚ :=
  if k.maxNumSeqs ≤ 1 then 1
  else 1 + (k.timeFactorUnderLoad - 1) * ((numRunning - 1 : ℕ) : ℚ) / ((k.maxNumSeqs - 1 : ℕ) : ℚ)

def firstTokenDelay (k : KnobLatency) (rng : env.Rng) (ctx : FirstTokenCtx) : Duration × env.Rng :=
  let load := k.loadFactor ctx.numRunning
  let (millis, rng) :=
    if ctx.doRemotePrefill then
      if k.kvCacheTransferLatency = 0 ∧ k.kvCacheTransferLatencyStdDev = 0 then
        randomNormTruncated env rng (k.kvCacheTransferTimePerToken * ctx.numPromptTokens)
          k.kvCacheTransferTimeStdDev
      else randomNormTruncated env rng k.kvCacheTransferLatency k.kvCacheTransferLatencyStdDev
    else if k.timeToFirstToken = 0 ∧ k.timeToFirstTokenStdDev = 0 then
      let uncached := ctx.numPromptTokens - ctx.numCachedTokens
      randomNormTruncated env rng
        (scale k.prefillOverhead load + uncached * scale k.prefillTimePerToken load)
        k.prefillTimeStdDev
    else randomNormTruncated env rng (scale k.timeToFirstToken load) k.timeToFirstTokenStdDev
  (fromMillis millis, rng)

def interTokenDelay (k : KnobLatency) (rng : env.Rng) (numRunning : ℕ) : Duration × env.Rng :=
  let (millis, rng) := randomNormTruncated env rng
    (scale k.interTokenLatency (k.loadFactor numRunning)) k.interTokenLatencyStdDev
  (fromMillis millis, rng)

/-- The trait instance, with the trait's defaults where the knob model has none of its own. -/
def model (k : KnobLatency) : LatencyModel env.Rng where
  pacedStep rng numRunning pacing :=
    let (delay, rng) := k.interTokenDelay env rng numRunning
    (⟨delay, 1⟩, rng, pacing)
  prefillChunkCost _ _ := 0
  budgetFullChunkFloor := 0
  firstTokenOverhead := k.firstTokenDelay env
  specTokens := none
  sampleOutputLen rng := (none, rng)

end KnobLatency

namespace Opt

variable (opt : Opt)

def latencyModel : KnobLatency where
  timeToFirstToken := opt.timeToFirstToken
  timeToFirstTokenStdDev := opt.timeToFirstTokenStdDev
  interTokenLatency := opt.interTokenLatency
  interTokenLatencyStdDev := opt.interTokenLatencyStdDev
  prefillOverhead := opt.prefillOverhead
  prefillTimePerToken := opt.prefillTimePerToken
  prefillTimeStdDev := opt.prefillTimeStdDev
  kvCacheTransferLatency := opt.kvCacheTransferLatency
  kvCacheTransferLatencyStdDev := opt.kvCacheTransferLatencyStdDev
  kvCacheTransferTimePerToken := opt.kvCacheTransferTimePerToken
  kvCacheTransferTimeStdDev := opt.kvCacheTransferTimeStdDev
  timeFactorUnderLoad := opt.timeFactorUnderLoad
  maxNumSeqs := opt.maxNumSeqs

def hasTimingKnobs : Bool :=
  opt.timeToFirstToken ≠ 0 || opt.timeToFirstTokenStdDev ≠ 0 || opt.interTokenLatency ≠ 0 ||
    opt.interTokenLatencyStdDev ≠ 0 || opt.prefillOverhead ≠ 0 || opt.prefillTimePerToken ≠ 0 ||
    opt.prefillTimeStdDev ≠ 0

def buildLatency : Except String (LatencyModel env.Rng) :=
  if opt.latencyTrace.isNone then .ok (opt.latencyModel.model env)
  else if opt.hasTimingKnobs then
    .error ("--latency-trace is mutually exclusive with timing knobs (time_to_first_token, " ++
      "inter_token_latency, prefill_*). Remove the knobs or the trace path.")
  else env.traceLatency opt

/-- The time-compression factor, guarding zero. -/
def effectiveTimeScale : ℚ≥0 := if 0 < opt.timeScale then opt.timeScale.toNNRat else 1

/-- The per-step token budget. -/
def stepBudget : ℕ := max opt.maxNumBatchedTokens 1

theorem stepBudget_pos : 0 < opt.stepBudget := Nat.lt_of_lt_of_le Nat.one_pos (le_max_right _ _)

end Opt
end VllmVcr
