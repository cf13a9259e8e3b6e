import VllmVcr.Grid
import VllmVcr.ServiceCurve
import VllmVcr.TraceFile

/-!
# Latency fitted from a trace

`TraceLatency::from_records` and the draws of the model it builds. A conversion to a `Duration`
gives nothing where the source panics: on a negative number of seconds, and from `2 ^ 64` on.
-/

namespace VllmVcr

/-- The sum of two durations. -/
def addDuration (d d' : Duration) : Option Duration :=
  if d + d' < durationLimit then some (d + d') else none

/-- A record's decode regime: big-chunk churn when more than 6% of its gaps carry big admissions. -/
def recordChurn (record : TraceRecord) : Churn :=
  match record.itlCtx with
  | none => .calm
  | some ctx =>
    if max ctx.prefillTokens.length 1 * 6 <
        (ctx.prefillTokens.filter (fun t => bigChunkTokens < t)).length * 100 then .bigChunk
    else .calm

def numPromptBuckets : ℕ := promptEdges.length

/-- Churn cells occupy the upper half of the context table. -/
def Churn.cellOffset : Churn → ℕ
  | .calm => 0
  | .bigChunk => numPromptBuckets

def concurrencyRanges : List (ℕ × ℕ) :=
  [(1, 1), (2, 4), (5, 6), (7, 8), (9, 16), (17, 32), (33, 64), (65, 2 ^ 64 - 1)]

def concurrencyBucket (concurrency : ℕ) : ℕ :=
  (concurrencyRanges.findIdx? (fun r => r.1 ≤ concurrency && concurrency ≤ r.2)).getD
    (numConcurrencyBuckets - 1)

/-- One source request's decode steps by gap, and the regime they were recorded under. -/
structure Donor where
  steps : List (ℚ × ℕ)
  churn : Churn

/-- A donor pool with cumulative token-count weights. -/
structure DonorBucket where
  donors : List Donor
  cumWeights : List ℚ

namespace DonorBucket

def empty : DonorBucket := ⟨[], []⟩

def push (bucket : DonorBucket) (donor : Donor) (weight : ℚ) : DonorBucket where
  donors := bucket.donors ++ [donor]
  cumWeights := bucket.cumWeights ++ [bucket.cumWeights.getLastD 0 + weight]

def hasDonors (bucket : DonorBucket) : Bool := !bucket.donors.isEmpty

/-- A donor index, weighted by token count. -/
def pick (env : Env) (bucket : DonorBucket) (rng : env.Rng) : ℕ × env.Rng :=
  let (x, rng) := env.randomF64 rng
  let u := x * bucket.cumWeights.getLastD 0
  (min (bucket.cumWeights.takeWhile (fun w => w ≤ u)).length (bucket.donors.length - 1), rng)

end DonorBucket

/-! ## What a record contributes -/

namespace TraceRecord

variable (record : TraceRecord)

def uncachedTokens : ℕ := record.promptTokens - record.cachedTokens

/-- The prefill tokens admitted during a gap. -/
def prefillDuring (i : ℕ) : ℕ := record.itlCtx.elim 0 (fun ctx => ctx.prefillTokens.getD i 0)

/-- The gaps pooled for callers without pacing. -/
def itlSamples : List ℚ :=
  match record.itlMs with
  | some itls => itls
  | none => record.itlSummary.elim [] (fun s => List.replicate s.count s.meanMs)

/-- The steps without prefill interference, by gap. -/
def cleanSteps (itls : List ℚ) : List (ℚ × ℕ) :=
  (((List.range itls.length).filter (fun i => record.prefillDuring i = 0)).map
    (fun i => (itls.getD i 0, (record.itlTokens.bind (fun t => t[i]?)).getD 1))).insertionSort
      (fun a b => a.1 ≤ b.1)

/-- With batch context, gaps far past the record's own median are left out. -/
def donorSteps (itls : List ℚ) : List (ℚ × ℕ) :=
  let steps := record.cleanSteps itls
  match record.itlCtx with
  | some _ => steps.takeWhile (fun s => s.1 ≤ 4 * (steps.getD (steps.length / 2) (0, 0)).1)
  | none => steps

/-- The donor a record gives, with its weight. -/
def donor : Option (Donor × ℚ) :=
  match record.itlMs with
  | some itls =>
      let steps := record.donorSteps itls
      let weight := (steps.map (fun s => (s.2 : ℚ))).sum
      if 0 < weight then some (⟨steps, recordChurn record⟩, weight) else none
  | none =>
      (record.itlSummary.filter (fun s => 0 < s.count)).map
        (fun s => (⟨[(s.meanMs, 1)], recordChurn record⟩, (s.count : ℚ)))

/-- The gaps with prefill interference, each with the bucket of the prompt admitted. -/
def stalls : List (ℕ × ℚ) :=
  ((List.range record.numGaps).filter (fun i => 0 < record.prefillDuring i)).map
    (fun i => (promptBucket (record.prefillDuring i), (record.itlMs.getD []).getD i 0))

/-- Where the record's donor goes: context and regime by concurrency. -/
def donorCell : ℕ × ℕ :=
  (promptBucket record.promptTokens + (recordChurn record).cellOffset,
    concurrencyBucket record.concurrency)

end TraceRecord

/-- What the records are sorted into: first-token times by uncached prompt, donors, stalls and
gaps by concurrency. -/
structure Pools where
  ttftObs : List (List (ℕ × ℕ × ℚ))
  donorsGrid : List (List DonorBucket)
  stallsGrid : List (List (List ℚ))
  itlByConcurrency : List (List ℚ)

namespace Pools

def empty : Pools where
  ttftObs := List.replicate numPromptBuckets []
  donorsGrid :=
    List.replicate (2 * numPromptBuckets) (List.replicate numConcurrencyBuckets .empty)
  stallsGrid := List.replicate numPromptBuckets (List.replicate numConcurrencyBuckets [])
  itlByConcurrency := List.replicate numConcurrencyBuckets []

def add (pools : Pools) (record : TraceRecord) : Pools where
  ttftObs := pools.ttftObs.modify (promptBucket record.uncachedTokens) (fun obs =>
    obs ++ [(concurrencyBucket record.concurrency, max record.uncachedTokens 1, record.ttftMs)])
  donorsGrid := record.donor.elim pools.donorsGrid (fun donor =>
    Grid.modifyCell pools.donorsGrid record.donorCell.1 record.donorCell.2
      (fun bucket => bucket.push donor.1 donor.2))
  stallsGrid := record.stalls.foldl (fun grid stall =>
    Grid.modifyCell grid stall.1 (concurrencyBucket record.concurrency)
      (fun samples => samples ++ [stall.2])) pools.stallsGrid
  itlByConcurrency := pools.itlByConcurrency.modify (concurrencyBucket record.concurrency)
    (fun samples => samples ++ record.itlSamples)

def ofRecords (records : List TraceRecord) : Pools := records.foldl add empty

end Pools

/-- First-token times from a bucket's lowest concurrency, and the median token count behind them. -/
structure ServiceCell where
  samples : List ℚ
  medianUncached : ℕ

/-- Samples borrowed from another bucket are scaled by the token ratio. -/
def ServiceCell.scale (cell : ServiceCell) (uncached dist : ℕ) : ℚ :=
  if 0 < dist ∧ 0 < cell.medianUncached then
    max (1 / 4) (min (((max uncached 1 : ℕ) : ℚ) / cell.medianUncached) 8)
  else 1

def serviceCell (obs : List (ℕ × ℕ × ℚ)) : Option ServiceCell :=
  (obs.map Prod.fst).min?.map (fun minCb =>
    let kept := obs.filter (fun o => o.1 = minCb)
    let uncached := (kept.map (fun o => o.2.1)).insertionSort (· ≤ ·)
    { samples := (kept.map (fun o => o.2.2)).insertionSort (· ≤ ·)
      medianUncached := uncached.getD (uncached.length / 2) 0 })

/-! ## The cost of prefill chunks -/

structure ChunkCostFit where
  c0 : ℚ := 0
  c1 : ℚ := 0

def ChunkCostFit.evalMs (fit : ChunkCostFit) (chunkTokens kvDepth : ℕ) : ℚ :=
  let t : ℚ := chunkTokens
  let d0 : ℚ := kvDepth
  let d1 := d0 + t
  fit.c0 * t + fit.c1 * (d1 * d1 - d0 * d0) / 2

def median (samples : List ℚ) : ℚ := (samples.insertionSort (· ≤ ·)).getD (samples.length / 2) 0

/-- A record's gaps with their marks, and the median of those without, when it has enough. -/
def markedGaps (record : TraceRecord) : Option (List (ℚ × ℕ) × ℚ) :=
  match record.itlMs, record.itlCtx with
  | some itls, some ctx =>
    if ctx.prefillTokens.length ≠ itls.length then none
    else
      let clean := ((itls.zip ctx.prefillTokens).filter (fun g => g.2 = 0)).map Prod.fst
      if clean.length < 5 then none else some (itls.zip ctx.prefillTokens, median clean)
  | _, _ => none

/-- The tokens and depth of an isolated admission's final chunk, and what it cost. -/
def chunkObs (budget : ℕ) (gaps : List (ℚ × ℕ)) (base : ℚ) (i : ℕ) : Option (ℚ × ℚ × ℚ) :=
  match gaps[i]? with
  | none => none
  | some (gap, prompt) =>
    if prompt = 0 then none
    else
      let finalChunk := (prompt - 1) % budget + 1
      if finalChunk < 256 then none
      else if ((gaps.zipIdx.drop (i - 2)).take (min (i + 3) gaps.length - (i - 2))).any
          (fun g => g.2 ≠ i && 0 < g.1.2) then none
      else
        let d1 : ℚ := prompt
        let d0 : ℚ := (prompt - finalChunk : ℕ)
        some (finalChunk, (d1 * d1 - d0 * d0) / 2, max (gap - base) 0)

def leastSquares2 (obs : List (ℚ × ℚ × ℚ)) : Option (ℚ × ℚ) :=
  let saa := (obs.map (fun o => o.1 * o.1)).sum
  let sab := (obs.map (fun o => o.1 * o.2.1)).sum
  let sbb := (obs.map (fun o => o.2.1 * o.2.1)).sum
  let say := (obs.map (fun o => o.1 * o.2.2)).sum
  let sby := (obs.map (fun o => o.2.1 * o.2.2)).sum
  let det := saa * sbb - sab * sab
  if |det| < 1 / 10 ^ 9 then none
  else some ((sbb * say - sab * sby) / det, (saa * sby - sab * say) / det)

/-- Drop the worst fifth of the observations. -/
def trimObs (fit : ℚ × ℚ) (kept : List (ℚ × ℚ × ℚ)) : List (ℚ × ℚ × ℚ) :=
  (kept.insertionSort (fun x y =>
    |fit.1 * x.1 + fit.2 * x.2.1 - x.2.2| ≤ |fit.1 * y.1 + fit.2 * y.2.1 - y.2.2|)).take
      (kept.length * 4 / 5)

/-- Rounds of fitting and trimming; the fit of the last round. -/
def fitRounds : ℕ → ℚ × ℚ → List (ℚ × ℚ × ℚ) → Option (ℚ × ℚ)
  | 0, fit, _ => some fit
  | rounds + 1, _, kept =>
    if kept.length < 30 then none
    else (leastSquares2 kept).bind (fun fit => fitRounds rounds fit (trimObs fit kept))

def fitChunkCost (records : List TraceRecord) (budget : ℕ) : ChunkCostFit :=
  let obs := (records.filterMap markedGaps).flatMap (fun r =>
    (List.range r.1.length).filterMap (chunkObs (max budget 1) r.1 r.2))
  match fitRounds 4 (0, 0) obs with
  | none => {}
  | some (c0, c1) => if c0 < 0 ∨ c1 < 0 then {} else ⟨c0, c1⟩

/-- The median surcharge of the unmarked gaps near the law's own full-budget prediction. -/
def fitFullStepFloor (records : List TraceRecord) (chunkCost : ChunkCostFit) (budget : ℕ) : ℚ :=
  let lawFull := chunkCost.evalMs (max budget 1) 0
  if lawFull ≤ 0 then 0
  else
    let obs := (records.filterMap markedGaps).flatMap (fun r =>
      ((r.1.filter (fun g => g.2 = 0 ∧ 8 / 10 * lawFull ≤ g.1 - r.2 ∧
        g.1 - r.2 ≤ 25 / 10 * lawFull)).map (fun g => g.1 - r.2)))
    if obs.length < 30 then 0 else median obs

/-! ## The model -/

structure TraceLatency where
  serviceFit : Option (ServiceFit ℚ)
  serviceByPrompt : List (Option ServiceCell)
  itlByConcurrency : List (List ℚ)
  donorsGrid : List (List DonorBucket)
  stallsGrid : List (List (List ℚ))
  kvTransferFallback : KnobLatency
  chunkCost : ChunkCostFit
  fullStepFloorMs : ℚ
  budgetTokens : ℕ
  specTokens : Option ℕ
  outputLens : List ℚ

/-- The first-token times at the lowest concurrency, by uncached tokens. -/
def floorObs (records : List TraceRecord) : List (ℕ × ℚ) :=
  let minConcurrency := (records.map TraceRecord.concurrency).min?.getD 0
  ((records.filter (fun r => r.concurrency = minConcurrency)).map
    (fun r => (max r.uncachedTokens 1, r.ttftMs))).insertionSort
      (fun a b => a.1 < b.1 ∨ a.1 = b.1 ∧ a.2 ≤ b.2)

namespace TraceLatency

/-- What is fitted and pooled from the records. -/
@[simps] def ofRecords (sqrt : ℕ → ℚ) (records : List TraceRecord)
    (kvTransferFallback : KnobLatency) (maxBatchedTokens : ℕ) : TraceLatency where
  serviceFit := fitServiceCurve sqrt (serviceWindows (floorObs records))
  serviceByPrompt := (Pools.ofRecords records).ttftObs.map serviceCell
  itlByConcurrency :=
    (Pools.ofRecords records).itlByConcurrency.map (fun s => s.insertionSort (· ≤ ·))
  donorsGrid := (Pools.ofRecords records).donorsGrid
  stallsGrid := (Pools.ofRecords records).stallsGrid.map (fun row =>
    row.map (fun s => s.insertionSort (· ≤ ·)))
  kvTransferFallback := kvTransferFallback
  chunkCost := fitChunkCost records maxBatchedTokens
  fullStepFloorMs := fitFullStepFloor records (fitChunkCost records maxBatchedTokens)
    maxBatchedTokens
  budgetTokens := max maxBatchedTokens 1
  specTokens := deriveSpecTokens records
  outputLens := (records.map (fun r => ((max r.outputTokens 1 : ℕ) : ℚ))).insertionSort (· ≤ ·)

def fromRecords (sqrt : ℕ → ℚ) (records : List TraceRecord) (kvTransferFallback : KnobLatency)
    (maxBatchedTokens : ℕ) : Except String TraceLatency :=
  if records.isEmpty then .error "trace has no records; cannot build a replay latency model"
  else if (Pools.ofRecords records).itlByConcurrency.all List.isEmpty then
    .error ("trace contains no inter-token latency data (all records are single-token " ++
      "outputs); cannot pace decode from it")
  else .ok (ofRecords sqrt records kvTransferFallback maxBatchedTokens)

theorem fromRecords_eq_ok {sqrt : ℕ → ℚ} {records : List TraceRecord} {kv : KnobLatency}
    {budget : ℕ} {t : TraceLatency} (h : fromRecords sqrt records kv budget = .ok t) :
    t = ofRecords sqrt records kv budget := by
  unfold fromRecords at h
  split_ifs at h
  cases h
  rfl

end TraceLatency

/-- Draw `u` and interpolate between the sorted samples. -/
def sampleInverseCdf (env : Env) (rng : env.Rng) (samples : List ℚ) : ℚ × env.Rng :=
  if samples.length = 1 then (samples.getD 0 0, rng)
  else
    let (u, rng) := env.randomF64 rng
    let pos := u * ((samples.length - 1 : ℕ) : ℚ)
    let lo := pos.floor.toNat
    let hi := min (lo + 1) (samples.length - 1)
    let frac := pos - lo
    (samples.getD lo 0 * (1 - frac) + samples.getD hi 0 * frac, rng)

/-- The gap interpolates, the token count comes from the nearer sample. -/
def sampleStepInverseCdf (env : Env) (rng : env.Rng) (steps : List (ℚ × ℕ)) :
    (ℚ × ℕ) × env.Rng :=
  if steps.length = 1 then (steps.getD 0 (0, 0), rng)
  else
    let (u, rng) := env.randomF64 rng
    let pos := u * ((steps.length - 1 : ℕ) : ℚ)
    let lo := pos.floor.toNat
    let hi := min (lo + 1) (steps.length - 1)
    let frac := pos - lo
    (((steps.getD lo (0, 0)).1 * (1 - frac) + (steps.getD hi (0, 0)).1 * frac,
      if frac < 1 / 2 then (steps.getD lo (0, 0)).2 else (steps.getD hi (0, 0)).2), rng)

/-- The samples of the nearest non-empty concurrency bucket, the lower of two as near. -/
def nearestItl (itlByConcurrency : List (List ℚ)) (cb : ℕ) : Option (List ℚ) :=
  match itlByConcurrency[cb]?.filter (fun s => !s.isEmpty) with
  | some samples => some samples
  | none => ((itlByConcurrency.zipIdx.filter (fun s => !s.1.isEmpty)).argmin
      (fun s => s.2.dist cb)).map Prod.fst

/-- The cell of the nearest prompt bucket that has one, and its distance. -/
def nearestService (serviceByPrompt : List (Option ServiceCell)) (pb : ℕ) :
    Option (ServiceCell × ℕ) :=
  ((serviceByPrompt.zipIdx.filterMap (fun c => c.1.map (fun cell => (cell, c.2)))).argmin
    (fun c => c.2.dist pb)).map (fun c => (c.1, c.2.dist pb))

namespace TraceLatency

variable (env : Env) (t : TraceLatency)

/-- Prefill service time: the fitted curve, or a draw from the nearest prompt bucket. -/
def firstTokenDelay (rng : env.Rng) (ctx : FirstTokenCtx) : Option (Duration × env.Rng) :=
  if ctx.doRemotePrefill then some (t.kvTransferFallback.firstTokenDelay env rng ctx)
  else
    let uncached := ctx.numPromptTokens - ctx.numCachedTokens
    match t.serviceFit with
    | some fit =>
        (fromSecsF64 (fit.evalMs ((max uncached 1 : ℕ) : ℚ) / 1000)).map (fun d => (d, rng))
    | none =>
      match nearestService t.serviceByPrompt (promptBucket uncached) with
      | none => some (0, rng)
      | some (cell, dist) =>
          let (ms, rng) := sampleInverseCdf env rng cell.samples
          (fromSecsF64 (ms * cell.scale uncached dist / 1000)).map (fun d => (d, rng))

def interTokenDelay (rng : env.Rng) (numRunning : ℕ) : Option (Duration × env.Rng) :=
  match nearestItl t.itlByConcurrency (concurrencyBucket numRunning) with
  | none => some (0, rng)
  | some samples =>
      let (ms, rng) := sampleInverseCdf env rng samples
      (fromSecsF64 (ms / 1000)).map (fun d => (d, rng))

/-- The donor pool of a request's context, regime and the current concurrency. -/
def donorBucket (pacing : DecodePacing) (cb : ℕ) : Option DonorBucket :=
  Grid.nearest t.donorsGrid (pacing.contextBucket + pacing.churn.cellOffset) cb
    DonorBucket.hasDonors

/-- The donor the request is pinned to, or one picked now and kept, its index cut to 32 bits. -/
def pickDonor (bucket : DonorBucket) (rng : env.Rng) (pacing : DecodePacing) (cb : ℕ) :
    ℕ × env.Rng × DecodePacing :=
  match (pacing.donors[cb]?).join with
  | some i => (i, rng, pacing)
  | none =>
      let (i, rng) := bucket.pick env rng
      (i, rng, { pacing with donors := pacing.donors.set cb (some (i % 2 ^ 32)) })

/-- The donor that the next step without a pending stall is drawn from. -/
def drawDonor (rng : env.Rng) (numRunning : ℕ) (pacing : DecodePacing) :
    Option (Donor × env.Rng × DecodePacing) :=
  let cb := concurrencyBucket numRunning
  (t.donorBucket pacing cb).bind (fun bucket =>
    let (i, rng, pacing) := pickDonor env bucket rng pacing cb
    (bucket.donors[i]?).map (fun donor => (donor, rng, pacing)))

def stepOf (rng : env.Rng) (pacing : DecodePacing) (donor : Donor) :
    Option (StepDraw × env.Rng × DecodePacing) :=
  let ((ms, tokens), rng) := sampleStepInverseCdf env rng donor.steps
  (fromSecsF64 (ms / 1000)).map (fun delay => (⟨delay, tokens⟩, rng, pacing))

def cleanStep (rng : env.Rng) (numRunning : ℕ) (pacing : DecodePacing) :
    Option (StepDraw × env.Rng × DecodePacing) :=
  match t.donorBucket pacing (concurrencyBucket numRunning) with
  | none => (t.interTokenDelay env rng numRunning).map (fun d => (⟨d.1, 1⟩, d.2, pacing))
  | some _ => (t.drawDonor env rng numRunning pacing).bind (fun d => stepOf env d.2.1 d.2.2 d.1)

/-- A noted prefill admission is drawn from the stalls once; other steps from the donor. -/
def pacedStep (rng : env.Rng) (numRunning : ℕ) (pacing : DecodePacing) :
    Option (StepDraw × env.Rng × DecodePacing) :=
  match pacing.pendingStall with
  | none => t.cleanStep env rng numRunning pacing
  | some prefillTokens =>
    let pacing := { pacing with pendingStall := none }
    match Grid.nearest t.stallsGrid (promptBucket prefillTokens) (concurrencyBucket numRunning)
        (fun cell => !cell.isEmpty) with
    | none => t.cleanStep env rng numRunning pacing
    | some stalls =>
        let (ms, rng) := sampleInverseCdf env rng stalls
        (fromSecsF64 (ms / 1000)).map (fun delay => (⟨delay, 1⟩, rng, pacing))

def budgetFullChunkFloor : Option Duration := fromSecsF64 (t.fullStepFloorMs / 1000)

def prefillChunkCost (chunkTokens kvDepth : ℕ) : Option Duration :=
  fromSecsF64 (max (t.chunkCost.evalMs chunkTokens kvDepth) 0 / 1000)

def sampleOutputLen (rng : env.Rng) : Option ℕ × env.Rng :=
  if t.outputLens.isEmpty then (none, rng)
  else
    let (x, rng) := sampleInverseCdf env rng t.outputLens
    (some (max (x + 1 / 2).floor.toNat 1), rng)

/-- What the chunk steps of an isolated request are taken to charge: full chunks at least the
saturated-step premium, the last one the law. -/
def charged : ℕ → ℕ → ℕ → Option Duration
  | 0, _, _ => some 0
  | fuel + 1, left, depth =>
    if t.budgetTokens < left then
      (t.prefillChunkCost t.budgetTokens depth).bind (fun cost =>
        t.budgetFullChunkFloor.bind (fun floor =>
          (charged fuel (left - t.budgetTokens) (depth + t.budgetTokens)).bind
            (addDuration (max cost floor))))
    else t.prefillChunkCost left depth

/-- The first-token delay less what the step stream charges. -/
def firstTokenOverhead (rng : env.Rng) (ctx : FirstTokenCtx) : Option (Duration × env.Rng) :=
  (t.firstTokenDelay env rng ctx).bind (fun total =>
    if ctx.doRemotePrefill then some total
    else
      let left := max (ctx.numPromptTokens - ctx.numCachedTokens) 1
      (t.charged (left + 1) left ctx.numCachedTokens).map (fun charged =>
        (total.1 - charged, total.2)))

/-- The trait instance: the engine's calls are answered as `t` answers them. A call at which `t`
panics ends the source's engine, and nothing is said of its answer. -/
structure Answers (latency : LatencyModel env.Rng) : Prop where
  pacedStep : ∀ rng numRunning pacing, ∀ drawn ∈ t.pacedStep env rng numRunning pacing,
    latency.pacedStep rng numRunning pacing = drawn
  prefillChunkCost : ∀ chunkTokens kvDepth, ∀ cost ∈ t.prefillChunkCost chunkTokens kvDepth,
    latency.prefillChunkCost chunkTokens kvDepth = cost
  budgetFullChunkFloor : ∀ floor ∈ t.budgetFullChunkFloor, latency.budgetFullChunkFloor = floor
  firstTokenOverhead : ∀ rng ctx, ∀ offset ∈ t.firstTokenOverhead env rng ctx,
    latency.firstTokenOverhead rng ctx = offset
  specTokens : latency.specTokens = t.specTokens
  sampleOutputLen : latency.sampleOutputLen = t.sampleOutputLen env

end TraceLatency

/-! ## The pools -/

theorem promptBucket_lt (tokens : ℕ) : promptBucket tokens < numPromptBuckets := by
  have hle : (promptEdges.takeWhile (fun edge => edge ≤ tokens)).length ≤ promptEdges.length :=
    (List.takeWhile_sublist _).length_le
  have hlength : promptEdges.length = 11 := rfl
  rw [promptBucket, numPromptBuckets]
  omega

theorem concurrencyBucket_lt (concurrency : ℕ) :
    concurrencyBucket concurrency < numConcurrencyBuckets := by
  unfold concurrencyBucket
  cases h : concurrencyRanges.findIdx? (fun r => r.1 ≤ concurrency && concurrency ≤ r.2) with
  | none => decide
  | some i =>
      obtain ⟨hlt, -⟩ := List.findIdx?_eq_some_iff_getElem.mp h
      exact hlt

namespace Pools

theorem ofRecords_snoc (records : List TraceRecord) (r : TraceRecord) :
    ofRecords (records ++ [r]) = (ofRecords records).add r := by
  rw [ofRecords, ofRecords, List.foldl_append, List.foldl_cons, List.foldl_nil]

/-- The donors that the records give to one cell. -/
def donorsAt (records : List TraceRecord) (p : ℕ × ℕ) : List (Donor × ℚ) :=
  (records.filter (fun r => r.donorCell = p)).filterMap TraceRecord.donor

def bucketOf (donors : List (Donor × ℚ)) : DonorBucket :=
  donors.foldl (fun bucket donor => bucket.push donor.1 donor.2) .empty

theorem bucketOf_snoc (donors : List (Donor × ℚ)) (donor : Donor × ℚ) :
    bucketOf (donors ++ [donor]) = (bucketOf donors).push donor.1 donor.2 := by
  rw [bucketOf, bucketOf, List.foldl_append, List.foldl_cons, List.foldl_nil]

theorem bucketOf_donors (donors : List (Donor × ℚ)) :
    (bucketOf donors).donors = donors.map Prod.fst := by
  induction donors using List.reverseRecOn with
  | nil => rfl
  | append_singleton donors donor ih =>
      rw [bucketOf_snoc, List.map_append, ← ih]
      rfl

/-- A cell of the donor grid holds what the records give to it. -/
theorem donorsGrid_cell (records : List TraceRecord) (p : ℕ × ℕ) :
    Grid.cell (ofRecords records).donorsGrid p.1 p.2 =
      if p.1 < 2 * numPromptBuckets ∧ p.2 < numConcurrencyBuckets then
        some (bucketOf (donorsAt records p)) else none := by
  induction records using List.reverseRecOn with
  | nil => exact Grid.cell_replicate _ _ p.1 p.2 DonorBucket.empty
  | append_singleton records r ih =>
      have hsplit : donorsAt (records ++ [r]) p =
          donorsAt records p ++ donorsAt [r] p := by
        rw [donorsAt, List.filter_append, List.filterMap_append]
        rfl
      rw [ofRecords_snoc, hsplit]
      change Grid.cell (r.donor.elim _ _) p.1 p.2 = _
      cases hdonor : r.donor with
      | none =>
          have hnil : donorsAt [r] p = [] := by
            unfold donorsAt
            by_cases hp : r.donorCell = p
            · simp [hp, hdonor]
            · simp [hp]
          rw [hnil, List.append_nil]
          exact ih
      | some donor =>
          rw [Option.elim_some, Grid.cell_modifyCell, ih]
          by_cases hp : r.donorCell = p
          · have hone : donorsAt [r] p = [donor] := by simp [donorsAt, hp, hdonor]
            rw [hone, bucketOf_snoc, if_pos ⟨by rw [hp], by rw [hp]⟩]
            split_ifs <;> rfl
          · have hnil : donorsAt [r] p = [] := by simp [donorsAt, hp]
            have hne : ¬ (p.1 = r.donorCell.1 ∧ p.2 = r.donorCell.2) :=
              fun h => hp (Prod.ext h.1 h.2).symm
            rw [hnil, List.append_nil, if_neg hne]

end Pools

theorem TraceRecord.donor_churn {record : TraceRecord} {donor : Donor × ℚ}
    (h : record.donor = some donor) : donor.1.churn = recordChurn record := by
  unfold TraceRecord.donor at h
  split at h
  · dsimp only at h
    split_ifs at h
    cases h
    rfl
  · obtain ⟨_, _, rfl⟩ := Option.map_eq_some_iff.mp h
    rfl

/-! ## Pacing -/

/-- The pacing of a request decoding under the model: fresh, with a prefill noted, or after a
draw. -/
inductive Paced (env : Env) (t : TraceLatency) : DecodePacing → Prop
  | fresh (promptTokens : ℕ) (churn : Churn) : Paced env t (.forPrompt promptTokens churn)
  | noted {pacing : DecodePacing} (h : Paced env t pacing) (promptTokens : ℕ) :
      Paced env t { pacing with pendingStall := some (max (pacing.pendingStall.getD 0) promptTokens) }
  | drawn {pacing : DecodePacing} (h : Paced env t pacing) {rng rng' : env.Rng} {numRunning : ℕ}
      {draw : StepDraw} {pacing' : DecodePacing}
      (hdraw : t.pacedStep env rng numRunning pacing = some (draw, rng', pacing')) :
      Paced env t pacing'

end VllmVcr
