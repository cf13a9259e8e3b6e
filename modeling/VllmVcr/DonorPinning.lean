import VllmVcr.LatencyRange

/-!
# Pinned donors

The calls of one pacing, each with where its step was drawn from: the stalls, a donor of the pool
nearest its cell, or the gaps pooled by concurrency.
-/

namespace VllmVcr

open Pools

/-- Where a draw came from. -/
inductive DrawSource where
  | stall
  | donor (index : ℕ)
  | pooled
deriving DecidableEq, Repr

namespace TraceLatency

variable (env : Env) (t : TraceLatency)

/-- The stalls that a pending admission is drawn from. -/
def pendingStalls (numRunning : ℕ) (pacing : DecodePacing) : Option (List ℚ) :=
  pacing.pendingStall.bind (fun prefillTokens =>
    Grid.nearest t.stallsGrid (promptBucket prefillTokens) (concurrencyBucket numRunning)
      (fun cell => !cell.isEmpty))

/-- Where the next draw comes from. -/
def drawSource (rng : env.Rng) (numRunning : ℕ) (pacing : DecodePacing) : DrawSource :=
  if (t.pendingStalls numRunning pacing).isSome then .stall
  else match t.donorBucket pacing (concurrencyBucket numRunning) with
    | none => .pooled
    | some bucket => .donor (pickDonor env bucket rng pacing (concurrencyBucket numRunning)).1

/-- A step of one token, after a gap drawn from samples. -/
def sampledStep (rng : env.Rng) (samples : List ℚ) (pacing : DecodePacing) :
    Option (StepDraw × env.Rng × DecodePacing) :=
  let (ms, rng) := sampleInverseCdf env rng samples
  (fromSecsF64 (ms / 1000)).map (fun delay => (⟨delay, 1⟩, rng, pacing))

end TraceLatency

/-- A call of `paced_step`. -/
structure PacedCall (env : Env) where
  rng : env.Rng
  numRunning : ℕ
  pacing : DecodePacing

namespace PacedCall

variable {env : Env} (t : TraceLatency) (records : List TraceRecord) (c : PacedCall env)

def bucket : ℕ := concurrencyBucket c.numRunning

def step : Option (StepDraw × env.Rng × DecodePacing) :=
  t.pacedStep env c.rng c.numRunning c.pacing

def source : DrawSource := t.drawSource env c.rng c.numRunning c.pacing

/-- The call's step is drawn from this source: from the stalls of the nearest cell that has some,
from the steps of a donor of the pool that the bucket resolves to, or from the gaps that the records
give the nearest concurrency bucket with gaps. -/
inductive DrawsFrom : DrawSource → Prop
  | stall {prefillTokens : ℕ} {stalls : List ℚ}
      (hpending : c.pacing.pendingStall = some prefillTokens)
      (hnear : Grid.nearest t.stallsGrid (promptBucket prefillTokens) c.bucket
        (fun cell => !cell.isEmpty) = some stalls)
      (hstep : c.step t = TraceLatency.sampledStep env c.rng stalls
        { c.pacing with pendingStall := none }) : DrawsFrom .stall
  | donor {pool : DonorBucket} {i : ℕ} {donor : Donor} {rng : env.Rng} {pacing : DecodePacing}
      (hpool : t.donorBucket c.pacing c.bucket = some pool) (hdonor : pool.donors[i]? = some donor)
      (hsteps : donor.steps ≠ []) (hstep : c.step t = TraceLatency.stepOf env rng pacing donor) :
      DrawsFrom (.donor i)
  | pooled {i : ℕ} (hgaps : gapsAt records i ≠ [])
      (hnear : ∀ j : ℕ, gapsAt records j ≠ [] → i.dist c.bucket ≤ j.dist c.bucket)
      (htaken : nearestItl t.itlByConcurrency c.bucket =
        some ((gapsAt records i).insertionSort (· ≤ ·)))
      (hstep : c.step t = TraceLatency.sampledStep env c.rng
        ((gapsAt records i).insertionSort (· ≤ ·)) { c.pacing with pendingStall := none }) :
      DrawsFrom .pooled

end PacedCall

/-- The calls on one pacing so far, from a request's start. -/
inductive PacedRun (env : Env) (t : TraceLatency) : DecodePacing → List (PacedCall env) → Prop
  | fresh (promptTokens : ℕ) (churn : Churn) : PacedRun env t (.forPrompt promptTokens churn) []
  | noted {pacing : DecodePacing} {calls : List (PacedCall env)} (h : PacedRun env t pacing calls)
      (promptTokens : ℕ) :
      PacedRun env t
        { pacing with pendingStall := some (max (pacing.pendingStall.getD 0) promptTokens) } calls
  | drawn {c : PacedCall env} {calls : List (PacedCall env)} (h : PacedRun env t c.pacing calls)
      {draw : StepDraw} {rng' : env.Rng} {pacing' : DecodePacing}
      (hdraw : c.step t = some (draw, rng', pacing')) : PacedRun env t pacing' (calls ++ [c])

/-! ## Donors have steps -/

theorem TraceRecord.donor_steps_ne_nil {record : TraceRecord} {donor : Donor × ℚ}
    (h : record.donor = some donor) : donor.1.steps ≠ [] := by
  unfold TraceRecord.donor at h
  split at h
  · dsimp only at h
    split_ifs at h with hweight
    cases h
    intro hnil
    dsimp only at hnil
    rw [hnil] at hweight
    exact lt_irrefl _ hweight
  · obtain ⟨_, _, rfl⟩ := Option.map_eq_some_iff.mp h
    exact List.cons_ne_nil _ _

section Model

variable {sqrt : ℕ → ℚ} {records : List TraceRecord} {kv : KnobLatency} {budget : ℕ}
  {t : TraceLatency} (hfit : TraceLatency.fromRecords sqrt records kv budget = .ok t)

include hfit

/-- No pool is found exactly when no record gives a donor. -/
theorem donorBucket_eq_none_iff {pacing : DecodePacing} {cb : ℕ} :
    t.donorBucket pacing cb = none ↔ ∀ r ∈ records, r.donor = none := by
  constructor
  · intro hnone r hr
    by_contra hgives
    obtain ⟨bucket, hcell, hhas⟩ :=
      cell_of_donating hfit hr (Option.isSome_iff_ne_none.mpr hgives)
    have hsome : (t.donorBucket pacing cb).isSome :=
      Grid.nearest_isSome_iff.mpr ⟨r.donorCell, bucket, hcell, hhas⟩
    rw [hnone] at hsome
    cases hsome
  · intro hnone
    cases hbucket : t.donorBucket pacing cb with
    | none => rfl
    | some bucket =>
      obtain ⟨_, -, hdata, -⟩ := Grid.nearest_spec hbucket
      have hne : bucket.donors ≠ [] := by simpa [DonorBucket.hasDonors] using hdata
      obtain ⟨donor, hdonor⟩ := List.exists_mem_of_ne_nil _ hne
      obtain ⟨r, hr, given, hgives, -⟩ := donors_given hfit hbucket hdonor
      rw [hnone r hr] at hgives
      cases hgives

end Model

/-! ## One draw -/

section Draws

variable {env : Env} {t : TraceLatency} {pacing pacing' : DecodePacing} {rng rng' : env.Rng}
  {numRunning : ℕ} {draw : StepDraw}

theorem sampledStep_pacing {samples : List ℚ}
    (h : TraceLatency.sampledStep env rng samples pacing = some (draw, rng', pacing')) :
    pacing' = pacing := by
  obtain ⟨_, -, heq⟩ := Option.map_eq_some_iff.mp h
  cases heq
  rfl

theorem pacedStep_stall (hsource : t.drawSource env rng numRunning pacing = .stall) :
    ∃ prefillTokens stalls, pacing.pendingStall = some prefillTokens ∧
      Grid.nearest t.stallsGrid (promptBucket prefillTokens) (concurrencyBucket numRunning)
        (fun cell => !cell.isEmpty) = some stalls ∧
      t.pacedStep env rng numRunning pacing =
        TraceLatency.sampledStep env rng stalls { pacing with pendingStall := none } := by
  unfold TraceLatency.drawSource at hsource
  split_ifs at hsource with hstalls
  · obtain ⟨stalls, hstalls⟩ := Option.isSome_iff_exists.mp hstalls
    obtain ⟨prefillTokens, hpending, hnearest⟩ := Option.bind_eq_some_iff.mp hstalls
    refine ⟨prefillTokens, stalls, hpending, hnearest, ?_⟩
    unfold TraceLatency.pacedStep
    rw [hpending]
    dsimp only
    rw [hnearest]
    rfl
  · split at hsource
    · cases hsource
    · cases hsource

/-- Any other draw is a clean step. -/
theorem pacedStep_clean (hsource : t.drawSource env rng numRunning pacing ≠ .stall) :
    t.pacedStep env rng numRunning pacing =
      t.cleanStep env rng numRunning { pacing with pendingStall := none } := by
  have hstalls : t.pendingStalls numRunning pacing = none := by
    by_contra hsome
    refine hsource ?_
    unfold TraceLatency.drawSource
    rw [if_pos (Option.isSome_iff_ne_none.mpr hsome)]
  unfold TraceLatency.pacedStep
  cases hpending : pacing.pendingStall with
  | none =>
    have hsame : { pacing with pendingStall := none } = pacing := by
      cases pacing
      cases hpending
      rfl
    rw [hsame]
  | some prefillTokens =>
    unfold TraceLatency.pendingStalls at hstalls
    rw [hpending, Option.bind_some] at hstalls
    dsimp only
    rw [hstalls]

theorem drawSource_pooled (h : t.drawSource env rng numRunning pacing = .pooled) :
    t.donorBucket pacing (concurrencyBucket numRunning) = none := by
  unfold TraceLatency.drawSource at h
  split_ifs at h
  split at h
  · assumption
  · cases h

/-- Without a donor, a step takes an inter-token delay. -/
theorem pacedStep_pooled (hsource : t.drawSource env rng numRunning pacing = .pooled)
    {samples : List ℚ}
    (hnear : nearestItl t.itlByConcurrency (concurrencyBucket numRunning) = some samples) :
    t.pacedStep env rng numRunning pacing =
      TraceLatency.sampledStep env rng samples { pacing with pendingStall := none } := by
  have hnone := drawSource_pooled hsource
  change t.donorBucket { pacing with pendingStall := none } _ = none at hnone
  rw [pacedStep_clean (by simp [hsource])]
  simp only [TraceLatency.cleanStep, hnone, TraceLatency.interTokenDelay, hnear,
    TraceLatency.sampledStep, Option.map_map]
  rfl

theorem drawSource_donor {i : ℕ} (h : t.drawSource env rng numRunning pacing = .donor i) :
    ∃ bucket, t.donorBucket pacing (concurrencyBucket numRunning) = some bucket ∧
      (TraceLatency.pickDonor env bucket rng pacing (concurrencyBucket numRunning)).1 = i := by
  unfold TraceLatency.drawSource at h
  split_ifs at h
  split at h
  · cases h
  · next bucket hbucket => exact ⟨bucket, hbucket, DrawSource.donor.inj h⟩

/-- The pinned index is drawn, or one is drawn and its low bits are pinned. -/
theorem pickDonor_pins (bucket : DonorBucket) (rng : env.Rng) (pacing : DecodePacing) (cb : ℕ) :
    (∃ i, (pacing.donors[cb]?).join = some i ∧
      TraceLatency.pickDonor env bucket rng pacing cb = (i, rng, pacing)) ∨
    ((pacing.donors[cb]?).join = none ∧ ∃ i rng',
      TraceLatency.pickDonor env bucket rng pacing cb =
        (i, rng', { pacing with donors := pacing.donors.set cb (some (i % 2 ^ 32)) })) := by
  unfold TraceLatency.pickDonor
  cases hpinned : (pacing.donors[cb]?).join with
  | some i => exact .inl ⟨i, rfl, rfl⟩
  | none => exact .inr ⟨rfl, _, _, rfl⟩

theorem pickDonor_unstalled (bucket : DonorBucket) (rng : env.Rng) (pacing : DecodePacing)
    (cb : ℕ) (stall : Option ℕ) :
    TraceLatency.pickDonor env bucket rng { pacing with pendingStall := stall } cb =
      ((TraceLatency.pickDonor env bucket rng pacing cb).1,
        (TraceLatency.pickDonor env bucket rng pacing cb).2.1,
        { (TraceLatency.pickDonor env bucket rng pacing cb).2.2 with pendingStall := stall }) := by
  unfold TraceLatency.pickDonor
  dsimp only
  split <;> rfl

theorem cleanStep_of_pick {bucket : DonorBucket} {i : ℕ} {donor : Donor}
    (hbucket : t.donorBucket pacing (concurrencyBucket numRunning) = some bucket)
    (hpick : TraceLatency.pickDonor env bucket rng pacing (concurrencyBucket numRunning) =
      (i, rng', pacing'))
    (hdonor : bucket.donors[i]? = some donor) :
    t.cleanStep env rng numRunning pacing = TraceLatency.stepOf env rng' pacing' donor := by
  unfold TraceLatency.cleanStep TraceLatency.drawDonor
  simp only [hbucket, Option.bind_some, hpick, hdonor, Option.map_some]

/-- A draw from a donor. -/
theorem pacedStep_donor (hpinned : PinsDonors t pacing) {i : ℕ}
    (hsource : t.drawSource env rng numRunning pacing = .donor i) :
    ∃ bucket donor rng' pacing',
      t.donorBucket pacing (concurrencyBucket numRunning) = some bucket ∧
      bucket.donors[i]? = some donor ∧
      TraceLatency.pickDonor env bucket rng pacing (concurrencyBucket numRunning) =
        (i, rng', pacing') ∧
      t.pacedStep env rng numRunning pacing =
        TraceLatency.stepOf env rng' { pacing' with pendingStall := none } donor := by
  obtain ⟨bucket, hbucket, hi⟩ := drawSource_donor hsource
  obtain ⟨hlt, -⟩ := pickDonor_cases hpinned hbucket rng
  have hstalled := pickDonor_unstalled bucket rng pacing (concurrencyBucket numRunning) none
  cases hpick : TraceLatency.pickDonor env bucket rng pacing (concurrencyBucket numRunning) with
  | mk j rest =>
    obtain ⟨rng', pacing'⟩ := rest
    rw [hpick] at hi hlt hstalled
    dsimp only at hi hlt hstalled
    subst hi
    refine ⟨bucket, bucket.donors[j], rng', pacing', hbucket, List.getElem?_eq_getElem hlt,
      hpick, ?_⟩
    rw [pacedStep_clean (by simp [hsource])]
    exact cleanStep_of_pick hbucket hstalled (List.getElem?_eq_getElem hlt)

/-- The donors a draw leaves pinned: at most its own bucket's is new. -/
theorem pacedStep_donors (hpinned : PinsDonors t pacing)
    (h : t.pacedStep env rng numRunning pacing = some (draw, rng', pacing')) :
    pacing'.contextBucket = pacing.contextBucket ∧ pacing'.churn = pacing.churn ∧
      (pacing'.donors = pacing.donors ∧ (∀ i, t.drawSource env rng numRunning pacing = .donor i →
          (pacing.donors[concurrencyBucket numRunning]?).join = some i) ∨
        (pacing.donors[concurrencyBucket numRunning]?).join = none ∧
        ∃ i, t.drawSource env rng numRunning pacing = .donor i ∧
          pacing'.donors =
            pacing.donors.set (concurrencyBucket numRunning) (some (i % 2 ^ 32))) := by
  cases hsource : t.drawSource env rng numRunning pacing with
  | stall =>
    obtain ⟨_, _, -, -, hstep⟩ := pacedStep_stall hsource
    rw [sampledStep_pacing (hstep.symm.trans h)]
    exact ⟨rfl, rfl, .inl ⟨rfl, fun i hi => by cases hi⟩⟩
  | pooled =>
    have hnone := drawSource_pooled hsource
    change t.donorBucket { pacing with pendingStall := none } _ = none at hnone
    rw [pacedStep_clean (by simp [hsource])] at h
    unfold TraceLatency.cleanStep at h
    rw [hnone] at h
    obtain ⟨_, -, heq⟩ := Option.map_eq_some_iff.mp h
    cases heq
    exact ⟨rfl, rfl, .inl ⟨rfl, fun i hi => by cases hi⟩⟩
  | donor i =>
    obtain ⟨bucket, donor, rng₁, pacing₁, -, -, hpick, hstep⟩ := pacedStep_donor hpinned hsource
    rw [hstep] at h
    rw [stepOf_pacing h]
    rcases pickDonor_pins bucket rng pacing (concurrencyBucket numRunning) with
      ⟨j, hj, hkept⟩ | ⟨hfree, j, rng₂, hset⟩
    · rw [hpick] at hkept
      cases hkept
      exact ⟨rfl, rfl, .inl ⟨rfl, fun k hk => DrawSource.donor.inj hk ▸ hj⟩⟩
    · rw [hpick] at hset
      cases hset
      exact ⟨rfl, rfl, .inr ⟨hfree, _, rfl, rfl⟩⟩

end Draws

/-! ## Runs -/

/-- The pools depend on what a pacing never changes. -/
theorem donorBucket_congr {t : TraceLatency} {pacing pacing' : DecodePacing}
    (hcontext : pacing'.contextBucket = pacing.contextBucket)
    (hchurn : pacing'.churn = pacing.churn) (cb : ℕ) :
    t.donorBucket pacing' cb = t.donorBucket pacing cb := by
  unfold TraceLatency.donorBucket
  rw [hcontext, hchurn]

section Calls

variable {env : Env} {sqrt : ℕ → ℚ} {records : List TraceRecord} {kv : KnobLatency} {budget : ℕ}
  {t : TraceLatency}

/-- A call draws from its source. -/
theorem PacedCall.drawsFrom (hfit : TraceLatency.fromRecords sqrt records kv budget = .ok t)
    {c : PacedCall env} (hpinned : PinsDonors t c.pacing) :
    c.DrawsFrom t records (c.source t) := by
  cases hsource : c.source t with
  | stall =>
    obtain ⟨prefillTokens, stalls, hpending, hnear, hstep⟩ := pacedStep_stall hsource
    exact .stall hpending hnear hstep
  | donor i =>
    obtain ⟨pool, donor, rng', pacing', hpool, hdonor, -, hstep⟩ := pacedStep_donor hpinned hsource
    obtain ⟨r, -, given, hgives, rfl⟩ := donors_given hfit hpool (List.mem_of_getElem? hdonor)
    exact .donor hpool hdonor (TraceRecord.donor_steps_ne_nil hgives) hstep
  | pooled =>
    obtain ⟨samples, hnear⟩ := itl_found hfit c.bucket
    have hstep := pacedStep_pooled hsource hnear
    obtain ⟨i, rfl, hgaps, hleast⟩ := itl_nearest hfit hnear
    exact .pooled hgaps hleast hnear hstep

end Calls

section Runs

variable {env : Env} {t : TraceLatency} {pacing : DecodePacing} {calls : List (PacedCall env)}

theorem PacedRun.paced (h : PacedRun env t pacing calls) : Paced env t pacing := by
  induction h with
  | fresh promptTokens churn => exact .fresh promptTokens churn
  | noted _ promptTokens ih => exact ih.noted promptTokens
  | drawn _ hdraw ih => exact ih.drawn hdraw

theorem PacedRun.paced_calls (h : PacedRun env t pacing calls) :
    ∀ c ∈ calls, Paced env t c.pacing := by
  induction h with
  | fresh => simp
  | noted _ _ ih => exact ih
  | drawn h _ ih =>
    intro c hc
    rcases List.mem_append.mp hc with hold | hnew
    · exact ih c hold
    · obtain rfl := List.mem_singleton.mp hnew
      exact h.paced

/-- What the calls so far say about the pinned donors. -/
structure DonorsPinned (t : TraceLatency) (pacing : DecodePacing) (calls : List (PacedCall env)) :
    Prop where
  slots : pacing.donors.length = numConcurrencyBuckets
  pools : ∀ c ∈ calls, ∀ cb, t.donorBucket c.pacing cb = t.donorBucket pacing cb
  pooled : ∀ c ∈ calls, c.source t ≠ .stall →
    (c.source t = .pooled ↔ t.donorBucket pacing c.bucket = none)
  pinned : ∀ c ∈ calls, ∀ pool, c.source t ≠ .stall → t.donorBucket pacing c.bucket = some pool →
    pool.donors.length ≤ 2 ^ 32 →
      ∃ i, c.source t = .donor i ∧ (pacing.donors[c.bucket]?).join = some i

section Draw

variable {c : PacedCall env} {rng' : env.Rng} {drawn : StepDraw} {pacing' : DecodePacing}

theorem PacedCall.source_pooled_iff (hstall : c.source t ≠ .stall) :
    c.source t = .pooled ↔ t.donorBucket c.pacing c.bucket = none := by
  constructor
  · exact drawSource_pooled
  · intro hnone
    unfold PacedCall.bucket at hnone
    unfold PacedCall.source TraceLatency.drawSource at hstall ⊢
    split_ifs at hstall ⊢ with hstalls
    · exact absurd rfl hstall
    · rw [hnone]

/-- A draw leaves every donor that is pinned. -/
theorem PacedCall.keeps_pinned (hpins : PinsDonors t c.pacing)
    (hdraw : c.step t = some (drawn, rng', pacing')) {cb i : ℕ}
    (hpinned : (c.pacing.donors[cb]?).join = some i) : (pacing'.donors[cb]?).join = some i := by
  obtain ⟨-, -, ⟨hsame, -⟩ | ⟨hfree, j, -, hset⟩⟩ := pacedStep_donors hpins hdraw
  · rwa [hsame]
  · have hne : concurrencyBucket c.numRunning ≠ cb := by
      rintro rfl
      rw [hfree] at hpinned
      cases hpinned
    rwa [hset, List.getElem?_set_ne hne]

theorem PacedCall.pins_drawn (hpins : PinsDonors t c.pacing)
    (hslots : c.pacing.donors.length = numConcurrencyBuckets)
    (hdraw : c.step t = some (drawn, rng', pacing')) {pool : DonorBucket}
    (hpool : t.donorBucket c.pacing c.bucket = some pool) (hlength : pool.donors.length ≤ 2 ^ 32)
    {i : ℕ} (hsource : c.source t = .donor i) : (pacing'.donors[c.bucket]?).join = some i := by
  obtain ⟨pool', hpool', hi⟩ := drawSource_donor hsource
  obtain rfl : pool = pool' := Option.some.inj (hpool.symm.trans hpool')
  obtain ⟨hlt, -⟩ := pickDonor_cases hpins hpool c.rng
  obtain ⟨-, -, ⟨hsame, hkept⟩ | ⟨-, j, hj, hset⟩⟩ := pacedStep_donors hpins hdraw
  · rw [hsame]
    exact hkept i hsource
  · obtain rfl := DrawSource.donor.inj (hj.symm.trans hsource)
    have hcb : c.bucket < numConcurrencyBuckets := concurrencyBucket_lt c.numRunning
    rw [PacedCall.bucket] at hcb hlt ⊢
    rw [hset, List.getElem?_set_self (by rw [hslots]; exact hcb), Option.join_some,
      Nat.mod_eq_of_lt (by omega)]

/-- One draw more. -/
theorem DonorsPinned.draw (hpins : PinsDonors t c.pacing) (h : DonorsPinned t c.pacing calls)
    (hdraw : c.step t = some (drawn, rng', pacing')) : DonorsPinned t pacing' (calls ++ [c]) := by
  obtain ⟨hcontext, hchurn, hdonors⟩ := pacedStep_donors hpins hdraw
  have hslots : pacing'.donors.length = numConcurrencyBuckets := by
    rcases hdonors with ⟨hsame, -⟩ | ⟨-, i, -, hset⟩
    · rw [hsame, h.slots]
    · rw [hset, List.length_set, h.slots]
  refine ⟨hslots, fun d hd cb => ?_, fun d hd hstall => ?_,
    fun d hd pool hstall hpool hlength => ?_⟩
  · rw [donorBucket_congr hcontext hchurn]
    rcases List.mem_append.mp hd with hold | hnew
    · exact h.pools d hold cb
    · rw [List.mem_singleton.mp hnew]
  · rw [donorBucket_congr hcontext hchurn]
    rcases List.mem_append.mp hd with hold | hnew
    · exact h.pooled d hold hstall
    · obtain rfl := List.mem_singleton.mp hnew
      exact PacedCall.source_pooled_iff hstall
  · rw [donorBucket_congr hcontext hchurn] at hpool
    rcases List.mem_append.mp hd with hold | hnew
    · obtain ⟨i, hi, hpinned⟩ := h.pinned d hold pool hstall hpool hlength
      exact ⟨i, hi, PacedCall.keeps_pinned hpins hdraw hpinned⟩
    · obtain rfl := List.mem_singleton.mp hnew
      cases hsource : d.source t with
      | stall => exact absurd hsource hstall
      | pooled =>
        rw [PacedCall.bucket, drawSource_pooled hsource] at hpool
        cases hpool
      | donor i =>
        exact ⟨i, rfl, PacedCall.pins_drawn hpins h.slots hdraw hpool hlength hsource⟩

end Draw

theorem PacedRun.pins (h : PacedRun env t pacing calls) : DonorsPinned t pacing calls := by
  induction h with
  | fresh promptTokens churn => exact ⟨List.length_replicate, by simp, by simp, by simp⟩
  | noted _ promptTokens ih => exact ⟨ih.slots, ih.pools, ih.pooled, ih.pinned⟩
  | drawn h hdraw ih => exact ih.draw h.paced.pinned hdraw

end Runs

/-- After any calls the pinned indices are in range; every call, and the next one, draws from its
source, whose donor has steps; and the draws of one concurrency bucket that met no stall have one
source: a donor of one pool, or without donors in the trace the pooled gaps. -/
theorem pinnedDonors_stable {env : Env} {sqrt : ℕ → ℚ} {records : List TraceRecord}
    {kv : KnobLatency} {budget : ℕ} {t : TraceLatency}
    (hfit : TraceLatency.fromRecords sqrt records kv budget = .ok t) {pacing : DecodePacing}
    {calls : List (PacedCall env)} (hrun : PacedRun env t pacing calls) :
    PinsDonors t pacing ∧
    (∀ c : PacedCall env, c ∈ calls ∨ c.pacing = pacing → c.DrawsFrom t records (c.source t)) ∧
    (∀ c ∈ calls, ∀ c' ∈ calls, c.bucket = c'.bucket → c.source t ≠ .stall →
      c'.source t ≠ .stall →
      (∀ pool, t.donorBucket pacing c.bucket = some pool → pool.donors.length ≤ 2 ^ 32) →
        c.source t = c'.source t ∧
          t.donorBucket c.pacing c.bucket = t.donorBucket c'.pacing c'.bucket) ∧
    ∀ c ∈ calls, c.source t ≠ .stall →
      (c.source t = .pooled ↔ ∀ r ∈ records, r.donor = none) := by
  have hpins := hrun.pins
  refine ⟨hrun.paced.pinned, fun c hc => ?_, fun c hc c' hc' hsame hstall hstall' hlength => ?_,
    fun c hc hstall => ?_⟩
  · rcases hc with hc | rfl
    · exact PacedCall.drawsFrom hfit (hrun.paced_calls c hc).pinned
    · exact PacedCall.drawsFrom hfit hrun.paced.pinned
  · refine ⟨?_, by rw [hpins.pools c hc, hpins.pools c' hc', hsame]⟩
    cases hpool : t.donorBucket pacing c.bucket with
    | none =>
      rw [(hpins.pooled c hc hstall).mpr hpool, (hpins.pooled c' hc' hstall').mpr (hsame ▸ hpool)]
    | some pool =>
      have hsmall := hlength pool hpool
      obtain ⟨i, hi, hpinned⟩ := hpins.pinned c hc pool hstall hpool hsmall
      obtain ⟨j, hj, hpinned'⟩ := hpins.pinned c' hc' pool hstall' (hsame ▸ hpool) hsmall
      rw [← hsame, hpinned] at hpinned'
      rw [hi, hj, Option.some.inj hpinned']
  · rw [hpins.pooled c hc hstall, donorBucket_eq_none_iff hfit]

/-! ## Traces with and without donors -/

/-- Two donors, and a gap that a prompt of 300 tokens spiked. -/
def stalledTrace : List TraceRecord :=
  [{ promptTokens := 1, outputTokens := 4, itlMs := some [10, 90, 12],
      itlCtx := some ⟨[1, 1, 1], [0, 300, 0]⟩ },
    { promptTokens := 1, outputTokens := 3, itlMs := some [20, 20] }]

def stalledLatency : TraceLatency :=
  .ofRecords (fun n => (Nat.sqrt n : ℚ)) stalledTrace demoOpt.latencyModel 8192

theorem stalledTrace_fits : TraceLatency.fromRecords (fun n => (Nat.sqrt n : ℚ)) stalledTrace
    demoOpt.latencyModel 8192 = .ok stalledLatency := by
  unfold TraceLatency.fromRecords
  rw [if_neg (by decide +kernel), if_neg (by decide +kernel)]
  rfl

/-- A calm request that has pinned the second donor at these concurrency buckets. -/
def pinnedAt (buckets : List ℕ) : DecodePacing :=
  { DecodePacing.forPrompt 1 .calm with
    donors := buckets.foldl (fun donors cb => donors.set cb (some 1))
      (List.replicate numConcurrencyBuckets none) }

/-- A draw, one that meets a stall, one that does not, and one among more requests. -/
def stalledCalls : List (PacedCall (drawing (3 / 4))) :=
  [⟨(), 1, pinnedAt []⟩, ⟨(), 1, { pinnedAt [0] with pendingStall := some 300 }⟩,
    ⟨(), 1, pinnedAt [0]⟩, ⟨(), 5, pinnedAt [0]⟩]

theorem PacedRun.drawn_to {env : Env} {t : TraceLatency} (c : PacedCall env)
    {calls : List (PacedCall env)} (h : PacedRun env t c.pacing calls) (pacing' : DecodePacing)
    (hdraw : (c.step t).map (fun drawn => drawn.2.2) = some pacing') :
    PacedRun env t pacing' (calls ++ [c]) := by
  obtain ⟨⟨draw, rng', pacing'⟩, hstep, rfl⟩ := Option.map_eq_some_iff.mp hdraw
  exact h.drawn hstep

theorem stalledTrace_run :
    PacedRun (drawing (3 / 4)) stalledLatency (pinnedAt [0, 2]) stalledCalls := by
  have hstarted : PacedRun (drawing (3 / 4)) stalledLatency (pinnedAt []) [] := .fresh 1 .calm
  have hpinned := hstarted.drawn_to ⟨(), 1, pinnedAt []⟩ (pinnedAt [0]) (by decide +kernel)
  have hstalled := (hpinned.noted 300).drawn_to
    ⟨(), 1, { pinnedAt [0] with pendingStall := some 300 }⟩ (pinnedAt [0]) (by decide +kernel)
  have hagain := hstalled.drawn_to ⟨(), 1, pinnedAt [0]⟩ (pinnedAt [0]) (by decide +kernel)
  exact hagain.drawn_to ⟨(), 5, pinnedAt [0]⟩ (pinnedAt [0, 2]) (by decide +kernel)

/-- The draws of a bucket that meet no stall come from the second donor, whose gaps are 20 ms. -/
theorem stalledTrace_pinned :
    stalledCalls.map (fun c => (c.bucket, c.source stalledLatency,
        (c.step stalledLatency).map (fun drawn => drawn.1))) =
      [(0, .donor 1, some ⟨20 / 1000, 1⟩), (0, .stall, some ⟨90 / 1000, 1⟩),
        (0, .donor 1, some ⟨20 / 1000, 1⟩), (2, .donor 1, some ⟨20 / 1000, 1⟩)] ∧
    PinsDonors stalledLatency (pinnedAt [0, 2]) ∧
    (∀ c ∈ stalledCalls, c.DrawsFrom stalledLatency stalledTrace (c.source stalledLatency)) ∧
    ∀ c ∈ stalledCalls, ∀ c' ∈ stalledCalls, c.bucket = c'.bucket →
      c.source stalledLatency ≠ .stall → c'.source stalledLatency ≠ .stall →
        c.source stalledLatency = c'.source stalledLatency := by
  obtain ⟨hpins, hdraws, hsame, -⟩ := pinnedDonors_stable stalledTrace_fits stalledTrace_run
  have hpools : ∀ c ∈ stalledCalls, (stalledLatency.donorBucket (pinnedAt [0, 2]) c.bucket).all
      (fun pool => pool.donors.length ≤ 2 ^ 32) = true := by
    decide +kernel
  refine ⟨by decide +kernel, hpins, fun c hc => hdraws c (.inl hc),
    fun c hc c' hc' hbucket hstall hstall' => ?_⟩
  refine (hsame c hc c' hc' hbucket hstall hstall' (fun pool hpool => ?_)).1
  have hall := hpools c hc
  rw [hpool] at hall
  exact of_decide_eq_true hall

/-- Its only gap was spiked by an admission. -/
def spikedTrace : List TraceRecord :=
  [{ promptTokens := 1, outputTokens := 2, itlMs := some [10], itlCtx := some ⟨[1], [5000]⟩ }]

def spikedLatency : TraceLatency :=
  .ofRecords (fun n => (Nat.sqrt n : ℚ)) spikedTrace demoOpt.latencyModel 8192

theorem spikedTrace_fits : TraceLatency.fromRecords (fun n => (Nat.sqrt n : ℚ)) spikedTrace
    demoOpt.latencyModel 8192 = .ok spikedLatency := by
  unfold TraceLatency.fromRecords
  rw [if_neg (by decide +kernel), if_neg (by decide +kernel)]
  rfl

/-- No donor gives the step drawn after a calm request's start. -/
theorem spikedTrace_undonated :
    ¬ ∀ (env : Env) (sqrt : ℕ → ℚ) (records : List TraceRecord) (kv : KnobLatency) (budget : ℕ)
      (t : TraceLatency), TraceLatency.fromRecords sqrt records kv budget = .ok t →
      ∀ pacing (calls : List (PacedCall env)), PacedRun env t pacing calls →
        PinsDonors t pacing ∧ ∀ cb, ∃ i, ∀ c ∈ calls, c.bucket = cb → c.source t ≠ .stall →
          c.source t = .donor i := by
  intro hclaim
  have hstep : (PacedCall.step spikedLatency
      (⟨(), 1, .forPrompt 1 .calm⟩ : PacedCall demoEnv)).isSome := by
    decide +kernel
  obtain ⟨⟨draw, rng', pacing'⟩, hdraw⟩ := Option.isSome_iff_exists.mp hstep
  obtain ⟨-, hdonors⟩ := hclaim demoEnv _ spikedTrace _ _ _ spikedTrace_fits _ _
    ((PacedRun.fresh 1 .calm).drawn hdraw)
  obtain ⟨i, hi⟩ := hdonors 0
  have hpooled : PacedCall.source spikedLatency
      (⟨(), 1, .forPrompt 1 .calm⟩ : PacedCall demoEnv) = .pooled := by
    decide +kernel
  have hdonor := hi _ (List.mem_singleton_self _) rfl (by rw [hpooled]; simp)
  rw [hpooled] at hdonor
  cases hdonor

end VllmVcr
