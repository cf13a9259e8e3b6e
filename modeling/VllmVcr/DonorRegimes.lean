import VllmVcr.Engine.Run
import VllmVcr.TraceLatency

/-!
# Donor regimes

Calm and big-chunk donors share one grid, stacked along the context axis. Which regime a request
draws from is a matter of which one has the nearer cell.
-/

namespace VllmVcr

open Pools

theorem Churn.eq_of_calm_iff {c c' : Churn} (h : c = .calm ↔ c' = .calm) : c = c' := by
  cases c with
  | calm => exact (h.mp rfl).symm
  | bigChunk =>
      cases c' with
      | calm => exact h.mpr rfl
      | bigChunk => rfl

theorem Churn.calm_of_ne {c c' : Churn} (h : c ≠ c') (hbig : c' ≠ .calm) : c = .calm := by
  by_contra hcalm
  exact h (Churn.eq_of_calm_iff (iff_of_false hcalm hbig))

/-- The lower half of the grid is calm, the upper one big-chunk. -/
theorem donorCell_half (record : TraceRecord) :
    record.donorCell.1 < numPromptBuckets ↔ recordChurn record = .calm := by
  have hlt := promptBucket_lt record.promptTokens
  unfold TraceRecord.donorCell
  cases recordChurn record with
  | calm => exact iff_of_true hlt rfl
  | bigChunk => simp [Churn.cellOffset]

theorem same_regime {record record' : TraceRecord} (h : record.donorCell = record'.donorCell) :
    recordChurn record = recordChurn record' :=
  Churn.eq_of_calm_iff (by rw [← donorCell_half record, h, donorCell_half])

theorem donorCell_bounds (record : TraceRecord) :
    record.donorCell.1 < 2 * numPromptBuckets ∧ record.donorCell.2 < numConcurrencyBuckets := by
  have hlt := promptBucket_lt record.promptTokens
  refine ⟨?_, concurrencyBucket_lt _⟩
  unfold TraceRecord.donorCell
  cases recordChurn record with
  | calm => exact lt_of_lt_of_le hlt (by decide)
  | bigChunk =>
      change promptBucket record.promptTokens + numPromptBuckets < _
      omega

/-- The donors in a cell were recorded under the regime of its half. -/
theorem donor_half {records : List TraceRecord} {p : ℕ × ℕ} {donor : Donor}
    (h : donor ∈ (donorsAt records p).map Prod.fst) :
    p.1 < numPromptBuckets ↔ donor.churn = .calm := by
  obtain ⟨d, hd, rfl⟩ := List.mem_map.mp h
  obtain ⟨record, hrecord, hdonor⟩ := List.mem_filterMap.mp hd
  have hcell : record.donorCell = p := of_decide_eq_true (List.mem_filter.mp hrecord).2
  rw [TraceRecord.donor_churn hdonor, ← hcell]
  exact donorCell_half record

theorem donorsAt_ne_nil_iff {records : List TraceRecord} {p : ℕ × ℕ} :
    donorsAt records p ≠ [] ↔ ∃ r ∈ records, r.donor.isSome ∧ r.donorCell = p := by
  rw [ne_eq, donorsAt, List.filterMap_eq_nil_iff]
  constructor
  · intro h
    obtain ⟨r, hr⟩ := not_forall.mp h
    obtain ⟨hmem, hsome⟩ := Classical.not_imp.mp hr
    obtain ⟨hrecord, hcell⟩ := List.mem_filter.mp hmem
    exact ⟨r, hrecord, Option.isSome_iff_ne_none.mpr hsome, of_decide_eq_true hcell⟩
  · rintro ⟨r, hr, hsome, hcell⟩ hall
    exact Option.isSome_iff_ne_none.mp hsome
      (hall r (List.mem_filter.mpr ⟨hr, decide_eq_true hcell⟩))

/-- The row of the grid that a request asks for. -/
def DecodePacing.donorRow (pacing : DecodePacing) : ℕ :=
  pacing.contextBucket + pacing.churn.cellOffset

/-- A donating record of the request's regime is nearer than all of the other, or for a calm
request as near. -/
def OwnNearest (records : List TraceRecord) (pacing : DecodePacing) (cb : ℕ) : Prop :=
  ∃ own ∈ records, own.donor.isSome ∧ recordChurn own = pacing.churn ∧
    ∀ other ∈ records, other.donor.isSome → recordChurn other ≠ pacing.churn →
      Grid.reach pacing.donorRow cb own.donorCell < Grid.reach pacing.donorRow cb other.donorCell ∨
        pacing.churn = .calm ∧ Grid.reach pacing.donorRow cb own.donorCell =
          Grid.reach pacing.donorRow cb other.donorCell

section Model

variable {sqrt : ℕ → ℚ} {records : List TraceRecord} {kv : KnobLatency} {budget : ℕ}
  {t : TraceLatency} (hfit : TraceLatency.fromRecords sqrt records kv budget = .ok t)

include hfit

theorem cell_of_donating {r : TraceRecord} (hr : r ∈ records) (hdonor : r.donor.isSome) :
    ∃ bucket, Grid.cell t.donorsGrid r.donorCell.1 r.donorCell.2 = some bucket ∧
      bucket.hasDonors := by
  rw [TraceLatency.fromRecords_eq_ok hfit, TraceLatency.ofRecords_donorsGrid, donorsGrid_cell,
    if_pos (donorCell_bounds r)]
  refine ⟨_, rfl, ?_⟩
  have hne := donorsAt_ne_nil_iff.mpr ⟨r, hr, hdonor, rfl⟩
  unfold DonorBucket.hasDonors
  rw [bucketOf_donors]
  simpa using hne

/-- The nearest pool with donors: its donors are of one regime, the request's own exactly when it
has the nearer cell. -/
theorem donorBucket_regime {pacing : DecodePacing} {cb : ℕ} {bucket : DonorBucket}
    (h : t.donorBucket pacing cb = some bucket) :
    bucket.donors ≠ [] ∧ ∀ donor ∈ bucket.donors,
      (donor.churn = pacing.churn ↔ OwnNearest records pacing cb) := by
  obtain ⟨p, hcell, hdata, hnearest⟩ := Grid.nearest_spec h
  rw [TraceLatency.fromRecords_eq_ok hfit, TraceLatency.ofRecords_donorsGrid, donorsGrid_cell] at hcell
  split_ifs at hcell with hbounds
  obtain rfl := Option.some.inj hcell
  have hne : donorsAt records p ≠ [] := by
    unfold DonorBucket.hasDonors at hdata
    rw [bucketOf_donors] at hdata
    simpa using hdata
  rw [bucketOf_donors]
  refine ⟨by simpa using hne, fun donor hdonor => ?_⟩
  obtain ⟨giver, hgiver, hgives, hplace⟩ := donorsAt_ne_nil_iff.mp hne
  have hregime : recordChurn giver = donor.churn :=
    Churn.eq_of_calm_iff (by rw [← donorCell_half giver, hplace, donor_half hdonor])
  have hothers : ∀ r ∈ records, r.donor.isSome →
      Grid.reach pacing.donorRow cb p < Grid.reach pacing.donorRow cb r.donorCell ∨
        Grid.reach pacing.donorRow cb p = Grid.reach pacing.donorRow cb r.donorCell ∧
          (r.donorCell = p ∨ toLex p < toLex r.donorCell) := by
    intro r hr hsome
    obtain ⟨b, hb, hhas⟩ := cell_of_donating hfit hr hsome
    exact hnearest r.donorCell b hb hhas
  constructor
  · intro hsame
    refine ⟨giver, hgiver, hgives, hregime.trans hsame, fun other hother hsome hdiffers => ?_⟩
    rw [hplace]
    rcases hothers other hother hsome with hfar | ⟨hequal, hplace' | hlater⟩
    · exact .inl hfar
    · exact absurd (same_regime (hplace'.trans hplace.symm)) (by rwa [hregime, hsame])
    · refine .inr ⟨?_, hequal⟩
      by_contra hbig
      have hcalm : recordChurn other = .calm := Churn.calm_of_ne hdiffers hbig
      have hlow := (donorCell_half other).mpr hcalm
      have hhigh : ¬ p.1 < numPromptBuckets := by
        rw [donor_half hdonor, hsame]
        exact hbig
      rcases Prod.Lex.toLex_lt_toLex.mp hlater with hrow | ⟨hrow, -⟩ <;> omega
  · rintro ⟨own, hown, hsome, hregime', hall⟩
    by_contra hdiffers
    have hgap := hall giver hgiver hgives (by rwa [hregime])
    rw [hplace] at hgap
    rcases hothers own hown hsome with hfar | ⟨hequal, hplace' | hlater⟩
    · rcases hgap with hnear | ⟨-, hequal⟩
      · exact lt_asymm hfar hnear
      · exact hfar.ne hequal.symm
    · have hsame := same_regime (hplace'.trans hplace.symm)
      exact hdiffers (by rw [← hregime, ← hsame, hregime'])
    · rcases hgap with hnear | ⟨hcalm, -⟩
      · exact hnear.ne hequal.symm
      · have hlow := (donorCell_half own).mpr (hregime'.trans hcalm)
        have hhigh : ¬ p.1 < numPromptBuckets := by
          rw [donor_half hdonor]
          exact fun h => hdiffers (h.trans hcalm.symm)
        rcases Prod.Lex.toLex_lt_toLex.mp hlater with hrow | ⟨hrow, -⟩ <;> omega

end Model

/-! ## Pinned donors -/

/-- Every pinned index is one of the pool it was picked from. -/
def PinsDonors (t : TraceLatency) (pacing : DecodePacing) : Prop :=
  ∀ cb i, (pacing.donors[cb]?).join = some i →
    ∃ bucket, t.donorBucket pacing cb = some bucket ∧ i < bucket.donors.length

section Pinning

variable {env : Env} {t : TraceLatency} {pacing : DecodePacing}

theorem pick_lt {bucket : DonorBucket} (hne : bucket.donors ≠ []) (rng : env.Rng) :
    (bucket.pick env rng).1 < bucket.donors.length := by
  have hpos := List.length_pos_iff.mpr hne
  have hle : (bucket.pick env rng).1 ≤ bucket.donors.length - 1 := min_le_right _ _
  omega

/-- A pinned or picked index is in the pool, and at most its low bits are pinned from then on. -/
theorem pickDonor_cases (hpinned : PinsDonors t pacing) {cb : ℕ} {bucket : DonorBucket}
    (hbucket : t.donorBucket pacing cb = some bucket) (rng : env.Rng) :
    (TraceLatency.pickDonor env bucket rng pacing cb).1 < bucket.donors.length ∧
      ((TraceLatency.pickDonor env bucket rng pacing cb).2.2 = pacing ∨
        (TraceLatency.pickDonor env bucket rng pacing cb).2.2 = { pacing with
          donors := pacing.donors.set cb
            (some ((TraceLatency.pickDonor env bucket rng pacing cb).1 % 2 ^ 32)) }) := by
  unfold TraceLatency.pickDonor
  split
  · next i hi =>
      obtain ⟨bucket', hbucket', hlt⟩ := hpinned cb i hi
      obtain rfl : bucket = bucket' := Option.some.inj (hbucket.symm.trans hbucket')
      exact ⟨hlt, .inl rfl⟩
  · obtain ⟨_, -, hdata, -⟩ := Grid.nearest_spec hbucket
    refine ⟨pick_lt ?_ rng, .inr rfl⟩
    simpa [DonorBucket.hasDonors] using hdata

theorem drawDonor_cases (hpinned : PinsDonors t pacing) (rng : env.Rng) {numRunning : ℕ}
    {bucket : DonorBucket}
    (hbucket : t.donorBucket pacing (concurrencyBucket numRunning) = some bucket) :
    ∃ donor rng' pacing', t.drawDonor env rng numRunning pacing = some (donor, rng', pacing') ∧
      donor ∈ bucket.donors ∧ PinsDonors t pacing' := by
  obtain ⟨hlt, hpacing⟩ := pickDonor_cases hpinned hbucket rng
  cases hpick : TraceLatency.pickDonor env bucket rng pacing (concurrencyBucket numRunning) with
  | mk i rest =>
    obtain ⟨rng', pacing'⟩ := rest
    rw [hpick] at hlt hpacing
    refine ⟨bucket.donors[i], rng', pacing', ?_, List.getElem_mem hlt, ?_⟩
    · unfold TraceLatency.drawDonor
      simp only [hbucket, Option.bind_some, hpick, List.getElem?_eq_getElem hlt, Option.map_some]
    · rcases hpacing with hsame | hset
      · have hpacing' : pacing' = pacing := hsame
        rw [hpacing']
        exact hpinned
      · have hpacing' : pacing' = { pacing with
            donors := pacing.donors.set (concurrencyBucket numRunning) (some (i % 2 ^ 32)) } := hset
        rw [hpacing']
        intro cb j hj
        simp only [List.getElem?_set] at hj
        split_ifs at hj with hcb hin
        · subst hcb
          cases hj
          exact ⟨bucket, hbucket, (Nat.mod_le _ _).trans_lt hlt⟩
        · cases hj
        · exact hpinned cb j hj

/-- A noted or taken stall leaves the pinned donors. -/
theorem PinsDonors.unstalled (h : PinsDonors t pacing) {stall : Option ℕ} :
    PinsDonors t { pacing with pendingStall := stall } := h

theorem stepOf_pacing {rng rng' : env.Rng} {donor : Donor} {draw : StepDraw}
    {pacing' : DecodePacing}
    (h : TraceLatency.stepOf env rng pacing donor = some (draw, rng', pacing')) :
    pacing' = pacing := by
  obtain ⟨_, _, heq⟩ := Option.map_eq_some_iff.mp h
  cases heq
  rfl

theorem cleanStep_pinned (hpinned : PinsDonors t pacing) {rng rng' : env.Rng} {numRunning : ℕ}
    {draw : StepDraw} {pacing' : DecodePacing}
    (h : t.cleanStep env rng numRunning pacing = some (draw, rng', pacing')) :
    PinsDonors t pacing' := by
  unfold TraceLatency.cleanStep at h
  cases hbucket : t.donorBucket pacing (concurrencyBucket numRunning) with
  | none =>
      rw [hbucket] at h
      obtain ⟨_, _, heq⟩ := Option.map_eq_some_iff.mp h
      cases heq
      exact hpinned
  | some bucket =>
      rw [hbucket] at h
      obtain ⟨donor, rng₁, pacing₁, hdraw, -, hkept⟩ := drawDonor_cases hpinned rng hbucket
      rw [hdraw] at h
      rw [stepOf_pacing h]
      exact hkept

theorem Paced.pinned (h : Paced env t pacing) : PinsDonors t pacing := by
  induction h with
  | fresh promptTokens churn =>
      intro cb i hi
      simp only [DecodePacing.forPrompt, List.getElem?_replicate] at hi
      split_ifs at hi
      · cases hi
      · cases hi
  | noted _ promptTokens ih => exact ih.unstalled
  | drawn _ hdraw ih =>
      unfold TraceLatency.pacedStep at hdraw
      split at hdraw
      · exact cleanStep_pinned ih hdraw
      · dsimp only at hdraw
        split at hdraw
        · exact cleanStep_pinned ih.unstalled hdraw
        · obtain ⟨_, _, heq⟩ := Option.map_eq_some_iff.mp hdraw
          cases heq
          exact ih

end Pinning

/-- Without a pending stall a step is drawn from one donor, which is of the request's regime exactly
when some donating record of that regime is in a near enough cell. -/
theorem draws_own_regime_iff {env : Env} {sqrt : ℕ → ℚ} {records : List TraceRecord}
    {kv : KnobLatency} {budget : ℕ} {t : TraceLatency}
    (hfit : TraceLatency.fromRecords sqrt records kv budget = .ok t) {pacing : DecodePacing}
    (hpaced : Paced env t pacing) (hstall : pacing.pendingStall = none)
    (hown : ∃ r ∈ records, r.donor.isSome ∧ recordChurn r = pacing.churn) (rng : env.Rng)
    (numRunning : ℕ) :
    ∃ donor rng' pacing', t.drawDonor env rng numRunning pacing = some (donor, rng', pacing') ∧
      t.pacedStep env rng numRunning pacing = TraceLatency.stepOf env rng' pacing' donor ∧
      (donor.churn = pacing.churn ↔
        OwnNearest records pacing (concurrencyBucket numRunning)) := by
  obtain ⟨r, hr, hdonor, -⟩ := hown
  obtain ⟨filled, hfilled, hhas⟩ := cell_of_donating hfit hr hdonor
  obtain ⟨bucket, hbucket⟩ := Option.isSome_iff_exists.mp
    (Grid.nearest_isSome_iff.mpr ⟨r.donorCell, filled, hfilled, hhas⟩)
  have hpool : t.donorBucket pacing (concurrencyBucket numRunning) = some bucket := hbucket
  obtain ⟨donor, rng', pacing', hdraw, hmem, -⟩ := drawDonor_cases hpaced.pinned rng hpool
  refine ⟨donor, rng', pacing', hdraw, ?_, (donorBucket_regime hfit hpool).2 donor hmem⟩
  unfold TraceLatency.pacedStep TraceLatency.cleanStep
  rw [hstall, hpool, hdraw]
  rfl

/-- A calm record and one under big-chunk churn, both of one prompt token. -/
def mixedTrace : List TraceRecord :=
  [{ promptTokens := 1, outputTokens := 2, itlMs := some [10] },
    { promptTokens := 1, outputTokens := 3, itlMs := some [20, 20],
      itlCtx := some ⟨[1, 1], [0, 5000]⟩ }]

def mixedLatency : TraceLatency :=
  .ofRecords (fun n => (Nat.sqrt n : ℚ)) mixedTrace demoOpt.latencyModel 8192

theorem mixedTrace_fits : TraceLatency.fromRecords (fun n => (Nat.sqrt n : ℚ)) mixedTrace
    demoOpt.latencyModel 8192 = .ok mixedLatency := by
  unfold TraceLatency.fromRecords
  rw [if_neg (by decide +kernel), if_neg (by decide +kernel)]
  rfl

theorem mixedTrace_calm : ∃ r ∈ mixedTrace, r.donor.isSome ∧ recordChurn r = .calm := by
  decide +kernel

/-- A calm request of a short context and a cell without donors draws from the calm record. -/
theorem mixedTrace_short :
    (∀ r ∈ mixedTrace, r.donorCell ≠
      ((DecodePacing.forPrompt 600 .calm).donorRow, concurrencyBucket 8)) ∧
    ∃ donor rng' pacing', mixedLatency.drawDonor demoEnv () 8 (.forPrompt 600 .calm) =
      some (donor, rng', pacing') ∧ donor.churn = .calm := by
  obtain ⟨donor, rng', pacing', hdraw, -, hregime⟩ := draws_own_regime_iff mixedTrace_fits
    (.fresh 600 .calm : Paced demoEnv mixedLatency _) rfl mixedTrace_calm () 8
  refine ⟨by decide +kernel, donor, rng', pacing', hdraw, hregime.mpr ?_⟩
  unfold OwnNearest
  decide +kernel

/-- One with a long context draws from the record under churn. -/
theorem mixedTrace_long :
    ¬ ∀ (env : Env) (sqrt : ℕ → ℚ) (records : List TraceRecord) (kv : KnobLatency) (budget : ℕ)
      (t : TraceLatency), TraceLatency.fromRecords sqrt records kv budget = .ok t →
      ∀ pacing, Paced env t pacing → pacing.pendingStall = none →
      (∃ r ∈ records, r.donor.isSome ∧ recordChurn r = pacing.churn) →
      ∀ rng numRunning donor rng' pacing',
        t.drawDonor env rng numRunning pacing = some (donor, rng', pacing') →
        donor.churn = pacing.churn := by
  intro hclaim
  have hdrawn : (mixedLatency.drawDonor demoEnv () 1 (.forPrompt 40000 .calm)).map
      (fun d => d.1.churn) = some .bigChunk := by decide +kernel
  obtain ⟨⟨donor, rng', pacing'⟩, hdraw, hbig⟩ := Option.map_eq_some_iff.mp hdrawn
  have hcalm := hclaim demoEnv _ mixedTrace _ _ _ mixedTrace_fits _ (.fresh 40000 .calm) rfl
    mixedTrace_calm () 1 donor rng' pacing' hdraw
  exact absurd (hcalm.symm.trans hbig) (by decide)

end VllmVcr
