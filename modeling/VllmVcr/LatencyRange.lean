import Mathlib.Data.Rat.Floor
import VllmVcr.DonorRegimes
import VllmVcr.Interpolation

/-!
# Ranges of fitted latencies

Which traces give a model all of whose delays are durations. The reader does not look at the times
it reads, and the draws hand them on: a negative one panics, and so does one of `2 ^ 64` seconds.
-/

namespace VllmVcr

/-! ## Sampling -/

section Sampling

open Interpolation

/-- Every draw from the samples is a duration, under this limit. -/
structure Drawable (limit : ℚ) (samples : List ℚ) : Prop where
  nonneg : ∀ s ∈ samples, 0 ≤ s
  below : Below limit samples

theorem drawable_perm {limit : ℚ} {samples samples' : List ℚ} (h : samples.Perm samples') :
    Drawable limit samples ↔ Drawable limit samples' :=
  ⟨fun hd => ⟨fun s hs => hd.nonneg s (h.mem_iff.mpr hs), hd.below.of_perm h⟩,
    fun hd => ⟨fun s hs => hd.nonneg s (h.mem_iff.mp hs), hd.below.of_perm h.symm⟩⟩

theorem drawable_sort {limit : ℚ} {samples : List ℚ} :
    Drawable limit (samples.insertionSort (· ≤ ·)) ↔ Drawable limit samples :=
  drawable_perm (List.perm_insertionSort _ _)

theorem Drawable.nil {limit : ℚ} : Drawable limit [] :=
  ⟨by simp, .of_lt (by simp)⟩

theorem Drawable.of_bounds {limit : ℚ} {samples : List ℚ}
    (h : ∀ s ∈ samples, 0 ≤ s ∧ s < limit) : Drawable limit samples :=
  ⟨fun s hs => (h s hs).1, .of_lt (fun s hs => (h s hs).2)⟩

/-- All draws from sorted samples, scaled, are durations exactly when the samples are drawable. -/
theorem drawable_iff {samples : List ℚ} (hsorted : samples.Pairwise (· ≤ ·)) {scale : ℚ}
    (hscale : 0 < scale) : Drawable (msLimit / scale) samples ↔
      ∀ u, 0 ≤ u → u < 1 → (fromSecsF64 (draw samples u * scale / 1000)).isSome := by
  have hpos : 0 < msLimit / scale := div_pos msLimit_pos hscale
  constructor
  · intro h u hu hu'
    rw [fromMs_isSome, ← lt_div_iff₀ hscale]
    exact ⟨mul_nonneg (draw_nonneg h.nonneg hu) hscale.le, h.below.draw_lt hsorted hpos hu hu'⟩
  · intro h
    refine ⟨fun s hs => ?_, below_of_draws (fun u hu hu' => ?_)⟩
    · have hfirst := (fromMs_isSome.mp (h 0 le_rfl one_pos)).1
      rw [draw_zero] at hfirst
      have hhead : 0 ≤ samples.getD 0 0 := nonneg_of_mul_nonneg_left hfirst hscale
      obtain ⟨i, hi, rfl⟩ := List.mem_iff_getElem.mp hs
      rw [List.getD_eq_getElem _ _ (by omega)] at hhead
      cases i with
      | zero => exact hhead
      | succ i => exact hhead.trans (List.pairwise_iff_getElem.mp hsorted _ _ _ hi (by omega))
    · exact (lt_div_iff₀ hscale).mpr (fromMs_isSome.mp (h u hu hu')).2

theorem drawable_one_iff {samples : List ℚ} (hsorted : samples.Pairwise (· ≤ ·)) :
    Drawable msLimit samples ↔
      ∀ u, 0 ≤ u → u < 1 → (fromSecsF64 (draw samples u / 1000)).isSome := by
  simpa using drawable_iff hsorted one_pos

variable {env : Env} {rng : env.Rng}

theorem sampleInverseCdf_eq (env : Env) (rng : env.Rng) (samples : List ℚ) :
    (sampleInverseCdf env rng samples).1 = draw samples (env.randomF64 rng).1 := by
  unfold sampleInverseCdf
  split_ifs with hone
  · obtain ⟨s, rfl⟩ := List.length_eq_one_iff.mp hone
    rw [draw_singleton]
    rfl
  · rfl

theorem sampleStepInverseCdf_eq (env : Env) (rng : env.Rng) (steps : List (ℚ × ℕ)) :
    (sampleStepInverseCdf env rng steps).1.1 =
      draw (steps.map Prod.fst) (env.randomF64 rng).1 := by
  have hget : ∀ i, (steps.map Prod.fst).getD i 0 = (steps.getD i (0, 0)).1 :=
    fun i => List.getD_map steps (0, 0) Prod.fst
  unfold sampleStepInverseCdf
  split_ifs with hone
  · obtain ⟨s, rfl⟩ := List.length_eq_one_iff.mp hone
    rw [List.map_singleton, draw_singleton]
    rfl
  · unfold draw
    rw [List.length_map]
    simp only [hget]
    rfl

end Sampling

/-! ## The pools -/

/-- The gaps recorded at a concurrency bucket. -/
def gapsAt (records : List TraceRecord) (cb : ℕ) : List ℚ :=
  (records.filter (fun r => concurrencyBucket r.concurrency = cb)).flatMap TraceRecord.itlSamples

/-- The stalls recorded at a concurrency bucket behind admitted prompts of a prompt bucket. -/
def stallsAt (records : List TraceRecord) (pb cb : ℕ) : List ℚ :=
  (records.filter (fun r => concurrencyBucket r.concurrency = cb)).flatMap
    (fun r => (r.stalls.filter (fun stall => stall.1 = pb)).map Prod.snd)

/-- The first-token times by prompt bucket. -/
def servicesOf (records : List TraceRecord) : List (Option ServiceCell) :=
  (Pools.ofRecords records).ttftObs.map serviceCell

namespace Pools

theorem itlByConcurrency_get (records : List TraceRecord) (cb : ℕ) :
    (ofRecords records).itlByConcurrency[cb]? =
      if cb < numConcurrencyBuckets then some (gapsAt records cb) else none := by
  induction records using List.reverseRecOn with
  | nil =>
      change (List.replicate numConcurrencyBuckets ([] : List ℚ))[cb]? = _
      rw [List.getElem?_replicate]
      rfl
  | append_singleton records r ih =>
      have hadd : (ofRecords (records ++ [r])).itlByConcurrency =
          (ofRecords records).itlByConcurrency.modify (concurrencyBucket r.concurrency)
            (fun samples => samples ++ r.itlSamples) := by
        rw [ofRecords_snoc]
        rfl
      rw [hadd, List.getElem?_modify, ih, gapsAt, gapsAt, List.filter_append, List.flatMap_append]
      by_cases hkey : concurrencyBucket r.concurrency = cb
      · split_ifs <;> simp [hkey]
      · split_ifs <;> simp [hkey]

/-- The stalls of one record go to its concurrency bucket. -/
theorem cell_foldl_stalls (stalls : List (ℕ × ℚ)) (cb : ℕ) (grid : List (List (List ℚ)))
    (k l : ℕ) :
    Grid.cell (stalls.foldl (fun grid stall =>
      Grid.modifyCell grid stall.1 cb (fun samples => samples ++ [stall.2])) grid) k l =
        (Grid.cell grid k l).map (fun samples => samples ++
          if l = cb then (stalls.filter (fun stall => stall.1 = k)).map Prod.snd else []) := by
  induction stalls generalizing grid with
  | nil => simp
  | cons stall stalls ih =>
      rw [List.foldl_cons, ih, Grid.cell_modifyCell]
      by_cases hl : l = cb
      · by_cases hk : stall.1 = k
        · simp [hl, hk, Function.comp_def]
        · simp [hl, hk, Ne.symm hk]
      · simp [hl]

theorem stallsGrid_cell (records : List TraceRecord) (pb cb : ℕ) :
    Grid.cell (ofRecords records).stallsGrid pb cb =
      if pb < numPromptBuckets ∧ cb < numConcurrencyBuckets then some (stallsAt records pb cb)
      else none := by
  induction records using List.reverseRecOn with
  | nil => exact Grid.cell_replicate _ _ pb cb ([] : List ℚ)
  | append_singleton records r ih =>
      have hadd : (ofRecords (records ++ [r])).stallsGrid = r.stalls.foldl (fun grid stall =>
          Grid.modifyCell grid stall.1 (concurrencyBucket r.concurrency)
            (fun samples => samples ++ [stall.2])) (ofRecords records).stallsGrid := by
        rw [ofRecords_snoc]
        rfl
      rw [hadd, cell_foldl_stalls, ih, stallsAt, stallsAt, List.filter_append,
        List.flatMap_append]
      by_cases hkey : cb = concurrencyBucket r.concurrency
      · rw [if_pos hkey]
        split_ifs <;> simp [hkey]
      · rw [if_neg hkey]
        split_ifs <;> simp [Ne.symm hkey]

end Pools

/-- A donor's steps are sorted by gap. -/
theorem TraceRecord.donor_sorted {record : TraceRecord} {donor : Donor × ℚ}
    (h : record.donor = some donor) : (donor.1.steps.map Prod.fst).Pairwise (· ≤ ·) := by
  have : Std.Total (fun a b : ℚ × ℕ => a.1 ≤ b.1) := ⟨fun a b => le_total a.1 b.1⟩
  have : IsTrans (ℚ × ℕ) (fun a b => a.1 ≤ b.1) := ⟨fun _ _ _ => le_trans⟩
  rw [List.pairwise_map]
  unfold TraceRecord.donor at h
  split at h
  · next itls hitls =>
      dsimp only at h
      split_ifs at h
      cases h
      have hclean : (record.cleanSteps itls).Pairwise (fun a b => a.1 ≤ b.1) :=
        List.pairwise_insertionSort _ _
      change (record.donorSteps itls).Pairwise (fun a b => a.1 ≤ b.1)
      unfold TraceRecord.donorSteps
      dsimp only
      split
      · exact hclean.sublist (List.takeWhile_sublist _)
      · exact hclean
  · obtain ⟨summary, -, rfl⟩ := Option.map_eq_some_iff.mp h
    exact List.pairwise_singleton _ _

/-- A donor's gaps are samples of its record. -/
theorem TraceRecord.donor_steps {record : TraceRecord} {donor : Donor × ℚ}
    (h : record.donor = some donor) {s : ℚ × ℕ} (hs : s ∈ donor.1.steps) :
    s.1 ∈ record.itlSamples := by
  unfold TraceRecord.donor at h
  unfold TraceRecord.itlSamples
  split at h
  · next itls hitls =>
      dsimp only at h
      split_ifs at h
      cases h
      have hclean : s ∈ record.cleanSteps itls := by
        have hdonor : s ∈ record.donorSteps itls := hs
        unfold TraceRecord.donorSteps at hdonor
        dsimp only at hdonor
        split at hdonor
        · exact (List.takeWhile_sublist _).mem hdonor
        · exact hdonor
      unfold TraceRecord.cleanSteps at hclean
      obtain ⟨i, hi, rfl⟩ := List.mem_map.mp ((List.perm_insertionSort _ _).mem_iff.mp hclean)
      have hlt : i < itls.length := List.mem_range.mp (List.mem_filter.mp hi).1
      dsimp only
      rw [List.getD_eq_getElem _ _ hlt]
      exact List.getElem_mem hlt
  · next hitls =>
      obtain ⟨summary, hsummary, rfl⟩ := Option.map_eq_some_iff.mp h
      obtain ⟨hsome, hcount⟩ := Option.filter_eq_some_iff.mp hsummary
      obtain rfl := List.mem_singleton.mp hs
      rw [hsome, Option.elim_some, List.mem_replicate]
      exact ⟨Nat.pos_iff_ne_zero.mp (of_decide_eq_true hcount), rfl⟩

theorem serviceCell_sorted {obs : List (ℕ × ℕ × ℚ)} {cell : ServiceCell}
    (h : serviceCell obs = some cell) : cell.samples.Pairwise (· ≤ ·) := by
  obtain ⟨minCb, -, rfl⟩ := Option.map_eq_some_iff.mp h
  exact List.pairwise_insertionSort _ _

theorem ServiceCell.scale_pos (cell : ServiceCell) (uncached dist : ℕ) :
    0 < cell.scale uncached dist := by
  unfold scale
  split_ifs
  · exact lt_max_of_lt_left (by norm_num)
  · exact one_pos

theorem ServiceCell.scale_le (cell : ServiceCell) (uncached dist : ℕ) :
    cell.scale uncached dist ≤ 8 := by
  unfold scale
  split_ifs
  · exact max_le (by norm_num) (min_le_right _ _)
  · norm_num

/-! ## Nearest buckets -/

/-- The pool taken has samples, and none that has is nearer. -/
theorem nearestItl_spec {pools : List (List ℚ)} {cb : ℕ} {samples : List ℚ}
    (h : nearestItl pools cb = some samples) :
    ∃ i : ℕ, pools[i]? = some samples ∧ samples ≠ [] ∧
      ∀ (j : ℕ) other, pools[j]? = some other → other ≠ [] → i.dist cb ≤ j.dist cb := by
  unfold nearestItl at h
  split at h
  · next own hown =>
      cases h
      obtain ⟨hget, hne⟩ := Option.filter_eq_some_iff.mp hown
      refine ⟨cb, hget, by simpa using hne, fun j _ _ _ => ?_⟩
      rw [Nat.dist_self]
      exact Nat.zero_le _
  · obtain ⟨⟨found, i⟩, hmin, rfl⟩ := Option.map_eq_some_iff.mp h
    obtain ⟨hmem, hne⟩ := List.mem_filter.mp (List.argmin_mem hmin)
    refine ⟨i, List.mem_zipIdx_iff_getElem?.mp hmem, by simpa using hne,
      fun j other hother hsome => ?_⟩
    have hcandidate : (other, j) ∈ pools.zipIdx.filter (fun s => !s.1.isEmpty) :=
      List.mem_filter.mpr ⟨List.mem_zipIdx_iff_getElem?.mpr hother, by simpa using hsome⟩
    exact List.le_of_mem_argmin hcandidate hmin

/-- Some pool is taken, unless none has samples. -/
theorem nearestItl_isSome {pools : List (List ℚ)} (h : ¬ pools.all List.isEmpty) (cb : ℕ) :
    (nearestItl pools cb).isSome := by
  unfold nearestItl
  split
  · rfl
  · rw [Option.isSome_map, Option.isSome_iff_ne_none, ne_eq, List.argmin_eq_none]
    intro hnone
    refine h (List.all_eq_true.mpr (fun samples hsamples => ?_))
    obtain ⟨i, hi⟩ := List.mem_iff_getElem?.mp hsamples
    have hempty := List.filter_eq_nil_iff.mp hnone (samples, i)
      (List.mem_zipIdx_iff_getElem?.mpr hi)
    simpa using hempty

theorem nearestItl_own {pools : List (List ℚ)} {cb : ℕ} {samples : List ℚ}
    (h : pools[cb]? = some samples) (hne : samples ≠ []) :
    nearestItl pools cb = some samples := by
  have hown : pools[cb]?.filter (fun s => !s.isEmpty) = some samples := by
    rw [h, Option.filter_some, if_pos (by simpa using hne)]
  unfold nearestItl
  rw [hown]

theorem nearestService_mem {services : List (Option ServiceCell)} {pb dist : ℕ}
    {cell : ServiceCell} (h : nearestService services pb = some (cell, dist)) :
    some cell ∈ services := by
  obtain ⟨⟨found, i⟩, hmin, heq⟩ := Option.map_eq_some_iff.mp h
  cases heq
  obtain ⟨⟨slot, k⟩, hslot, hfound⟩ := List.mem_filterMap.mp (List.argmin_mem hmin)
  obtain ⟨_, hsome, heq⟩ := Option.map_eq_some_iff.mp hfound
  cases heq
  exact List.mem_of_getElem?
    ((List.mem_zipIdx_iff_getElem?.mp hslot).trans (congrArg some hsome))

theorem Grid.nearest_own {α : Type*} {grid : List (List α)} {i j : ℕ} {hasData : α → Bool} {a : α}
    (h : Grid.cell grid i j = some a) (hdata : hasData a = true) :
    Grid.nearest grid i j hasData = some a := by
  have hown : (Grid.cell grid i j).filter hasData = some a := by
    rw [h, Option.filter_some, if_pos hdata]
  unfold Grid.nearest
  rw [hown]

/-! ## The ranges of the records -/

/-- What is drawn from or evaluated are durations, at up to `maxTokens` tokens: the gaps of each
concurrency bucket, of each donor and of each cell of stalls; with a fitted curve the floors of its
windows and the curve itself, else the first-token times of the nearest prompt bucket, scaled; and
the chunk law and the floor fitted for full steps. -/
structure InRange (sqrt : ℕ → ℚ) (records : List TraceRecord) (budget maxTokens : ℕ) : Prop where
  gaps : ∀ cb, Drawable msLimit (gapsAt records cb)
  donors : ∀ r ∈ records, ∀ donor ∈ r.donor, Drawable msLimit (donor.1.steps.map Prod.fst)
  stalls : ∀ pb cb, Drawable msLimit (stallsAt records pb cb)
  fitted : ∀ fit ∈ fitServiceCurve sqrt (serviceWindows (floorObs records)),
    ((∀ w ∈ serviceWindows (floorObs records), 0 ≤ w.p10Ms) ∨
      ∀ u : ℕ, 1 ≤ u → u ≤ maxTokens → 0 ≤ fit.a + fit.b * u + fit.c * u * u) ∧
    (∃ w ∈ serviceWindows (floorObs records), w.p10Ms < msLimit) ∧
      ∀ u : ℕ, 1 ≤ u → u ≤ maxTokens → fit.a + fit.b * u + fit.c * u * u < msLimit
  sampled : fitServiceCurve sqrt (serviceWindows (floorObs records)) = none →
    ∀ uncached ≤ maxTokens, ∀ cell dist,
      nearestService (servicesOf records) (promptBucket uncached) = some (cell, dist) →
        Drawable (msLimit / cell.scale uncached dist) cell.samples
  chunks : (fitChunkCost records budget).evalMs maxTokens maxTokens < msLimit
  floor : fitFullStepFloor records (fitChunkCost records budget) budget < msLimit

/-- Every conversion to a `Duration` succeeds, for token counts up to `maxTokens`; a pinned donor is
one of its pool. -/
structure NeverPanics (env : Env) (t : TraceLatency) (maxTokens : ℕ) : Prop where
  firstToken : ∀ rng ctx, ctx.numPromptTokens ≤ maxTokens → (t.firstTokenDelay env rng ctx).isSome
  interToken : ∀ rng numRunning, (t.interTokenDelay env rng numRunning).isSome
  paced : ∀ rng numRunning pacing, PinsDonors t pacing →
    (t.pacedStep env rng numRunning pacing).isSome
  chunkCost : ∀ chunkTokens ≤ maxTokens, ∀ kvDepth ≤ maxTokens,
    (t.prefillChunkCost chunkTokens kvDepth).isSome
  floor : t.budgetFullChunkFloor.isSome

/-! ## The fitted curve -/

theorem fitServiceCurve_floor {sqrt : ℕ → ℚ} {windows : List (ServiceWindow ℚ)}
    {fit : ServiceFit ℚ} (h : fitServiceCurve sqrt windows = some fit) :
    (windows.map ServiceWindow.p10Ms).min? = some fit.floorMs := by
  unfold fitServiceCurve at h
  cases hmin : (windows.map ServiceWindow.p10Ms).min? with
  | none =>
      rw [hmin] at h
      cases h
  | some floorMs =>
      rw [hmin] at h
      dsimp only at h
      split at h
      · cases h
        rfl
      · split at h
        · cases h
          rfl
        · cases h

section Floor

variable {sqrt : ℕ → ℚ} {windows : List (ServiceWindow ℚ)} {fit : ServiceFit ℚ}
  (h : fitServiceCurve sqrt windows = some fit)

include h

theorem floorMs_nonneg_iff : 0 ≤ fit.floorMs ↔ ∀ w ∈ windows, 0 ≤ w.p10Ms := by
  obtain ⟨hmem, hle⟩ := List.min?_eq_some_iff.mp (fitServiceCurve_floor h)
  constructor
  · intro hfloor w hw
    exact hfloor.trans (hle _ (List.mem_map_of_mem hw))
  · intro hall
    obtain ⟨w, hw, heq⟩ := List.mem_map.mp hmem
    rw [← heq]
    exact hall w hw

theorem floorMs_lt_iff {limit : ℚ} : fit.floorMs < limit ↔ ∃ w ∈ windows, w.p10Ms < limit := by
  obtain ⟨hmem, hle⟩ := List.min?_eq_some_iff.mp (fitServiceCurve_floor h)
  constructor
  · intro hfloor
    obtain ⟨w, hw, heq⟩ := List.mem_map.mp hmem
    exact ⟨w, hw, heq.trans_lt hfloor⟩
  · rintro ⟨w, hw, hlt⟩
    exact (hle _ (List.mem_map_of_mem hw)).trans_lt hlt

end Floor

theorem evalMs_mem_iff {fit : ServiceFit ℚ} {u : ℚ} :
    (0 ≤ fit.evalMs u ∧ fit.evalMs u < msLimit) ↔
      (0 ≤ fit.a + fit.b * u + fit.c * u * u ∨ 0 ≤ fit.floorMs) ∧
        fit.a + fit.b * u + fit.c * u * u < msLimit ∧ fit.floorMs < msLimit := by
  rw [ServiceFit.evalMs, le_max_iff, max_lt_iff]

/-! ## Calls of the model -/

namespace TraceLatency

variable {t : TraceLatency} (env : Env) (rng : env.Rng)

theorem firstTokenDelay_fitted {fit : ServiceFit ℚ} (hfit : t.serviceFit = some fit)
    {ctx : FirstTokenCtx} (hlocal : ctx.doRemotePrefill = false) :
    (t.firstTokenDelay env rng ctx).isSome ↔
      (fromSecsF64 (fit.evalMs ((max (ctx.numPromptTokens - ctx.numCachedTokens) 1 : ℕ) : ℚ) /
        1000)).isSome := by
  simp only [firstTokenDelay, hlocal, Bool.false_eq_true, if_false, hfit, Option.isSome_map]

theorem firstTokenDelay_sampled (hfit : t.serviceFit = none) {ctx : FirstTokenCtx}
    (hlocal : ctx.doRemotePrefill = false) {cell : ServiceCell} {dist : ℕ}
    (hnear : nearestService t.serviceByPrompt
      (promptBucket (ctx.numPromptTokens - ctx.numCachedTokens)) = some (cell, dist)) :
    (t.firstTokenDelay env rng ctx).isSome ↔
      (fromSecsF64 (Interpolation.draw cell.samples (env.randomF64 rng).1 *
        cell.scale (ctx.numPromptTokens - ctx.numCachedTokens) dist / 1000)).isSome := by
  simp only [firstTokenDelay, hlocal, Bool.false_eq_true, if_false, hfit, hnear,
    Option.isSome_map, sampleInverseCdf_eq]

theorem interTokenDelay_sampled {numRunning : ℕ} {samples : List ℚ}
    (hnear : nearestItl t.itlByConcurrency (concurrencyBucket numRunning) = some samples) :
    (t.interTokenDelay env rng numRunning).isSome ↔
      (fromSecsF64 (Interpolation.draw samples (env.randomF64 rng).1 / 1000)).isSome := by
  simp only [interTokenDelay, hnear, Option.isSome_map, sampleInverseCdf_eq]

theorem stepOf_sampled {pacing : DecodePacing} {donor : Donor} :
    (stepOf env rng pacing donor).isSome ↔
      (fromSecsF64 (Interpolation.draw (donor.steps.map Prod.fst) (env.randomF64 rng).1 /
        1000)).isSome := by
  simp only [stepOf, Option.isSome_map, sampleStepInverseCdf_eq]

theorem pacedStep_stalled {numRunning prefillTokens : ℕ} {pacing : DecodePacing}
    {stalls : List ℚ} (hpending : pacing.pendingStall = some prefillTokens)
    (hnear : Grid.nearest t.stallsGrid (promptBucket prefillTokens) (concurrencyBucket numRunning)
      (fun cell => !cell.isEmpty) = some stalls) :
    (t.pacedStep env rng numRunning pacing).isSome ↔
      (fromSecsF64 (Interpolation.draw stalls (env.randomF64 rng).1 / 1000)).isSome := by
  simp only [pacedStep, hpending, hnear, Option.isSome_map, sampleInverseCdf_eq]

/-- A pinned donor is drawn from without a pick. -/
theorem pacedStep_pinned {numRunning i : ℕ} {pacing : DecodePacing} {bucket : DonorBucket}
    {donor : Donor} (hpending : pacing.pendingStall = none)
    (hbucket : t.donorBucket pacing (concurrencyBucket numRunning) = some bucket)
    (hpin : (pacing.donors[concurrencyBucket numRunning]?).join = some i)
    (hdonor : bucket.donors[i]? = some donor) :
    t.pacedStep env rng numRunning pacing = stepOf env rng pacing donor := by
  simp only [pacedStep, hpending, cleanStep, drawDonor, hbucket, Option.bind_some, pickDonor, hpin,
    hdonor, Option.map_some]

theorem prefillChunkCost_isSome {chunkTokens kvDepth : ℕ} :
    (t.prefillChunkCost chunkTokens kvDepth).isSome ↔
      t.chunkCost.evalMs chunkTokens kvDepth < msLimit := by
  rw [prefillChunkCost, fromMs_isSome, max_lt_iff]
  exact ⟨fun h => h.2.1, fun h => ⟨le_max_right _ _, h, msLimit_pos⟩⟩

end TraceLatency

/-! ## Fitted costs -/

theorem fitChunkCost_nonneg (records : List TraceRecord) (budget : ℕ) :
    0 ≤ (fitChunkCost records budget).c0 ∧ 0 ≤ (fitChunkCost records budget).c1 := by
  unfold fitChunkCost
  dsimp only
  split
  · exact ⟨le_rfl, le_rfl⟩
  · next c0 c1 hfit =>
      split_ifs with hneg
      · exact ⟨le_rfl, le_rfl⟩
      · rw [not_or, not_lt, not_lt] at hneg
        exact hneg

/-- The law grows with the chunk and with its depth. -/
theorem ChunkCostFit.evalMs_mono {fit : ChunkCostFit} (h : 0 ≤ fit.c0 ∧ 0 ≤ fit.c1)
    {chunkTokens kvDepth chunkTokens' kvDepth' : ℕ} (htokens : chunkTokens ≤ chunkTokens')
    (hdepth : kvDepth ≤ kvDepth') :
    fit.evalMs chunkTokens kvDepth ≤ fit.evalMs chunkTokens' kvDepth' := by
  have ht : (chunkTokens : ℚ) ≤ chunkTokens' := by exact_mod_cast htokens
  have hd : (kvDepth : ℚ) ≤ kvDepth' := by exact_mod_cast hdepth
  have hexpand : ∀ d t : ℚ, fit.c0 * t + fit.c1 * ((d + t) * (d + t) - d * d) / 2 =
      fit.c0 * t + fit.c1 * (d * t + t * t / 2) := by
    intro d t
    ring
  simp only [evalMs, hexpand]
  have hkv : (0 : ℚ) ≤ kvDepth := Nat.cast_nonneg _
  have htok : (0 : ℚ) ≤ chunkTokens := Nat.cast_nonneg _
  have hcross : (kvDepth : ℚ) * chunkTokens ≤ kvDepth' * chunkTokens' :=
    mul_le_mul hd ht htok (hkv.trans hd)
  have hsquare : (chunkTokens : ℚ) * chunkTokens ≤ chunkTokens' * chunkTokens' :=
    mul_le_mul ht ht htok (htok.trans ht)
  exact add_le_add (mul_le_mul_of_nonneg_left ht h.1)
    (mul_le_mul_of_nonneg_left (by linarith) h.2)

theorem median_nonneg {samples : List ℚ} (h : ∀ s ∈ samples, 0 ≤ s) : 0 ≤ median samples := by
  have hsorted : ∀ s ∈ samples.insertionSort (· ≤ ·), 0 ≤ s :=
    fun s hs => h s ((List.perm_insertionSort _ _).mem_iff.mp hs)
  rw [median, List.getD_eq_getElem?_getD]
  cases hmiddle : (samples.insertionSort (· ≤ ·))[samples.length / 2]? with
  | none => exact le_refl _
  | some s => exact hsorted s (List.mem_of_getElem? hmiddle)

theorem fitFullStepFloor_nonneg (records : List TraceRecord) (chunkCost : ChunkCostFit)
    (budget : ℕ) : 0 ≤ fitFullStepFloor records chunkCost budget := by
  unfold fitFullStepFloor
  dsimp only
  split_ifs with hlaw hfew
  · exact le_refl _
  · exact le_refl _
  · refine median_nonneg (fun s hs => ?_)
    obtain ⟨r, -, hmem⟩ := List.mem_flatMap.mp hs
    obtain ⟨gap, hgap, rfl⟩ := List.mem_map.mp hmem
    have hwindow := of_decide_eq_true (List.mem_filter.mp hgap).2
    have hpos := not_le.mp hlaw
    exact le_trans (by linarith) hwindow.2.1

theorem service_sorted {records : List TraceRecord} {pb dist : ℕ} {cell : ServiceCell}
    (h : nearestService (servicesOf records) pb = some (cell, dist)) :
    cell.samples.Pairwise (· ≤ ·) := by
  obtain ⟨obs, -, hcell⟩ := List.mem_map.mp (nearestService_mem h)
  exact serviceCell_sorted hcell

/-- Randomness that always draws `u`. -/
def drawing (u : ℚ) : Env := { demoEnv with randomF64 := fun rng => (u, rng) }

theorem curve_in_range {t : TraceLatency} {maxTokens : ℕ}
    (hnever : NeverPanics (drawing 0) t maxTokens) {fit : ServiceFit ℚ}
    (htaken : t.serviceFit = some fit) {u : ℕ} (hu : 1 ≤ u) (htop : u ≤ maxTokens) :
    0 ≤ fit.evalMs u ∧ fit.evalMs u < msLimit := by
  have hdelay := hnever.firstToken () ⟨u, 0, false, 1⟩ htop
  rw [TraceLatency.firstTokenDelay_fitted (drawing 0) () htaken rfl, Nat.sub_zero,
    Nat.max_eq_left hu, fromMs_isSome] at hdelay
  exact hdelay

section Model

variable {sqrt : ℕ → ℚ} {records : List TraceRecord} {kv : KnobLatency} {budget maxTokens : ℕ}
  {t : TraceLatency} (hfit : TraceLatency.fromRecords sqrt records kv budget = .ok t)

include hfit

theorem chunkCost_eq : t.chunkCost = fitChunkCost records budget := by
  rw [TraceLatency.fromRecords_eq_ok hfit, TraceLatency.ofRecords_chunkCost]

theorem itl_pool {cb : ℕ} (hcb : cb < numConcurrencyBuckets) :
    t.itlByConcurrency[cb]? = some ((gapsAt records cb).insertionSort (· ≤ ·)) := by
  rw [TraceLatency.fromRecords_eq_ok hfit, TraceLatency.ofRecords_itlByConcurrency,
    List.getElem?_map, Pools.itlByConcurrency_get, if_pos hcb, Option.map_some]

/-- The pool taken is that of the nearest concurrency bucket with gaps. -/
theorem itl_nearest {cb : ℕ} {samples : List ℚ}
    (h : nearestItl t.itlByConcurrency cb = some samples) :
    ∃ i : ℕ, samples = (gapsAt records i).insertionSort (· ≤ ·) ∧ gapsAt records i ≠ [] ∧
      ∀ j : ℕ, gapsAt records j ≠ [] → i.dist cb ≤ j.dist cb := by
  have hsorted : ∀ j, (gapsAt records j).insertionSort (· ≤ ·) ≠ [] ↔ gapsAt records j ≠ [] := by
    intro j
    rw [← List.length_pos_iff, List.length_insertionSort, List.length_pos_iff]
  obtain ⟨i, hi, hne, hleast⟩ := nearestItl_spec h
  obtain rfl : samples = (gapsAt records i).insertionSort (· ≤ ·) := by
    rw [TraceLatency.fromRecords_eq_ok hfit, TraceLatency.ofRecords_itlByConcurrency,
      List.getElem?_map, Pools.itlByConcurrency_get] at hi
    split_ifs at hi
    · exact (Option.some.inj hi).symm
    · cases hi
  refine ⟨i, rfl, (hsorted i).mp hne, fun j hj => ?_⟩
  have hbucket : j < numConcurrencyBuckets := by
    obtain ⟨s, hs⟩ := List.exists_mem_of_ne_nil _ hj
    obtain ⟨r, hr, -⟩ := List.mem_flatMap.mp hs
    have hkey := of_decide_eq_true (List.mem_filter.mp hr).2
    exact hkey ▸ concurrencyBucket_lt r.concurrency
  exact hleast j _ (itl_pool hfit hbucket) ((hsorted j).mpr hj)

theorem itl_found (cb : ℕ) : ∃ samples, nearestItl t.itlByConcurrency cb = some samples := by
  refine Option.isSome_iff_exists.mp (nearestItl_isSome ?_ cb)
  rw [TraceLatency.fromRecords_eq_ok hfit, TraceLatency.ofRecords_itlByConcurrency]
  unfold TraceLatency.fromRecords at hfit
  split_ifs at hfit with _ hall
  intro hsorted
  refine hall (List.all_eq_true.mpr (fun s hs => ?_))
  have hempty := List.all_eq_true.mp hsorted _ (List.mem_map_of_mem hs)
  rw [List.isEmpty_iff] at hempty ⊢
  exact List.length_eq_zero_iff.mp ((List.length_insertionSort _ s).symm.trans
    (congrArg List.length hempty))

theorem stalls_cell (pb cb : ℕ) : Grid.cell t.stallsGrid pb cb =
    if pb < numPromptBuckets ∧ cb < numConcurrencyBuckets then
      some ((stallsAt records pb cb).insertionSort (· ≤ ·)) else none := by
  have hgrid : t.stallsGrid = (Pools.ofRecords records).stallsGrid.map (fun row =>
      row.map (fun s => s.insertionSort (· ≤ ·))) := by
    rw [TraceLatency.fromRecords_eq_ok hfit, TraceLatency.ofRecords_stallsGrid]
  rw [hgrid, Grid.cell_map, Pools.stallsGrid_cell]
  split_ifs
  · rfl
  · rfl

theorem services_eq : t.serviceByPrompt = servicesOf records := by
  rw [TraceLatency.fromRecords_eq_ok hfit, TraceLatency.ofRecords_serviceByPrompt]
  rfl

theorem donors_given {pacing : DecodePacing} {cb : ℕ} {bucket : DonorBucket}
    (h : t.donorBucket pacing cb = some bucket) {donor : Donor} (hdonor : donor ∈ bucket.donors) :
    ∃ r ∈ records, ∃ given ∈ r.donor, given.1 = donor := by
  obtain ⟨p, hcell, -, -⟩ := Grid.nearest_spec h
  rw [TraceLatency.fromRecords_eq_ok hfit, TraceLatency.ofRecords_donorsGrid,
    Pools.donorsGrid_cell] at hcell
  split_ifs at hcell
  · cases hcell
    rw [Pools.bucketOf_donors] at hdonor
    obtain ⟨given, hgiven, rfl⟩ := List.mem_map.mp hdonor
    obtain ⟨r, hr, hgives⟩ := List.mem_filterMap.mp hgiven
    exact ⟨r, List.mem_of_mem_filter hr, given, hgives, rfl⟩

theorem serviceFit_eq : t.serviceFit = fitServiceCurve sqrt (serviceWindows (floorObs records)) := by
  rw [TraceLatency.fromRecords_eq_ok hfit, TraceLatency.ofRecords_serviceFit]

/-! ## Records in range -/

section Ranged

variable {env : Env} (hdraws : ∀ rng, 0 ≤ (env.randomF64 rng).1 ∧ (env.randomF64 rng).1 < 1)
  (hrange : InRange sqrt records budget maxTokens)

include hdraws hrange

theorem firstTokenDelay_isSome (hmax : 0 < maxTokens) (rng : env.Rng) {ctx : FirstTokenCtx}
    (hctx : ctx.numPromptTokens ≤ maxTokens) : (t.firstTokenDelay env rng ctx).isSome := by
  have hcurve := serviceFit_eq hfit
  cases hremote : ctx.doRemotePrefill with
  | true => simp [TraceLatency.firstTokenDelay, hremote]
  | false =>
      cases hfitted : t.serviceFit with
      | some fit =>
          have htaken := hcurve.symm.trans hfitted
          obtain ⟨hsigns, hfloor, hbound⟩ := hrange.fitted fit htaken
          have hone : 1 ≤ max (ctx.numPromptTokens - ctx.numCachedTokens) 1 := le_max_right _ _
          have htop : max (ctx.numPromptTokens - ctx.numCachedTokens) 1 ≤ maxTokens := by omega
          rw [TraceLatency.firstTokenDelay_fitted env rng hfitted hremote, fromMs_isSome,
            evalMs_mem_iff]
          refine ⟨?_, hbound _ hone htop, (floorMs_lt_iff htaken).mpr hfloor⟩
          rcases hsigns with hfloors | hpoly
          · exact .inr ((floorMs_nonneg_iff htaken).mpr hfloors)
          · exact .inl (hpoly _ hone htop)
      | none =>
          have hnone := hcurve.symm.trans hfitted
          cases hnear : nearestService t.serviceByPrompt
              (promptBucket (ctx.numPromptTokens - ctx.numCachedTokens)) with
          | none => simp [TraceLatency.firstTokenDelay, hremote, hfitted, hnear]
          | some found =>
              obtain ⟨cell, dist⟩ := found
              rw [TraceLatency.firstTokenDelay_sampled env rng hfitted hremote hnear]
              rw [services_eq hfit] at hnear
              have hdrawable := hrange.sampled hnone _ (by omega) cell dist hnear
              exact (drawable_iff (service_sorted hnear) (cell.scale_pos _ _)).mp hdrawable _
                (hdraws rng).1 (hdraws rng).2

theorem interTokenDelay_isSome (rng : env.Rng) (numRunning : ℕ) :
    (t.interTokenDelay env rng numRunning).isSome := by
  cases hnear : nearestItl t.itlByConcurrency (concurrencyBucket numRunning) with
  | none => simp [TraceLatency.interTokenDelay, hnear]
  | some samples =>
      rw [TraceLatency.interTokenDelay_sampled env rng hnear]
      obtain ⟨cb, rfl, -, -⟩ := itl_nearest hfit hnear
      exact (drawable_one_iff (List.pairwise_insertionSort _ _)).mp
        (drawable_sort.mpr (hrange.gaps cb)) _ (hdraws rng).1 (hdraws rng).2

theorem cleanStep_isSome (rng : env.Rng) (numRunning : ℕ) {pacing : DecodePacing}
    (hpinned : PinsDonors t pacing) : (t.cleanStep env rng numRunning pacing).isSome := by
  cases hbucket : t.donorBucket pacing (concurrencyBucket numRunning) with
  | none =>
      simp only [TraceLatency.cleanStep, hbucket, Option.isSome_map]
      exact interTokenDelay_isSome hfit hdraws hrange rng numRunning
  | some bucket =>
      obtain ⟨donor, rng', pacing', hdraw, hmem, -⟩ := drawDonor_cases hpinned rng hbucket
      simp only [TraceLatency.cleanStep, hbucket, hdraw, Option.bind_some]
      obtain ⟨r, hr, given, hgives, rfl⟩ := donors_given hfit hbucket hmem
      rw [TraceLatency.stepOf_sampled env rng']
      exact (drawable_one_iff (TraceRecord.donor_sorted hgives)).mp
        (hrange.donors r hr given hgives) _ (hdraws rng').1 (hdraws rng').2

theorem pacedStep_isSome (rng : env.Rng) (numRunning : ℕ) {pacing : DecodePacing}
    (hpinned : PinsDonors t pacing) : (t.pacedStep env rng numRunning pacing).isSome := by
  cases hpending : pacing.pendingStall with
  | none =>
      simp only [TraceLatency.pacedStep, hpending]
      exact cleanStep_isSome hfit hdraws hrange rng numRunning hpinned
  | some prefillTokens =>
      cases hnear : Grid.nearest t.stallsGrid (promptBucket prefillTokens)
          (concurrencyBucket numRunning) (fun cell => !cell.isEmpty) with
      | none =>
          simp only [TraceLatency.pacedStep, hpending, hnear]
          exact cleanStep_isSome hfit hdraws hrange rng numRunning hpinned.unstalled
      | some stalls =>
          rw [TraceLatency.pacedStep_stalled env rng hpending hnear]
          obtain ⟨p, hcell, -, -⟩ := Grid.nearest_spec hnear
          rw [stalls_cell hfit] at hcell
          split_ifs at hcell
          · cases hcell
            exact (drawable_one_iff (List.pairwise_insertionSort _ _)).mp
              (drawable_sort.mpr (hrange.stalls p.1 p.2)) _ (hdraws rng).1 (hdraws rng).2

theorem neverPanics_of_range (hmax : 0 < maxTokens) : NeverPanics env t maxTokens where
  firstToken rng _ hctx := firstTokenDelay_isSome hfit hdraws hrange hmax rng hctx
  interToken rng numRunning := interTokenDelay_isSome hfit hdraws hrange rng numRunning
  paced rng numRunning _ hpinned := pacedStep_isSome hfit hdraws hrange rng numRunning hpinned
  chunkCost chunkTokens hchunk kvDepth hdepth := by
    rw [TraceLatency.prefillChunkCost_isSome, chunkCost_eq hfit]
    exact (ChunkCostFit.evalMs_mono (fitChunkCost_nonneg records budget) hchunk hdepth).trans_lt
      hrange.chunks
  floor := by
    rw [TraceLatency.budgetFullChunkFloor, fromMs_isSome, TraceLatency.fromRecords_eq_ok hfit]
    exact ⟨fitFullStepFloor_nonneg _ _ _, hrange.floor⟩

end Ranged

/-! ## Models that never panic -/

section Drawn

variable (hnever : ∀ u, 0 ≤ u → u < 1 → NeverPanics (drawing u) t maxTokens)

include hnever

theorem gaps_drawable (cb : ℕ) : Drawable msLimit (gapsAt records cb) := by
  by_cases hempty : gapsAt records cb = []
  · rw [hempty]
    exact .nil
  · obtain ⟨s, hs⟩ := List.exists_mem_of_ne_nil _ hempty
    obtain ⟨r, hr, -⟩ := List.mem_flatMap.mp hs
    obtain rfl : concurrencyBucket r.concurrency = cb := of_decide_eq_true (List.mem_filter.mp hr).2
    have hnear := nearestItl_own (itl_pool hfit (concurrencyBucket_lt r.concurrency))
      (List.ne_nil_of_mem ((List.perm_insertionSort (· ≤ ·) _).mem_iff.mpr hs))
    rw [← drawable_sort, drawable_one_iff (List.pairwise_insertionSort _ _)]
    intro u hu hu'
    exact (TraceLatency.interTokenDelay_sampled (drawing u) () hnear).mp
      ((hnever u hu hu').interToken () r.concurrency)

/-- A donor is drawn from by a request that is pinned to it. -/
theorem donors_drawable {r : TraceRecord} (hr : r ∈ records) {donor : Donor × ℚ}
    (hdonor : r.donor = some donor) : Drawable msLimit (donor.1.steps.map Prod.fst) := by
  have hcell : Grid.cell t.donorsGrid r.donorCell.1 r.donorCell.2 =
      some (Pools.bucketOf (Pools.donorsAt records r.donorCell)) := by
    rw [TraceLatency.fromRecords_eq_ok hfit, TraceLatency.ofRecords_donorsGrid,
      Pools.donorsGrid_cell, if_pos (donorCell_bounds r)]
  have hmem : donor.1 ∈ (Pools.bucketOf (Pools.donorsAt records r.donorCell)).donors := by
    rw [Pools.bucketOf_donors]
    refine List.mem_map_of_mem (List.mem_filterMap.mpr ⟨r, List.mem_filter.mpr ⟨hr, ?_⟩, hdonor⟩)
    exact decide_eq_true rfl
  obtain ⟨i, hi, hget⟩ := List.mem_iff_getElem.mp hmem
  set pacing : DecodePacing := { DecodePacing.forPrompt r.promptTokens (recordChurn r) with
    donors := (List.replicate numConcurrencyBuckets none).set
      (concurrencyBucket r.concurrency) (some i) } with hpacing
  have hbucket : t.donorBucket pacing (concurrencyBucket r.concurrency) =
      some (Pools.bucketOf (Pools.donorsAt records r.donorCell)) := by
    refine Grid.nearest_own hcell ?_
    simpa [DonorBucket.hasDonors] using List.ne_nil_of_mem hmem
  have hpin : (pacing.donors[concurrencyBucket r.concurrency]?).join = some i := by
    rw [hpacing, List.getElem?_set_self (by simpa using concurrencyBucket_lt r.concurrency)]
    rfl
  have hpinned : PinsDonors t pacing := by
    intro cb j hj
    by_cases hcb : concurrencyBucket r.concurrency = cb
    · subst hcb
      obtain rfl := Option.some.inj (hpin.symm.trans hj)
      exact ⟨_, hbucket, hi⟩
    · rw [hpacing, List.getElem?_set_ne hcb, List.getElem?_replicate] at hj
      split_ifs at hj
      · cases hj
      · cases hj
  rw [drawable_one_iff (TraceRecord.donor_sorted hdonor)]
  intro u hu hu'
  have hstep := (hnever u hu hu').paced () r.concurrency pacing hpinned
  rw [TraceLatency.pacedStep_pinned (drawing u) () rfl hbucket hpin (List.getElem?_eq_getElem hi),
    hget] at hstep
  exact (TraceLatency.stepOf_sampled (drawing u) ()).mp hstep

theorem stalls_drawable (pb cb : ℕ) : Drawable msLimit (stallsAt records pb cb) := by
  by_cases hempty : stallsAt records pb cb = []
  · rw [hempty]
    exact .nil
  · obtain ⟨s, hs⟩ := List.exists_mem_of_ne_nil _ hempty
    obtain ⟨r, hr, hstalls⟩ := List.mem_flatMap.mp hs
    obtain rfl : concurrencyBucket r.concurrency = cb := of_decide_eq_true (List.mem_filter.mp hr).2
    obtain ⟨stall, hstall, -⟩ := List.mem_map.mp hstalls
    obtain ⟨hmem, hkey⟩ := List.mem_filter.mp hstall
    obtain rfl : stall.1 = pb := of_decide_eq_true hkey
    obtain ⟨i, -, rfl⟩ := List.mem_map.mp hmem
    have hcell := stalls_cell hfit (promptBucket (r.prefillDuring i))
      (concurrencyBucket r.concurrency)
    rw [if_pos ⟨promptBucket_lt _, concurrencyBucket_lt _⟩] at hcell
    have hnear : Grid.nearest t.stallsGrid (promptBucket (r.prefillDuring i))
        (concurrencyBucket r.concurrency) (fun cell => !cell.isEmpty) = some _ :=
      Grid.nearest_own hcell (by
        simpa using List.ne_nil_of_mem ((List.perm_insertionSort (· ≤ ·) _).mem_iff.mpr hs))
    rw [← drawable_sort, drawable_one_iff (List.pairwise_insertionSort _ _)]
    intro u hu hu'
    have hpinned : PinsDonors t (.forPrompt 0 .calm) :=
      Paced.pinned (Paced.fresh 0 .calm : Paced demoEnv t _)
    have hstep := (hnever u hu hu').paced () r.concurrency
      { DecodePacing.forPrompt 0 .calm with pendingStall := some (r.prefillDuring i) } hpinned
    exact (TraceLatency.pacedStep_stalled (drawing u) () rfl hnear).mp hstep

theorem services_drawable (hnone : t.serviceFit = none) {uncached : ℕ} (htop : uncached ≤ maxTokens)
    {cell : ServiceCell} {dist : ℕ}
    (hnear : nearestService (servicesOf records) (promptBucket uncached) = some (cell, dist)) :
    Drawable (msLimit / cell.scale uncached dist) cell.samples := by
  rw [drawable_iff (service_sorted hnear) (cell.scale_pos _ _)]
  intro u hu hu'
  rw [← services_eq hfit] at hnear
  have hlocal : (FirstTokenCtx.mk uncached 0 false 1).doRemotePrefill = false := rfl
  have hdelay := (hnever u hu hu').firstToken () (.mk uncached 0 false 1) htop
  rwa [TraceLatency.firstTokenDelay_sampled (drawing u) () hnone hlocal hnear] at hdelay

theorem range_of_neverPanics (hmax : 0 < maxTokens) : InRange sqrt records budget maxTokens where
  gaps := gaps_drawable hfit hnever
  donors r hr donor hdonor := donors_drawable hfit hnever hr hdonor
  stalls := stalls_drawable hfit hnever
  fitted fit htaken := by
    have hrange : ∀ u : ℕ, 1 ≤ u → u ≤ maxTokens → _ := fun u hu htop =>
      evalMs_mem_iff.mp (curve_in_range (hnever 0 le_rfl one_pos)
        ((serviceFit_eq hfit).trans htaken) hu htop)
    refine ⟨?_, (floorMs_lt_iff htaken).mp (hrange 1 le_rfl hmax).2.2,
      fun u hu htop => (hrange u hu htop).2.1⟩
    by_cases hfloors : ∀ w ∈ serviceWindows (floorObs records), 0 ≤ w.p10Ms
    · exact .inl hfloors
    · right
      intro u hu htop
      rcases (hrange u hu htop).1 with hpoly | hfloor
      · exact hpoly
      · exact absurd ((floorMs_nonneg_iff htaken).mp hfloor) hfloors
  sampled hnone uncached htop cell dist hnear :=
    services_drawable hfit hnever ((serviceFit_eq hfit).trans hnone) htop hnear
  chunks := by
    have hcost := (hnever 0 le_rfl one_pos).chunkCost maxTokens le_rfl maxTokens le_rfl
    rwa [TraceLatency.prefillChunkCost_isSome, chunkCost_eq hfit] at hcost
  floor := by
    have hfloor := (hnever 0 le_rfl one_pos).floor
    rw [TraceLatency.budgetFullChunkFloor, fromMs_isSome, TraceLatency.fromRecords_eq_ok hfit]
      at hfloor
    exact hfloor.2

end Drawn

end Model

/-- No conversion panics, whatever is drawn from `[0, 1)`, at up to `maxTokens` tokens, exactly when
what is drawn from and evaluated are durations. -/
theorem never_panics_iff {sqrt : ℕ → ℚ} {records : List TraceRecord} {kv : KnobLatency}
    {budget : ℕ} {t : TraceLatency}
    (hfit : TraceLatency.fromRecords sqrt records kv budget = .ok t) {maxTokens : ℕ}
    (hmax : 0 < maxTokens) :
    (∀ env : Env, (∀ rng, 0 ≤ (env.randomF64 rng).1 ∧ (env.randomF64 rng).1 < 1) →
      NeverPanics env t maxTokens) ↔ InRange sqrt records budget maxTokens := by
  constructor
  · intro h
    exact range_of_neverPanics hfit (fun u hu hu' => h (drawing u) (fun _ => ⟨hu, hu'⟩)) hmax
  · exact fun hrange env hdraws => neverPanics_of_range hfit hdraws hrange hmax

/-- The largest token count, a 64-bit `usize`. -/
def usizeMax : ℕ := 2 ^ 64 - 1

/-- A record of two tokens, the gap between which is this long. -/
def gapTrace (gapMs : ℚ) : List TraceRecord :=
  [{ promptTokens := 1, outputTokens := 2, ttftMs := 5, itlMs := some [gapMs] }]

theorem gapTrace_fits (gapMs : ℚ) : TraceLatency.fromRecords (fun n => (Nat.sqrt n : ℚ))
    (gapTrace gapMs) demoOpt.latencyModel 8192 =
      .ok (.ofRecords (fun n => (Nat.sqrt n : ℚ)) (gapTrace gapMs) demoOpt.latencyModel 8192) := by
  unfold TraceLatency.fromRecords
  rw [if_neg (by simp [gapTrace]), if_neg]
  rw [List.all_eq_true, not_forall]
  refine ⟨[gapMs], fun h => ?_⟩
  simpa using h (List.mem_of_getElem? (i := 0) rfl)

theorem gapTrace_valid (gapMs : ℚ) : ∀ r ∈ gapTrace gapMs, r.Valid := by
  intro r hr
  obtain rfl := List.mem_singleton.mp hr
  exact ⟨.inr (.inl rfl), by simp, by simp, by simp⟩

/-- Gaps of 10 ms are drawn. -/
theorem tenGap_never_panics : NeverPanics demoEnv
    (.ofRecords (fun n => (Nat.sqrt n : ℚ)) (gapTrace 10) demoOpt.latencyModel 8192) usizeMax := by
  have hlimit : (40 : ℚ) < msLimit := by norm_num [msLimit, durationLimit]
  have hlaw : fitChunkCost (gapTrace 10) 8192 = {} := by
    have hmarks : (gapTrace 10).filterMap markedGaps = [] := rfl
    unfold fitChunkCost
    rw [hmarks]
    rfl
  refine (never_panics_iff (gapTrace_fits 10) (by decide)).mpr ?_ demoEnv
    (fun _ => ⟨le_refl _, zero_lt_one⟩)
  refine ⟨fun cb => .of_bounds (fun s hs => ?_), fun r hr donor hdonor => ?_,
    fun pb cb => ?_, fun fit hfit => ?_, fun _ uncached _ cell dist hnear => ?_, ?_, ?_⟩
  · obtain ⟨r, hr, hgap⟩ := List.mem_flatMap.mp hs
    obtain rfl := List.mem_singleton.mp (List.mem_of_mem_filter hr)
    obtain rfl : s = 10 := List.mem_singleton.mp hgap
    exact ⟨by norm_num, by linarith⟩
  · obtain rfl := List.mem_singleton.mp hr
    refine .of_bounds (fun s hs => ?_)
    obtain ⟨step, hstep, rfl⟩ := List.mem_map.mp hs
    have hgap : step.1 = 10 := List.mem_singleton.mp (TraceRecord.donor_steps hdonor hstep)
    rw [hgap]
    exact ⟨by norm_num, by linarith⟩
  · have hempty : stallsAt (gapTrace 10) pb cb = [] := by
      refine List.flatMap_eq_nil_iff.mpr (fun r hr => ?_)
      obtain rfl := List.mem_singleton.mp (List.mem_of_mem_filter hr)
      rfl
    rw [hempty]
    exact .nil
  · cases hfit
  · have hcell : cell = ⟨[5], 1⟩ := by
      have hmem := nearestService_mem hnear
      have hservices : servicesOf (gapTrace 10) =
          some ⟨[5], 1⟩ :: List.replicate (numPromptBuckets - 1) none := rfl
      rw [hservices] at hmem
      simpa using hmem
    subst hcell
    refine .of_bounds (fun s hs => ?_)
    obtain rfl := List.mem_singleton.mp hs
    have hscale := ServiceCell.scale_le ⟨[5], 1⟩ uncached dist
    refine ⟨by norm_num, (lt_div_iff₀ (ServiceCell.scale_pos _ _ _)).mpr ?_⟩
    linarith
  · rw [hlaw]
    simpa [ChunkCostFit.evalMs] using msLimit_pos
  · rw [hlaw]
    simpa [fitFullStepFloor, ChunkCostFit.evalMs] using msLimit_pos

/-- The reader accepts a gap of -1 ms, which no delay can be. -/
theorem negativeGap_panics :
    ¬ ∀ (lines : List TraceLine) (sqrt : ℕ → ℚ) (records : List TraceRecord) (kv : KnobLatency)
      (budget : ℕ) (t : TraceLatency), readTrace 1 lines = .ok records →
      TraceLatency.fromRecords sqrt records kv budget = .ok t →
      ∀ env : Env, (∀ rng, 0 ≤ (env.randomF64 rng).1 ∧ (env.randomF64 rng).1 < 1) →
      NeverPanics env t usizeMax := by
  intro hclaim
  have hgaps := gaps_drawable (gapTrace_fits (-1)) (fun u hu hu' => hclaim _ _ (gapTrace (-1)) _ _ _
    (readTrace_eq_ok_iff.mpr (gapTrace_valid (-1))) (gapTrace_fits (-1)) (drawing u)
    (fun _ => ⟨hu, hu'⟩)) 0
  exact absurd (hgaps.nonneg (-1) (List.mem_singleton.mpr rfl)) (by norm_num)

end VllmVcr
