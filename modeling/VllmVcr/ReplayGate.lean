import Mathlib.Data.List.GetD
import VllmVcr.CalibrationReport
import VllmVcr.NearestRank

/-!
# The replay gate

`replay_arrivals` passes a replay whose pooled quantiles and decode totals are within a tolerance
of the schedule's. A request that was lost contributes to neither, so that the gate only looks at
those that completed.
-/

namespace VllmVcr

/-- The smallest positive normal `f64`. -/
def minPositive : ℚ := 1 / 2 ^ 1022

namespace Quantiles

def zero : Quantiles := ⟨0, 0, 0⟩

def pairs (q other : Quantiles) : List (ℚ × ℚ) :=
  [(q.p50, other.p50), (q.p90, other.p90), (q.p99, other.p99)]

def maxRelativeError (q other : Quantiles) : ℚ :=
  (q.pairs other).foldl (fun maxErr x =>
    if x.1 = 0 ∧ x.2 = 0 then maxErr
    else max maxErr (|x.1 - x.2| / max (max x.1 x.2) minPositive)) 0

end Quantiles

/-- The results with their source records. -/
def measuredOf (schedule : List TraceRecord) (results : List (ℕ × ReplayedRequest)) :
    List (TraceRecord × ReplayedRequest) :=
  results.filterMap (fun m => schedule[m.1]?.map (·, m.2))

/-- The decode total of a source record with gaps, from the summary when it has no others. -/
def TraceRecord.decodeTotal (r : TraceRecord) : Option ℚ :=
  ((r.itlMs.filter (fun itls => !itls.isEmpty)).map List.sum).or
    ((r.itlSummary.filter (fun s => 0 < s.count)).map (fun s => s.meanMs * s.count))

def ReplayedRequest.decodeTotal (m : ReplayedRequest) : Option ℚ :=
  if m.ttftMs.isSome && !m.gapsMs.isEmpty then some m.gapsMs.sum else none

def sourceTotals (schedule : List TraceRecord) : List ℚ :=
  sorted (schedule.filterMap TraceRecord.decodeTotal)

def replayTotals (measured : List (TraceRecord × ReplayedRequest)) : List ℚ :=
  sorted (measured.filterMap (fun m => m.2.decodeTotal))

/-- `request_total`: the error of the totals, when both sides have some. -/
def requestTotalError (schedule : List TraceRecord)
    (measured : List (TraceRecord × ReplayedRequest)) : Option ℚ :=
  if sourceTotals schedule = [] ∨ replayTotals measured = [] then none
  else some ((Quantiles.fromSorted (sourceTotals schedule)).maxRelativeError
    (.fromSorted (replayTotals measured)))

def lastQuantiles (stats : List BucketQuantiles) : Quantiles × Quantiles :=
  match stats.getLast? with
  | some b => (b.ttft, b.itl)
  | none => (.zero, .zero)

/-- `verdict.replay_pass`. -/
def replayPass (schedule : List TraceRecord) (results : List (ℕ × ReplayedRequest))
    (tolerance : ℚ) : Bool :=
  let measured := measuredOf schedule results
  let source := lastQuantiles (sourceStats schedule)
  let replay := lastQuantiles (replayStats measured)
  source.1.maxRelativeError replay.1 ≤ tolerance && source.2.maxRelativeError replay.2 ≤ tolerance &&
    (requestTotalError schedule measured).all (fun error => error ≤ tolerance)

/-! ## Percentiles -/

/-- The nearest-rank percentile of samples in any order, zero when there are none. -/
def IsPercentile (pct : ℕ) (samples : List ℚ) (v : ℚ) : Prop :=
  (samples = [] ∧ v = 0) ∨ NearestRank.HasRank ((pct * samples.length + 99) / 100) samples v

theorem isPercentile_sorted {pct : ℕ} (hpos : 0 < pct) (hle : pct ≤ 100) (samples : List ℚ) :
    IsPercentile pct samples (percentile (sorted samples) pct) := by
  have hlength : (sorted samples).length = samples.length := List.length_insertionSort _ _
  by_cases hnil : samples = []
  · subst hnil
    exact Or.inl ⟨rfl, rfl⟩
  · have hsome : 0 < samples.length := List.length_pos_iff.mpr hnil
    have hrank : 1 ≤ (pct * samples.length + 99) / 100 := by
      have : 1 ≤ pct * samples.length := Nat.mul_pos hpos hsome
      omega
    have htop : (pct * samples.length + 99) / 100 ≤ samples.length := by
      have : pct * samples.length ≤ 100 * samples.length := Nat.mul_le_mul_right _ hle
      omega
    have hi : (pct * samples.length + 99) / 100 - 1 < (sorted samples).length := by omega
    have hplace : percentile (sorted samples) pct =
        (sorted samples)[(pct * samples.length + 99) / 100 - 1] := by
      rw [percentile, hlength, Nat.min_eq_left (by omega), List.getD_eq_getElem]
    right
    rw [hplace]
    have hhas : NearestRank.HasRank _ samples _ := NearestRank.hasRank_insertionSort hi
    rwa [Nat.sub_add_cancel hrank] at hhas

theorem IsPercentile.unique {pct : ℕ} {samples : List ℚ} {v v' : ℚ}
    (h : IsPercentile pct samples v) (h' : IsPercentile pct samples v') : v = v' := by
  rcases h with ⟨rfl, rfl⟩ | h
  · rcases h' with ⟨_, rfl⟩ | h'
    · rfl
    · exact absurd h'.mem List.not_mem_nil
  · rcases h' with ⟨rfl, rfl⟩ | h'
    · exact absurd h.mem List.not_mem_nil
    · exact h.unique h'

/-- Two values whose difference the tolerance allows. -/
def Near (tolerance a b : ℚ) : Prop := |a - b| ≤ tolerance * max (max a b) minPositive

instance (tolerance a b : ℚ) : Decidable (Near tolerance a b) :=
  inferInstanceAs (Decidable (_ ≤ _))

/-- The p50, p90 and p99 of two samples are near each other. -/
def NearQuantiles (tolerance : ℚ) (samples samples' : List ℚ) : Prop :=
  ∀ pct ∈ [50, 90, 99], ∀ a b, IsPercentile pct samples a → IsPercentile pct samples' b →
    Near tolerance a b

theorem minPositive_pos : 0 < minPositive := by decide +kernel

theorem relativeError_le_iff {tolerance a b : ℚ} :
    |a - b| / max (max a b) minPositive ≤ tolerance ↔ Near tolerance a b := by
  rw [Near, div_le_iff₀ (lt_of_lt_of_le minPositive_pos (le_max_right _ _))]

theorem maxRelativeError_le_iff {tolerance : ℚ} (htol : 0 ≤ tolerance) (q other : Quantiles) :
    q.maxRelativeError other ≤ tolerance ↔ ∀ x ∈ q.pairs other, Near tolerance x.1 x.2 := by
  have hfold : ∀ (xs : List (ℚ × ℚ)) (start : ℚ),
      xs.foldl (fun maxErr x => if x.1 = 0 ∧ x.2 = 0 then maxErr
        else max maxErr (|x.1 - x.2| / max (max x.1 x.2) minPositive)) start ≤ tolerance ↔
          start ≤ tolerance ∧ ∀ x ∈ xs, Near tolerance x.1 x.2 := by
    intro xs
    induction xs with
    | nil => simp
    | cons x xs ih =>
        intro start
        rw [List.foldl_cons, ih, List.forall_mem_cons, ← and_assoc]
        refine and_congr_left' ?_
        by_cases hzero : x.1 = 0 ∧ x.2 = 0
        · rw [if_pos hzero]
          have hnear : Near tolerance x.1 x.2 := by
            rw [Near, hzero.1, hzero.2, sub_self, abs_zero]
            exact mul_nonneg htol (minPositive_pos.le.trans (le_max_right _ _))
          exact (and_iff_left hnear).symm
        · rw [if_neg hzero, max_le_iff, relativeError_le_iff]
  rw [Quantiles.maxRelativeError, hfold]
  exact and_iff_right htol

/-- The gate on two samples, whatever their order. -/
theorem fromSorted_near_iff {tolerance : ℚ} (htol : 0 ≤ tolerance) (samples samples' : List ℚ) :
    (Quantiles.fromSorted (sorted samples)).maxRelativeError (.fromSorted (sorted samples')) ≤
        tolerance ↔ NearQuantiles tolerance samples samples' := by
  rw [maxRelativeError_le_iff htol]
  simp only [Quantiles.pairs, Quantiles.fromSorted, NearQuantiles, List.forall_mem_cons,
    List.not_mem_nil, false_implies, implies_true, and_true]
  have hone : ∀ {pct : ℕ}, 0 < pct → pct ≤ 100 →
      (Near tolerance (percentile (sorted samples) pct) (percentile (sorted samples') pct) ↔
        ∀ a b, IsPercentile pct samples a → IsPercentile pct samples' b → Near tolerance a b) := by
    intro pct hpos hle
    constructor
    · intro hnear a b ha hb
      rwa [ha.unique (isPercentile_sorted hpos hle samples),
        hb.unique (isPercentile_sorted hpos hle samples')]
    · exact fun h => h _ _ (isPercentile_sorted hpos hle _) (isPercentile_sorted hpos hle _)
  rw [hone (by decide) (by decide), hone (by decide) (by decide), hone (by decide) (by decide)]

theorem NearQuantiles.of_perm {tolerance : ℚ} {samples samples' other : List ℚ}
    (h : NearQuantiles tolerance samples samples') (hperm : samples'.Perm other) :
    NearQuantiles tolerance samples other := by
  intro pct hpct a b ha hb
  refine h pct hpct a b ha ?_
  rcases hb with ⟨rfl, rfl⟩ | hb
  · exact Or.inl ⟨hperm.eq_nil, rfl⟩
  · rw [← hperm.length_eq] at hb
    exact Or.inr (hb.of_perm hperm.symm)

theorem nearQuantiles_perm {tolerance : ℚ} {samples samples' other : List ℚ}
    (hperm : samples'.Perm other) :
    NearQuantiles tolerance samples samples' ↔ NearQuantiles tolerance samples other :=
  ⟨fun h => h.of_perm hperm, fun h => h.of_perm hperm.symm⟩

/-! ## The requests that completed -/

def completed (schedule : List TraceRecord) (results : List (ℕ × ReplayedRequest)) :
    List ReplayedRequest :=
  ((measuredOf schedule results).map Prod.snd).filter (fun m => m.ttftMs.isSome)

/-- Gathering a list by a bounded number loses nothing. -/
theorem flatMap_filter_perm {α : Type*} (f : α → ℕ) (l : List α) (n : ℕ) :
    ((List.range n).flatMap (fun c => l.filter (fun x => f x = c))).Perm
      (l.filter (fun x => f x < n)) := by
  induction n with
  | zero => simp
  | succ n ih =>
      have hsplit := List.filter_append_perm (fun x => f x < n) (l.filter (fun x => f x < n + 1))
      rw [List.filter_filter, List.filter_filter] at hsplit
      have hbelow : l.filter (fun x => decide (f x < n) && decide (f x < n + 1)) =
          l.filter (fun x => f x < n) := by
        refine List.filter_congr (fun x _ => ?_)
        rw [← Bool.decide_and]
        exact decide_eq_decide.mpr (by omega)
      have hlast : l.filter (fun x => !decide (f x < n) && decide (f x < n + 1)) =
          l.filter (fun x => f x = n) := by
        refine List.filter_congr (fun x _ => ?_)
        rw [← decide_not, ← Bool.decide_and]
        exact decide_eq_decide.mpr (by omega)
      rw [hbelow, hlast] at hsplit
      rw [List.range_succ, List.flatMap_append, List.flatMap_singleton]
      exact (ih.append_right _).trans hsplit

section Pools

variable {schedule : List TraceRecord} {results : List (ℕ × ReplayedRequest)}
  (measured : List (TraceRecord × ReplayedRequest))

/-- The buckets together hold every measured request. -/
theorem buckets_perm :
    ((List.range numConcurrencyBuckets).flatMap
      (fun cb => (measured.filter (fun m => inBucket cb m.1)).map Prod.snd)).Perm
        (measured.map Prod.snd) := by
  have hall : measured.filter (fun m => concurrencyBucket m.1.concurrency < numConcurrencyBuckets) =
      measured :=
    List.filter_eq_self.mpr (fun m _ => decide_eq_true (concurrencyBucket_lt _))
  have hperm := flatMap_filter_perm (fun m : TraceRecord × ReplayedRequest =>
    concurrencyBucket m.1.concurrency) measured numConcurrencyBuckets
  rw [hall] at hperm
  have hmap := hperm.map Prod.snd
  rwa [List.map_flatMap] at hmap

/-- What is pooled over the kept buckets, with the empty ones as well. -/
theorem flatMap_kept (f : List ℚ × List ℚ → List ℚ)
    (hf : ∀ cb, (measuredBucket measured cb).1 = [] → f (measuredBucket measured cb) = []) :
    (((List.range numConcurrencyBuckets).map (measuredBucket measured)).filter
        (fun b => !b.1.isEmpty)).flatMap f =
      (List.range numConcurrencyBuckets).flatMap (fun cb => f (measuredBucket measured cb)) := by
  induction List.range numConcurrencyBuckets with
  | nil => rfl
  | cons cb rest ih =>
      rw [List.map_cons, List.filter_cons, List.flatMap_cons]
      cases h : (measuredBucket measured cb).1 with
      | nil =>
          rw [hf cb h, List.nil_append]
          simpa using ih
      | cons ttft ttfts =>
          simp only [List.isEmpty_cons, Bool.not_false, if_true, List.flatMap_cons]
          rw [ih]

theorem measuredSamples_eq :
    (measuredSamples measured).2 =
      (sorted ((List.range numConcurrencyBuckets).flatMap (fun cb => (measuredBucket measured cb).1)),
        sorted ((List.range numConcurrencyBuckets).flatMap
          (fun cb => (measuredBucket measured cb).2))) := by
  have hzip : ((List.range numConcurrencyBuckets).map (fun cb => (measuredBucket measured cb).1)).zip
      ((List.range numConcurrencyBuckets).map (fun cb => (measuredBucket measured cb).2)) =
        (List.range numConcurrencyBuckets).map (measuredBucket measured) := by
    rw [List.zip_map']
  have hgaps : ∀ cb, (measuredBucket measured cb).1 = [] → (measuredBucket measured cb).2 = [] := by
    intro cb hnil
    have hnone : ∀ m ∈ (measured.filter (fun m => inBucket cb m.1)).map Prod.snd,
        ¬ m.ttftMs.isSome = true := by
      intro m hm hsome
      have hlost := List.filterMap_eq_nil_iff.mp hnil m hm
      rw [hlost] at hsome
      cases hsome
    rw [measuredBucket, List.filter_eq_nil_iff.mpr hnone]
    rfl
  rw [measuredSamples, bucketsFromMeasured, hzip]
  dsimp only
  rw [flatMap_kept measured Prod.fst (fun _ h => h), flatMap_kept measured Prod.snd hgaps]

theorem pooledTtfts_perm :
    ((List.range numConcurrencyBuckets).flatMap
      (fun cb => (measuredBucket measured cb).1)).Perm
        ((measured.map Prod.snd).filterMap ReplayedRequest.ttftMs) := by
  have hperm := (buckets_perm measured).filterMap ReplayedRequest.ttftMs
  rwa [List.filterMap_flatMap] at hperm

theorem pooledGaps_perm :
    ((List.range numConcurrencyBuckets).flatMap
      (fun cb => (measuredBucket measured cb).2)).Perm
        (((measured.map Prod.snd).filter (fun m => m.ttftMs.isSome)).flatMap
          ReplayedRequest.gapsMs) := by
  have hperm := ((buckets_perm measured).filter (fun m => m.ttftMs.isSome)).flatMap_right
    ReplayedRequest.gapsMs
  rwa [List.filter_flatMap, List.flatMap_assoc] at hperm

end Pools

/-- The samples of the completed requests are near those of the schedule. -/
structure SurvivorsNear (schedule : List TraceRecord) (results : List (ℕ × ReplayedRequest))
    (tolerance : ℚ) : Prop where
  ttfts : NearQuantiles tolerance (schedule.map TraceRecord.ttftMs)
    ((completed schedule results).filterMap ReplayedRequest.ttftMs)
  gaps : NearQuantiles tolerance (schedule.flatMap TraceRecord.itlSamples)
    ((completed schedule results).flatMap ReplayedRequest.gapsMs)
  totals : schedule.filterMap TraceRecord.decodeTotal ≠ [] →
    (completed schedule results).filterMap ReplayedRequest.decodeTotal ≠ [] →
      NearQuantiles tolerance (schedule.filterMap TraceRecord.decodeTotal)
        ((completed schedule results).filterMap ReplayedRequest.decodeTotal)

theorem sorted_eq_nil {samples : List ℚ} : sorted samples = [] ↔ samples = [] := by
  rw [← List.length_eq_zero_iff, sorted, List.length_insertionSort, List.length_eq_zero_iff]

/-- A replay passes when its completed requests are near the schedule. -/
theorem replayPass_iff {tolerance : ℚ} (htol : 0 ≤ tolerance) (schedule : List TraceRecord)
    (results : List (ℕ × ReplayedRequest)) :
    replayPass schedule results tolerance = true ↔ SurvivorsNear schedule results tolerance := by
  have hsource : lastQuantiles (sourceStats schedule) =
      (.fromSorted (sorted (schedule.map TraceRecord.ttftMs)),
        .fromSorted (sorted (schedule.flatMap TraceRecord.itlSamples))) := by
    rw [lastQuantiles, sourceStats, quantilesFromBuckets, List.getLast?_concat]
    rfl
  have hreplay : lastQuantiles (replayStats (measuredOf schedule results)) =
      (.fromSorted (measuredSamples (measuredOf schedule results)).2.1,
        .fromSorted (measuredSamples (measuredOf schedule results)).2.2) := by
    rw [lastQuantiles, replayStats, quantilesFromBuckets, List.getLast?_concat]
  have httfts : ((measuredOf schedule results).map Prod.snd).filterMap ReplayedRequest.ttftMs =
      (completed schedule results).filterMap ReplayedRequest.ttftMs := by
    rw [completed, List.filterMap_filter]
    refine List.filterMap_congr (fun m _ => ?_)
    cases m.ttftMs <;> rfl
  have htotals : (measuredOf schedule results).filterMap (fun m => m.2.decodeTotal) =
      (completed schedule results).filterMap ReplayedRequest.decodeTotal := by
    rw [completed, List.filterMap_filter, List.filterMap_map]
    refine List.filterMap_congr (fun m _ => ?_)
    by_cases hsome : m.2.ttftMs.isSome
    · simp [hsome]
    · simp [hsome, ReplayedRequest.decodeTotal]
  have herror : (requestTotalError schedule (measuredOf schedule results)).all
      (fun error => error ≤ tolerance) = true ↔
        (schedule.filterMap TraceRecord.decodeTotal ≠ [] →
          (completed schedule results).filterMap ReplayedRequest.decodeTotal ≠ [] →
            NearQuantiles tolerance (schedule.filterMap TraceRecord.decodeTotal)
              ((completed schedule results).filterMap ReplayedRequest.decodeTotal)) := by
    rw [requestTotalError, sourceTotals, replayTotals, htotals]
    split
    · next hnil =>
        refine iff_of_true rfl (fun hs hr => ?_)
        rcases hnil with h | h
        · exact absurd (sorted_eq_nil.mp h) hs
        · exact absurd (sorted_eq_nil.mp h) hr
    · next hsome =>
        rw [not_or, sorted_eq_nil, sorted_eq_nil] at hsome
        rw [Option.all_some, decide_eq_true_iff, fromSorted_near_iff htol]
        exact ⟨fun h _ _ => h, fun h => h hsome.1 hsome.2⟩
  rw [replayPass, Bool.and_eq_true, Bool.and_eq_true, decide_eq_true_iff, decide_eq_true_iff,
    hsource, hreplay, measuredSamples_eq, fromSorted_near_iff htol, fromSorted_near_iff htol,
    nearQuantiles_perm (pooledTtfts_perm _), nearQuantiles_perm (pooledGaps_perm _), httfts, herror]
  exact ⟨fun h => ⟨h.1.1, h.1.2, h.2⟩, fun h => ⟨⟨h.ttfts, h.gaps⟩, h.totals⟩⟩

/-- A request failed to send, failed, timed out or delivered no token. -/
def SomeLost (results : List (ℕ × ReplayedRequest)) : Prop := ∃ m ∈ results, m.2.ttftMs = none

/-- The gate fails a replay that lost a request exactly when the completed ones are off. -/
theorem lost_fails_iff {tolerance : ℚ} (htol : 0 ≤ tolerance) (_hless : tolerance < 1)
    (schedule : List TraceRecord) (results : List (ℕ × ReplayedRequest)) :
    (SomeLost results → replayPass schedule results tolerance = false) ↔
      (¬ SomeLost results ∨ ¬ SurvivorsNear schedule results tolerance) := by
  rw [← replayPass_iff htol, Bool.not_eq_true]
  exact imp_iff_not_or

/-- Two requests alike. -/
def twins : List TraceRecord :=
  [{ ttftMs := 10, itlMs := some [5, 5] }, { ttftMs := 10, itlMs := some [5, 5], arrivalMs := some 1 }]

def twinResult (ttft : Option ℚ) : ReplayedRequest := ⟨ttft, [5, 5], [1, 1, 1]⟩

/-- The one that completed took twice as long as the schedule says. -/
theorem slowTwin_fails :
    replayPass twins [(0, twinResult (some 20)), (1, ⟨none, [], []⟩)] (1 / 10) = false := by
  refine (lost_fails_iff (by decide +kernel) (by decide +kernel) twins _).mpr (Or.inr ?_)
    ⟨_, List.mem_cons_of_mem _ List.mem_cons_self, rfl⟩
  intro hnear
  have hp50 := hnear.ttfts 50 (by decide) 10 20
    (isPercentile_sorted (by decide : 0 < 50) (by decide) (twins.map TraceRecord.ttftMs))
    (isPercentile_sorted (by decide : 0 < 50) (by decide)
      ((completed twins [(0, twinResult (some 20)), (1, ⟨none, [], []⟩)]).filterMap
        ReplayedRequest.ttftMs))
  exact absurd hp50 (by decide +kernel)

/-- A twin may be lost unnoticed. -/
theorem lostTwin_passes :
    ¬ ∀ (schedule : List TraceRecord) (results : List (ℕ × ReplayedRequest)) (tolerance : ℚ),
      0 ≤ tolerance → tolerance < 1 → SomeLost results →
        replayPass schedule results tolerance = false := by
  intro hclaim
  have hfails := hclaim twins [(0, twinResult (some 10)), (1, ⟨none, [], []⟩)] 0 (le_refl _)
    (by decide +kernel) ⟨_, List.mem_cons_of_mem _ List.mem_cons_self, rfl⟩
  exact absurd hfails (by decide +kernel)

end VllmVcr
