import VllmVcr.Calibration
import VllmVcr.TraceLatency

/-!
# The calibration tables

Source and measured samples are bucketed by the concurrency of the source record, each side drops
its empty buckets, and the tables pair the two lists by position.
-/

namespace VllmVcr

/-- Nearest-rank percentile of sorted samples. -/
def percentile (sorted : List ℚ) (pct : ℕ) : ℚ :=
  sorted.getD (min ((pct * sorted.length + 99) / 100 - 1) (sorted.length - 1)) 0

structure Quantiles where
  p50 : ℚ
  p90 : ℚ
  p99 : ℚ
  deriving DecidableEq

def Quantiles.fromSorted (sorted : List ℚ) : Quantiles where
  p50 := percentile sorted 50
  p90 := percentile sorted 90
  p99 := percentile sorted 99

structure BucketQuantiles where
  concurrencyLabel : String
  count : ℕ
  ttft : Quantiles
  itl : Quantiles
  deriving DecidableEq

def concurrencyLabel (bucket : ℕ) : String :=
  match concurrencyRanges[bucket]? with
  | some (lo, hi) =>
      if hi = 2 ^ 64 - 1 then s!"{lo}+" else if lo = hi then s!"{lo}" else s!"{lo}-{hi}"
  | none => s!"bucket-{bucket}"

def sorted (samples : List ℚ) : List ℚ := samples.insertionSort (· ≤ ·)

def inBucket (bucket : ℕ) (r : TraceRecord) : Bool := concurrencyBucket r.concurrency = bucket

/-- Labels for the buckets that have first-token times, in order. -/
def labelBuckets (buckets : List (List ℚ × List ℚ)) : List (String × List ℚ × List ℚ) :=
  (buckets.zipIdx.filter (fun b => !b.1.1.isEmpty)).map
    (fun b => (concurrencyLabel b.2, sorted b.1.1, sorted b.1.2))

/-- The samples of a source bucket. -/
def sourceBucket (records : List TraceRecord) (bucket : ℕ) : List ℚ × List ℚ :=
  ((records.filter (inBucket bucket)).map TraceRecord.ttftMs,
    (records.filter (inBucket bucket)).flatMap TraceRecord.itlSamples)

def sourceSamplesByBucket (records : List TraceRecord) : List (String × List ℚ × List ℚ) :=
  labelBuckets ((List.range numConcurrencyBuckets).map (sourceBucket records))

def poolSamples (records : List TraceRecord) : List ℚ × List ℚ :=
  (sorted (records.map TraceRecord.ttftMs), sorted (records.flatMap TraceRecord.itlSamples))

def quantilesFromBuckets (buckets : List (String × List ℚ × List ℚ))
    (pooledTtft pooledItl : List ℚ) : List BucketQuantiles :=
  buckets.map (fun b => ⟨b.1, b.2.1.length, .fromSorted b.2.1, .fromSorted b.2.2⟩) ++
    [⟨"pooled", pooledTtft.length, .fromSorted pooledTtft, .fromSorted pooledItl⟩]

def bucketsFromMeasured (bucketTtfts bucketItls : List (List ℚ)) :
    List (String × List ℚ × List ℚ) × List ℚ × List ℚ :=
  let kept := (bucketTtfts.zip bucketItls).filter (fun b => !b.1.isEmpty)
  (labelBuckets (bucketTtfts.zip bucketItls), sorted (kept.flatMap Prod.fst),
    sorted (kept.flatMap Prod.snd))

/-- What the requests of a bucket measured; one without a first token counts for nothing. -/
def measuredBucket (measured : List (TraceRecord × ReplayedRequest)) (bucket : ℕ) :
    List ℚ × List ℚ :=
  let sent := (measured.filter (fun m => inBucket bucket m.1)).map Prod.snd
  (sent.filterMap ReplayedRequest.ttftMs,
    (sent.filter (fun m => m.ttftMs.isSome)).flatMap ReplayedRequest.gapsMs)

def measuredSamples (measured : List (TraceRecord × ReplayedRequest)) :
    List (String × List ℚ × List ℚ) × List ℚ × List ℚ :=
  bucketsFromMeasured
    ((List.range numConcurrencyBuckets).map (fun cb => (measuredBucket measured cb).1))
    ((List.range numConcurrencyBuckets).map (fun cb => (measuredBucket measured cb).2))

def sourceStats (records : List TraceRecord) : List BucketQuantiles :=
  quantilesFromBuckets (sourceSamplesByBucket records) (poolSamples records).1
    (poolSamples records).2

def replayStats (measured : List (TraceRecord × ReplayedRequest)) : List BucketQuantiles :=
  quantilesFromBuckets (measuredSamples measured).1 (measuredSamples measured).2.1
    (measuredSamples measured).2.2

/-- The rows of both tables of `write_report`, label and count from the source side. -/
def reportRows (records : List TraceRecord) (measured : List (TraceRecord × ReplayedRequest)) :
    List (BucketQuantiles × BucketQuantiles) :=
  (sourceStats records).zip (replayStats measured)

/-! ## Rows -/

/-- The row of a bucket, from its samples. -/
def bucketRow (bucket : ℕ) (samples : List ℚ × List ℚ) : BucketQuantiles :=
  ⟨concurrencyLabel bucket, samples.1.length, .fromSorted (sorted samples.1),
    .fromSorted (sorted samples.2)⟩

def sourcePooled (records : List TraceRecord) : BucketQuantiles :=
  ⟨"pooled", (poolSamples records).1.length, .fromSorted (poolSamples records).1,
    .fromSorted (poolSamples records).2⟩

def replayPooled (measured : List (TraceRecord × ReplayedRequest)) : BucketQuantiles :=
  ⟨"pooled", (measuredSamples measured).2.1.length, .fromSorted (measuredSamples measured).2.1,
    .fromSorted (measuredSamples measured).2.2⟩

/-- The buckets that one side keeps. -/
def keptBuckets (samples : ℕ → List ℚ × List ℚ) : List ℕ :=
  (List.range numConcurrencyBuckets).filter (fun cb => !(samples cb).1.isEmpty)

theorem labelBuckets_rows (samples : ℕ → List ℚ × List ℚ) :
    (labelBuckets ((List.range numConcurrencyBuckets).map samples)).map
        (fun b => (⟨b.1, b.2.1.length, .fromSorted b.2.1, .fromSorted b.2.2⟩ : BucketQuantiles)) =
      (keptBuckets samples).map (fun cb => bucketRow cb (samples cb)) := by
  have hindexed : ((List.range numConcurrencyBuckets).map samples).zipIdx =
      (List.range numConcurrencyBuckets).map (fun cb => (samples cb, cb)) := by
    apply List.ext_getElem
    · simp
    · intro i hi hi'
      simp
  rw [labelBuckets, hindexed, List.filter_map, List.map_map, List.map_map, keptBuckets]
  refine List.map_congr_left (fun cb _ => ?_)
  simp only [Function.comp_apply, bucketRow, sorted, List.length_insertionSort]

theorem sourceStats_eq (records : List TraceRecord) :
    sourceStats records = (keptBuckets (sourceBucket records)).map
      (fun cb => bucketRow cb (sourceBucket records cb)) ++ [sourcePooled records] := by
  rw [sourceStats, quantilesFromBuckets, sourceSamplesByBucket, labelBuckets_rows]
  rfl

theorem replayStats_eq (measured : List (TraceRecord × ReplayedRequest)) :
    replayStats measured = (keptBuckets (measuredBucket measured)).map
      (fun cb => bucketRow cb (measuredBucket measured cb)) ++ [replayPooled measured] := by
  have hzip : ((List.range numConcurrencyBuckets).map (fun cb => (measuredBucket measured cb).1)).zip
      ((List.range numConcurrencyBuckets).map (fun cb => (measuredBucket measured cb).2)) =
        (List.range numConcurrencyBuckets).map (measuredBucket measured) := by
    rw [List.zip_map']
  have hlabels : (measuredSamples measured).1 =
      labelBuckets ((List.range numConcurrencyBuckets).map (measuredBucket measured)) := by
    rw [measuredSamples, bucketsFromMeasured, hzip]
  rw [replayStats, quantilesFromBuckets, hlabels, labelBuckets_rows]
  rfl

theorem mem_keptBuckets {samples : ℕ → List ℚ × List ℚ} {cb : ℕ} :
    cb ∈ keptBuckets samples ↔ cb < numConcurrencyBuckets ∧ (samples cb).1 ≠ [] := by
  simp [keptBuckets]

/-- Every row compares one bucket, or the pools, on both sides, and every row of the source
appears. -/
structure LikeWithLike (records : List TraceRecord)
    (measured : List (TraceRecord × ReplayedRequest)) : Prop where
  printed : (reportRows records measured).map Prod.fst = sourceStats records
  alike : ∀ row ∈ reportRows records measured,
    (∃ cb, row = (bucketRow cb (sourceBucket records cb), bucketRow cb (measuredBucket measured cb))) ∨
      row = (sourcePooled records, replayPooled measured)

section Rows

variable {records : List TraceRecord} {measured : List (TraceRecord × ReplayedRequest)}

theorem mem_kept_source {cb : ℕ} : cb ∈ keptBuckets (sourceBucket records) ↔
    ∃ r ∈ records, concurrencyBucket r.concurrency = cb := by
  rw [mem_keptBuckets, sourceBucket]
  simp only [ne_eq, List.map_eq_nil_iff, List.filter_eq_nil_iff, inBucket, decide_eq_true_eq,
    not_forall, not_not]
  constructor
  · rintro ⟨_, r, hr, hcb⟩
    exact ⟨r, hr, hcb⟩
  · rintro ⟨r, hr, rfl⟩
    exact ⟨concurrencyBucket_lt _, r, hr, rfl⟩

theorem mem_kept_measured {cb : ℕ} : cb ∈ keptBuckets (measuredBucket measured) ↔
    ∃ x ∈ measured, concurrencyBucket x.1.concurrency = cb ∧ x.2.ttftMs.isSome := by
  rw [mem_keptBuckets, measuredBucket]
  simp only [ne_eq, List.filterMap_eq_nil_iff, List.mem_map, List.mem_filter, inBucket,
    decide_eq_true_eq, not_forall]
  constructor
  · rintro ⟨_, m, ⟨x, ⟨hx, hcb⟩, rfl⟩, hsome⟩
    exact ⟨x, hx, hcb, Option.isSome_iff_ne_none.mpr hsome⟩
  · rintro ⟨x, hx, rfl, hsome⟩
    exact ⟨concurrencyBucket_lt _, x.2, ⟨x, ⟨hx, rfl⟩, rfl⟩, Option.isSome_iff_ne_none.mp hsome⟩

/-- The tables compare like with like exactly when every bucket of the source has a request that
delivered a first token. -/
theorem likeWithLike_iff (hsource : ∀ x ∈ measured, x.1 ∈ records) :
    LikeWithLike records measured ↔ ∀ r ∈ records, ∃ x ∈ measured,
      concurrencyBucket x.1.concurrency = concurrencyBucket r.concurrency ∧
        x.2.ttftMs.isSome := by
  have hsub : ∀ cb, cb ∈ keptBuckets (measuredBucket measured) →
      cb ∈ keptBuckets (sourceBucket records) := by
    intro cb hcb
    obtain ⟨x, hx, hbucket, _⟩ := mem_kept_measured.mp hcb
    exact mem_kept_source.mpr ⟨x.1, hsource x hx, hbucket⟩
  have hsublist : (keptBuckets (measuredBucket measured)).Sublist
      (keptBuckets (sourceBucket records)) := by
    have hboth : keptBuckets (measuredBucket measured) =
        (keptBuckets (sourceBucket records)).filter
          (fun cb => !(measuredBucket measured cb).1.isEmpty) := by
      rw [keptBuckets, keptBuckets, List.filter_filter]
      refine List.filter_congr (fun cb hcb => ?_)
      have hkept := hsub cb
      rw [mem_keptBuckets, mem_keptBuckets] at hkept
      cases h : (measuredBucket measured cb).1.isEmpty with
      | true => simp
      | false =>
          have hne := (hkept ⟨List.mem_range.mp hcb, by simpa using h⟩).2
          simp [hne]
    rw [hboth]
    exact List.filter_sublist
  constructor
  · intro h r hr
    have hlength := congrArg List.length h.printed
    rw [List.length_map, reportRows, List.length_zip, sourceStats_eq, replayStats_eq] at hlength
    simp only [List.length_append, List.length_map, List.length_singleton] at hlength
    have hsame := hsublist.eq_of_length_le (by omega)
    have hcb : concurrencyBucket r.concurrency ∈ keptBuckets (measuredBucket measured) :=
      hsame ▸ mem_kept_source.mpr ⟨r, hr, rfl⟩
    exact mem_kept_measured.mp hcb
  · intro h
    have hsame : keptBuckets (measuredBucket measured) = keptBuckets (sourceBucket records) := by
      refine hsublist.eq_of_length_le (List.Subperm.length_le ?_)
      refine (List.nodup_range.filter _).subperm (fun cb hcb => ?_)
      obtain ⟨r, hr, rfl⟩ := mem_kept_source.mp hcb
      exact mem_kept_measured.mpr (h r hr)
    have hrows : reportRows records measured = (keptBuckets (sourceBucket records)).map
        (fun cb => (bucketRow cb (sourceBucket records cb),
          bucketRow cb (measuredBucket measured cb))) ++
        [(sourcePooled records, replayPooled measured)] := by
      rw [reportRows, sourceStats_eq, replayStats_eq, hsame, List.zip_append (by simp),
        List.zip_map']
      rfl
    constructor
    · rw [hrows, sourceStats_eq, List.map_append, List.map_map]
      rfl
    · intro row hrow
      rw [hrows, List.mem_append, List.mem_map, List.mem_singleton] at hrow
      rcases hrow with ⟨cb, _, rfl⟩ | rfl
      · exact Or.inl ⟨cb, rfl⟩
      · exact Or.inr rfl

end Rows

/-- A request alone and one among five others, and what a replay may measure of each. -/
def twoBuckets : List TraceRecord :=
  [{ ttftMs := 10, concurrency := 1 }, { ttftMs := 40, concurrency := 6 }]

def twoBucketsMeasured (first second : Option ℚ) : List (TraceRecord × ReplayedRequest) :=
  twoBuckets.zip [⟨first, [], [1]⟩, ⟨second, [], [1]⟩]

theorem twoBuckets_alike : LikeWithLike twoBuckets (twoBucketsMeasured (some 11) (some 39)) := by
  refine (likeWithLike_iff (fun x hx => (List.of_mem_zip hx).1)).mpr ?_
  simp [twoBuckets]

/-- Without the first request's token, its row shows what the second measured. -/
theorem twoBuckets_lost :
    ¬ ∀ (records : List TraceRecord) (measured : List (TraceRecord × ReplayedRequest)),
      (∀ x ∈ measured, x.1 ∈ records) → LikeWithLike records measured := by
  intro hclaim
  have halike := hclaim twoBuckets (twoBucketsMeasured none (some 39))
    (fun x hx => (List.of_mem_zip hx).1)
  have hlength := congrArg List.length halike.printed
  rw [List.length_map, reportRows, List.length_zip, sourceStats_eq, replayStats_eq] at hlength
  exact absurd hlength (by decide +kernel)

end VllmVcr
