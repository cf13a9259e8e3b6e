import Mathlib.Algebra.Order.Ring.Cast
import Mathlib.Order.CompletePartialOrder
import Mathlib.Order.Interval.Set.Disjoint
import Mathlib.Tactic.Linarith
import VllmVcr.Intervals
import VllmVcr.Replay

/-!
# The Perfetto timeline

A trace as Chrome trace events: one track per lane, or per request, with a prefill span and one
decode span per gap, the counter tracks and the step track. The JSON writer is left out, the
document being its list of events.
-/

namespace VllmVcr

namespace Perfetto

def pid : ℕ := 1

def stepPid : ℕ := 2

structure TraceEvent where
  phase : String
  pid : ℕ
  tid : ℕ
  name : String
  cat : Option String := none
  ts : Option ℚ := none
  dur : Option ℚ := none
  cname : Option String := none
  args : Option (List (String × JsonValue)) := none

def colorPrefill : String := "rail_animation"

def colorDecode : String := "thread_state_running"

def colorMixed : String := "rail_load"

/-- What the document takes from the trace's meta line. -/
structure TraceMeta where
  model : Option String

structure PerfettoOptions where
  processName : Option String := none
  trackPerRequest : Bool := false

structure CounterSeries where
  name : String
  samples : List (ℚ × ℚ)

structure StepSpan where
  startMs : ℚ
  endMs : ℚ
  running : ℕ
  waiting : ℕ
  prefillRequests : ℕ
  prefillTokens : ℕ
  kvCacheUsage : ℚ
  spec : Option (ℕ × ℕ)

structure Overlays where
  counters : List CounterSeries := []
  steps : List StepSpan := []

structure PerfettoSummary where
  placedRequests : ℕ
  droppedRequests : ℕ
  events : ℕ

def us (ms : ℚ) : ℚ := ms * 1000

/-- Tokens delivered at TTFT. -/
def firstChunkTokens (record : TraceRecord) : ℕ :=
  match record.itlTokens with
  | some tokens => record.outputTokens - tokens.sum
  | none => min record.outputTokens 1

/-- Time the request occupied the timeline. -/
def spanDurationMs (record : TraceRecord) : ℚ :=
  let decodeMs :=
    match record.itlMs with
    | some gaps => gaps.sum
    | none => record.itlSummary.elim 0 (fun s => s.meanMs * s.count)
  record.ttftMs + decodeMs

/-- The output token ids covering a chunk, when recorded. -/
def tokenSlice (record : TraceRecord) (start len : ℕ) : Option (List Token) :=
  record.outputTokenIds.bind fun ids =>
    if start ≤ min (start + len) ids.length then
      some ((ids.take (min (start + len) ids.length)).drop start)
    else none

def jsonIds (ids : List Token) : JsonValue := .array (ids.map (fun t => .number t.toNat))

def reasonName : FinishReason → String
  | .stop => "stop"
  | .length => "length"
  | .abort => "abort"
  | .error => "error"
  | .repetition => "repetition"

def arrival (record : TraceRecord) : ℚ := record.arrivalMs.getD 0

/-- The size that the timeline gives the chunk closing gap `i`. -/
def chunkTokens (record : TraceRecord) (i : ℕ) : ℕ :=
  (record.itlTokens.bind (fun t => t[i]?)).getD 1

def prefillEvent (record : TraceRecord) (tid index : ℕ) : TraceEvent where
  phase := "X"
  pid := pid
  tid := tid
  name := s!"req{index} prefill"
  cat := some "prefill"
  ts := some (us (arrival record))
  dur := some (us record.ttftMs)
  cname := some colorPrefill
  args := some ([("req", .number index), ("prompt_tokens", .number record.promptTokens),
    ("cached_tokens", .number record.cachedTokens), ("output_tokens", .number record.outputTokens),
    ("ttft_ms", .float record.ttftMs), ("first_chunk_tokens", .number (firstChunkTokens record))] ++
    record.finishReason.toList.map (fun reason => ("finish_reason", .string (reasonName reason))) ++
    (tokenSlice record 0 (firstChunkTokens record)).toList.map (fun ids => ("token_ids", jsonIds ids)))

/-- The decode span of gap `i`, which starts at `clock` with the ids from `cursor` on. -/
def decodeEvent (record : TraceRecord) (tid index i : ℕ) (gapMs clock : ℚ) (cursor : ℕ) :
    TraceEvent where
  phase := "X"
  pid := pid
  tid := tid
  name := if chunkTokens record i = 1 then "decode" else s!"decode x{chunkTokens record i}"
  cat := some "decode"
  ts := some (us clock)
  dur := some (us gapMs)
  cname := some colorDecode
  args := some ([("req", .number index), ("gap_ms", .float gapMs),
    ("tokens", .number (chunkTokens record i))] ++
    (record.itlCtx.bind (fun ctx => ctx.numRunning[i]?)).toList.map
      (fun n => ("num_running", .number n)) ++
    (record.itlCtx.bind (fun ctx => ctx.prefillTokens[i]?)).toList.map
      (fun p => ("prefill_tokens", .number p)) ++
    (tokenSlice record cursor (chunkTokens record i)).toList.map
      (fun ids => ("token_ids", jsonIds ids)))

/-- The decode spans of the gaps from the `i`-th on, with their counter samples. -/
def decodeEvents (record : TraceRecord) (tid index : ℕ) :
    ℕ → ℚ → ℕ → List ℚ → List TraceEvent × List (ℚ × ℚ) × List (ℚ × ℚ)
  | _, _, _, [] => ([], [], [])
  | i, clock, cursor, gapMs :: gaps =>
    let running := (record.itlCtx.bind (fun ctx => ctx.numRunning[i]?)).toList.map
      (fun n => (clock + gapMs, (n : ℚ)))
    let prefill := (record.itlCtx.bind (fun ctx => ctx.prefillTokens[i]?)).toList.map
      (fun p => (clock + gapMs, (p : ℚ)))
    let (events, runnings, prefills) := decodeEvents record tid index (i + 1) (clock + gapMs)
      (cursor + chunkTokens record i) gaps
    (decodeEvent record tid index i gapMs clock cursor :: events, running ++ runnings,
      prefill ++ prefills)

/-- A request's prefill and decode spans on track `tid`, and its counter samples. -/
def emitRequest (record : TraceRecord) (tid index : ℕ) :
    List TraceEvent × List (ℚ × ℚ) × List (ℚ × ℚ) :=
  let (events, running, prefill) := decodeEvents record tid index 0
    (arrival record + record.ttftMs) (firstChunkTokens record) (record.itlMs.getD [])
  (prefillEvent record tid index :: events, running, prefill)

def spanEnd (record : TraceRecord) : ℚ := arrival record + spanDurationMs record

/-- Greedy interval partitioning: the lane of every request, and the number of lanes. -/
def assignLanes (records : List TraceRecord) : List ℕ × ℕ :=
  let (laneEnd, laneOf) := Intervals.assign arrival spanEnd records
  (laneOf, laneEnd.length)

/-- The requests in progress, sampled at every arrival and completion. -/
def activeRequestCounter (records : List TraceRecord) : List (ℚ × ℚ) :=
  (Intervals.counter arrival spanEnd records).map (fun sample => (sample.1, (sample.2 : ℚ)))

/-- One counter event per sample, sorted by time. -/
def emitCounter (name : String) (samples : List (ℚ × ℚ)) : List TraceEvent :=
  (samples.insertionSort (fun a b => a.1 ≤ b.1)).map fun sample =>
    { phase := "C", pid := pid, tid := 0, name := name, ts := some (us sample.1)
      args := some [(name, .float sample.2)] }

def metadata (pid tid : ℕ) (name label : String) : TraceEvent :=
  { phase := "M", pid := pid, tid := tid, name := name, args := some [("name", .string label)] }

def stepEvent (step : StepSpan) : TraceEvent :=
  let durMs := max (step.endMs - step.startMs) 0
  let prefilling := 0 < step.prefillRequests ∨ 0 < step.prefillTokens
  let shape : String × String × String :=
    if prefilling ∧ 0 < step.running then
      (s!"prefill+decode B{step.running} (+{step.prefillRequests}r {step.prefillTokens}t)",
        "step_prefill", colorMixed)
    else if prefilling then
      (s!"prefill (+{step.prefillRequests}r {step.prefillTokens}t)", "step_prefill", colorPrefill)
    else (s!"decode B{step.running}", "step_decode", colorDecode)
  { phase := "X", pid := stepPid, tid := 1, name := shape.1, cat := some shape.2.1
    ts := some (us step.startMs), dur := some (us durMs), cname := some shape.2.2
    args := some ([("running", .number step.running), ("waiting", .number step.waiting),
      ("prefill_requests", .number step.prefillRequests),
      ("prefill_tokens", .number step.prefillTokens),
      ("kv_cache_usage", .float step.kvCacheUsage), ("step_ms", .float durMs)] ++
      step.spec.toList.flatMap (fun spec =>
        [("accepted", .number spec.1), ("draft", .number spec.2)])) }

def emitStepTrack (steps : List StepSpan) : List TraceEvent :=
  if steps.isEmpty then []
  else metadata stepPid 0 "process_name" "scheduler steps" ::
    metadata stepPid 1 "thread_name" "steps" :: steps.map stepEvent

/-- The records that have an arrival time, in arrival order. -/
def placed (records : List TraceRecord) : List TraceRecord :=
  (records.filter (fun r => r.arrivalMs.isSome)).insertionSort (fun a b => arrival a ≤ arrival b)

/-- The track of every placed request and the labels of the tracks. -/
def tracks (opts : PerfettoOptions) (placed : List TraceRecord) : List ℕ × List String :=
  if opts.trackPerRequest then
    (List.range placed.length,
      placed.mapIdx (fun i r => s!"req {i} (p{r.promptTokens} o{r.outputTokens})"))
  else
    ((assignLanes placed).1, (List.range (assignLanes placed).2).map (fun lane => s!"lane {lane}"))

/-- The spans of the placed requests. -/
def requestSpans (opts : PerfettoOptions) (placed : List TraceRecord) :
    List (List TraceEvent × List (ℚ × ℚ) × List (ℚ × ℚ)) :=
  placed.mapIdx (fun index record =>
    emitRequest record (((tracks opts placed).1[index]?).getD 0 + 1) index)

def writePerfetto (traceMeta : TraceMeta) (records : List TraceRecord) (overlays : Overlays)
    (opts : PerfettoOptions) : List TraceEvent × PerfettoSummary :=
  let placedRecords := placed records
  let processName := opts.processName.getD
    ((traceMeta.model.map (fun m => s!"inference trace: {m}")).getD "inference trace")
  let spans := requestSpans opts placedRecords
  let events := metadata pid 0 "process_name" processName ::
    (tracks opts placedRecords).2.mapIdx (fun track label =>
      metadata pid (track + 1) "thread_name" label) ++
    spans.flatMap (fun s => s.1) ++
    emitCounter "active_requests" (activeRequestCounter placedRecords) ++
    emitCounter "engine_running" (spans.flatMap (fun s => s.2.1)) ++
    emitCounter "prefill_tokens" (spans.flatMap (fun s => s.2.2)) ++
    overlays.counters.flatMap (fun series => emitCounter series.name series.samples) ++
    emitStepTrack overlays.steps
  (events, {
    placedRequests := placedRecords.length
    droppedRequests := records.length - placedRecords.length
    events := events.length })

/-! ## Lanes and the active requests -/

/-- The arrivals are in order and no request lasts a negative time. -/
theorem arranged {records : List TraceRecord}
    (hsorted : records.Pairwise (fun a b => arrival a ≤ arrival b))
    (hduration : ∀ r ∈ records, 0 ≤ spanDurationMs r) :
    Intervals.Arranged arrival spanEnd records :=
  ⟨hsorted, fun r hr => le_add_of_nonneg_right (hduration r hr)⟩

/-- The earlier requests that have not completed when the request arrives. -/
def inProgress (earlier : List TraceRecord) (r : TraceRecord) : ℕ :=
  Intervals.busy spanEnd earlier (arrival r)

def peakSample (samples : List (ℚ × ℚ)) : ℚ := (samples.map Prod.snd).foldr max 0

theorem peakSample_counter (records : List TraceRecord) :
    peakSample (activeRequestCounter records) =
      (Intervals.peak (Intervals.counter arrival spanEnd records) : ℤ) := by
  rw [activeRequestCounter, peakSample, Intervals.peak]
  generalize Intervals.counter arrival spanEnd records = samples
  induction samples with
  | nil => simp
  | cons sample samples ih =>
      simp only [List.map_cons, List.foldr_cons] at ih ⊢
      rw [ih, Int.cast_max]

/-- The lanes are as many as the counter's peak exactly when every request of no length finds at
most as many others in progress as some request that lasts. -/
theorem lanes_eq_peak_iff {records : List TraceRecord}
    (hsorted : records.Pairwise (fun a b => arrival a ≤ arrival b))
    (hduration : ∀ r ∈ records, 0 ≤ spanDurationMs r) :
    ((assignLanes records).2 : ℚ) = peakSample (activeRequestCounter records) ↔
      ∀ earlier r later, records = earlier ++ r :: later → spanDurationMs r = 0 →
        ∃ earlier' r' later', records = earlier' ++ r' :: later' ∧ 0 < spanDurationMs r' ∧
          inProgress earlier r ≤ inProgress earlier' r' := by
  have hlanes : ((assignLanes records).2 : ℚ) = peakSample (activeRequestCounter records) ↔
      (((Intervals.assign arrival spanEnd records).1.length : ℕ) : ℤ) =
        Intervals.peak (Intervals.counter arrival spanEnd records) := by
    rw [peakSample_counter, assignLanes]
    exact_mod_cast Iff.rfl
  have hzero : ∀ r : TraceRecord, spanEnd r = arrival r ↔ spanDurationMs r = 0 := by
    intro r
    rw [spanEnd, add_eq_left]
  have hlasts : ∀ r : TraceRecord, arrival r < spanEnd r ↔ 0 < spanDurationMs r := by
    intro r
    rw [spanEnd, lt_add_iff_pos_right]
  rw [hlanes, Intervals.length_eq_peak_iff (arranged hsorted hduration)]
  simp only [hzero, hlasts]
  exact Iff.rfl

/-- A request of one token that came at once: one lane, and no request in progress. -/
def instantRecord : TraceRecord := { outputTokens := 1, arrivalMs := some 0 }

theorem instantRecord_lane : ¬ ∀ records : List TraceRecord,
    records.Pairwise (fun a b => arrival a ≤ arrival b) →
    (∀ r ∈ records, 0 ≤ spanDurationMs r) →
    ((assignLanes records).2 : ℚ) = peakSample (activeRequestCounter records) := by
  intro hclaim
  have hlane := hclaim [instantRecord] (List.pairwise_singleton _ _) (by decide +kernel)
  revert hlane
  decide +kernel

/-- A request that lasts from 0 to 2, and two that arrive as it ends: one of no length, and one that
lasts to 3. -/
def handOffs : List TraceRecord :=
  [{ outputTokens := 1, ttftMs := 2, arrivalMs := some 0 }, { outputTokens := 1, arrivalMs := some 2 },
    { outputTokens := 1, ttftMs := 1, arrivalMs := some 2 }]

theorem handOffs_lanes :
    ((assignLanes handOffs).2 : ℚ) = peakSample (activeRequestCounter handOffs) := by
  refine (lanes_eq_peak_iff (by decide +kernel) (by decide +kernel)).mpr ?_
  intro earlier r later hsplit hzero
  refine ⟨[], _, _, rfl, by decide +kernel, ?_⟩
  rcases earlier with _ | ⟨a, _ | ⟨b, earlier⟩⟩
  · exact le_rfl
  · simp only [handOffs, List.cons_append, List.nil_append, List.cons.injEq] at hsplit
    obtain ⟨rfl, rfl, _⟩ := hsplit
    decide +kernel
  · have hlast : spanDurationMs r = 1 := by
      simp only [handOffs, List.cons_append, List.cons.injEq] at hsplit
      obtain ⟨_, _, hrest⟩ := hsplit
      rcases earlier with _ | ⟨c, earlier⟩
      · obtain ⟨rfl, _⟩ := List.cons.inj hrest
        decide +kernel
      · simp at hrest
    rw [hlast] at hzero
    cases hzero

/-! ## The spans of a request -/

def TraceEvent.isRequestSpan (e : TraceEvent) : Bool := e.phase = "X" && e.pid = Perfetto.pid

/-- The index that every span of a request carries. -/
def TraceEvent.request (e : TraceEvent) : Option ℤ :=
  match e.args.bind (fun args => args.lookup "req") with
  | some (.number n) => some n
  | _ => none

/-- The time between the ends of an event, in microseconds. -/
def TraceEvent.interior (e : TraceEvent) : Set ℚ :=
  Set.Ioo (e.ts.getD 0) (e.ts.getD 0 + e.dur.getD 0)

/-- The spans follow each other from `start` on without a gap and end by `stop`. -/
def BackToBack (stop : ℚ) : ℚ → List TraceEvent → Prop
  | start, [] => start ≤ stop
  | start, e :: rest => ∃ durMs, 0 ≤ durMs ∧ e.ts = some (us start) ∧ e.dur = some (us durMs) ∧
      BackToBack stop (start + durMs) rest

/-- No recorded time is negative. -/
structure Forward (r : TraceRecord) : Prop where
  ttft : 0 ≤ r.ttftMs
  gaps : ∀ gaps, r.itlMs = some gaps → ∀ g ∈ gaps, 0 ≤ g
  summary : ∀ s, r.itlSummary = some s → 0 ≤ s.meanMs

theorem Forward.decode {r : TraceRecord} (h : Forward r) :
    0 ≤ spanDurationMs r - r.ttftMs ∧
      (r.itlMs.getD []).sum ≤ spanDurationMs r - r.ttftMs := by
  rw [spanDurationMs]
  cases hgaps : r.itlMs with
  | some gaps =>
      rw [Option.getD_some]
      simp only [add_sub_cancel_left]
      exact ⟨List.sum_nonneg (h.gaps gaps hgaps), le_rfl⟩
  | none =>
      rw [Option.getD_none, List.sum_nil]
      simp only [add_sub_cancel_left]
      have hmean : 0 ≤ r.itlSummary.elim 0 (fun s => s.meanMs * s.count) := by
        cases hs : r.itlSummary with
        | none => exact le_rfl
        | some s => exact mul_nonneg (h.summary s hs) (Nat.cast_nonneg _)
      exact ⟨hmean, hmean⟩

theorem Forward.duration {r : TraceRecord} (h : Forward r) : 0 ≤ spanDurationMs r := by
  have hdecode := h.decode.1
  have httft := h.ttft
  linarith

theorem decodeEvents_backToBack (record : TraceRecord) (tid index : ℕ) {stop : ℚ}
    {gaps : List ℚ} (hgaps : ∀ g ∈ gaps, 0 ≤ g) (i : ℕ) (clock : ℚ) (cursor : ℕ)
    (hstop : clock + gaps.sum ≤ stop) :
    BackToBack stop clock (decodeEvents record tid index i clock cursor gaps).1 := by
  induction gaps generalizing i clock cursor with
  | nil =>
      rw [List.sum_nil, add_zero] at hstop
      exact hstop
  | cons g gaps ih =>
      refine ⟨g, hgaps g List.mem_cons_self, rfl, rfl, ?_⟩
      refine ih (fun g hg => hgaps g (List.mem_cons_of_mem _ hg)) _ _ _ ?_
      rw [List.sum_cons] at hstop
      linarith

theorem emitRequest_backToBack {r : TraceRecord} (h : Forward r) (tid index : ℕ) :
    BackToBack (spanEnd r) (arrival r) (emitRequest r tid index).1 := by
  refine ⟨r.ttftMs, h.ttft, rfl, rfl, ?_⟩
  refine decodeEvents_backToBack r tid index (fun g hg => ?_) _ _ _ ?_
  · cases hgaps : r.itlMs with
    | none =>
        rw [hgaps] at hg
        cases hg
    | some gaps =>
        rw [hgaps] at hg
        exact h.gaps gaps hgaps g hg
  · have hdecode := h.decode.2
    rw [spanEnd]
    linarith

/-- Spans that follow each other lie within their ends, and apart from each other. -/
theorem BackToBack.apart {stop start : ℚ} {events : List TraceEvent}
    (h : BackToBack stop start events) :
    (∀ e ∈ events, us start ≤ e.ts.getD 0 ∧ e.ts.getD 0 + e.dur.getD 0 ≤ us stop) ∧
      events.Pairwise (fun a b => Disjoint a.interior b.interior) ∧ start ≤ stop := by
  induction events generalizing start with
  | nil => exact ⟨by simp, List.Pairwise.nil, h⟩
  | cons e events ih =>
      obtain ⟨durMs, hdur, hts, hduration, hrest⟩ := h
      obtain ⟨hwithin, hapart, hle⟩ := ih hrest
      have hend : e.ts.getD 0 + e.dur.getD 0 = us (start + durMs) := by
        rw [hts, hduration, Option.getD_some, Option.getD_some, us, us, us, add_mul]
      have hmono : ∀ x y : ℚ, x ≤ y → us x ≤ us y := by
        intro x y hxy
        rw [us, us]
        linarith
      refine ⟨?_, List.pairwise_cons.mpr ⟨fun b hb => ?_, hapart⟩, by linarith⟩
      · rintro b (_ | ⟨_, hb⟩)
        · rw [hend, hts, Option.getD_some]
          exact ⟨le_rfl, hmono _ _ hle⟩
        · have hb' := hwithin b hb
          exact ⟨(hmono _ _ (by linarith)).trans hb'.1, hb'.2⟩
      · rw [Set.disjoint_left]
        intro x hx hx'
        have hb' := (hwithin b hb).1
        have hlt := hx.2
        rw [hend] at hlt
        exact absurd (hlt.trans_le hb') (not_lt.mpr hx'.1.le)

theorem mem_emitRequest {r : TraceRecord} {tid index : ℕ} {e : TraceEvent}
    (h : e ∈ (emitRequest r tid index).1) :
    e.isRequestSpan = true ∧ e.tid = tid ∧ e.request = some (index : ℤ) := by
  have hdecode : ∀ gaps i clock cursor, ∀ e ∈ (decodeEvents r tid index i clock cursor gaps).1,
      e.isRequestSpan = true ∧ e.tid = tid ∧ e.request = some (index : ℤ) := by
    intro gaps
    induction gaps with
    | nil => simp [decodeEvents]
    | cons g gaps ih =>
        rintro i clock cursor e (_ | ⟨_, he⟩)
        · exact ⟨rfl, rfl, rfl⟩
        · exact ih _ _ _ e he
  rcases List.mem_cons.mp h with rfl | he
  · exact ⟨rfl, rfl, rfl⟩
  · exact hdecode _ _ _ _ e he

/-! ## The document -/

theorem filter_mapIdx_flatten {α β : Type*} {f : ℕ → α → List β} {key : β → Option ℤ}
    (hkey : ∀ i a, ∀ b ∈ f i a, key b = some (i : ℤ)) {l : List α} {k : ℕ} {a : α}
    (hk : l[k]? = some a) :
    (l.mapIdx f).flatten.filter (fun b => key b = some (k : ℤ)) = f k a := by
  induction l using List.reverseRecOn with
  | nil => simp at hk
  | append_singleton l x ih =>
      have hbelow : ∀ b ∈ (l.mapIdx f).flatten, ∃ i < l.length, key b = some (i : ℤ) := by
        intro b hb
        obtain ⟨bs, hbs, hb⟩ := List.mem_flatten.mp hb
        obtain ⟨i, hi, rfl⟩ := List.mem_mapIdx.mp hbs
        exact ⟨i, hi, hkey i _ b hb⟩
      rw [List.mapIdx_concat, List.flatten_append, List.filter_append, List.flatten_singleton]
      have hlt : k < l.length + 1 := by simpa using (List.getElem?_eq_some_iff.mp hk).1
      rcases Nat.lt_succ_iff_lt_or_eq.mp hlt with hin | rfl
      · rw [List.getElem?_append_left hin] at hk
        have hnone : (f l.length x).filter (fun b => key b = some (k : ℤ)) = [] := by
          refine List.filter_eq_nil_iff.mpr (fun b hb hsame => ?_)
          rw [hkey _ _ b hb, decide_eq_true_eq, Option.some.injEq] at hsame
          omega
        rw [ih hk, hnone, List.append_nil]
      · rw [List.getElem?_concat_length, Option.some.injEq] at hk
        have hnone : (l.mapIdx f).flatten.filter (fun b => key b = some (l.length : ℤ)) = [] := by
          refine List.filter_eq_nil_iff.mpr (fun b hb hsame => ?_)
          obtain ⟨i, hi, hsome⟩ := hbelow b hb
          rw [hsome, decide_eq_true_eq, Option.some.injEq] at hsame
          omega
        rw [hnone, List.nil_append, List.filter_eq_self.mpr, hk]
        exact fun b hb => decide_eq_true (hkey _ _ b hb)

/-- The spans of the placed requests, in the order they are emitted. -/
def spans (opts : PerfettoOptions) (placed : List TraceRecord) : List TraceEvent :=
  (requestSpans opts placed).flatMap (fun s => s.1)

theorem spans_eq (opts : PerfettoOptions) (placed : List TraceRecord) :
    spans opts placed = (placed.mapIdx (fun index record =>
      (emitRequest record (((tracks opts placed).1[index]?).getD 0 + 1) index).1)).flatten := by
  rw [spans, requestSpans, List.flatMap]
  congr 1
  apply List.ext_getElem?
  intro i
  rw [List.getElem?_map, List.getElem?_mapIdx, List.getElem?_mapIdx, Option.map_map]
  rfl

/-- The request spans of the document are those of the placed requests. -/
theorem writePerfetto_spans (traceMeta : TraceMeta) (records : List TraceRecord)
    (overlays : Overlays) (opts : PerfettoOptions) :
    (writePerfetto traceMeta records overlays opts).1.filter TraceEvent.isRequestSpan =
      spans opts (placed records) := by
  have hnone : ∀ (events : List TraceEvent), (∀ e ∈ events, e.isRequestSpan = false) →
      events.filter TraceEvent.isRequestSpan = [] :=
    fun events h => List.filter_eq_nil_iff.mpr (fun e he => by simp [h e he])
  have hcounter : ∀ name samples, ∀ e ∈ emitCounter name samples, e.isRequestSpan = false := by
    intro name samples e he
    obtain ⟨sample, _, rfl⟩ := List.mem_map.mp he
    rfl
  have hsteps : ∀ e ∈ emitStepTrack overlays.steps, e.isRequestSpan = false := by
    intro e he
    unfold emitStepTrack at he
    split at he
    · cases he
    · rcases List.mem_cons.mp he with rfl | he
      · rfl
      · rcases List.mem_cons.mp he with rfl | he
        · rfl
        · obtain ⟨step, _, rfl⟩ := List.mem_map.mp he
          simp [TraceEvent.isRequestSpan, stepEvent, stepPid, Perfetto.pid]
  have hlabels : ∀ e ∈ (tracks opts (placed records)).2.mapIdx (fun track label =>
      metadata pid (track + 1) "thread_name" label), e.isRequestSpan = false := by
    intro e he
    obtain ⟨i, hi, rfl⟩ := List.mem_mapIdx.mp he
    rfl
  have hspans : ∀ e ∈ spans opts (placed records), e.isRequestSpan = true := by
    rw [spans_eq]
    intro e he
    obtain ⟨events, hevents, he⟩ := List.mem_flatten.mp he
    obtain ⟨i, hi, rfl⟩ := List.mem_mapIdx.mp hevents
    exact (mem_emitRequest he).1
  rw [writePerfetto]
  simp only [List.cons_append]
  rw [List.filter_cons_of_neg (by simp [metadata, TraceEvent.isRequestSpan])]
  simp only [List.filter_append]
  rw [hnone _ hlabels, hnone _ hsteps, hnone _ (hcounter _ _), hnone _ (hcounter _ _),
    hnone _ (hcounter _ _), hnone (overlays.counters.flatMap _)]
  · simp only [List.append_nil, List.nil_append]
    exact List.filter_eq_self.mpr hspans
  · intro e he
    obtain ⟨series, _, he⟩ := List.mem_flatMap.mp he
    exact hcounter _ _ e he

theorem placed_sorted (records : List TraceRecord) :
    (placed records).Pairwise (fun a b => arrival a ≤ arrival b) := by
  have : Std.Total (fun a b : TraceRecord => arrival a ≤ arrival b) := ⟨fun a b => le_total _ _⟩
  have : IsTrans TraceRecord (fun a b => arrival a ≤ arrival b) := ⟨fun _ _ _ => le_trans⟩
  exact List.pairwise_insertionSort _ _

theorem mem_placed {records : List TraceRecord} {r : TraceRecord} (h : r ∈ placed records) :
    r ∈ records :=
  List.mem_of_mem_filter ((List.mem_insertionSort _).mp h)

/-- Of two requests on one track, the earlier ends before the later arrives. -/
theorem tracks_apart {placed : List TraceRecord}
    (hsorted : placed.Pairwise (fun a b => arrival a ≤ arrival b))
    (hforward : ∀ r ∈ placed, Forward r) (opts : PerfettoOptions) {j k : ℕ} {a b : TraceRecord}
    (hjk : j < k) (ha : placed[j]? = some a) (hb : placed[k]? = some b)
    (htrack : ((tracks opts placed).1[j]?).getD 0 = ((tracks opts placed).1[k]?).getD 0) :
    spanEnd a ≤ arrival b := by
  have hj := (List.getElem?_eq_some_iff.mp ha).1
  have hk := (List.getElem?_eq_some_iff.mp hb).1
  unfold tracks at htrack
  split at htrack
  · rw [List.getElem?_range hj, List.getElem?_range hk, Option.getD_some, Option.getD_some] at htrack
    omega
  · have hlaid := Intervals.assign_laid
      (arranged hsorted (fun r hr => (hforward r hr).duration))
    obtain ⟨i, hi⟩ : ∃ i, (Intervals.assign arrival spanEnd placed).2[j]? = some i :=
      ⟨_, List.getElem?_eq_getElem (hlaid.length.symm ▸ hj)⟩
    obtain ⟨i', hi'⟩ : ∃ i, (Intervals.assign arrival spanEnd placed).2[k]? = some i :=
      ⟨_, List.getElem?_eq_getElem (hlaid.length.symm ▸ hk)⟩
    have hlanes : (assignLanes placed).1 = (Intervals.assign arrival spanEnd placed).2 := rfl
    simp only [hlanes, hi, hi', Option.getD_some] at htrack
    subst htrack
    exact hlaid.apart j k i a b hjk hi hi' ha hb

/-- Spans on one track never overlap, and those of a request follow each other from its arrival
to its end. -/
theorem tracks_never_overlap (traceMeta : TraceMeta) {records : List TraceRecord}
    (hforward : ∀ r ∈ records, Forward r) (overlays : Overlays) (opts : PerfettoOptions) :
    ((writePerfetto traceMeta records overlays opts).1.filter
      TraceEvent.isRequestSpan).Pairwise
        (fun a b => a.tid = b.tid → Disjoint a.interior b.interior) ∧
    ∀ (index : ℕ) (r : TraceRecord), (placed records)[index]? = some r →
      BackToBack (arrival r + spanDurationMs r) (arrival r)
        (((writePerfetto traceMeta records overlays opts).1.filter
          TraceEvent.isRequestSpan).filter (fun e => e.request = some (index : ℤ))) := by
  have hplaced : ∀ r ∈ placed records, Forward r := fun r hr => hforward r (mem_placed hr)
  rw [writePerfetto_spans, spans_eq]
  constructor
  · rw [List.pairwise_flatten]
    constructor
    · intro events hevents
      obtain ⟨i, hi, rfl⟩ := List.mem_mapIdx.mp hevents
      have hspans := emitRequest_backToBack (hplaced _ (List.getElem_mem hi))
        (((tracks opts (placed records)).1[i]?).getD 0 + 1) i
      refine List.Pairwise.imp ?_ hspans.apart.2.1
      exact fun hapart _ => hapart
    · rw [List.pairwise_iff_getElem]
      intro j k hj hk hjk a ha b hb htid
      rw [List.length_mapIdx] at hj hk
      rw [List.getElem_mapIdx] at ha hb
      have hwithin := (emitRequest_backToBack (hplaced _ (List.getElem_mem hj)) _ _).apart.1 a ha
      have hwithin' := (emitRequest_backToBack (hplaced _ (List.getElem_mem hk)) _ _).apart.1 b hb
      rw [(mem_emitRequest ha).2.1, (mem_emitRequest hb).2.1] at htid
      have hends := tracks_apart (placed_sorted records) hplaced opts hjk
        (List.getElem?_eq_getElem hj) (List.getElem?_eq_getElem hk) (Nat.succ.inj htid)
      rw [Set.disjoint_left]
      intro x hx hx'
      have hstop : us (spanEnd (placed records)[j]) ≤ us (arrival (placed records)[k]) := by
        rw [us, us]
        linarith
      exact absurd (hx.2.trans_le (hwithin.2.trans (hstop.trans hwithin'.1)))
        (not_lt.mpr hx'.1.le)
  · intro index r hr
    rw [filter_mapIdx_flatten (fun i a e he => (mem_emitRequest he).2.2) hr]
    exact emitRequest_backToBack (hplaced r (List.mem_of_getElem? hr)) _ _

/-- Three requests on two lanes, with a decode gap and a summary. -/
def sharedLanes : List TraceRecord :=
  [{ outputTokens := 2, ttftMs := 40, itlMs := some [60], arrivalMs := some 50 },
    { outputTokens := 1, ttftMs := 10 },
    { outputTokens := 3, ttftMs := 10, itlSummary := some ⟨20, 2⟩, arrivalMs := some 0 },
    { outputTokens := 1, ttftMs := 5, arrivalMs := some 60 }]

theorem sharedLanes_apart :
    (tracks {} (placed sharedLanes)).1 = [0, 0, 1] ∧
      ((writePerfetto ⟨none⟩ sharedLanes {} {}).1.filter TraceEvent.isRequestSpan).Pairwise
        (fun a b => a.tid = b.tid → Disjoint a.interior b.interior) := by
  refine ⟨by decide +kernel, (tracks_never_overlap ⟨none⟩ (fun r hr => ?_) {} {}).1⟩
  simp only [sharedLanes, List.mem_cons, List.not_mem_nil, or_false] at hr
  rcases hr with rfl | rfl | rfl | rfl
  · exact ⟨by norm_num, by simp, by simp⟩
  · exact ⟨by norm_num, by simp, by simp⟩
  · exact ⟨by norm_num, by simp, by simp⟩
  · exact ⟨by norm_num, by simp, by simp⟩

end Perfetto

end VllmVcr
