import VllmVcr.Engine.Lives
import VllmVcr.Engine.ClientOrder

/-!
# Seeded output

With the knob latency model and random tokens, the draws of a request's generator follow
one another in an order of their own: how many deviates a draw takes depends on no load
and no batch. So the tokens of a request are a function of its id, its parameters and its
recorded schedule, as far as they are generated.
-/

namespace VllmVcr

variable {env : Env} {now : Instant}

/-! ## What a knob draw takes from the generator -/

section Knobs

variable (env)

/-- The generator after a draw of this deviation. -/
def afterDeviate (stddev : ℕ) (rng : env.Rng) : env.Rng :=
  if stddev = 0 then rng else (env.normalDeviate rng).2

theorem randomNormTruncated_rng (rng : env.Rng) (mean stddev : ℕ) :
    (randomNormTruncated env rng mean stddev).2 = afterDeviate env stddev rng := by
  simp only [randomNormTruncated, randomNorm, afterDeviate, Nat.cast_eq_zero]
  split
  · rfl
  · rfl

namespace KnobLatency

variable (k : KnobLatency)

/-- The deviation of the first token's overhead. -/
def firstTokenStdDev (doRemotePrefill : Bool) : ℕ :=
  if doRemotePrefill then
    if k.kvCacheTransferLatency = 0 ∧ k.kvCacheTransferLatencyStdDev = 0 then
      k.kvCacheTransferTimeStdDev
    else k.kvCacheTransferLatencyStdDev
  else if k.timeToFirstToken = 0 ∧ k.timeToFirstTokenStdDev = 0 then k.prefillTimeStdDev
  else k.timeToFirstTokenStdDev

theorem interTokenDelay_rng (rng : env.Rng) (numRunning : ℕ) :
    (k.interTokenDelay env rng numRunning).2 = afterDeviate env k.interTokenLatencyStdDev rng :=
  randomNormTruncated_rng env _ _ _

theorem firstTokenDelay_rng (rng : env.Rng) (ctx : FirstTokenCtx) :
    (k.firstTokenDelay env rng ctx).2 =
      afterDeviate env (k.firstTokenStdDev ctx.doRemotePrefill) rng := by
  simp only [firstTokenDelay, firstTokenStdDev]
  by_cases hremote : ctx.doRemotePrefill = true
  · simp only [hremote, if_true]
    split
    · exact randomNormTruncated_rng env _ _ _
    · exact randomNormTruncated_rng env _ _ _
  · simp only [hremote, if_false, Bool.false_eq_true]
    split
    · exact randomNormTruncated_rng env _ _ _
    · exact randomNormTruncated_rng env _ _ _

end KnobLatency

end Knobs

open SimEngine

/-! ## The course of a request -/

/-- What the tokens of a request depend on. -/
structure Course (env : Env) where
  rng : env.Rng
  schedule : Option ScriptedDecode
  started : Bool
  drawn : Option ℕ
  tokens : List Token

namespace Course

/-- At most `n` random tokens, within the request's cap. -/
def emit (vocabSize maxTokens n : ℕ) (c : Course env) : Course env :=
  { c with
    rng := (randomTokens env vocabSize (min (maxTokens - c.tokens.length) n) c.rng).2
    drawn := none
    tokens := c.tokens ++
      (randomTokens env vocabSize (min (maxTokens - c.tokens.length) n) c.rng).1 }

/-- The next draw or generation of a request, and none once it reached its cap. -/
def next (opt : Opt) (vocabSize maxTokens : ℕ) (c : Course env) : Course env :=
  if c.started then
    match c.drawn with
    | some tokens =>
        c.emit vocabSize maxTokens (if 1 < tokens then tokens else opt.outputTokenChunkSize)
    | none =>
      if c.tokens.length < maxTokens then
        match c.schedule with
        | some ⟨first, draw :: rest⟩ =>
            { c with schedule := some ⟨first, rest⟩, drawn := some draw.tokens }
        | _ => { c with
            rng := afterDeviate env opt.latencyModel.interTokenLatencyStdDev c.rng
            drawn := some 1 }
      else c
  else
    { c with
      started := true
      rng := afterDeviate env (opt.latencyModel.firstTokenStdDev false) c.rng }.emit
        vocabSize maxTokens (c.schedule.elim opt.outputTokenChunkSize
          ScriptedDecode.firstChunkTokens)

theorem next_tokens (opt : Opt) (vocabSize maxTokens : ℕ) (c : Course env) :
    c.tokens <+: (c.next opt vocabSize maxTokens).tokens := by
  unfold next
  split
  · split
    · exact List.prefix_append _ _
    · split
      · split
        · exact List.prefix_rfl
        · exact List.prefix_rfl
      · exact List.prefix_rfl
  · exact List.prefix_append _ _

/-- A longer course has the tokens of a shorter one, and perhaps more. -/
theorem iterate_tokens {opt : Opt} {vocabSize maxTokens m n : ℕ} (h : m ≤ n) (c : Course env) :
    ((next opt vocabSize maxTokens)^[m] c).tokens <+:
      ((next opt vocabSize maxTokens)^[n] c).tokens := by
  induction n, h using Nat.le_induction with
  | base => exact List.prefix_rfl
  | succ n _ ih =>
      rw [Function.iterate_succ_apply']
      exact ih.trans (next_tokens opt vocabSize maxTokens _)

end Course

/-- Engines with these options, the knob latency model and random tokens. -/
def seeded (env : Env) (engineIndex : ℕ) (opt : Opt) (vocabSize : ℕ) : Settings env where
  allows i opt' latency source := i = engineIndex ∧ opt' = opt ∧
    latency = opt.latencyModel.model env ∧ source = .random vocabSize
  serves := by
    rintro i opt' latency source ctx n rng ⟨hi, hopt, hlatency, rfl⟩
    exact ⟨hi, hopt, hlatency, rfl⟩
  adds := by
    rintro i opt' latency source id prompt ⟨hi, hopt, hlatency, rfl⟩
    exact ⟨hi, hopt, hlatency, rfl⟩
  finishes := by
    rintro i opt' latency source id ⟨hi, hopt, hlatency, rfl⟩
    exact ⟨hi, hopt, hlatency, rfl⟩

namespace Life

/-- Where a life stands on the course of its request. -/
def course (l : Life env) : Course env where
  rng := l.request.rng
  schedule := l.request.scriptedDecode
  started := l.request.phase = .decode
  drawn := l.drawn
  tokens := l.chunks.flatMap PendingEmit.tokens

/-- A life within the cap, which has drawn only if it decodes. -/
structure Counted (maxTokens : ℕ) (l : Life env) : Prop where
  cap : l.request.maxTokens = maxTokens
  generated : l.request.generated = (l.chunks.flatMap PendingEmit.tokens).length
  drawn : l.drawn.isSome → l.request.phase = .decode

variable {maxTokens vocabSize : ℕ} {opt : Opt}

/-- Generating takes its tokens off the request's generator alone. -/
theorem generates_course {l : Life env} {e : SimEngine env} (h : l.Counted maxTokens)
    (hsource : e.tokenSource = .random vocabSize) (stepEnd : Instant) (n : ℕ) :
    (l.generates e stepEnd n).course = l.course.emit vocabSize maxTokens n ∧
      (l.generates e stepEnd n).Counted maxTokens := by
  obtain ⟨r, chunks, drawn⟩ := l
  obtain ⟨hcap, hgenerated, _⟩ := h
  simp only at hcap hgenerated
  have hlen : r.chunkLen n = min (maxTokens - (chunks.flatMap PendingEmit.tokens).length) n := by
    rw [ActiveRequest.chunkLen, hcap, hgenerated]
  by_cases hzero : r.chunkLen n = 0
  · have hnone : r.generate e.tokenSource stepEnd n e.opt.effectiveTimeScale e.emitSeq =
        (r, e.tokenSource, none) := by
      simp only [ActiveRequest.generate, if_pos hzero]
    rw [hlen] at hzero
    simp only [generates, hnone, Option.toList_none, List.append_nil]
    constructor
    · simp only [course, Course.emit, hzero, randomTokens, List.append_nil]
    · exact ⟨hcap, hgenerated, by simp⟩
  · have hsome : r.generate e.tokenSource stepEnd n e.opt.effectiveTimeScale e.emitSeq =
        ({ r with
          rng := (randomTokens env vocabSize (r.chunkLen n) r.rng).2
          generated := r.generated + (randomTokens env vocabSize (r.chunkLen n) r.rng).1.length
          pendingEmits := r.pendingEmits ++ [⟨stepEnd + r.emitOffset / e.opt.effectiveTimeScale,
            e.emitSeq, (randomTokens env vocabSize (r.chunkLen n) r.rng).1⟩] },
          .random vocabSize, some ⟨stepEnd + r.emitOffset / e.opt.effectiveTimeScale, e.emitSeq,
            (randomTokens env vocabSize (r.chunkLen n) r.rng).1⟩) := by
      simp only [ActiveRequest.generate, if_neg hzero, hsource, TokenSource.nextTokens]
    simp only [generates, hsome, Option.toList_some]
    constructor
    · simp only [course, Course.emit, hlen, List.flatMap_append, List.flatMap_singleton]
    · refine ⟨hcap, ?_, by simp⟩
      simp only [List.flatMap_append, List.flatMap_singleton, List.length_append, hgenerated]

/-- A step of a life is the next step of its request's course, or none at all. -/
theorem Step.course {engineIndex : ℕ} {l l' : Life env}
    (h : Step (seeded env engineIndex opt vocabSize) l l') (hl : l.Counted maxTokens) :
    l'.Counted maxTokens ∧ (l'.course = l.course ∨
      l'.course = l.course.next opt vocabSize maxTokens) := by
  cases h with
  | @draws r chunks e he hdecoding =>
      obtain ⟨_, hopt, hlatency, hsource⟩ := he
      obtain ⟨hcap, hgenerated, _⟩ := hl
      rw [ActiveRequest.isDecoding, Bool.and_eq_true, decide_eq_true_eq,
        ActiveRequest.isGenerating, decide_eq_true_eq] at hdecoding
      obtain ⟨hphase, hless⟩ := hdecoding
      simp only at hcap hgenerated
      rw [hcap, hgenerated] at hless
      have hpaced : (e.latency.pacedStep r.rng e.numRunning r.pacing).2.1 =
          afterDeviate env opt.latencyModel.interTokenLatencyStdDev r.rng ∧
            (e.latency.pacedStep r.rng e.numRunning r.pacing).1.tokens = 1 := by
        rw [hlatency]
        exact ⟨KnobLatency.interTokenDelay_rng env _ _ _, rfl⟩
      obtain ⟨hmax, hcount, hstands⟩ := e.drawFor_kept r
      refine ⟨⟨hmax.trans hcap, hcount.trans hgenerated, fun _ => hstands.trans hphase⟩, Or.inr ?_⟩
      rcases hscript : r.scriptedDecode with _ | ⟨first, _ | ⟨draw, rest⟩⟩
      · simp [Life.course, Course.next, drawFor, ActiveRequest.drawStep, hscript, hphase, hless,
          hpaced, -List.length_flatMap]
      · simp [Life.course, Course.next, drawFor, ActiveRequest.drawStep, hscript, hphase, hless,
          hpaced, -List.length_flatMap]
      · simp [Life.course, Course.next, drawFor, ActiveRequest.drawStep, hscript, hphase, hless,
          -List.length_flatMap]
  | @decodes r chunks tokens e he stepEnd =>
      obtain ⟨_, hopt, hlatency, hsource⟩ := he
      have hphase : r.phase = .decode := hl.drawn rfl
      obtain ⟨hcourse, hcounted⟩ := generates_course hl hsource stepEnd (e.decoderChunk tokens)
      refine ⟨hcounted, Or.inr ?_⟩
      rw [hcourse, decoderChunk, hopt]
      simp [Course.next, Life.course, hphase]
  | @prefills r chunks m n hphase =>
      refine ⟨⟨hl.cap, hl.generated, by simp⟩, Or.inl ?_⟩
      simp [Life.course, hphase]
  | @starts r chunks m e he numRunning stepEnd hphase =>
      obtain ⟨_, hopt, hlatency, hsource⟩ := he
      have hstarted : (Life.mk (e.startDecode numRunning r) chunks none).Counted maxTokens :=
        ⟨hl.cap, hl.generated, by simp⟩
      obtain ⟨hcourse, hcounted⟩ := generates_course hstarted hsource stepEnd
        (e.firstChunk (e.startDecode numRunning r))
      refine ⟨hcounted, Or.inr ?_⟩
      have hrng : (e.startDecode numRunning r).rng =
          afterDeviate env (opt.latencyModel.firstTokenStdDev false) r.rng := by
        simp only [startDecode, hlatency, KnobLatency.model]
        exact KnobLatency.firstTokenDelay_rng env _ _ _
      have hscript : (e.startDecode numRunning r).scriptedDecode = r.scriptedDecode := rfl
      have hfirst : e.firstChunk (e.startDecode numRunning r) =
          r.scriptedDecode.elim opt.outputTokenChunkSize ScriptedDecode.firstChunkTokens := by
        rw [firstChunk, hscript, hopt]
        cases r.scriptedDecode with
        | none => rfl
        | some s => rfl
      have hbegun : (Life.mk (e.startDecode numRunning r) chunks none).course =
          { (Life.mk r chunks none).course with
            started := true
            rng := afterDeviate env (opt.latencyModel.firstTokenStdDev false) r.rng } := by
        simp only [Life.course, hrng, hscript]
        rfl
      rw [hcourse, hfirst, hbegun]
      simp [Course.next, Life.course, hphase]
  | shows => exact ⟨⟨hl.cap, hl.generated, hl.drawn⟩, Or.inl rfl⟩

end Life

/-- How far a life has come on the course of its request. -/
theorem Lived.course {engineIndex vocabSize : ℕ} {opt : Opt} {r₀ : ActiveRequest env}
    {l : Life env} (h : Lived (seeded env engineIndex opt vocabSize) r₀ l)
    (hnew : r₀.generated = 0) : l.Counted r₀.maxTokens ∧
      ∃ n, l.course = (Course.next opt vocabSize r₀.maxTokens)^[n] (Life.mk r₀ [] none).course := by
  induction h with
  | refl => exact ⟨⟨rfl, hnew, by simp⟩, 0, rfl⟩
  | tail _ hstep ih =>
      obtain ⟨hcounted, n, hn⟩ := ih
      obtain ⟨hcounted', hsame | hnext⟩ := hstep.course hcounted
      · exact ⟨hcounted', n, hsame.trans hn⟩
      · refine ⟨hcounted', n + 1, ?_⟩
        rw [hnext, hn, Function.iterate_succ_apply']

/-! ## Where a course starts -/

/-- The course of a request that entered with this schedule. -/
def Course.start (env : Env) (engineIndex : ℕ) (opt : Opt) (request : EngineCoreRequest)
    (schedule : Option ScriptedDecode) : Course env where
  rng :=
    let rng := env.seedFromU64 (env.requestSeed opt.seed engineIndex request.requestId)
    if request.prefilledRemotely then
      afterDeviate env (opt.latencyModel.firstTokenStdDev true) rng
    else rng
  schedule := schedule
  started := request.prefilledRemotely
  drawn := none
  tokens := []

/-- The generation cap of a request with this schedule. -/
def scheduledCap (request : EngineCoreRequest) (schedule : Option ScriptedDecode) : ℕ :=
  let maxTokens := request.samplingParams.elim 0 EngineCoreSamplingParams.maxTokens
  schedule.elim maxTokens (fun s => min maxTokens s.outputTokens)

theorem ActiveRequest.new_course {engineIndex ticket : ℕ} {opt : Opt}
    {request : EngineCoreRequest} {admission : AdmissionCtx} {r : ActiveRequest env}
    (h : new engineIndex now request ticket opt (opt.latencyModel.model env) admission = .ok r) :
    (Life.mk r [] none).course = Course.start env engineIndex opt request none ∧
      r.maxTokens = scheduledCap request none := by
  simp only [new] at h
  split at h
  · cases h
  · next params hparams =>
      split at h
      · cases h
      · have hcap : capTokens opt (opt.latencyModel.model env) request.prompt.length params
            (env.seedFromU64 (env.requestSeed opt.seed engineIndex request.requestId)) =
              (params.maxTokens,
                env.seedFromU64 (env.requestSeed opt.seed engineIndex request.requestId)) := by
          simp only [capTokens, KnobLatency.model]
          split
          · rfl
          · rfl
        rw [hcap] at h
        cases h
        constructor
        · have hrng := fun rng ctx => KnobLatency.firstTokenDelay_rng env opt.latencyModel rng ctx
          by_cases hremote : request.prefilledRemotely = true
          · have hflag : request.extractKvParams.any
                (fun kv => kvFlag kv "do_remote_prefill") = true := hremote
            simp [Life.course, Course.start, hremote, hflag, KnobLatency.model, hrng]
          · have hflag : ¬ request.extractKvParams.any
                (fun kv => kvFlag kv "do_remote_prefill") = true := hremote
            simp [Life.course, Course.start, hremote, hflag]
        · simp [scheduledCap, hparams]

theorem Entered.course {engineIndex vocabSize k : ℕ} {opt : Opt}
    {requests : List EngineCoreRequest} {handed : List (ℕ × Option ScriptedDecode)}
    {r₀ : ActiveRequest env} {request : EngineCoreRequest}
    (h : Entered (seeded env engineIndex opt vocabSize) requests handed k r₀)
    (hk : requests[k]? = some request) : ∃ schedule, (k, schedule) ∈ handed ∧
      (Life.mk r₀ [] none).course = Course.start env engineIndex opt request schedule ∧
      r₀.maxTokens = scheduledCap request schedule ∧ r₀.generated = 0 := by
  obtain ⟨e, now, request', admission, active, schedule, ⟨hindex, hopt, hlatency, hsource⟩,
    hrequest, hmem, hbuild, rfl⟩ := h
  rw [hk, Option.some.injEq] at hrequest
  subst hrequest
  rw [hindex, hopt, hlatency] at hbuild
  obtain ⟨hcourse, hcap⟩ := ActiveRequest.new_course hbuild
  have hscript := (ActiveRequest.new_ok hbuild).scriptedDecode
  have hgenerated := (ActiveRequest.new_ok hbuild).generated
  rw [hsource]
  refine ⟨schedule, hmem, ?_⟩
  cases schedule with
  | none => exact ⟨hcourse, hcap, hgenerated⟩
  | some s =>
      refine ⟨?_, ?_, hgenerated⟩
      · have hpinned := congrArg (fun c : Course env => { c with schedule := some s }) hcourse
        exact hpinned
      · change min active.maxTokens s.outputTokens = _
        rw [hcap]
        rfl

/-! ## Request ids that are not reused -/

theorem eq_of_nodup_map {α β : Type*} {l : List α} {f : α → β} (h : (l.map f).Nodup) {i j : ℕ}
    {a b : α} (ha : l[i]? = some a) (hb : l[j]? = some b) (heq : f a = f b) : i = j := by
  have hi : i < (l.map f).length := by
    rw [List.length_map]
    exact (List.getElem?_eq_some_iff.mp ha).1
  apply (List.getElem?_inj hi h).mp
  rw [List.getElem?_map, List.getElem?_map, ha, hb, Option.map_some, Option.map_some, heq]

/-- Every id that the in-flight step lists is that of an admitted request. -/
def Listed (requests : List EngineCoreRequest) (e : SimEngine env) : Prop :=
  ∀ step, e.currentStep = some step → ∀ id, step.lists id = true →
    ∃ k request, k ∈ e.admissions ∧ requests[k]? = some request ∧ request.requestId = id

theorem Move.admissions_subset {e e' : SimEngine env} {effect : Effect}
    (h : Move now e effect e') (he : Sound e) : e.admissions ⊆ e'.admissions := by
  rcases h.entry he with ⟨hkept, _⟩ | ⟨q, r, hentry⟩
  · rw [hkept]
    exact fun _ hk => hk
  · rw [hentry.admissions]
    exact List.subset_append_left _ _

theorem Move.listed {source : Option StepSource} {requests : List EngineCoreRequest}
    {e e' : SimEngine env} {effect : Effect} (h : Move now e effect e') (he : Sound e)
    (hen : Enrolled e) (hi : Issued source requests e) (hl : Listed requests e) :
    Listed (requests ++ effect.issued) e' := by
  have hadmissions := h.admissions_subset he
  have hlater : ∀ {k : ℕ} {request : EngineCoreRequest}, requests[k]? = some request →
      (requests ++ effect.issued)[k]? = some request := by
    intro k request hk
    rw [List.getElem?_append_left (List.getElem?_eq_some_iff.mp hk).1, hk]
  have hkept : e'.currentStep = e.currentStep → Listed (requests ++ effect.issued) e' := by
    intro hsame step hstep id hid
    obtain ⟨k, request, hk, hrequest, hfiled⟩ := hl step (hsame ▸ hstep) id hid
    exact ⟨k, request, hadmissions hk, hlater hrequest, hfiled⟩
  cases h.batch he with
  | still _ _ hstep => exact hkept hstep
  | entered _ _ _ _ _ hstep => exact hkept hstep
  | withdrew _ _ hstep => exact hkept hstep
  | flushed => exact hkept (e.flush_flushed now).currentStep
  | executed =>
      intro step hstep
      rw [executeStep_currentStep] at hstep
      cases hstep
  | composed anchor hidle =>
      intro step hstep id hid
      have hactive : ∃ r, e.activeRequests.get? id = some r := by
        rw [EngineStep.lists, Bool.or_eq_true, List.any_eq_true, List.any_eq_true] at hid
        rcases hid with ⟨d, hd, hdid⟩ | ⟨c, hc, hcid⟩
        · rw [(composeStep_step hidle hstep).1] at hd
          obtain ⟨r, hr, rfl⟩ := List.mem_map.mp hd
          obtain ⟨id', hget⟩ := SortedMap.mem_values.mp (List.mem_of_mem_filter hr)
          have hsame : r.requestId = id := by simpa using hdid
          rw [← he.active id' r hget, hsame] at hget
          exact ⟨r, hget⟩
        · rw [(composeStep_step hidle hstep).2] at hc
          obtain ⟨r', _, hr', _⟩ := mem_planChunks hc
          obtain ⟨r, hr, _⟩ := composeStep_stands anchor e c.requestId r' hr'
          have hsame : c.requestId = id := by simpa using hcid
          exact ⟨r, hsame ▸ hr⟩
      obtain ⟨r, hr⟩ := hactive
      obtain ⟨request, hrequest, hfiled⟩ := hi.active id r hr
      exact ⟨r.ticket, request, hen.active id r hr, hlater hrequest, hfiled⟩

/-- As long as no request id is reused, no request enters under an id that a step lists. -/
theorem Move.unintruded {source : Option StepSource} {requests : List EngineCoreRequest}
    {e e' : SimEngine env} {effect : Effect} (h : Move now e effect e') (he : Sound e)
    (hen : Enrolled e) (hi : Issued source requests e) (hl : Listed requests e)
    (honce : (requests.map EngineCoreRequest.requestId).Nodup)
    (hnone : ∀ k, e.intruded k = false) : ∀ k, e'.intruded k = false := by
  intro k
  cases h.batch he with
  | still _ _ _ _ hjournal hquiet => rw [intruded_append k hjournal hquiet, hnone]
  | withdrew _ _ _ _ hjournal => rw [intruded, hjournal, ← intruded, hnone]
  | composed => exact hnone k
  | executed =>
      rw [executeStep_intruded]
      exact hnone k
  | flushed => rw [intruded, (e.flush_flushed now).journal, ← intruded, hnone]
  | @entered _ _ id r _ _ _ _ _ hqueued hactive _ _ hjournal hquiet =>
      rw [← Bool.not_eq_true, intruded_entered k hjournal hquiet, hnone]
      rintro (hold | ⟨_, hlisted⟩)
      · cases hold
      · obtain ⟨step, hstep, hlists⟩ := (Option.any_eq_true _ _).mp hlisted
        obtain ⟨j, request, hj, hrequest, hid⟩ := hl step hstep id hlists
        obtain ⟨q, hwaits, hticket⟩ := queued_iff.mp hqueued
        have hq := hi.waits q hwaits
        have hget : e'.activeRequests.get? id = some r := by
          rw [hactive, SortedMap.get?_insert_self]
        obtain ⟨request', hrequest', hid'⟩ := (h.issued he hen hi).active id r hget
        rw [← hticket, List.getElem?_append_left (List.getElem?_eq_some_iff.mp hq).1, hq,
          Option.some.injEq] at hrequest'
        have hsame := eq_of_nodup_map honce hrequest hq (hid.trans (hrequest' ▸ hid'.symm))
        exact hen.queued j hj (hsame ▸ hticket ▸ hqueued)

theorem Run.unintruded {e₀ e : SimEngine env} {turns : List (Turn env)} {clock : Instant}
    (hrun : Run e₀ turns e clock) (hfresh : Fresh e₀)
    (honce : ((VllmVcr.issued turns).map EngineCoreRequest.requestId).Nodup) :
    ∀ k, e.intruded k = false := by
  have hall : (((VllmVcr.issued turns).map EngineCoreRequest.requestId).Nodup → ∀ k,
      e.intruded k = false) ∧ Sound e ∧ Enrolled e ∧
      Issued e₀.stepSource (VllmVcr.issued turns) e ∧ Listed (VllmVcr.issued turns) e := by
    apply hrun.issuing (Q := fun _ => True) (P := fun requests e _ =>
      ((requests.map EngineCoreRequest.requestId).Nodup → ∀ k, e.intruded k = false) ∧ Sound e ∧
        Enrolled e ∧ Issued e₀.stepSource requests e ∧ Listed requests e) (by simp)
    · refine ⟨?_, hfresh.sound, hfresh.enrolled, hfresh.issued, ?_⟩
      · obtain ⟨engineIndex, opt, tokenSource, stepSource, hnew⟩ := hfresh
        obtain ⟨latency, _, rfl⟩ := except_map_eq_ok hnew
        exact fun _ _ => rfl
      · obtain ⟨engineIndex, opt, tokenSource, stepSource, hnew⟩ := hfresh
        obtain ⟨latency, _, rfl⟩ := except_map_eq_ok hnew
        intro step hstep
        cases hstep
    · exact fun _ _ _ _ _ h => h
    · intro requests now e effect e' _ ⟨hnone, hsound, hen, hi, hl⟩ hmove
      refine ⟨?_, hmove.sound hsound, hmove.enrolled hsound hen, hmove.issued hsound hen hi,
        hmove.listed hsound hen hi hl⟩
      intro honce
      rw [List.map_append] at honce
      have hbefore := (List.nodup_append.mp honce).1
      exact hmove.unintruded hsound hen hi hl hbefore (hnone hbefore)
  exact hall.1 honce

/-! ## Tokens by request id -/

/-- The tokens that a run shows for a request id, in the order returned. -/
def tokensFor (id : String) (turns : List (Turn env)) : List Token :=
  ((coreOutputs turns).filter (fun o => o.requestId = id)).flatMap EngineCoreOutput.newTokenIds

/-- The run shows the last tokens of the request with this id. -/
def Completes (id : String) (turns : List (Turn env)) : Prop :=
  ∃ o ∈ coreOutputs turns, o.requestId = id ∧ o.newTokenIds ≠ [] ∧ o.finishReason.isSome

instance (id : String) (turns : List (Turn env)) : Decidable (Completes id turns) :=
  inferInstanceAs (Decidable (∃ o ∈ coreOutputs turns, _))

theorem flatMap_filter_agree {α β : Type*} {l : List α} {f : α → List β} {p q : α → Bool}
    (h : ∀ a ∈ l, f a ≠ [] → p a = q a) : (l.filter p).flatMap f = (l.filter q).flatMap f := by
  induction l with
  | nil => rfl
  | cons a l ih =>
      have hrest := ih (fun b hb => h b (List.mem_cons_of_mem a hb))
      by_cases hnil : f a = []
      · rw [List.filter_cons, List.filter_cons]
        split
        · split
          · simp [hrest]
          · simp [hnil, hrest]
        · split
          · simp [hnil, hrest]
          · exact hrest
      · have hagree := h a List.mem_cons_self hnil
        rw [List.filter_cons, List.filter_cons, hagree]
        split
        · rw [List.flatMap_cons, List.flatMap_cons, hrest]
        · exact hrest

section Ids

variable {e₀ e : SimEngine env} {turns : List (Turn env)} {clock : Instant} {k : ℕ}
  {request : EngineCoreRequest}

/-- An output with tokens has the request's id iff it has the request's ticket. -/
theorem Run.ticket_iff (hrun : Run e₀ turns e clock) (hfresh : Fresh e₀)
    (honce : ((VllmVcr.issued turns).map EngineCoreRequest.requestId).Nodup)
    (hk : (VllmVcr.issued turns)[k]? = some request) {o : EngineCoreOutput}
    (ho : o ∈ coreOutputs turns) (htokens : o.newTokenIds ≠ []) :
    o.requestId = request.requestId ↔ o.ticket = some k := by
  obtain ⟨j, request', hticket, hrequest', hid⟩ := hrun.names hfresh o ho htokens
  constructor
  · intro hsame
    rw [hticket, eq_of_nodup_map honce hrequest' hk (hid.trans hsame)]
  · intro hsame
    rw [hticket, Option.some.injEq] at hsame
    rw [hsame, hk, Option.some.injEq] at hrequest'
    rw [← hid, hrequest']

theorem Run.tokensFor_eq (hrun : Run e₀ turns e clock) (hfresh : Fresh e₀)
    (honce : ((VllmVcr.issued turns).map EngineCoreRequest.requestId).Nodup)
    (hk : (VllmVcr.issued turns)[k]? = some request) :
    tokensFor request.requestId turns =
      (outputsFor k (coreOutputs turns)).flatMap EngineCoreOutput.newTokenIds := by
  apply flatMap_filter_agree
  intro o ho htokens
  exact decide_eq_decide.mpr (hrun.ticket_iff hfresh honce hk ho htokens)

end Ids

/-! ## The schedules handed out -/

/-- Unless it matches prompts, the source keeps no track of what it handed out. -/
theorem handOut_stateless {requests : List EngineCoreRequest} {source : Option StepSource}
    (hsource : ∀ steps, source ≠ some (.prefixed steps)) (tickets : List ℕ) :
    (handOut requests source tickets).1 = source ∧
      ∀ k schedule, (k, schedule) ∈ (handOut requests source tickets).2 →
        ∃ request, requests[k]? = some request ∧ schedule = (handTo source request).2 := by
  have hkept : ∀ request, (handTo source request).1 = source := by
    intro request
    rcases source with _ | (records | steps)
    · rfl
    · rfl
    · exact absurd rfl (hsource steps)
  induction tickets using List.reverseRecOn with
  | nil => exact ⟨rfl, fun k schedule h => absurd h List.not_mem_nil⟩
  | append_singleton tickets ticket ih =>
      obtain ⟨hsame, hall⟩ := ih
      cases hrequest : requests[ticket]? with
      | none =>
          have hskip : handOut requests source (tickets ++ [ticket]) =
              handOut requests source tickets := by
            rw [handOut, List.foldl_append, List.foldl_cons, List.foldl_nil, hrequest]
            rfl
          rw [hskip]
          exact ⟨hsame, hall⟩
      | some request =>
          rw [handOut_snoc hrequest, hsame]
          refine ⟨hkept request, ?_⟩
          intro k schedule hmem
          rcases List.mem_append.mp hmem with hold | hnew
          · exact hall k schedule hold
          · cases List.mem_singleton.mp hnew
            exact ⟨request, hrequest, rfl⟩

/-! ## Two runs -/

/-- The requests of a run follow their courses, as far as the run shows their tokens. -/
theorem Run.seeded {engineIndex vocabSize k : ℕ} {opt : Opt} {source : Option StepSource}
    {e₀ e : SimEngine env} {turns : List (Turn env)} {clock : Instant}
    {request : EngineCoreRequest}
    (hnew : SimEngine.new env engineIndex opt (.random vocabSize) source = .ok e₀)
    (hknobs : opt.latencyTrace = none) (hrun : Run e₀ turns e clock)
    (hfixed : ∀ t ∈ turns, ∀ patch, t.op ≠ .input (.control (.patchConfig patch)))
    (honce : ((VllmVcr.issued turns).map EngineCoreRequest.requestId).Nodup)
    (hk : (VllmVcr.issued turns)[k]? = some request) :
    (tokensFor request.requestId turns = [] ∧ ¬ Completes request.requestId turns) ∨
    ∃ schedule n, (k, schedule) ∈ schedules e₀ turns e ∧
      tokensFor request.requestId turns <+: ((Course.next opt vocabSize
        (scheduledCap request schedule))^[n] (Course.start env engineIndex opt request
          schedule)).tokens ∧
      (Completes request.requestId turns →
        tokensFor request.requestId turns = ((Course.next opt vocabSize
          (scheduledCap request schedule))^[n] (Course.start env engineIndex opt request
            schedule)).tokens ∧
        (tokensFor request.requestId turns).length = scheduledCap request schedule) := by
  have hfresh : Fresh e₀ := ⟨_, _, _, _, hnew⟩
  have hunder : e₀.Under (VllmVcr.seeded env engineIndex opt vocabSize) := by
    obtain ⟨latency, hlatency, rfl⟩ := except_map_eq_ok hnew
    rw [Opt.buildLatency, hknobs] at hlatency
    cases hlatency
    exact ⟨rfl, rfl, rfl, rfl⟩
  obtain ⟨hst, _, halive⟩ := hrun.alive (Q := fun effect => ∀ patch, effect ≠ .configured patch)
    hfresh hunder
    (by
      rintro t ht effect hallowed patch rfl
      exact hfixed t ht patch hallowed)
    (fun now e effect e' hq he hmove => hmove.under hq he)
  obtain ⟨hframed, hshown, hfinished⟩ := hrun.stream hfresh k
  have htokens := hrun.tokensFor_eq hfresh honce hk
  rw [hframed.flatMap_tokens] at htokens
  have hcompletes : Completes request.requestId turns →
      tokensFor request.requestId turns = (e.chunksOf k).flatMap PendingEmit.tokens ∧
        (k, (tokensFor request.requestId turns).length) ∈ e.caps := by
    rintro ⟨o, ho, hid, hsome, hfin⟩
    have hticket := (hrun.ticket_iff hfresh honce hk ho hsome).mp hid
    obtain ⟨hall, hcap⟩ := hfinished o (List.mem_filter.mpr ⟨ho, by simpa using hticket⟩) hfin hsome
    rw [hframed.flatMap_tokens, ← htokens] at hcap
    exact ⟨htokens.trans (by rw [hall]), hcap⟩
  by_cases hadmitted : k ∈ e.admissions
  · right
    obtain ⟨r₀, hentered, hcap, l, hlived, hchunks, _⟩ :=
      halive.lives k hadmitted (hrun.unintruded hfresh honce k)
    obtain ⟨schedule, hschedule, hcourse, hmax, hgenerated⟩ := hentered.course hk
    obtain ⟨_, n, hn⟩ := hlived.course hgenerated
    rw [hcourse, hmax] at hn
    have hcame : ((Course.next opt vocabSize (scheduledCap request schedule))^[n]
        (Course.start env engineIndex opt request schedule)).tokens =
          (e.chunksOf k).flatMap PendingEmit.tokens := by
      rw [← hn, ← hchunks]
      rfl
    refine ⟨schedule, n, hschedule, ?_, ?_⟩
    · rw [hcame, htokens]
      obtain ⟨rest, hrest⟩ := hshown
      exact ⟨rest.flatMap PendingEmit.tokens, by rw [← List.flatMap_append, hrest]⟩
    · intro hcomplete
      obtain ⟨hall, hlength⟩ := hcompletes hcomplete
      rw [hcame]
      exact ⟨hall, (caps_unique hst.enrolled hlength hcap).trans hmax⟩
  · left
    have hnone : e.chunksOf k = [] := by
      by_contra hne
      exact hadmitted (hst.timed.ordered.admitted k hne)
    rw [hnone, List.prefix_nil] at hshown
    refine ⟨by rw [htokens, hshown]; rfl, ?_⟩
    intro hcomplete
    have hcap := (hcompletes hcomplete).2
    obtain ⟨ev, hev, hcapped⟩ := List.mem_filterMap.mp hcap
    cases ev with
    | admitted ticket uncached maxTokens intruder =>
        cases hcapped
        exact hadmitted (List.mem_filterMap.mpr ⟨_, hev, rfl⟩)
    | _ => cases hcapped

/-- With knob latencies and random tokens, a request shows the same tokens whatever else an engine
serves, as far as it gets, provided prompt matching hands it the same recorded steps. -/
theorem seeded_output {engineIndex vocabSize k k' : ℕ} {opt : Opt} {source : Option StepSource}
    {e₀ e e' : SimEngine env} {turns turns' : List (Turn env)} {clock clock' : Instant}
    {request request' : EngineCoreRequest}
    (hnew : SimEngine.new env engineIndex opt (.random vocabSize) source = .ok e₀)
    (hknobs : opt.latencyTrace = none) (hrun : Run e₀ turns e clock)
    (hrun' : Run e₀ turns' e' clock')
    (hfixed : ∀ t ∈ turns ++ turns', ∀ patch, t.op ≠ .input (.control (.patchConfig patch)))
    (honce : ((issued turns).map EngineCoreRequest.requestId).Nodup)
    (honce' : ((issued turns').map EngineCoreRequest.requestId).Nodup)
    (hk : (issued turns)[k]? = some request) (hk' : (issued turns')[k']? = some request')
    (hid : request'.requestId = request.requestId) (hprompt : request'.prompt = request.prompt)
    (hparams : request'.samplingParams = request.samplingParams)
    (hschedule : ∀ steps, source = some (.prefixed steps) → ∀ schedule schedule',
      (k, schedule) ∈ schedules e₀ turns e → (k', schedule') ∈ schedules e₀ turns' e' →
        schedule = schedule') :
    (tokensFor request.requestId turns <+: tokensFor request.requestId turns' ∨
      tokensFor request.requestId turns' <+: tokensFor request.requestId turns) ∧
    (Completes request.requestId turns → Completes request.requestId turns' →
      tokensFor request.requestId turns = tokensFor request.requestId turns') := by
  have hsource : e₀.stepSource = source := by
    obtain ⟨latency, _, rfl⟩ := except_map_eq_ok hnew
    rfl
  have hcourse : ∀ schedule, Course.start env engineIndex opt request' schedule =
      Course.start env engineIndex opt request schedule := by
    intro schedule
    have hkv : request'.extractKvParams = request.extractKvParams := by
      rw [EngineCoreRequest.extractKvParams, hparams, EngineCoreRequest.extractKvParams]
    have hremote : request'.prefilledRemotely = request.prefilledRemotely := by
      rw [EngineCoreRequest.prefilledRemotely, hkv, EngineCoreRequest.prefilledRemotely]
    rw [Course.start, hid, hremote, Course.start]
  have hcap : ∀ schedule, scheduledCap request' schedule = scheduledCap request schedule := by
    intro schedule
    simp only [scheduledCap, hparams]
  have hsame : ∀ schedule schedule', (k, schedule) ∈ schedules e₀ turns e →
      (k', schedule') ∈ schedules e₀ turns' e' → schedule = schedule' := by
    intro schedule schedule' hmem hmem'
    by_cases hstateless : ∀ steps, source ≠ some (.prefixed steps)
    · rw [schedules, hsource] at hmem hmem'
      obtain ⟨r, hr, rfl⟩ := (handOut_stateless hstateless _).2 k schedule hmem
      obtain ⟨r', hr', rfl⟩ := (handOut_stateless hstateless _).2 k' schedule' hmem'
      rw [hk, Option.some.injEq] at hr
      rw [hk', Option.some.injEq] at hr'
      rw [← hr, ← hr']
      rcases source with _ | source
      · rfl
      · simp only [handTo, hid, hprompt]
    · obtain ⟨steps, hsteps⟩ := not_forall_not.mp hstateless
      exact hschedule steps hsteps schedule schedule' hmem hmem'
  have hone := hrun.seeded hnew hknobs (fun t ht => hfixed t (List.mem_append_left _ ht)) honce hk
  have hother := hrun'.seeded hnew hknobs (fun t ht => hfixed t (List.mem_append_right _ ht))
    honce' hk'
  rw [hid] at hother
  rcases hone with ⟨hnil, hopen⟩ | ⟨schedule, n, hmem, hbefore, hcomplete⟩
  · rw [hnil]
    exact ⟨Or.inl (List.nil_prefix), fun h => absurd h hopen⟩
  · rcases hother with ⟨hnil', hopen'⟩ | ⟨schedule', n', hmem', hbefore', hcomplete'⟩
    · rw [hnil']
      exact ⟨Or.inr (List.nil_prefix), fun _ h => absurd h hopen'⟩
    · rw [hcourse, hcap, ← hsame schedule schedule' hmem hmem'] at hbefore' hcomplete'
      have horder : ∀ {m m' : ℕ}, m ≤ m' →
          ((Course.next opt vocabSize (scheduledCap request schedule))^[m]
            (Course.start env engineIndex opt request schedule)).tokens <+:
          ((Course.next opt vocabSize (scheduledCap request schedule))^[m']
            (Course.start env engineIndex opt request schedule)).tokens :=
        fun hle => Course.iterate_tokens hle _
      constructor
      · rcases le_total n n' with hle | hle
        · exact List.prefix_or_prefix_of_prefix (hbefore.trans (horder hle)) hbefore'
        · exact List.prefix_or_prefix_of_prefix hbefore (hbefore'.trans (horder hle))
      · intro hdone hdone'
        obtain ⟨heq, hlength⟩ := hcomplete hdone
        obtain ⟨heq', hlength'⟩ := hcomplete' hdone'
        rcases le_total n n' with hle | hle
        · apply List.IsPrefix.eq_of_length _ (hlength.trans hlength'.symm)
          rw [heq, heq']
          exact horder hle
        · symm
          apply List.IsPrefix.eq_of_length _ (hlength'.trans hlength.symm)
          rw [heq, heq']
          exact horder hle

/-- A request served alone. -/
def aloneScript : List (Instant × Op) :=
  [(0, .input (.request (demoRequest "a" 3))), (1, .step), (2, .step)]

/-- The same request, after another one. -/
def besideScript : List (Instant × Op) :=
  [(0, .input (.request (demoRequest "b" 2))), (0, .input (.request (demoRequest "a" 3))),
    (1, .step), (2, .step)]

theorem besideScript_output :
    ∃ turns e clock turns' e' clock', Run (demo demoOpt none) turns e clock ∧
      Run (demo demoOpt none) turns' e' clock' ∧ (issued turns).length = 1 ∧
      (issued turns').length = 2 ∧ tokensFor "a" turns = tokensFor "a" turns' ∧
      (tokensFor "a" turns).length = 3 := by
  have hplays : ((demo demoOpt none).play 20 aloneScript).any (fun played =>
      (issued played.1).length = 1 ∧ Completes "a" played.1 ∧
        (tokensFor "a" played.1).length = 3) = true := by decide +kernel
  have hplays' : ((demo demoOpt none).play 20 besideScript).any (fun played =>
      (issued played.1).length = 2 ∧ Completes "a" played.1) = true := by decide +kernel
  obtain ⟨turns, e, clock, hrun, hops, hshown⟩ :=
    Run.of_script (p := fun (turns : List (Turn demoEnv)) _ => (issued turns).length = 1 ∧
      Completes "a" turns ∧ (tokensFor "a" turns).length = 3) hplays (by decide +kernel)
  obtain ⟨turns', e', clock', hrun', hops', hshown'⟩ :=
    Run.of_script (p := fun (turns : List (Turn demoEnv)) _ => (issued turns).length = 2 ∧
      Completes "a" turns) hplays' (by decide +kernel)
  obtain ⟨hlen, hcompletes, hlength⟩ := of_decide_eq_true hshown
  obtain ⟨hlen', hcompletes'⟩ := of_decide_eq_true hshown'
  have hissued := issued_of_ops hops hlen
  have hissued' := issued_of_ops hops' hlen'
  refine ⟨turns, e, clock, turns', e', clock', hrun, hrun', hlen, hlen', ?_, hlength⟩
  have hfixed : ∀ t ∈ turns ++ turns', ∀ patch,
      t.op ≠ .input (.control (.patchConfig patch)) := by
    intro t ht patch heq
    have hmem := List.mem_map_of_mem (f := Turn.op) ht
    rw [List.map_append, hops, hops', heq] at hmem
    simp [aloneScript, besideScript] at hmem
  have hnew : SimEngine.new demoEnv 0 demoOpt (.random 1) none = .ok (demo demoOpt none) := rfl
  have honce : ((issued turns).map EngineCoreRequest.requestId).Nodup := by
    rw [hissued]
    decide
  have honce' : ((issued turns').map EngineCoreRequest.requestId).Nodup := by
    rw [hissued']
    decide
  have hk : (issued turns)[0]? = some (demoRequest "a" 3) := by
    rw [hissued]
    rfl
  have hk' : (issued turns')[1]? = some (demoRequest "a" 3) := by
    rw [hissued']
    rfl
  apply (seeded_output hnew rfl hrun hrun' hfixed honce honce' hk hk' rfl rfl rfl ?_).2 hcompletes
    hcompletes'
  intro steps hsteps
  cases hsteps

def matchedRecord (gaps : List ℚ) : TraceRecord where
  outputTokens := gaps.length + 1
  itlMs := some gaps
  arrivalMs := some 0
  blockHashes := promptBlockHashes [0] 1

/-- An engine that matches its requests to two records of one prompt. -/
def matchingDemo : SimEngine demoEnv :=
  demo { demoOpt with replaySteps := some "trace" }
    (some (.prefixed (.fromRecords [matchedRecord [1], matchedRecord [1, 1]] 1)))

/-- With prompt matching, a request before it takes the record that the request would get. -/
theorem besideScript_rematched :
    ∃ turns e clock turns' e' clock', Run matchingDemo turns e clock ∧
      Run matchingDemo turns' e' clock' ∧ turns.map Turn.op = aloneScript.map Prod.snd ∧
      turns'.map Turn.op = besideScript.map Prod.snd ∧
      issued turns = [demoRequest "a" 3] ∧
      issued turns' = [demoRequest "b" 2, demoRequest "a" 3] ∧
      Completes "a" turns ∧ Completes "a" turns' ∧ tokensFor "a" turns ≠ tokensFor "a" turns' := by
  have hplays : (matchingDemo.play 20 aloneScript).any (fun played =>
      (issued played.1).length = 1 ∧ Completes "a" played.1 ∧
        (tokensFor "a" played.1).length = 2) = true := by decide +kernel
  have hplays' : (matchingDemo.play 20 besideScript).any (fun played =>
      (issued played.1).length = 2 ∧ Completes "a" played.1 ∧
        (tokensFor "a" played.1).length = 3) = true := by decide +kernel
  obtain ⟨turns, e, clock, hrun, hops, hshown⟩ :=
    Run.of_script (p := fun (turns : List (Turn demoEnv)) _ => (issued turns).length = 1 ∧
      Completes "a" turns ∧ (tokensFor "a" turns).length = 2) hplays (by decide +kernel)
  obtain ⟨turns', e', clock', hrun', hops', hshown'⟩ :=
    Run.of_script (p := fun (turns : List (Turn demoEnv)) _ => (issued turns).length = 2 ∧
      Completes "a" turns ∧ (tokensFor "a" turns).length = 3) hplays' (by decide +kernel)
  obtain ⟨hlen, hcompletes, hlength⟩ := of_decide_eq_true hshown
  obtain ⟨hlen', hcompletes', hlength'⟩ := of_decide_eq_true hshown'
  refine ⟨turns, e, clock, turns', e', clock', hrun, hrun', hops, hops', ?_, ?_, hcompletes,
    hcompletes', ?_⟩
  · exact issued_of_ops hops hlen
  · exact issued_of_ops hops' hlen'
  · intro hsame
    rw [hsame, hlength'] at hlength
    cases hlength

end VllmVcr
