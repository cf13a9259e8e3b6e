import Mathlib.Data.Prod.Lex
import VllmVcr.Engine.Load
import VllmVcr.Engine.Prefills

/-!
# Catching up

`step()` completes due steps until none is due. Every step but the first is composed in the loop
and works for requests that are there, so the loop ends if a step that works gets something done.
-/

namespace VllmVcr

variable {env : Env}

/-! ## What is left to do -/

namespace ActiveRequest

/-- The prompt tokens to prefill, the end of the prefill, and the tokens to generate. -/
def work (r : ActiveRequest env) : ℕ :=
  (match r.phase with
    | .prefill remaining => remaining + 1
    | .decode => 0) + (r.maxTokens - r.generated)

theorem generate_work (r : ActiveRequest env) (source : TokenSource) (stepEnd : Instant) (n : ℕ)
    (timeScale : ℚ≥0) (seq : ℕ) :
    (r.generate source stepEnd n timeScale seq).1.work + r.chunkLen n = r.work := by
  rcases r.generate_eq source stepEnd n timeScale seq with
    ⟨hzero, h⟩ | ⟨rng, source', emit, hpos, hlen, _, _, h⟩
  · rw [h, hzero, Nat.add_zero]
  · have hle : r.chunkLen n ≤ r.maxTokens - r.generated := min_le_left _ _
    rw [h, work, work]
    dsimp only
    omega

theorem chunkLen_pos {r : ActiveRequest env} {n : ℕ} (hr : r.isGenerating = true) (hn : 0 < n) :
    0 < r.chunkLen n := by
  have hlt : r.generated < r.maxTokens := of_decide_eq_true hr
  exact Nat.lt_min.mpr ⟨Nat.sub_pos_of_lt hlt, hn⟩

end ActiveRequest

namespace SimEngine

def workload (e : SimEngine env) : ℕ := e.activeRequests.weight (fun _ r => r.work)

theorem generateFor_workload {e : SimEngine env} {id : String} {r₀ : ActiveRequest env}
    (hget : e.activeRequests.get? id = some r₀) (stepEnd : Instant) (entry : ℕ) (byDecoder : Bool)
    (n : ℕ) (r : ActiveRequest env) :
    (e.generateFor stepEnd id entry byDecoder n r).workload + r.chunkLen n + r₀.work =
      e.workload + r.work := by
  have hwork := r.generate_work e.tokenSource stepEnd n e.opt.effectiveTimeScale e.emitSeq
  have hweight := SortedMap.weight_insert_of_some
    (v := (r.generate e.tokenSource stepEnd n e.opt.effectiveTimeScale e.emitSeq).1)
    (fun _ r => r.work) hget
  have hafter : (e.generateFor stepEnd id entry byDecoder n r).workload =
      (e.activeRequests.insert id
        (r.generate e.tokenSource stepEnd n e.opt.effectiveTimeScale e.emitSeq).1).weight
          (fun _ r => r.work) := rfl
  have hbefore : e.workload = e.activeRequests.weight (fun _ r => r.work) := rfl
  rw [hafter, hbefore]
  omega

/-- The decoder finds a request that still generates. -/
def DecoderWorks (e : SimEngine env) (d : DecoderEntry) : Prop :=
  ∃ r, e.activeRequests.get? d.requestId = some r ∧ r.isGenerating = true

/-- The chunk finds a request that prefills, and takes something if there is anything. -/
def ChunkWorks (e : SimEngine env) (c : ChunkEntry) : Prop :=
  ∃ r remaining, e.activeRequests.get? c.requestId = some r ∧ r.phase = .prefill remaining ∧
    (0 < remaining → 0 < c.take)

theorem completeDecoder_workload (stepEnd : Instant) (e : SimEngine env) (d : DecoderEntry) :
    (completeDecoder stepEnd e d).workload ≤ e.workload ∧
      (0 < e.opt.outputTokenChunkSize → e.DecoderWorks d →
        (completeDecoder stepEnd e d).workload < e.workload) := by
  unfold completeDecoder
  split
  · next hnone =>
      refine ⟨le_rfl, ?_⟩
      rintro _ ⟨r, hr, _⟩
      rw [hnone] at hr
      cases hr
  · next r hget =>
      have hwork := generateFor_workload hget stepEnd d.ticket true
        (if 1 < d.tokens then d.tokens else e.opt.outputTokenChunkSize) r
      refine ⟨by omega, ?_⟩
      rintro hchunk ⟨r', hr', hgen⟩
      rw [hget, Option.some.injEq] at hr'
      subst hr'
      have hpos := ActiveRequest.chunkLen_pos (n := if 1 < d.tokens then d.tokens
        else e.opt.outputTokenChunkSize) hgen (by split <;> omega)
      omega

theorem completeChunk_workload (stepEnd : Instant) (numRunning : ℕ) (e : SimEngine env)
    (c : ChunkEntry) :
    (completeChunk stepEnd numRunning e c).workload ≤ e.workload ∧
      (e.ChunkWorks c → (completeChunk stepEnd numRunning e c).workload < e.workload) := by
  unfold completeChunk
  split
  · next hnone =>
      refine ⟨le_rfl, ?_⟩
      rintro ⟨r, remaining, hr, _⟩
      rw [hnone] at hr
      cases hr
  · next r hget =>
      split
      · next hphase =>
          refine ⟨le_rfl, ?_⟩
          rintro ⟨r', remaining, hr', hphase', _⟩
          rw [hget, Option.some.injEq] at hr'
          rw [hr', hphase'] at hphase
          cases hphase
      · next remaining hphase =>
          dsimp only
          split
          · next hleft =>
              have hweight := SortedMap.weight_insert_of_some
                (v := { r with phase := .prefill (remaining - c.take) }) (fun _ r => r.work) hget
              have hwork : r.work = remaining + 1 + (r.maxTokens - r.generated) := by
                rw [ActiveRequest.work, hphase]
              have hwork' : ({ r with phase := .prefill (remaining - c.take) } :
                  ActiveRequest env).work =
                  remaining - c.take + 1 + (r.maxTokens - r.generated) := rfl
              have hbefore : e.workload = e.activeRequests.weight (fun _ r => r.work) := rfl
              have hafter : ({ e.log (.chunked c.ticket r.ticket c.take) with
                  activeRequests := e.activeRequests.insert c.requestId
                    { r with phase := .prefill (remaining - c.take) } } : SimEngine env).workload =
                  (e.activeRequests.insert c.requestId
                    { r with phase := .prefill (remaining - c.take) }).weight
                      (fun _ r => r.work) := rfl
              rw [hwork, hwork'] at hweight
              simp only [log_activeRequests]
              rw [hafter, hbefore]
              refine ⟨by omega, ?_⟩
              rintro ⟨r', remaining', hr', hphase', htake⟩
              rw [hget, Option.some.injEq] at hr'
              rw [← hr', hphase, ReqPhase.prefill.injEq] at hphase'
              have hpos := htake (by omega)
              omega
          · have hbefore : r.work = remaining + 1 + (r.maxTokens - r.generated) := by
              rw [ActiveRequest.work, hphase]
            have hafter : ((e.log (.chunked c.ticket r.ticket c.take)).startDecode numRunning
                r).work = 0 + (r.maxTokens - r.generated) := rfl
            have hsame : (e.log (.chunked c.ticket r.ticket c.take)).workload = e.workload := rfl
            have hless : ∀ n, (generateFor stepEnd c.requestId c.ticket false n
                ((e.log (.chunked c.ticket r.ticket c.take)).startDecode numRunning r)
                (e.log (.chunked c.ticket r.ticket c.take))).workload < e.workload := by
              intro n
              have hwork := @generateFor_workload _ (e.log (.chunked c.ticket r.ticket c.take))
                c.requestId r hget stepEnd c.ticket false n
                ((e.log (.chunked c.ticket r.ticket c.take)).startDecode numRunning r)
              rw [hbefore, hafter, hsame] at hwork
              omega
            exact ⟨(hless _).le, fun _ => hless _⟩

/-- The first entry of the step works. -/
def StepWorks (e : SimEngine env) (step : EngineStep) : Prop :=
  (∃ d rest, step.decoders = d :: rest ∧ e.DecoderWorks d) ∨
    step.decoders = [] ∧ ∃ c rest, step.chunks = c :: rest ∧ e.ChunkWorks c

theorem executeStep_workload (step : EngineStep) (e : SimEngine env) :
    (e.executeStep step).workload ≤ e.workload ∧
      (0 < e.opt.outputTokenChunkSize → e.StepWorks step →
        (e.executeStep step).workload < e.workload) := by
  have hdecoders : ∀ (ds : List DecoderEntry) (e : SimEngine env),
      (ds.foldl (completeDecoder step.endsAt) e).workload ≤ e.workload := by
    intro ds
    induction ds with
    | nil => exact fun e => le_rfl
    | cons d ds ih => exact fun e => (ih _).trans (completeDecoder_workload step.endsAt e d).1
  have hchunks : ∀ (numRunning : ℕ) (cs : List ChunkEntry) (e : SimEngine env),
      (cs.foldl (completeChunk step.endsAt numRunning) e).workload ≤ e.workload := by
    intro numRunning cs
    induction cs with
    | nil => exact fun e => le_rfl
    | cons c cs ih =>
        exact fun e => (ih _).trans (completeChunk_workload step.endsAt numRunning e c).1
  obtain ⟨spec, hspec⟩ := foldSpecStats_eq
    (step.decoders.foldl (completeDecoder step.endsAt) (e.log (.completed step))) step.decoders
  have hexec : e.executeStep step = step.chunks.foldl (completeChunk step.endsAt e.numRunning)
      { step.decoders.foldl (completeDecoder step.endsAt) (e.log (.completed step)) with
        pendingSpec := spec } := by
    rw [← hspec]
    rfl
  have hall := hchunks e.numRunning step.chunks
    { step.decoders.foldl (completeDecoder step.endsAt) (e.log (.completed step)) with
      pendingSpec := spec }
  have hfirst := hdecoders step.decoders (e.log (.completed step))
  rw [← hexec] at hall
  refine ⟨hall.trans hfirst, ?_⟩
  rintro hchunk (⟨d, rest, hd, hworks⟩ | ⟨hnone, c, rest, hc, hworks⟩)
  · have hless := (completeDecoder_workload step.endsAt (e.log (.completed step)) d).2 hchunk hworks
    have hrest := hdecoders rest (completeDecoder step.endsAt (e.log (.completed step)) d)
    rw [hd, List.foldl_cons] at hall
    exact hall.trans_lt (hrest.trans_lt hless)
  · rw [hexec, hnone, hc, List.foldl_nil, List.foldl_cons]
    have hless := (completeChunk_workload step.endsAt e.numRunning
      { e.log (.completed step) with pendingSpec := spec } c).2 hworks
    exact (hchunks e.numRunning rest _).trans_lt hless

/-! ## Composing -/

theorem drawStep_work (latency : LatencyModel env.Rng) (numRunning : ℕ) (r : ActiveRequest env) :
    (r.drawStep latency numRunning).2.work = r.work ∧
      (r.drawStep latency numRunning).2.isGenerating = r.isGenerating := by
  unfold ActiveRequest.drawStep
  split
  · exact ⟨rfl, rfl⟩
  · exact ⟨rfl, rfl⟩

theorem composeStep_workload (anchor : Instant) (e : SimEngine env) :
    (e.composeStep anchor).workload = e.workload := by
  have hactive : (e.composeStep anchor).activeRequests = e.drawDecoders.1.activeRequests := rfl
  rw [workload, hactive, drawDecoders, SortedMap.weight_mapValues, workload]
  congr 1
  funext id r
  split
  · exact (drawStep_work e.latency e.numRunning r).1
  · rfl

theorem ensureStep_workload (anchor : Instant) (e : SimEngine env) :
    (e.ensureStep anchor).workload = e.workload := by
  unfold ensureStep
  split
  · exact e.composeStep_workload anchor
  · rfl

/-- The first entry of a step works when the step is composed. -/
theorem composeStep_works {anchor : Instant} {e : SimEngine env} {step : EngineStep}
    (hfiled : e.ActiveFiled) (hidle : e.currentStep = none)
    (h : (e.composeStep anchor).currentStep = some step) :
    (e.composeStep anchor).StepWorks step := by
  obtain ⟨hdecoders, hchunks⟩ := composeStep_step hidle h
  cases hd : step.decoders with
  | cons d rest =>
      refine Or.inl ⟨d, rest, hd, ?_⟩
      have hmem : d ∈ e.drawDecoders.2 := by
        rw [← hdecoders, hd]
        exact List.mem_cons_self
      obtain ⟨r, hr, rfl⟩ := List.mem_map.mp hmem
      obtain ⟨hvalue, hdecoding⟩ := List.mem_filter.mp hr
      obtain ⟨id, hget⟩ := SortedMap.mem_values.mp hvalue
      have hid : r.requestId = id := hfiled id r hget
      have hactive : (e.composeStep anchor).activeRequests = e.drawDecoders.1.activeRequests := rfl
      refine ⟨(e.drawFor r).2, ?_, ?_⟩
      · rw [hactive, drawDecoders, SortedMap.get?_mapValues, hid, hget, Option.map_some,
          if_pos hdecoding]
      · rw [drawFor, (drawStep_work e.latency e.numRunning r).2]
        rw [ActiveRequest.isDecoding, Bool.and_eq_true] at hdecoding
        exact hdecoding.2
  | nil =>
      cases hc : step.chunks with
      | nil =>
          have hempty : (e.composeStep anchor).currentStep = none := by
            simp only [composeStep]
            rw [← hchunks, ← hdecoders, hd, hc]
            exact hidle
          rw [hempty] at h
          cases h
      | cons c rest =>
          refine Or.inr ⟨hd, c, rest, hc, ?_⟩
          have hmem : c ∈ (e.drawDecoders.1.prunePrefills.chunkPlan e.drawDecoders.2).1 := by
            rw [← hchunks, hc]
            exact List.mem_cons_self
          obtain ⟨r, remaining, hget, hphase, _, _, _, htake⟩ := mem_planChunks hmem
          exact ⟨r, remaining, hget, hphase, htake⟩

/-! ## Rounds -/

theorem admitRequest_waiting (now : Instant) (queued : QueuedRequest) (e : SimEngine env) :
    (e.admitRequest now queued).1.waiting = e.waiting := by
  have hcache : (e.cacheRequest queued.request).1.waiting = e.waiting := rfl
  rw [admitRequest_eq]
  split
  · exact hcache
  · rcases admitDirect_cases now queued.request.requestId queued.request.clientIndex queued
      (e.cacheRequest queued.request).2.blockIds (e.cacheRequest queued.request).2.numCachedTokens
      (e.cacheRequest queued.request).1 with ⟨active, _, hadmits⟩ | ⟨reason, hadmits⟩
    · rw [hadmits]
      simp [hcache]
    · rw [hadmits]
      simp [hcache]

theorem scheduleLoop_waiting (now : Instant) (rounds : ℕ) (e : SimEngine env) :
    (scheduleLoop now rounds e).1 = e ∨
      (scheduleLoop now rounds e).1.waiting.length < e.waiting.length := by
  induction rounds generalizing e with
  | zero => exact Or.inl rfl
  | succ rounds ih =>
      unfold scheduleLoop
      split
      · next hroom =>
          split
          · exact Or.inl rfl
          · next i queued hnext =>
              have hat := (nextAdmissible_admissible hroom hnext).waiting
              have hlt : i < e.waiting.length := (List.getElem?_eq_some_iff.mp hat).1
              have hwaiting : ((e.removeWaiting i).admitRequest now queued).1.waiting =
                  e.waiting.eraseIdx i := admitRequest_waiting now queued (e.removeWaiting i)
              have hless : ((e.removeWaiting i).admitRequest now queued).1.waiting.length <
                  e.waiting.length := by
                rw [hwaiting, List.length_eraseIdx_of_lt hlt]
                omega
              rcases ih ((e.removeWaiting i).admitRequest now queued).1 with hsame | hshort
              · exact Or.inr (hsame.symm ▸ hless)
              · exact Or.inr (hshort.trans hless)
      · exact Or.inl rfl

theorem schedule_shortens (now : Instant) (e : SimEngine env) :
    (e.schedule now).1 = e ∨ (e.schedule now).1.waiting.length < e.waiting.length :=
  scheduleLoop_waiting now e.waiting.length e

/-- What is left to do: the requests that wait, and then the work of those admitted. -/
def toDo (e : SimEngine env) : ℕ ×ₗ ℕ := toLex (e.waiting.length, e.workload)

theorem completeStep_eq (now : Instant) (step : EngineStep) (e : SimEngine env) :
    (e.completeStep now step).1 = ((e.executeStep step).schedule now).1.ensureStep step.endsAt :=
  rfl

/-- A round that works admits a request, or leaves less work to those admitted. -/
theorem completeStep_toDo {e : SimEngine env} {step : EngineStep} (now : Instant)
    (hchunk : 0 < e.opt.outputTokenChunkSize) (hworks : e.StepWorks step) :
    (e.completeStep now step).1.toDo < e.toDo := by
  have hexec := (e.executeStep_workload step).2 hchunk hworks
  have hwaiting : (e.executeStep step).waiting = e.waiting := (executeStep_progress step e).waiting
  have hkept : (((e.executeStep step).schedule now).1.ensureStep step.endsAt).waiting =
      ((e.executeStep step).schedule now).1.waiting := by
    unfold ensureStep
    split
    · rfl
    · rfl
  rw [completeStep_eq, toDo, toDo, Prod.Lex.toLex_lt_toLex, hkept, ensureStep_workload]
  rcases (e.executeStep step).schedule_shortens now with hsame | hshort
  · exact Or.inr ⟨by rw [hsame, hwaiting], by rw [hsame]; exact hexec⟩
  · exact Or.inl (hwaiting ▸ hshort)

/-- Requests are filed under their ids, decoders generate, and the step in flight works. -/
structure Settling (e : SimEngine env) : Prop where
  filed : Filed e
  chunk : 0 < e.opt.outputTokenChunkSize
  works : ∀ step, e.currentStep = some step → e.StepWorks step

theorem completeStep_settling {e : SimEngine env} {step : EngineStep} (now : Instant)
    (hfiled : Filed e) (hchunk : 0 < e.opt.outputTokenChunkSize) :
    Settling (e.takeStep.completeStep now step).1 := by
  have hprogress := executeStep_progress step e.takeStep
  have hidle : (e.takeStep.executeStep step).currentStep = none := executeStep_currentStep step _
  have hkept : Filed ((e.takeStep.executeStep step).schedule now).1 ∧
      ((e.takeStep.executeStep step).schedule now).1.opt = e.opt ∧
      ((e.takeStep.executeStep step).schedule now).1.currentStep = none := by
    refine schedule_preserves (I := fun e' => Filed e' ∧ e'.opt = e.opt ∧ e'.currentStep = none)
      ⟨?_, hprogress.opt, hidle⟩ ?_
    · have htake : Filed e.takeStep := hfiled.congr rfl rfl
      exact htake.progress hprogress
    · rintro e' os e'' hmove hstep ⟨hfiled', hopt, hnone⟩
      rcases hmove.settings.1 with hsame | ⟨patch, heq, _⟩
      · exact ⟨hmove.filed hfiled', hsame.trans hopt, hstep.trans hnone⟩
      · cases heq
  obtain ⟨hfiled', hopt, hnone⟩ := hkept
  rw [completeStep_eq]
  generalize ((e.takeStep.executeStep step).schedule now).1 = e' at hfiled' hopt hnone
  have hcomposed : e'.ensureStep step.endsAt = e'.composeStep step.endsAt := by
    rw [ensureStep, hnone]
    rfl
  rw [hcomposed]
  refine ⟨hfiled'.progress (composeStep_progress step.endsAt e'), ?_, fun next hnext =>
    composeStep_works hfiled'.active hnone hnext⟩
  rw [(composeStep_progress step.endsAt e').opt, hopt]
  exact hchunk

/-- The loop reaches a state whose step is none, or ends after `now`. -/
def CatchesUp (now : Instant) (e : SimEngine env) : Prop :=
  ∃ fuel res, catchUp now fuel e = some res ∧
    ∀ step, res.1.currentStep = some step → now < step.endsAt

theorem CatchesUp.of_none {now : Instant} {e : SimEngine env} (h : e.dueStep now = none) :
    e.CatchesUp now := by
  refine ⟨1, (e, []), catchUp_none h, fun step hstep => ?_⟩
  rw [dueStep, hstep, Option.filter_some] at h
  simpa using h

theorem CatchesUp.of_round {now : Instant} {e : SimEngine env} {step : EngineStep}
    (hdue : e.dueStep now = some step)
    (h : (e.takeStep.completeStep now step).1.CatchesUp now) : e.CatchesUp now := by
  obtain ⟨fuel, res, hcatch, hends⟩ := h
  refine ⟨fuel + 1, (res.1, (e.takeStep.completeStep now step).2 ++ res.2), ?_, hends⟩
  rw [catchUp_some hdue, hcatch]
  rfl

theorem Settling.catchesUp {e : SimEngine env} (h : Settling e) (now : Instant) :
    e.CatchesUp now := by
  induction hm : e.toDo using WellFoundedLT.induction generalizing e with
  | ind m ih =>
      cases hdue : e.dueStep now with
      | none => exact CatchesUp.of_none hdue
      | some step =>
          have hworks := h.works step (dueStep_some hdue).1
          have hless : (e.takeStep.completeStep now step).1.toDo < e.takeStep.toDo :=
            completeStep_toDo now h.chunk hworks
          exact CatchesUp.of_round hdue
            (ih _ (hm ▸ hless) (completeStep_settling now h.filed h.chunk) rfl)

/-- The step in flight at the call may find nothing to do; those after it find something. -/
theorem catchesUp {e : SimEngine env} (hfiled : Filed e)
    (hchunk : 0 < e.opt.outputTokenChunkSize) (now : Instant) : e.CatchesUp now := by
  cases hdue : e.dueStep now with
  | none => exact CatchesUp.of_none hdue
  | some step =>
      exact CatchesUp.of_round hdue ((completeStep_settling now hfiled hchunk).catchesUp now)

end SimEngine

/-! ## Steps that do nothing -/

theorem KnobLatency.pacedStep_instant {k : KnobLatency} (hmean : k.interTokenLatency = 0)
    (hdev : k.interTokenLatencyStdDev = 0) (rng : env.Rng) (numRunning : ℕ)
    (pacing : DecodePacing) : ((k.model env).pacedStep rng numRunning pacing).1 = ⟨0, 1⟩ := by
  have hscale : ∀ load, scale 0 load = 0 := by
    intro load
    rw [scale, Nat.cast_zero, zero_mul]
    rfl
  have hnorm : (randomNormTruncated env rng 0 0).1 = 0 := by
    have hfloor : Rat.floor 0 ≤ 0 := by decide
    simp [randomNormTruncated, randomNorm, hfloor]
  simp only [model, interTokenDelay, hmean, hdev, hscale, hnorm]
  simp [fromMillis]

/-- No chunk is due, and no decoder was drawn more than one token. -/
def EngineStep.Barren (step : EngineStep) : Prop :=
  step.chunks = [] ∧ ∀ d ∈ step.decoders, d.tokens ≤ 1

namespace SimEngine

/-- Nothing waits, every request decodes, and neither a draw nor a chunk comes to anything. -/
structure Barren (e : SimEngine env) : Prop where
  chunk : e.opt.outputTokenChunkSize = 0
  waiting : e.waiting = []
  instant : ∀ rng n pacing, (e.latency.pacedStep rng n pacing).1 = ⟨0, 1⟩
  decoding : ∀ id r, e.activeRequests.get? id = some r →
    r.isDecoding = true ∧ r.scriptedDecode = none
  running : ∃ id r, e.activeRequests.get? id = some r

theorem completeDecoder_barren {e : SimEngine env} {d : DecoderEntry} (stepEnd : Instant)
    (htokens : d.tokens ≤ 1) (h : Barren e) : Barren (completeDecoder stepEnd e d) := by
  unfold completeDecoder
  split
  · exact h
  · next r hget =>
      have hzero : r.chunkLen 0 = 0 := Nat.min_zero _
      have hactive : ∀ id, (e.generateFor stepEnd d.requestId d.ticket true
          (if 1 < d.tokens then d.tokens else e.opt.outputTokenChunkSize)
          r).activeRequests.get? id = e.activeRequests.get? id := by
        intro id
        rw [if_neg (not_lt.mpr htokens), h.chunk]
        simp only [generateFor, ActiveRequest.generate, hzero, if_true, log_activeRequests,
          SortedMap.get?_insert]
        split
        · next hid => rw [hid, hget]
        · rfl
      obtain ⟨id, s, hs⟩ := h.running
      exact ⟨h.chunk, h.waiting, h.instant, fun id s hs => h.decoding id s (hactive id ▸ hs),
        id, s, (hactive id).trans hs⟩

theorem executeStep_barren {e : SimEngine env} {step : EngineStep} (hstep : step.Barren)
    (h : Barren e) : Barren (e.executeStep step) := by
  refine executeStep_preserves (I := Barren) ⟨h.chunk, h.waiting, h.instant, h.decoding, h.running⟩
    (fun e spec he => ⟨he.chunk, he.waiting, he.instant, he.decoding, he.running⟩) ?_ ?_
  · exact fun e d hd he => completeDecoder_barren step.endsAt (hstep.2 d hd) he
  · intro numRunning e c hc
    rw [hstep.1] at hc
    cases hc

/-- A barren engine composes a barren step that takes no time. -/
theorem composeStep_barren {e : SimEngine env} (anchor : Instant) (h : Barren e) :
    Barren (e.composeStep anchor) ∧ ∃ step, (e.composeStep anchor).currentStep = some step ∧
      step.endsAt = anchor ∧ step.Barren := by
  have hdraw : ∀ id r, e.activeRequests.get? id = some r → (e.drawFor r).1 = ⟨0, 1⟩ ∧
      (e.drawFor r).2.isDecoding = true ∧ (e.drawFor r).2.scriptedDecode = none := by
    intro id r hget
    obtain ⟨hdecoding, hnone⟩ := h.decoding id r hget
    have heq : e.drawFor r = ((e.latency.pacedStep r.rng e.numRunning r.pacing).1, { r with
        rng := (e.latency.pacedStep r.rng e.numRunning r.pacing).2.1
        pacing := (e.latency.pacedStep r.rng e.numRunning r.pacing).2.2
        asked := some e.numRunning }) := by
      simp only [drawFor, ActiveRequest.drawStep, hnone, LatencyModel.askStep]
    rw [heq]
    exact ⟨h.instant _ _ _, hdecoding, hnone⟩
  have hmem : ∀ r ∈ e.decoding, ∃ id, e.activeRequests.get? id = some r :=
    fun r hr => SortedMap.mem_values.mp (List.mem_of_mem_filter hr)
  have hbase : e.decodeBase = 0 := by
    rw [decodeBase]
    split
    · next pacer hpacer =>
        obtain ⟨id, hget⟩ := hmem pacer (List.argmax_mem hpacer)
        rw [(hdraw id pacer hget).1]
    · rfl
  have hactive : ∀ id, e.drawDecoders.1.activeRequests.get? id =
      (e.activeRequests.get? id).map (fun r => if r.isDecoding then (e.drawFor r).2 else r) :=
    fun id => SortedMap.get?_mapValues _ _ _
  have hdrawn : ∀ id r', e.drawDecoders.1.activeRequests.get? id = some r' →
      r'.isDecoding = true ∧ r'.scriptedDecode = none := by
    intro id r' hr'
    rw [hactive] at hr'
    obtain ⟨r, hget, rfl⟩ := Option.map_eq_some_iff.mp hr'
    rw [if_pos (h.decoding id r hget).1]
    exact (hdraw id r hget).2
  have horder : e.drawDecoders.1.prunePrefills.prefillOrder = [] := by
    rw [prunePrefills_prefillOrder, List.filter_eq_nil_iff]
    intro id _ hprefills
    rw [isPrefilling, Option.any_eq_true] at hprefills
    obtain ⟨r', hr', hphase⟩ := hprefills
    have hdecoding := (hdrawn id r' hr').1
    rw [ActiveRequest.isDecoding, Bool.and_eq_true, decide_eq_true_eq] at hdecoding
    simp [hdecoding.1] at hphase
  obtain ⟨id, r, hr⟩ := h.running
  have hdecoders : e.drawDecoders.2 ≠ [] := by
    have hdecodes : r ∈ e.decoding :=
      List.mem_filter.mpr ⟨SortedMap.mem_values.mpr ⟨id, hr⟩, (h.decoding id r hr).1⟩
    exact List.ne_nil_of_mem (List.mem_map_of_mem hdecodes)
  have hplan : ∀ decoders, e.drawDecoders.1.prunePrefills.chunkPlan decoders =
      ([], e.opt.stepBudget - (decoders.map (fun d => max d.tokens 1)).sum, 0) := by
    intro decoders
    rw [chunkPlan, horder]
    rfl
  have hcurrent : (e.composeStep anchor).currentStep =
      some ⟨anchor, e.drawDecoders.2, []⟩ := by
    simp only [composeStep, hplan, hbase]
    rw [if_neg (by simp [hdecoders])]
    simp
  refine ⟨⟨h.chunk, h.waiting, h.instant, hdrawn, ?_⟩, _, hcurrent, rfl, rfl, ?_⟩
  · exact ⟨id, _, (hactive id).trans (congrArg (Option.map _) hr)⟩
  · intro d hd
    obtain ⟨r, hdecodes, rfl⟩ := List.mem_map.mp hd
    obtain ⟨id, hget⟩ := hmem r hdecodes
    exact (congrArg StepDraw.tokens (hdraw id r hget).1).le

/-- A barren engine whose barren step is due never catches up. -/
theorem catchUp_barren {now : Instant} {e : SimEngine env} {step : EngineStep} (h : Barren e)
    (hdue : e.dueStep now = some step) (hstep : step.Barren) (fuel : ℕ) :
    catchUp now fuel e = none := by
  induction fuel generalizing e step with
  | zero => rfl
  | succ fuel ih =>
      have htake : Barren e.takeStep := ⟨h.chunk, h.waiting, h.instant, h.decoding, h.running⟩
      have hexec := executeStep_barren hstep htake
      have hidle : (e.takeStep.executeStep step).currentStep = none :=
        executeStep_currentStep step _
      have hround : (e.takeStep.completeStep now step).1 =
          (e.takeStep.executeStep step).composeStep step.endsAt := by
        rw [completeStep_eq, schedule, hexec.waiting]
        change (e.takeStep.executeStep step).ensureStep step.endsAt = _
        rw [ensureStep, hidle]
        rfl
      obtain ⟨hbarren, step', hstep', hends, hempty⟩ := composeStep_barren step.endsAt hexec
      have hdue' : ((e.takeStep.executeStep step).composeStep step.endsAt).dueStep now =
          some step' := by
        rw [dueStep, hstep', Option.filter_some, hends, if_pos]
        exact decide_eq_true (dueStep_some hdue).2
      rw [catchUp_some hdue, hround, ih hbarren hdue' hempty]
      rfl

end SimEngine

/-- Catching up ends in every reachable state of an engine whose decode steps generate. -/
theorem catchUp_terminates {e₀ e : SimEngine env} {turns : List (Turn env)} {clock : Instant}
    (hfresh : Fresh e₀) (hchunk : 0 < e₀.opt.outputTokenChunkSize) (hrun : Run e₀ turns e clock)
    (now : Instant) : e.CatchesUp now := by
  have hsize : e.opt.outputTokenChunkSize = e₀.opt.outputTokenChunkSize := by
    refine hrun.invariant (I := fun e => e.opt.outputTokenChunkSize =
      e₀.opt.outputTokenChunkSize) rfl ?_
    rintro now e effect e' hkept hmove
    rcases hmove.settings.1 with hsame | ⟨patch, _, hopt⟩
    · rw [hsame, hkept]
    · rw [hopt]
      exact hkept
  exact SimEngine.catchesUp (hrun.sound hfresh).toFiled (hsize ▸ hchunk) now

/-- Engines whose chunk size is 0 and whose decode steps take a tenth of a second. -/
def idleOpt : Opt := { demoOpt with outputTokenChunkSize := 0 }

/-- Once the request decodes, the patch lets its steps take no time. -/
def instantScript : List (Instant × Op) :=
  [(0, .input (.request (demoRequest "a" 1))), (0, .step),
    (0, .input (.control (.patchConfig { interTokenLatency := some 0 })))]

/-- Every request decodes without a recorded schedule, and the step in flight is due at 1. -/
def SimEngine.idles (e : SimEngine demoEnv) : Bool :=
  e.opt.outputTokenChunkSize = 0 && e.waiting.isEmpty && e.opt.interTokenLatency = 0 &&
    e.opt.interTokenLatencyStdDev = 0 && !e.activeRequests.values.isEmpty &&
    e.activeRequests.values.all (fun r => r.isDecoding && r.scriptedDecode.isNone) &&
    (e.dueStep 1).any (fun step => step.chunks.isEmpty && step.decoders.all (fun d => d.tokens ≤ 1))

/-- A configuration and a state in which the loop never ends. -/
theorem instant_steps_spin : ¬ ∀ (env : Env) (e₀ e : SimEngine env) (turns : List (Turn env))
    (clock now : Instant), Fresh e₀ → Run e₀ turns e clock → e.CatchesUp now := by
  intro hclaim
  have hplays : ((demo idleOpt none).play 20 instantScript).any
      (fun played => played.2.idles) = true := by decide +kernel
  obtain ⟨turns, e, clock, hrun, hops, hidles⟩ :=
    Run.of_script (p := fun _ e => e.idles) hplays (by decide +kernel)
  simp only [SimEngine.idles, Bool.and_eq_true, decide_eq_true_eq, List.isEmpty_iff,
    Bool.not_eq_true', List.all_eq_true, Option.isNone_iff_eq_none, Option.any_eq_true] at hidles
  obtain ⟨⟨⟨⟨⟨⟨hchunk, hwaiting⟩, hmean⟩, hdev⟩, hrunning⟩, hdecoding⟩, step, hdue, hstep⟩ := hidles
  have hsome : e.activeRequests.values ≠ [] := by simpa using hrunning
  obtain ⟨_, hlatency⟩ := hrun.knobbed (demo_fresh _ _ _) rfl
  have hbarren : e.Barren := by
    refine ⟨hchunk, hwaiting, fun rng n pacing => ?_, fun id r hr => ?_, ?_⟩
    · rw [hlatency]
      exact KnobLatency.pacedStep_instant hmean hdev rng n pacing
    · exact hdecoding r (SortedMap.mem_values.mpr ⟨id, hr⟩)
    · obtain ⟨r, hr⟩ := List.exists_mem_of_ne_nil _ hsome
      obtain ⟨id, hget⟩ := SortedMap.mem_values.mp hr
      exact ⟨id, r, hget⟩
  obtain ⟨fuel, res, hcatch, _⟩ := hclaim demoEnv _ e turns clock 1 (demo_fresh _ _ _) hrun
  rw [SimEngine.catchUp_barren hbarren hdue hstep fuel] at hcatch
  cases hcatch

/-- With chunks of one token the same script leaves a state that catches up. -/
theorem instantScript_catchesUp : ∃ turns e clock, Run (demo demoOpt none) turns e clock ∧
    turns.map Turn.op = instantScript.map Prod.snd ∧ e.opt.interTokenLatency = 0 ∧
    e.CatchesUp 1 := by
  have hplays : ((demo demoOpt none).play 20 instantScript).any
      (fun played => decide (played.2.opt.interTokenLatency = 0)) = true := by decide +kernel
  obtain ⟨turns, e, clock, hrun, hops, hmean⟩ :=
    Run.of_script (p := fun _ e => decide (e.opt.interTokenLatency = 0)) hplays (by decide +kernel)
  exact ⟨turns, e, clock, hrun, hops, of_decide_eq_true hmean,
    catchUp_terminates (demo_fresh demoOpt none rfl) (by decide +kernel) hrun 1⟩

end VllmVcr
