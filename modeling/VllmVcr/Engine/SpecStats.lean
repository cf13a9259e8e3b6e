import VllmVcr.Engine.Lives
import VllmVcr.Engine.PrefixStats
import VllmVcr.Engine.Reception

/-!
# Speculative-decoding accounting

A call of `step()` forgets the account of the call before and credits the decode draws of the
steps it completes. The account goes out with every envelope that carries scheduler stats, in
this call and in the aborts up to the next one: to no client, to one or to several.
-/

namespace VllmVcr

variable {env : Env} {now : Instant}

def Event.decoders : Event → List DecoderEntry
  | .completed step => step.decoders
  | _ => []

/-- The tokens that a decoder entry generated. -/
def Event.decoded : Event → ℕ
  | .generated g => if g.byDecoder then g.emit.elim 0 (fun emit => emit.tokens.length) else 0
  | _ => 0

namespace SimEngine

/-- The decode draws of the completed steps. -/
def draws (e : SimEngine env) : List DecoderEntry := e.journal.flatMap Event.decoders

/-- The tokens that decode steps generated. -/
def decodeTokens (e : SimEngine env) : ℕ := (e.journal.map Event.decoded).sum

/-- The tokens that a decoder entry of a step ending now generates. -/
def decodes (e : SimEngine env) (d : DecoderEntry) : ℕ :=
  (e.activeRequests.get? d.requestId).elim 0 (fun r => r.chunkLen (e.decoderChunk d.tokens))

/-- The steps that a catch-up completes, each with the engine in which it ends. -/
def dueSteps (now : Instant) : ℕ → SimEngine env → List (SimEngine env × EngineStep)
  | 0, _ => []
  | fuel + 1, e =>
    match e.dueStep now with
    | none => []
    | some step =>
        (e.takeStep, step) :: dueSteps now fuel (e.takeStep.completeStep now step).1

end SimEngine

/-- The draws of these steps. -/
def drawsOf (steps : List (SimEngine env × EngineStep)) : List DecoderEntry :=
  steps.flatMap (fun s => s.2.decoders)

theorem drawsOf_cons (s : SimEngine env × EngineStep) (steps : List (SimEngine env × EngineStep)) :
    drawsOf (s :: steps) = s.2.decoders ++ drawsOf steps := List.flatMap_cons

/-- The tokens that the decoder entries of these steps generate. -/
def decodedBy (steps : List (SimEngine env × EngineStep)) : ℕ :=
  (steps.map (fun s => (s.2.decoders.map s.1.decodes).sum)).sum

namespace Op

/-- The steps that the operation completes. -/
def dueSteps (fuel : ℕ) (now : Instant) (op : Op) (e : SimEngine env) :
    List (SimEngine env × EngineStep) :=
  match op with
  | .step => SimEngine.dueSteps now fuel e.clearSpec
  | _ => []

/-- The number of envelopes that carry scheduler stats: one for each client with a chunk due,
one for an abort that names a known request. -/
def reporters (fuel : ℕ) (now : Instant) (op : Op) (e : SimEngine env) : ℕ :=
  match op with
  | .step => (SimEngine.catchUp now fuel e.clearSpec).elim 0
      (fun caughtUp => (caughtUp.1.dueClients now).card)
  | .input (.abort ids) => if ∃ id ∈ ids, e.isKnown id then 1 else 0
  | .abortAllRequests => if ∃ id ∈ e.unfinishedIds, e.isKnown id then 1 else 0
  | _ => 0

def isStep : Op → Bool
  | .step => true
  | _ => false

end Op

namespace Turn

def dueSteps (fuel : ℕ) (t : Turn env) : List (SimEngine env × EngineStep) :=
  t.op.dueSteps fuel t.now t.before

def draws (fuel : ℕ) (t : Turn env) : List DecoderEntry := drawsOf (t.dueSteps fuel)

def reporters (fuel : ℕ) (t : Turn env) : ℕ := t.op.reporters fuel t.now t.before

end Turn

/-- The speculative accounts that a batch of envelopes carries. -/
def specReports (outs : List EngineOutput) : List SpecDecodingStats :=
  (statsOf outs).filterMap SchedulerStats.specDecodingStats

/-- The sum of a field over the speculative accounts that the envelopes of a run carry. -/
def specReported (field : SpecDecodingStats → ℕ) (turns : List (Turn env)) : ℕ :=
  ((specReports (turns.flatMap Turn.outputs)).map field).sum

/-! ## Crediting draws -/

/-- The account of a call before its first draw. -/
def SpecDecodingStats.start (k : ℕ) : SpecDecodingStats := ⟨k, 0, 0, 0, List.replicate k 0⟩

/-- The field grows by `credit n` with every draw of `n` tokens. -/
structure Counts (k : ℕ) (field : SpecDecodingStats → ℕ) (credit : ℕ → ℕ) : Prop where
  start : field (.start k) = 0
  step : ∀ acc n, acc.numAcceptedTokensPerPos.length = k →
    field (SimEngine.creditDraft k acc n) = field acc + credit n

def creditDrafts (k : ℕ) (acc : SpecDecodingStats) (draws : List DecoderEntry) :
    SpecDecodingStats :=
  draws.foldl (fun acc d => SimEngine.creditDraft k acc d.tokens) acc

/-- The account of the draws of one call. -/
def specAccount (k : ℕ) (draws : List DecoderEntry) : Option SpecDecodingStats :=
  if draws.isEmpty then none else some (creditDrafts k (.start k) draws)

namespace Counts

variable (k : ℕ)

theorem drafts : Counts k SpecDecodingStats.numDrafts (fun _ => 1) := ⟨rfl, fun _ _ _ => rfl⟩

theorem draftTokens : Counts k SpecDecodingStats.numDraftTokens (fun _ => k) :=
  ⟨rfl, fun _ _ _ => rfl⟩

theorem acceptedTokens :
    Counts k SpecDecodingStats.numAcceptedTokens (fun n => min (n - 1) k) :=
  ⟨rfl, fun _ _ _ => rfl⟩

theorem position {j : ℕ} (hj : j < k) :
    Counts k (fun s => s.numAcceptedTokensPerPos.getD j 0)
      (fun n => if j < min (n - 1) k then 1 else 0) := by
  constructor
  · simp [SpecDecodingStats.start, hj]
  · intro acc n hlen
    have hlt : j < acc.numAcceptedTokensPerPos.length := hlen ▸ hj
    simp only [SimEngine.creditDraft, List.getD_eq_getElem?_getD, List.getElem?_mapIdx,
      List.getElem?_eq_getElem hlt, Option.map_some, Option.getD_some]
    split <;> rfl

variable {k} {field : SpecDecodingStats → ℕ} {credit : ℕ → ℕ}

theorem creditDrafts (h : Counts k field credit) (draws : List DecoderEntry)
    (acc : SpecDecodingStats) (hlen : acc.numAcceptedTokensPerPos.length = k) :
    field (VllmVcr.creditDrafts k acc draws) =
      field acc + (draws.map (fun d => credit d.tokens)).sum := by
  induction draws generalizing acc with
  | nil => rfl
  | cons d draws ih =>
      have hnext : (SimEngine.creditDraft k acc d.tokens).numAcceptedTokensPerPos.length = k := by
        simpa [SimEngine.creditDraft] using hlen
      have hrest := ih _ hnext
      rw [h.step acc d.tokens hlen] at hrest
      rw [List.map_cons, List.sum_cons, ← Nat.add_assoc]
      exact hrest

theorem specAccount (h : Counts k field credit) (draws : List DecoderEntry) :
    (VllmVcr.specAccount k draws).elim 0 field =
      (draws.map (fun d => credit d.tokens)).sum := by
  cases draws with
  | nil => rfl
  | cons d draws =>
      have hall := h.creditDrafts (d :: draws) (.start k)
        (by simp [SpecDecodingStats.start])
      rw [h.start, Nat.zero_add] at hall
      exact hall

end Counts

theorem specAccount_append (k : ℕ) (draws more : List DecoderEntry) :
    specAccount k (draws ++ more) =
      if more.isEmpty then specAccount k draws
      else some (creditDrafts k ((specAccount k draws).getD (.start k)) more) := by
  cases more with
  | nil => simp
  | cons d more =>
      cases draws with
      | nil => rfl
      | cons d' draws =>
          simp [specAccount, creditDrafts, List.foldl_append]

namespace SimEngine

variable {e e' : SimEngine env}

theorem foldSpecStats_pending {k : ℕ} {draws : List DecoderEntry} (decoders : List DecoderEntry)
    (hspec : e.specTokens = some k) (hpending : e.pendingSpec = specAccount k draws) :
    (e.foldSpecStats decoders).pendingSpec = specAccount k (draws ++ decoders) := by
  rw [specAccount_append, ← hpending]
  simp only [foldSpecStats, hspec]
  split
  · rfl
  · rfl

/-! ## Completing a step -/

theorem generateFor_decodeTokens (stepEnd : Instant) (id : String) (entry : ℕ) (byDecoder : Bool)
    (n : ℕ) (r : ActiveRequest env) (e : SimEngine env) :
    (e.generateFor stepEnd id entry byDecoder n r).decodeTokens =
      e.decodeTokens + if byDecoder then r.chunkLen n else 0 := by
  have hjournal : (e.generateFor stepEnd id entry byDecoder n r).journal = e.journal ++
      [.generated ⟨entry, r.ticket, byDecoder, r.phase, (r.generate e.tokenSource stepEnd n
        e.opt.effectiveTimeScale e.emitSeq).2.2⟩] := rfl
  rw [decodeTokens, hjournal, List.map_append, List.sum_append, List.map_singleton,
    List.sum_singleton, Event.decoded, decodeTokens]
  rcases r.generate_eq e.tokenSource stepEnd n e.opt.effectiveTimeScale e.emitSeq with
    ⟨hlen, h⟩ | ⟨rng, source, emit, _, hlen, _, _, h⟩
  · rw [h, hlen]
    rfl
  · rw [h, ← hlen]
    rfl

theorem completeDecoder_decodeTokens (stepEnd : Instant) (e : SimEngine env) (d : DecoderEntry) :
    (completeDecoder stepEnd e d).decodeTokens = e.decodeTokens + e.decodes d := by
  unfold completeDecoder decodes
  cases e.activeRequests.get? d.requestId with
  | none => rfl
  | some r => exact generateFor_decodeTokens stepEnd d.requestId d.ticket true _ r e

theorem completeDecoder_decodes {d d' : DecoderEntry} (hid : d'.requestId ≠ d.requestId)
    (stepEnd : Instant) (e : SimEngine env) :
    (completeDecoder stepEnd e d).decodes d' = e.decodes d' := by
  unfold completeDecoder
  split
  · rfl
  · next r hr =>
      have hother := SortedMap.get?_insert_of_ne e.activeRequests _ _
        (r.generate e.tokenSource stepEnd (if 1 < d.tokens then d.tokens else
          e.opt.outputTokenChunkSize) e.opt.effectiveTimeScale e.emitSeq).1 hid
      exact congrArg (fun r? => Option.elim r? 0
        (fun r => r.chunkLen (e.decoderChunk d'.tokens))) hother

theorem completeDecoders_decodeTokens (stepEnd : Instant) {decoders : List DecoderEntry}
    (hnodup : (decoders.map DecoderEntry.requestId).Nodup) (e : SimEngine env) :
    (decoders.foldl (completeDecoder stepEnd) e).decodeTokens =
      e.decodeTokens + (decoders.map e.decodes).sum := by
  induction decoders generalizing e with
  | nil => rfl
  | cons d decoders ih =>
      obtain ⟨hd, hnodup⟩ := List.nodup_cons.mp hnodup
      have hothers : decoders.map (completeDecoder stepEnd e d).decodes =
          decoders.map e.decodes := by
        refine List.map_congr_left (fun d' hd' => completeDecoder_decodes ?_ stepEnd e)
        intro hid
        exact hd (hid ▸ List.mem_map_of_mem hd')
      rw [List.foldl_cons, ih hnodup, completeDecoder_decodeTokens, hothers, List.map_cons,
        List.sum_cons, Nat.add_assoc]

theorem completeChunk_decodeTokens (stepEnd : Instant) (numRunning : ℕ) (e : SimEngine env)
    (c : ChunkEntry) : (completeChunk stepEnd numRunning e c).decodeTokens = e.decodeTokens := by
  have hlog : ∀ ticket, (e.log (.chunked c.ticket ticket c.take)).decodeTokens =
      e.decodeTokens := by
    intro ticket
    simp [decodeTokens, Event.decoded]
  unfold completeChunk
  split
  · rfl
  · next r _ =>
      split
      · rfl
      · simp only
        split
        · exact hlog r.ticket
        · exact (generateFor_decodeTokens _ _ _ _ _ _ _).trans (hlog r.ticket)

theorem executeStep_decodeTokens {step : EngineStep}
    (hnodup : (step.decoders.map DecoderEntry.requestId).Nodup) (e : SimEngine env) :
    (e.executeStep step).decodeTokens = e.decodeTokens + (step.decoders.map e.decodes).sum := by
  have hlogged : (e.log (.completed step)).decodeTokens = e.decodeTokens := by
    simp [decodeTokens, Event.decoded]
  have hdecoded := completeDecoders_decodeTokens step.endsAt hnodup (e.log (.completed step))
  obtain ⟨spec, hspec⟩ := foldSpecStats_eq
    (step.decoders.foldl (completeDecoder step.endsAt) (e.log (.completed step))) step.decoders
  rw [hlogged] at hdecoded
  refine List.foldlRecOn (motive := fun e' : SimEngine env => e'.decodeTokens =
    e.decodeTokens + (step.decoders.map e.decodes).sum) _ _ ?_ ?_
  · rw [hspec]
    exact hdecoded
  · intro e' he' c _
    exact (completeChunk_decodeTokens _ _ e' c).trans he'

theorem executeStep_draws (step : EngineStep) (e : SimEngine env) :
    (e.executeStep step).draws = e.draws ++ step.decoders := by
  refine executeStep_rule (I := fun e' => e'.draws = e.draws ++ step.decoders) ?_ ?_ ?_ ?_ ?_ ?_
  · simp [draws, Event.decoders]
  · exact fun _ _ h => h
  · intro e' entry ticket take h
    rw [← h]
    simp [draws, Event.decoders]
  · exact fun _ _ _ _ _ _ _ _ h => h
  · exact fun _ _ h => h
  · intro e' id r r₁ entry byDecoder n _ _ h
    rw [← h]
    simp [draws, generateFor, Event.decoders]

theorem completeDecoder_steady (stepEnd : Instant) (e : SimEngine env) (d : DecoderEntry) :
    (completeDecoder stepEnd e d).steady = e.steady := by
  unfold completeDecoder
  split <;> rfl

theorem completeChunk_steady (stepEnd : Instant) (numRunning : ℕ) (e : SimEngine env)
    (c : ChunkEntry) : (completeChunk stepEnd numRunning e c).steady = e.steady := by
  unfold completeChunk
  split
  · rfl
  · split
    · rfl
    · simp only
      split <;> rfl

theorem executeStep_spec {k : ℕ} {draws : List DecoderEntry} (step : EngineStep)
    (hspec : e.specTokens = some k) (hpending : e.pendingSpec = specAccount k draws) :
    (e.executeStep step).specTokens = some k ∧
      (e.executeStep step).pendingSpec = specAccount k (draws ++ step.decoders) := by
  have hdecoded : (step.decoders.foldl (completeDecoder step.endsAt)
      (e.log (.completed step))).steady = e.steady :=
    List.foldlRecOn (motive := fun e' : SimEngine env => e'.steady = e.steady) _ _ rfl
      (fun e' he' d _ => (completeDecoder_steady _ e' d).trans he')
  have hfolded := foldSpecStats_pending step.decoders
    ((congrArg Steady.specTokens hdecoded).trans hspec)
    ((congrArg Steady.pendingSpec hdecoded).trans hpending)
  obtain ⟨spec, heq⟩ := foldSpecStats_eq (step.decoders.foldl (completeDecoder step.endsAt)
    (e.log (.completed step))) step.decoders
  have hchunked : (e.executeStep step).steady = ((step.decoders.foldl (completeDecoder step.endsAt)
      (e.log (.completed step))).foldSpecStats step.decoders).steady :=
    List.foldlRecOn (motive := fun e' : SimEngine env => e'.steady =
      ((step.decoders.foldl (completeDecoder step.endsAt)
        (e.log (.completed step))).foldSpecStats step.decoders).steady) _ _ rfl
      (fun e' he' c _ => (completeChunk_steady _ _ e' c).trans he')
  refine ⟨(congrArg Steady.specTokens hchunked).trans ?_,
    (congrArg Steady.pendingSpec hchunked).trans hfolded⟩
  rw [heq]
  exact (congrArg Steady.specTokens hdecoded).trans hspec

end SimEngine

theorem Move.decodes {e e' : SimEngine env} {effect : Effect} (h : Move now e effect e')
    (hcompleted : ∀ step, effect ≠ .completed step) :
    e'.draws = e.draws ∧ e'.decodeTokens = e.decodeTokens := by
  obtain ⟨evs, hjournal, hentries⟩ := h.entries hcompleted
  have hevs : evs.flatMap Event.decoders = [] ∧ (evs.map Event.decoded).sum = 0 := by
    rw [List.flatMap_eq_nil_iff, List.sum_eq_zero_iff, List.forall_mem_map, ← forall₂_and]
    intro ev hev
    have hentry := hentries ev hev
    cases ev with
    | completed | chunked | generated => cases hentry
    | cached | admitted | promoted => exact ⟨rfl, rfl⟩
  constructor
  · rw [SimEngine.draws, hjournal, List.flatMap_append, hevs.1, List.append_nil, SimEngine.draws]
  · rw [SimEngine.decodeTokens, hjournal, List.map_append, List.sum_append, hevs.2, Nat.add_zero,
      SimEngine.decodeTokens]

/-- What the accounting needs of a state, and that no step has ended since `e₀`. -/
structure SpecKept (e₀ e : SimEngine env) : Prop where
  sound : Sound e
  once : e.DrawsOnce
  draws : e.draws = e₀.draws
  decodeTokens : e.decodeTokens = e₀.decodeTokens

theorem Emits.specKept {P : Effect → Prop} {e₀ e e' : SimEngine env} {os : List EngineCoreOutput}
    (h : Emits P now e os e') (hP : ∀ step, ¬ P (.completed step)) (hk : SpecKept e₀ e) :
    SpecKept e₀ e' := by
  refine h.invariant hk (fun u effect v hallow hu hmove => ?_)
  have hcompleted : ∀ step, effect ≠ .completed step := by
    rintro step rfl
    rcases hallow with ⟨os, hos⟩ | hallowed
    · cases hos
    · exact hP step hallowed
  obtain ⟨hdraws, htokens⟩ := hmove.decodes hcompleted
  exact ⟨hmove.sound hu.sound, hmove.drawsOnce hu.sound hu.once, hdraws.trans hu.draws,
    htokens.trans hu.decodeTokens⟩

namespace SimEngine

variable {e e' : SimEngine env} {k fuel : ℕ}

/-- The account of a catch-up. -/
theorem catchUp_spec {outs : List EngineOutput} (draws : List DecoderEntry)
    (h : catchUp now fuel e = some (e', outs)) (he : Sound e) (honce : e.DrawsOnce)
    (hspec : e.specTokens = some k) (hpending : e.pendingSpec = specAccount k draws) :
    e'.pendingSpec = specAccount k (draws ++ drawsOf (dueSteps now fuel e)) ∧
      e'.specTokens = some k ∧ Sound e' ∧ e'.DrawsOnce ∧
      e'.draws = e.draws ++ drawsOf (dueSteps now fuel e) ∧
      e'.decodeTokens = e.decodeTokens + decodedBy (dueSteps now fuel e) := by
  induction fuel generalizing e outs draws with
  | zero => cases h
  | succ fuel ih =>
      unfold dueSteps
      cases hdue : e.dueStep now with
      | none =>
          rw [catchUp_none hdue] at h
          cases h
          exact ⟨by simpa [drawsOf] using hpending, hspec, he, honce, by simp [drawsOf], rfl⟩
      | some step =>
          rw [catchUp_some hdue] at h
          obtain ⟨⟨e'', more⟩, hrest, heq⟩ := Option.map_eq_some_iff.mp h
          cases heq
          obtain ⟨hstep, hend⟩ := dueStep_some hdue
          have hmove := Move.executed e hstep hend
          have hsame : (e.takeStep.completeStep now step).1.steady =
              (e.takeStep.executeStep step).steady :=
            (ensureStep_steady _ _).trans (schedule_steady now _)
          obtain ⟨hspec', hpending'⟩ := executeStep_spec (e := e.takeStep) step hspec hpending
          have hlast : ((e.takeStep.executeStep step).schedule now).1.lastCompleted = some step :=
            (scheduleLoop_lastCompleted now _ _).trans (executeStep_lastCompleted step _)
          have hkept : SpecKept (e.takeStep.executeStep step)
              (e.takeStep.completeStep now step).1 :=
            ((schedule_emits (P := fun _ => False) now _).trans
              (ensureStep_emits (Or.inr ⟨step, hlast, rfl⟩))).specKept (fun _ hfalse => hfalse)
                ⟨hmove.sound he, hmove.drawsOnce he honce, rfl, rfl⟩
          obtain ⟨hacc, hk, hsound, honce', hdraws, htokens⟩ := ih _ hrest hkept.sound hkept.once
            ((congrArg Steady.specTokens hsame).trans hspec')
            ((congrArg Steady.pendingSpec hsame).trans hpending')
          have hexecuted := executeStep_decodeTokens (honce step hstep) e.takeStep
          refine ⟨?_, hk, hsound, honce', ?_, ?_⟩
          · rw [hacc, List.append_assoc]
            rfl
          · rw [hdraws, hkept.draws, executeStep_draws, List.append_assoc]
            rfl
          · rw [htokens, hkept.decodeTokens, hexecuted, Nat.add_assoc]
            rfl

/-- The account held back between the calls of `step()`. -/
theorem perform_pendingSpec {op : Op} {outs : List EngineOutput}
    (h : e.perform fuel now op = some (e', outs)) (hop : op.isStep = false) :
    e'.pendingSpec = e.pendingSpec ∧ e'.specTokens = e.specTokens := by
  have hstep : op ≠ .step := by
    rintro rfl
    cases hop
  by_cases hreset : op = .input (.control .resetStats)
  · subst hreset
    cases h
    exact ⟨rfl, rfl⟩
  · cases htaken : op.taken with
    | none =>
        have hsame := perform_steady h htaken hstep hreset
        exact ⟨congrArg Steady.pendingSpec hsame, congrArg Steady.specTokens hsame⟩
    | some request =>
        cases op with
        | input input =>
            cases input with
            | request request' =>
                have hres : e.handleRequest now request' = (e', outs) := Option.some.inj h
                obtain ⟨rng, reason, hmaybe⟩ := maybeFail_frame request' e.countReceived
                unfold handleRequest at hres
                simp only [hmaybe] at hres
                split at hres
                · cases hres
                  exact ⟨rfl, rfl⟩
                · cases reason with
                  | some reason =>
                      cases hres
                      exact ⟨rfl, rfl⟩
                  | none =>
                      have hsame := refill_steady now
                        ((e.countReceived.withFailureRng rng).enqueue now request')
                      simp only [hres] at hsame
                      exact ⟨congrArg Steady.pendingSpec hsame, congrArg Steady.specTokens hsame⟩
            | abort | utility | startDpWave | control => cases htaken
        | rejectRequest request' =>
            cases h
            exact ⟨rfl, rfl⟩
        | pullCompletion | step | abortAllRequests => cases htaken

theorem schedulerStats_spec (e : SimEngine env) :
    e.schedulerStats.2.specDecodingStats = e.pendingSpec := rfl

/-- Every envelope with stats carries the account as the operation leaves it. -/
theorem perform_specReports {op : Op} {outs : List EngineOutput}
    (h : e.perform fuel now op = some (e', outs)) (field : SpecDecodingStats → ℕ) :
    ((specReports outs).map field).sum =
      op.reporters fuel now e * e'.pendingSpec.elim 0 field := by
  have hreplicate : ∀ (n : ℕ) (stats : SchedulerStats), stats.specDecodingStats = e'.pendingSpec →
      statsOf outs = List.replicate n stats →
      ((specReports outs).map field).sum = n * e'.pendingSpec.elim 0 field := by
    intro n stats hstats houts
    rw [specReports, houts, ← hstats]
    cases hspec : stats.specDecodingStats with
    | none => simp [hspec]
    | some account => simp [hspec]
  have hquiet : (∀ s, ¬ op.Allows (.drained s)) → op.reporters fuel now e = 0 →
      ((specReports outs).map field).sum =
        op.reporters fuel now e * e'.pendingSpec.elim 0 field := by
    intro hop hnone
    rw [specReports, perform_statsOf h hop, hnone, Nat.zero_mul]
    rfl
  have habort : ∀ ids, e.abortRequests now ids = (e', outs) →
      ((specReports outs).map field).sum =
        (if ∃ id ∈ ids, e.isKnown id then 1 else 0) * e'.pendingSpec.elim 0 field := by
    intro ids heq
    have hafter : (e.afterAbort now ids).steady = e.steady :=
      (schedule_steady now _).trans (aborted_steady ids _)
    have hsame := abortRequests_steady now ids e
    have hstats := abortRequests_statsOf now ids e
    rw [heq] at hsame hstats
    exact hreplicate _ _ (congrArg Steady.pendingSpec (hafter.trans hsame.symm)) hstats
  cases op with
  | input input =>
      cases input with
      | abort ids => exact habort ids (Option.some.inj h)
      | request | utility | startDpWave | control =>
          exact hquiet (fun s hs => by simp [Op.Allows] at hs) rfl
  | pullCompletion | rejectRequest => exact hquiet (fun s hs => by simp [Op.Allows] at hs) rfl
  | abortAllRequests => exact habort e.unfinishedIds (Option.some.inj h)
  | step =>
      obtain ⟨caughtUp, hcatch, heq⟩ := Option.map_eq_some_iff.mp h
      have hstats := emitAndRefill_statsOf now caughtUp.1 (catchUp_statsOf hcatch)
      have hsame : (caughtUp.1.emitAndRefill now caughtUp.2).1.steady =
          ((caughtUp.1.afterRefill now).ensureStep now).steady := by
        rw [emitAndRefill_eq]
        exact schedulerStats_steady _
      rw [heq] at hstats hsame
      have hpending := congrArg Steady.pendingSpec hsame
      rw [steady_pendingSpec, steady_pendingSpec] at hpending
      have hreporters : Op.step.reporters fuel now e = (caughtUp.1.dueClients now).card := by
        simp [Op.reporters, hcatch]
      rw [hreporters]
      exact hreplicate _ _ ((schedulerStats_spec _).trans hpending.symm) hstats

/-- What an operation does to the speculative accounting. -/
structure SpecTurn (k fuel : ℕ) (now : Instant) (op : Op) (e e' : SimEngine env) : Prop where
  sound : Sound e'
  once : e'.DrawsOnce
  specTokens : e'.specTokens = some k
  pending : e'.pendingSpec =
    if op.isStep then specAccount k (drawsOf (op.dueSteps fuel now e)) else e.pendingSpec
  draws : e'.draws = e.draws ++ drawsOf (op.dueSteps fuel now e)
  decodeTokens : e'.decodeTokens = e.decodeTokens + decodedBy (op.dueSteps fuel now e)

theorem perform_spec {op : Op} {outs : List EngineOutput}
    (h : e.perform fuel now op = some (e', outs)) (he : Sound e) (honce : e.DrawsOnce)
    (hspec : e.specTokens = some k) : SpecTurn k fuel now op e e' := by
  cases hop : op.isStep with
  | false =>
      have hsteps : op.dueSteps fuel now e = [] := by
        cases op with
        | step => cases hop
        | input | pullCompletion | rejectRequest | abortAllRequests => rfl
      have hcompleted : ∀ step, ¬ op.Allows (.completed step) := by
        intro step hallow
        rw [show op = .step from hallow] at hop
        cases hop
      obtain ⟨os, hemits, _⟩ := perform_emits h
      have hkept := hemits.specKept hcompleted ⟨he, honce, rfl, rfl⟩
      obtain ⟨hpending, htokens⟩ := perform_pendingSpec h hop
      refine ⟨hkept.sound, hkept.once, htokens.trans hspec, by simpa [hop] using hpending, ?_, ?_⟩
      · rw [hsteps, hkept.draws]
        exact (List.append_nil _).symm
      · rw [hsteps, hkept.decodeTokens]
        rfl
  | true =>
      obtain rfl : op = .step := by
        cases op with
        | step => rfl
        | input | pullCompletion | rejectRequest | abortAllRequests => cases hop
      obtain ⟨e₁, caughtUp, _, _, hcatch, rfl, _⟩ := step_parts h
      have hclear : Move now e _ _ := Move.specCleared e
      obtain ⟨hpending, hcaught, hsound, honce₁, hdraws, htokens⟩ := catchUp_spec [] hcatch
        (hclear.sound he) (hclear.drawsOnce he honce) hspec rfl
      have hflush : Move now e₁ _ _ := Move.flushed e₁
      have hkept : SpecKept e₁
          (((e₁.flush now).1.schedule now).1.ensureStep now).schedulerStats.1 :=
        ((Emits.move hflush).trans ((schedule_emits now _).trans ((ensureStep_emits
          (Or.inl rfl)).trans (drained_emits now _ (fun s => ⟨s, rfl⟩))))).specKept
            (P := fun effect => ∃ s, effect = .drained s) (by rintro _ ⟨_, hs⟩; cases hs)
            ⟨hsound, honce₁, rfl, rfl⟩
      have hsame : ((((e₁.flush now).1.schedule now).1.ensureStep now).schedulerStats.1).steady =
          e₁.steady := by
        rw [schedulerStats_steady, ensureStep_steady, schedule_steady, flush_steady]
      have hspecTokens := congrArg Steady.specTokens hsame
      have hpendingSpec := congrArg Steady.pendingSpec hsame
      rw [steady_specTokens, steady_specTokens] at hspecTokens
      rw [steady_pendingSpec, steady_pendingSpec] at hpendingSpec
      refine ⟨hkept.sound, hkept.once, hspecTokens.trans hcaught, hpendingSpec.trans hpending, ?_, ?_⟩
      · rw [hkept.draws, hdraws]
        rfl
      · rw [hkept.decodeTokens, htokens]
        rfl

end SimEngine

/-! ## Runs -/

/-- The envelopes with scheduler stats that leave before the next call of `step()`. -/
def reportsUntilStep (fuel : ℕ) (turns : List (Turn env)) : ℕ :=
  ((turns.takeWhile (fun t => !t.op.isStep)).map (Turn.reporters fuel)).sum

namespace Turn

/-- The clients with a chunk due in the call, once it has caught up. -/
def clientsDue (fuel : ℕ) (t : Turn env) : ℕ :=
  (SimEngine.catchUp t.now fuel t.before.clearSpec).elim 0
    (fun caughtUp => (caughtUp.1.dueClients t.now).card)

/-- The turn aborts a request that the engine knows. -/
def abortsKnown (t : Turn env) : Bool :=
  match t.op with
  | .input (.abort ids) => ∃ id ∈ ids, t.before.isKnown id
  | .abortAllRequests => ∃ id ∈ t.before.unfinishedIds, t.before.isKnown id
  | _ => false

end Turn

/-- The aborts of known requests before the next call of `step()`. -/
def abortsUntilStep (turns : List (Turn env)) : ℕ :=
  (turns.takeWhile (fun t => !t.op.isStep)).countP Turn.abortsKnown

def ActiveRequest.tokensLeft (r : ActiveRequest env) : ℕ := r.maxTokens - r.generated

/-- The request of the draw is in the batch, with the drawn tokens left. A single token is drawn
only for the request's last one or when chunks are of one token. -/
def SimEngine.Serves (e : SimEngine env) (d : DecoderEntry) : Prop :=
  ∃ r, e.activeRequests.get? d.requestId = some r ∧
    if 1 < d.tokens then d.tokens ≤ r.tokensLeft
    else 0 < r.tokensLeft ∧ 0 < e.opt.outputTokenChunkSize ∧
      (e.opt.outputTokenChunkSize = 1 ∨ r.tokensLeft = 1)

/-- What keeps the account of a run. A call of `step()` that completes decode draws finds one
client with a chunk due and no known request is aborted before the next call, or finds none and
there is one such abort. When a step ends, every draw of it is served. -/
structure SpecAccounted (fuel : ℕ) (turns : List (Turn env)) : Prop where
  fuelled : ∀ t ∈ turns, (t.before.perform fuel t.now t.op).isSome
  announced : ∀ pre t post, turns = pre ++ t :: post → t.draws fuel ≠ [] →
    t.clientsDue fuel + abortsUntilStep post = 1
  served : ∀ t ∈ turns, ∀ s ∈ t.dueSteps fuel, ∀ d ∈ s.2.decoders, s.1.Serves d

theorem SimEngine.decodes_eq_iff {e : SimEngine env} {d : DecoderEntry} :
    e.decodes d = max d.tokens 1 ↔ e.Serves d := by
  rw [decodes, Serves]
  cases e.activeRequests.get? d.requestId with
  | none =>
      apply iff_of_false
      · change ¬ 0 = max d.tokens 1
        omega
      · rintro ⟨r, hr, _⟩
        cases hr
  | some r =>
      change min r.tokensLeft (e.decoderChunk d.tokens) = max d.tokens 1 ↔ _
      rw [decoderChunk]
      by_cases hmany : 1 < d.tokens
      · simp only [Option.some.injEq, exists_eq_left', if_pos hmany]
        omega
      · simp only [Option.some.injEq, exists_eq_left', if_neg hmany]
        omega

section Causes

variable {fuel : ℕ} {t : Turn env}

theorem Turn.reporters_of_isStep (h : t.op.isStep = true) :
    t.reporters fuel = t.clientsDue fuel := by
  unfold Op.isStep at h
  split at h
  · next hstep =>
      rw [Turn.reporters, hstep]
      rfl
  · cases h

theorem Turn.reporters_of_not_isStep (h : t.op.isStep = false) :
    t.reporters fuel = if t.abortsKnown then 1 else 0 := by
  unfold Turn.reporters Turn.abortsKnown Op.reporters
  cases hop : t.op with
  | step => simp [hop, Op.isStep] at h
  | input input => cases input <;> simp
  | abortAllRequests => simp
  | pullCompletion | rejectRequest => rfl

theorem Turn.draws_of_not_isStep (h : t.op.isStep = false) : t.draws fuel = [] := by
  unfold Turn.draws Turn.dueSteps Op.dueSteps
  split
  · next hstep => simp [hstep, Op.isStep] at h
  · rfl

end Causes

theorem reportsUntilStep_cons (fuel : ℕ) (t : Turn env) (turns : List (Turn env)) :
    reportsUntilStep fuel (t :: turns) =
      if t.op.isStep then 0 else t.reporters fuel + reportsUntilStep fuel turns := by
  unfold reportsUntilStep
  cases hop : t.op.isStep with
  | true => simp [hop]
  | false => simp [hop]

/-- Between calls of `step()` only an abort of a known request reports. -/
theorem reportsUntilStep_eq (fuel : ℕ) (turns : List (Turn env)) :
    reportsUntilStep fuel turns = abortsUntilStep turns := by
  induction turns with
  | nil => rfl
  | cons t turns ih =>
      rw [reportsUntilStep_cons, ih, abortsUntilStep, abortsUntilStep]
      cases hop : t.op.isStep with
      | true => simp [hop]
      | false =>
          rw [Turn.reporters_of_not_isStep hop, List.takeWhile_cons_of_pos (by simp [hop]),
            List.countP_cons]
          exact Nat.add_comm _ _

namespace SpecAccounted

variable {fuel : ℕ} {t : Turn env} {turns : List (Turn env)}

theorem tail (h : SpecAccounted fuel (t :: turns)) : SpecAccounted fuel turns where
  fuelled u hu := h.fuelled u (List.mem_cons_of_mem t hu)
  announced pre u post hsplit := h.announced (t :: pre) u post (by rw [hsplit, List.cons_append])
  served u hu := h.served u (List.mem_cons_of_mem t hu)

/-- Completed draws are in the account of one envelope. -/
theorem reported (h : SpecAccounted fuel (t :: turns)) (hdraws : t.draws fuel ≠ []) :
    t.reporters fuel + reportsUntilStep fuel turns = 1 := by
  have hstep : t.op.isStep = true := by
    by_contra hno
    exact hdraws (Turn.draws_of_not_isStep (by simpa using hno))
  rw [Turn.reporters_of_isStep hstep, reportsUntilStep_eq]
  exact h.announced [] t turns rfl hdraws

/-- A draw generates the tokens it drew. -/
theorem generated (h : SpecAccounted fuel (t :: turns)) :
    ∀ s ∈ t.dueSteps fuel, ∀ d ∈ s.2.decoders, s.1.decodes d = max d.tokens 1 :=
  fun s hs d hd => SimEngine.decodes_eq_iff.mpr (h.served t List.mem_cons_self s hs d hd)

theorem head (h : SpecAccounted fuel (t :: turns)) {s u : SimEngine env × Instant}
    (htakes : Turn.Takes s t u) :
    t.before.perform fuel t.now t.op = some (t.after, t.outputs) := by
  obtain ⟨fuel', hperform⟩ := htakes.performs
  obtain ⟨res, hres⟩ := Option.isSome_iff_exists.mp (h.fuelled t List.mem_cons_self)
  rwa [SimEngine.perform_unique hres hperform] at hres

theorem decodedBy_head (h : SpecAccounted fuel (t :: turns)) :
    decodedBy (t.dueSteps fuel) = ((t.draws fuel).map (fun d => max d.tokens 1)).sum := by
  have hsteps : ∀ steps : List (SimEngine env × EngineStep),
      (∀ s ∈ steps, ∀ d ∈ s.2.decoders, s.1.decodes d = max d.tokens 1) →
      decodedBy steps = ((drawsOf steps).map (fun d => max d.tokens 1)).sum := by
    intro steps hall
    induction steps with
    | nil => rfl
    | cons s steps ih =>
        have hrest := ih (fun s' hs' => hall s' (List.mem_cons_of_mem s hs'))
        have hone : s.2.decoders.map s.1.decodes = s.2.decoders.map (fun d => max d.tokens 1) :=
          List.map_congr_left (hall s List.mem_cons_self)
        rw [decodedBy] at hrest ⊢
        rw [List.map_cons, List.sum_cons, hrest, hone, drawsOf_cons, List.map_append,
          List.sum_append]
  exact hsteps _ h.generated

end SpecAccounted

/-- The account of a part of a run: reports of what was pending when it starts, and of the draws
completed in it. -/
theorem spec_path {k fuel : ℕ} {field : SpecDecodingStats → ℕ} {credit : ℕ → ℕ}
    (hcounts : Counts k field credit) {s u : SimEngine env × Instant} {turns : List (Turn env)}
    (hpath : Path (fun s t u => Turn.Takes s t u) s turns u) (he : Sound s.1)
    (honce : s.1.DrawsOnce) (hspec : s.1.specTokens = some k) (hok : SpecAccounted fuel turns) :
    specReported field turns = reportsUntilStep fuel turns * s.1.pendingSpec.elim 0 field +
        ((turns.flatMap (Turn.draws fuel)).map (fun d => credit d.tokens)).sum ∧
      u.1.draws = s.1.draws ++ turns.flatMap (Turn.draws fuel) ∧
      u.1.decodeTokens = s.1.decodeTokens +
        ((turns.flatMap (Turn.draws fuel)).map (fun d => max d.tokens 1)).sum := by
  induction turns generalizing s with
  | nil =>
      obtain rfl := hpath.of_nil
      exact ⟨by simp [specReported, specReports, statsOf, reportsUntilStep], by simp, by simp⟩
  | cons t turns ih =>
      obtain ⟨⟨e, now⟩, htakes, hrest⟩ := hpath.uncons
      obtain ⟨e₀, clock⟩ := s
      obtain rfl : t.before = e₀ := htakes.before
      obtain rfl : t.after = e := htakes.after
      have hperform := hok.head htakes
      have hturn := SimEngine.perform_spec hperform he honce hspec
      obtain ⟨hreports, hdraws, htokens⟩ := ih hrest hturn.sound hturn.once hturn.specTokens
        hok.tail
      have hsent := SimEngine.perform_specReports hperform field
      have hall : specReported field (t :: turns) =
          ((specReports t.outputs).map field).sum + specReported field turns := by
        simp [specReported, specReports]
      refine ⟨?_, ?_, ?_⟩
      · rw [hall, hsent, hreports, reportsUntilStep_cons, List.flatMap_cons, List.map_append,
          List.sum_append, ← Nat.add_assoc, ← Nat.add_assoc, ← Nat.add_mul]
        congr 1
        have hpending := hturn.pending
        cases hop : t.op.isStep with
        | false =>
            have hnone : t.draws fuel = [] := Turn.draws_of_not_isStep hop
            rw [hop, if_neg Bool.false_ne_true] at hpending
            rw [hpending, hnone]
            rfl
        | true =>
            rw [hop, if_pos rfl] at hpending
            have hcredit := hcounts.specAccount (t.draws fuel)
            rw [hpending]
            change _ * (specAccount k (t.draws fuel)).elim 0 field = _
            rw [hcredit, if_pos rfl, Nat.zero_mul, Nat.zero_add]
            by_cases hnone : t.draws fuel = []
            · simp [hnone]
            · have hreported := hok.reported hnone
              rw [Turn.reporters] at hreported
              rw [hreported, Nat.one_mul]
      · rw [hdraws, hturn.draws, List.flatMap_cons, List.append_assoc]
        rfl
      · rw [htokens, hturn.decodeTokens, List.flatMap_cons, List.map_append, List.sum_append,
          ← hok.decodedBy_head, Nat.add_assoc]
        rfl

theorem Fresh.spec {e : SimEngine env} (h : Fresh e) :
    e.DrawsOnce ∧ e.pendingSpec = none ∧ e.draws = [] ∧ e.decodeTokens = 0 := by
  obtain ⟨engineIndex, opt, tokenSource, stepSource, hnew⟩ := h
  obtain ⟨latency, _, rfl⟩ := except_map_eq_ok hnew
  exact ⟨fun step hstep => (by cases hstep), rfl, rfl, rfl⟩

/-- In a run that accounts for its draws, each of them is reported once, and the accepted tokens
and drafts reported are the tokens that the decode steps generated. -/
theorem spec_conserved {e₀ e : SimEngine env} {turns : List (Turn env)} {clock : Instant}
    {k fuel : ℕ} (hfresh : Fresh e₀) (hrun : Run e₀ turns e clock)
    (hspec : e₀.specTokens = some k) (hdrawn : ∀ d ∈ e.draws, d.tokens ≤ k + 1)
    (hok : SpecAccounted fuel turns) :
    specReported SpecDecodingStats.numDrafts turns = e.draws.length ∧
      specReported SpecDecodingStats.numDraftTokens turns = e.draws.length * k ∧
      specReported SpecDecodingStats.numAcceptedTokens turns =
        (e.draws.map (fun d => min (d.tokens - 1) k)).sum ∧
      (∀ j < k, specReported (fun s => s.numAcceptedTokensPerPos.getD j 0) turns =
        (e.draws.map (fun d => if j < min (d.tokens - 1) k then 1 else 0)).sum) ∧
      specReported SpecDecodingStats.numAcceptedTokens turns +
        specReported SpecDecodingStats.numDrafts turns = e.decodeTokens := by
  obtain ⟨honce, hpending, hnone, hzero⟩ := hfresh.spec
  have hreported : ∀ {field : SpecDecodingStats → ℕ} {credit : ℕ → ℕ}, Counts k field credit →
      specReported field turns = (e.draws.map (fun d => credit d.tokens)).sum := by
    intro field credit hcounts
    obtain ⟨hreports, hdraws, _⟩ := spec_path hcounts hrun hfresh.sound honce hspec hok
    rw [hnone, List.nil_append] at hdraws
    rw [hreports, hpending, hdraws]
    exact Nat.zero_add _
  have haccepted := hreported (Counts.acceptedTokens k)
  have hdrafts := hreported (Counts.drafts k)
  obtain ⟨_, hdraws, htokens⟩ := spec_path (Counts.drafts k) hrun hfresh.sound honce hspec hok
  rw [hnone, List.nil_append] at hdraws
  rw [hzero, Nat.zero_add, ← hdraws] at htokens
  refine ⟨by simpa using hdrafts, ?_, haccepted, fun j hj => hreported (Counts.position k hj), ?_⟩
  · simpa using hreported (Counts.draftTokens k)
  · rw [haccepted, hdrafts, htokens, ← List.sum_map_add]
    refine congrArg List.sum (List.map_congr_left (fun d hd => ?_))
    have hle := hdrawn d hd
    omega

/-! ## Played accounts -/

/-- Whether a list of turns accounts for its draws. -/
def accounted (fuel : ℕ) : List (Turn env) → Bool
  | [] => true
  | t :: turns =>
    (t.before.perform fuel t.now t.op).isSome &&
      decide (t.draws fuel ≠ [] → t.clientsDue fuel + abortsUntilStep turns = 1) &&
      (t.dueSteps fuel).all (fun s => s.2.decoders.all (fun d => s.1.decodes d = max d.tokens 1)) &&
      accounted fuel turns

theorem SpecAccounted.of_accounted {fuel : ℕ} {turns : List (Turn env)}
    (h : accounted fuel turns = true) : SpecAccounted fuel turns := by
  induction turns with
  | nil => exact ⟨by simp, by simp, by simp⟩
  | cons t turns ih =>
      simp only [accounted, Bool.and_eq_true, decide_eq_true_eq] at h
      obtain ⟨⟨⟨hfuelled, hannounced⟩, hgenerated⟩, hrest⟩ := h
      have htail := ih hrest
      refine ⟨List.forall_mem_cons.mpr ⟨hfuelled, htail.fuelled⟩, fun pre u post hsplit => ?_,
        List.forall_mem_cons.mpr ⟨fun s hs d hd => SimEngine.decodes_eq_iff.mp ?_, htail.served⟩⟩
      · cases pre with
        | nil =>
            cases hsplit
            exact hannounced
        | cons t' pre => exact htail.announced pre u post (List.cons.inj hsplit).2
      · exact of_decide_eq_true (List.all_eq_true.mp (List.all_eq_true.mp hgenerated s hs) d hd)

/-- A request's recorded timeline: three bursts of up to three tokens. -/
def burstSource : StepSource :=
  .index [{ outputTokens := 8, itlMs := some [100, 100, 100], itlTokens := some [3, 1, 3] }]

def burstScript : List (Instant × Op) :=
  [(0, .input (.request (demoRequest "r-0" 8))), (0, .step), (1 / 10, .step), (2 / 10, .step),
    (3 / 10, .step)]

theorem burstScript_conserved :
    ∃ turns e clock, Run (demo demoOpt (some burstSource)) turns e clock ∧
      e.draws.map DecoderEntry.tokens = [3, 1, 3] ∧
      specReported SpecDecodingStats.numDrafts turns = 3 ∧
      specReported SpecDecodingStats.numAcceptedTokens turns +
        specReported SpecDecodingStats.numDrafts turns = e.decodeTokens := by
  have hplays : ((demo demoOpt (some burstSource)).play 20 burstScript).any (fun played =>
      accounted 20 played.1 ∧ played.2.draws.map DecoderEntry.tokens = [3, 1, 3]) = true := by
    decide +kernel
  obtain ⟨turns, e, clock, hrun, _, hp⟩ := Run.of_script (p := fun turns e =>
    accounted 20 turns ∧ e.draws.map DecoderEntry.tokens = [3, 1, 3]) hplays (by decide +kernel)
  obtain ⟨hok, hdraws⟩ := of_decide_eq_true hp
  have hdrawn : ∀ d ∈ e.draws, d.tokens ≤ 2 + 1 := by
    intro d hd
    have hmem : d.tokens ∈ [3, 1, 3] := hdraws ▸ List.mem_map_of_mem hd
    simp at hmem
    omega
  obtain ⟨hdrafts, _, _, _, htokens⟩ := spec_conserved (demo_fresh _ _ _) hrun
    (by decide +kernel) hdrawn (.of_accounted hok)
  have hlength : e.draws.length = 3 := by
    rw [← List.length_map (f := DecoderEntry.tokens), hdraws]
    rfl
  exact ⟨turns, e, clock, hrun, hdraws, hdrafts.trans hlength, htokens⟩

/-- The bursts fall due one second late, and the call that completes the first one emits nothing. -/
def silentBurstScript : List (Instant × Op) :=
  [(0, .input (.request (demoRequest "r-0" 8))), (0, .step), (1 / 10, .step), (15 / 100, .step)]

theorem silentBurstScript_loses :
    ∃ turns e clock, Run (demo { demoOpt with timeToFirstToken := 1000 } (some burstSource))
        turns e clock ∧
      (demo { demoOpt with timeToFirstToken := 1000 } (some burstSource)).specTokens = some 2 ∧
      (∀ d ∈ e.draws, d.tokens ≤ 2 + 1) ∧ e.pendingSpec = none ∧ e.draws.length = 1 ∧
      specReported SpecDecodingStats.numDrafts turns = 0 ∧ e.decodeTokens = 3 ∧
      specReported SpecDecodingStats.numAcceptedTokens turns +
        specReported SpecDecodingStats.numDrafts turns ≠ e.decodeTokens := by
  have hplays : ((demo { demoOpt with timeToFirstToken := 1000 } (some burstSource)).play 20
      silentBurstScript).any (fun played =>
        (played.2.draws.all (fun d => d.tokens ≤ 3) ∧ played.2.pendingSpec = none ∧
          played.2.draws.length = 1) ∧
        specReported SpecDecodingStats.numDrafts played.1 = 0 ∧
        specReported SpecDecodingStats.numAcceptedTokens played.1 = 0 ∧
        played.2.decodeTokens = 3) = true := by
    decide +kernel
  obtain ⟨turns, e, clock, hrun, _, hp⟩ := Run.of_script (p := fun turns e =>
    (e.draws.all (fun d => d.tokens ≤ 3) ∧ e.pendingSpec = none ∧ e.draws.length = 1) ∧
      specReported SpecDecodingStats.numDrafts turns = 0 ∧
      specReported SpecDecodingStats.numAcceptedTokens turns = 0 ∧ e.decodeTokens = 3)
    hplays (by decide +kernel)
  obtain ⟨⟨hdrawn, hnone, hdraws⟩, hdrafts, haccepted, htokens⟩ := of_decide_eq_true hp
  refine ⟨turns, e, clock, hrun, by decide +kernel, fun d hd => ?_, hnone, hdraws, hdrafts,
    htokens, ?_⟩
  · exact of_decide_eq_true (List.all_eq_true.mp hdrawn d hd)
  · rw [hdrafts, haccepted, htokens]
    decide

end VllmVcr
