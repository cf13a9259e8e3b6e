import VllmVcr.Engine.Compression

/-!
# Compressed runs

The step clock, emission and the inputs commute with time compression, so an engine with
time scale `s` driven `s` times as fast goes through the compressed states.
-/

namespace VllmVcr

variable {env : Env} {s : ℚ≥0} (hs : 0 < s)

/-! ## The step clock -/

namespace ActiveRequest

theorem drawStep_compress (latency : LatencyModel env.Rng) (numRunning : ℕ)
    (r : ActiveRequest env) :
    (r.compress s).drawStep latency numRunning =
      ((r.drawStep latency numRunning).1, (r.drawStep latency numRunning).2.compress s) := by
  unfold drawStep
  rw [compress_scriptedDecode]
  split <;> rfl

end ActiveRequest

theorem planChunks_compress (active : SortedMap String (ActiveRequest env)) (threshold : ℕ)
    (cost : ℕ → ℕ → Duration) (order : List String) (left : ℕ) :
    planChunks (active.mapValues (fun _ => ActiveRequest.compress s)) threshold cost order left =
      planChunks active threshold cost order left := by
  induction order generalizing left with
  | nil => rfl
  | cons requestId rest ih =>
      unfold planChunks
      rw [SortedMap.get?_mapValues]
      by_cases hleft : left = 0
      · simp only [hleft, if_true]
      · cases active.get? requestId with
        | none => simp only [hleft, if_false, Option.map_none, ih]
        | some r =>
            simp only [hleft, if_false, Option.map_some, ih, ActiveRequest.compress_phase]
            rfl

theorem isPrefilling_compress (active : SortedMap String (ActiveRequest env))
    (requestId : String) :
    isPrefilling (active.mapValues (fun _ => ActiveRequest.compress s)) requestId =
      isPrefilling active requestId := by
  rw [isPrefilling, isPrefilling, SortedMap.get?_mapValues]
  cases active.get? requestId <;> rfl

namespace SimEngine

variable (e : SimEngine env)

theorem decoding_compress :
    (e.compress s).decoding = e.decoding.map (ActiveRequest.compress s) := by
  rw [decoding, compress_activeRequests, SortedMap.values_mapValues, List.filter_map]
  rfl

theorem drawFor_compress (r : ActiveRequest env) :
    (e.compress s).drawFor (r.compress s) =
      ((e.drawFor r).1, (e.drawFor r).2.compress s) := by
  rw [drawFor, numRunning_compress]
  exact ActiveRequest.drawStep_compress e.latency e.numRunning r

theorem decodeBase_compress : (e.compress s).decodeBase = e.decodeBase := by
  have hpacer : (e.compress s).decoding.argmax (fun r => r.pacing.contextBucket) =
      (e.decoding.argmax (fun r => r.pacing.contextBucket)).map (ActiveRequest.compress s) := by
    rw [decoding_compress, argmax_map]
    rfl
  rw [decodeBase, decodeBase, hpacer]
  cases e.decoding.argmax (fun r => r.pacing.contextBucket) with
  | none => rfl
  | some pacer => simp only [Option.map_some, drawFor_compress]

theorem drawDecoders_compress :
    (e.compress s).drawDecoders = (e.drawDecoders.1.compress s, e.drawDecoders.2) := by
  have hentries : ((e.compress s).decoding.map (fun r => (⟨r.requestId,
      ((e.compress s).drawFor r).1.tokens, r.ticket⟩ : DecoderEntry))) =
      e.decoding.map (fun r => ⟨r.requestId, (e.drawFor r).1.tokens, r.ticket⟩) := by
    rw [decoding_compress, List.map_map]
    apply List.map_congr_left
    intro r _
    simp only [Function.comp_apply, drawFor_compress]
    rfl
  have hactive : (e.compress s).activeRequests.mapValues
      (fun _ r => if r.isDecoding then ((e.compress s).drawFor r).2 else r) =
      (e.activeRequests.mapValues (fun _ r => if r.isDecoding then (e.drawFor r).2 else r)).mapValues
        (fun _ => ActiveRequest.compress s) := by
    rw [compress_activeRequests, SortedMap.mapValues_mapValues, SortedMap.mapValues_mapValues]
    congr 1
    funext _ r
    have hdecoding : (r.compress s).isDecoding = r.isDecoding := rfl
    rw [hdecoding, drawFor_compress]
    split <;> rfl
  have hasked : (e.compress s).decoding.filterMap
      (fun r => ((e.compress s).drawFor r).2.asked) =
        e.decoding.filterMap (fun r => (e.drawFor r).2.asked) := by
    rw [decoding_compress, List.filterMap_map]
    apply List.filterMap_congr
    intro r _
    rw [Function.comp_apply, drawFor_compress]
    rfl
  unfold drawDecoders
  rw [hentries, hactive, hasked]
  rfl

theorem prunePrefills_compress :
    (e.compress s).prunePrefills = e.prunePrefills.compress s := by
  have hfilter : isPrefilling (e.compress s).activeRequests = isPrefilling e.activeRequests :=
    funext (isPrefilling_compress e.activeRequests)
  rw [prunePrefills, hfilter]
  rfl

theorem chunkPlan_compress (decoders : List DecoderEntry) :
    (e.compress s).chunkPlan decoders = e.chunkPlan decoders :=
  planChunks_compress ..

include hs in
theorem composeStep_compress (anchor : Instant) :
    (e.compress s).composeStep (anchor / s) = (e.composeStep anchor).compress s := by
  have hend : ∀ d timeScale : ℚ≥0, anchor / s + d / (timeScale * s) =
      (anchor + d / timeScale) / s := by
    intro d timeScale
    rw [add_div, div_div]
  unfold composeStep
  simp only [decodeBase_compress, drawDecoders_compress, prunePrefills_compress,
    chunkPlan_compress, compress_opt, compress_latency, Opt.effectiveTimeScale_compress hs, hend]
  split
  · rfl
  · rfl

include hs in
theorem ensureStep_compress (anchor : Instant) :
    (e.compress s).ensureStep (anchor / s) = (e.ensureStep anchor).compress s := by
  rw [ensureStep, ensureStep, compress_currentStep, Option.isNone_map]
  cases e.currentStep.isNone with
  | true => exact composeStep_compress hs e anchor
  | false => rfl

include hs in
theorem generateFor_compress (stepEnd : Instant) (requestId : String) (entry : ℕ)
    (byDecoder : Bool) (chunkTokens : ℕ) (r : ActiveRequest env) :
    (e.compress s).generateFor (stepEnd / s) requestId entry byDecoder chunkTokens
        (r.compress s) =
      (e.generateFor stepEnd requestId entry byDecoder chunkTokens r).compress s := by
  unfold generateFor
  simp only [compress_opt, Opt.effectiveTimeScale_compress hs, compress_tokenSource,
    compress_emitSeq, ActiveRequest.generate_compress]
  simp only [log, compress, SortedMap.mapValues_insert, List.map_append]
  rfl

include hs in
theorem completeDecoder_compress (stepEnd : Instant) (d : DecoderEntry) :
    (e.compress s).completeDecoder (stepEnd / s) d = (e.completeDecoder stepEnd d).compress s := by
  unfold completeDecoder
  rw [compress_activeRequests, SortedMap.get?_mapValues]
  cases e.activeRequests.get? d.requestId with
  | none => rfl
  | some r => exact generateFor_compress hs e stepEnd _ _ _ _ r

theorem startDecode_compress (numRunning : ℕ) (r : ActiveRequest env) :
    (e.compress s).startDecode numRunning (r.compress s) =
      (e.startDecode numRunning r).compress s :=
  rfl

theorem noteLoad_compress (r : ActiveRequest env) :
    (e.compress s).noteLoad (r.compress s) = (e.noteLoad r).compress s :=
  rfl

include hs in
theorem completeChunk_compress (stepEnd : Instant) (numRunning : ℕ) (c : ChunkEntry) :
    (e.compress s).completeChunk (stepEnd / s) numRunning c =
      (e.completeChunk stepEnd numRunning c).compress s := by
  unfold completeChunk
  rw [compress_activeRequests, SortedMap.get?_mapValues]
  cases e.activeRequests.get? c.requestId with
  | none => rfl
  | some r =>
      simp only [Option.map_some, ActiveRequest.compress_phase, ActiveRequest.compress_ticket]
      cases r.phase with
      | decode => rfl
      | prefill remaining =>
          have hlog : (e.compress s).log (.chunked c.ticket r.ticket c.take) =
              (e.log (.chunked c.ticket r.ticket c.take)).compress s :=
            log_compress e (.chunked c.ticket r.ticket c.take)
          simp only [hlog]
          by_cases hmore : 0 < remaining - c.take
          · simp only [hmore, if_true]
            simp only [compress, SortedMap.mapValues_insert, log]
            rfl
          · simp only [hmore, if_false, startDecode_compress, ActiveRequest.compress_scriptedDecode,
              noteLoad_compress, generateFor_compress hs]
            rfl

theorem foldSpecStats_compress (decoders : List DecoderEntry) :
    (e.compress s).foldSpecStats decoders = (e.foldSpecStats decoders).compress s := by
  unfold foldSpecStats
  rw [compress_specTokens]
  cases e.specTokens with
  | none => rfl
  | some k =>
      simp only
      split <;> rfl

theorem foldl_compress {α : Type*} {f g : SimEngine env → α → SimEngine env}
    (hfg : ∀ e a, g (SimEngine.compress s e) a = (f e a).compress s) (l : List α) :
    l.foldl g (e.compress s) = (l.foldl f e).compress s := by
  induction l generalizing e with
  | nil => rfl
  | cons a l ih => rw [List.foldl_cons, List.foldl_cons, hfg, ih]

include hs in
theorem executeStep_compress (step : EngineStep) :
    (e.compress s).executeStep (step.compress s) = (e.executeStep step).compress s := by
  have hlog : (e.compress s).log (.completed (step.compress s)) =
      (e.log (.completed step)).compress s :=
    log_compress e (.completed step)
  unfold executeStep
  rw [numRunning_compress, hlog]
  simp only [EngineStep.compress_decoders, EngineStep.compress_chunks, EngineStep.compress_endsAt]
  rw [foldl_compress (f := completeDecoder step.endsAt) _
      (fun e => completeDecoder_compress hs e step.endsAt), foldSpecStats_compress,
    foldl_compress (f := completeChunk step.endsAt e.numRunning) _
      (fun e' => completeChunk_compress hs e' step.endsAt e.numRunning)]

include hs in
theorem completeStep_compress (now : Instant) (step : EngineStep) :
    (e.compress s).completeStep (now / s) (step.compress s) =
      compressBoth s (e.completeStep now step) := by
  unfold completeStep
  rw [executeStep_compress hs, schedule_compress hs, EngineStep.compress_endsAt]
  exact Prod.ext (ensureStep_compress hs _ step.endsAt) rfl

include hs in
theorem dueStep_compress (now : Instant) :
    (e.compress s).dueStep (now / s) = (e.dueStep now).map (EngineStep.compress s) := by
  rw [dueStep, dueStep, compress_currentStep]
  cases e.currentStep with
  | none => rfl
  | some step =>
      have hdue : (step.compress s).endsAt ≤ now / s ↔ step.endsAt ≤ now :=
        div_le_div_iff_of_pos_right hs
      rw [Option.map_some, Option.filter_some, Option.filter_some]
      simp only [hdue]
      split <;> rfl

include hs in
/-- The catching-up engine completes the compressed steps. -/
theorem catchUp_compress (now : Instant) (fuel : ℕ) :
    catchUp (now / s) fuel (e.compress s) = (catchUp now fuel e).map (compressBoth s) := by
  induction fuel generalizing e with
  | zero => rfl
  | succ fuel ih =>
      unfold catchUp
      rw [dueStep_compress hs]
      cases e.dueStep now with
      | none => rfl
      | some step =>
          have htake : (e.compress s).takeStep = e.takeStep.compress s := rfl
          simp only [Option.map_some, htake, completeStep_compress hs]
          change Option.map _ (catchUp (now / s) fuel
            ((e.takeStep.completeStep now step).1.compress s)) = _
          rw [ih]
          cases catchUp now fuel (e.takeStep.completeStep now step).1 with
          | none => rfl
          | some p => simp only [Option.map_some, compressBoth, List.map_append]

end SimEngine

/-! ## Emission -/

@[simps] def DueEmit.compress (s : ℚ≥0) (d : DueEmit) : DueEmit :=
  { d with due := d.due / s, output := d.output.compress s }

@[simps] def ClientBatch.compress (s : ℚ≥0) (b : ClientBatch) : ClientBatch :=
  { b with outputs := b.outputs.map (EngineCoreOutput.compress s) }

def ByClient.compress (s : ℚ≥0) (byClient : ByClient) : ByClient :=
  byClient.mapValues (fun _ => ClientBatch.compress s)

namespace ActiveRequest

variable (source : TokenSource)

theorem emitOne_compress (r : ActiveRequest env) (emit : PendingEmit) :
    (r.compress s).emitOne source (emit.compress s) =
      ((r.emitOne source emit).1.compress s, (r.emitOne source emit).2.compress s) := by
  have hevents : (if (r.compress s).pendingEvents.isEmpty then none
      else some (r.compress s).pendingEvents) = (if r.pendingEvents.isEmpty then none
        else some r.pendingEvents).map (List.map (EngineCoreEvent.compress s)) := by
    rw [compress_pendingEvents, List.isEmpty_map]
    split <;> rfl
  unfold emitOne
  rw [hevents]
  rfl

include hs in
theorem emitQueue_compress (now : Instant) (emits : List PendingEmit) (r : ActiveRequest env) :
    emitQueue source (now / s) (emits.map (PendingEmit.compress s)) (r.compress s) =
      ((emitQueue source now emits r).1.compress s,
        (emitQueue source now emits r).2.map (DueEmit.compress s)) := by
  induction emits generalizing r with
  | nil => rfl
  | cons emit emits ih =>
      have hdue : (emit.compress s).due ≤ now / s ↔ emit.due ≤ now :=
        div_le_div_iff_of_pos_right hs
      rw [List.map_cons, emitQueue, emitQueue]
      by_cases h : emit.due ≤ now
      · rw [if_pos h, if_pos (hdue.mpr h)]
        simp only [emitOne_compress, ih, List.map_cons]
      · rw [if_neg h, if_neg (fun h' => h (hdue.mp h'))]
        rfl

include hs in
theorem emitDue_compress (now : Instant) (r : ActiveRequest env) :
    (r.compress s).emitDue source (now / s) =
      ((r.emitDue source now).1.compress s,
        (r.emitDue source now).2.map (DueEmit.compress s)) :=
  emitQueue_compress hs source now r.pendingEmits r

include hs in
theorem adverts_compress (now : Instant) (r : ActiveRequest env) :
    (r.compress s).adverts source (now / s) = r.adverts source now := by
  unfold adverts
  rw [emitDue_compress hs, compress_prefillAdvertise, List.filter_map, List.map_map]
  rfl

end ActiveRequest

include hs in
theorem DueEmit.le_compress (a b : DueEmit) :
    DueEmit.le (a.compress s) (b.compress s) ↔ DueEmit.le a b := by
  unfold DueEmit.le
  rw [compress_due, compress_due, compress_seq, compress_seq,
    div_lt_div_iff_of_pos_right hs, div_left_inj' hs.ne']

namespace ByClient

theorem add_compress (byClient : ByClient) (clientIndex : ℕ) (output : EngineCoreOutput)
    (finished : Bool) :
    ByClient.add (byClient.compress s) clientIndex (output.compress s) finished =
      (ByClient.add byClient clientIndex output finished).compress s := by
  have hbatch : (byClient.compress s).batch clientIndex =
      (byClient.batch clientIndex).compress s := by
    rw [batch, batch, compress, SortedMap.get?_mapValues]
    cases byClient.get? clientIndex <;> rfl
  unfold add
  rw [hbatch]
  simp only [compress, SortedMap.mapValues_insert]
  congr 1
  simp only [ClientBatch.compress, List.map_append, List.map_cons, List.map_nil]
  rfl

theorem stampKvParams_compress (requestId : String) (kv : JsonValue)
    (outputs : List EngineCoreOutput) :
    stampKvParams requestId kv (outputs.map (EngineCoreOutput.compress s)) =
      (stampKvParams requestId kv outputs).map (EngineCoreOutput.compress s) := by
  induction outputs with
  | nil => rfl
  | cons o rest ih =>
      rw [List.map_cons, stampKvParams, stampKvParams]
      simp only [EngineCoreOutput.compress_requestId, EngineCoreOutput.compress_finishReason]
      split
      · rfl
      · rw [ih, List.map_cons]

theorem advertise_compress (byClient : ByClient) (a : Advert) :
    advertise env (byClient.compress s) a = (advertise env byClient a).compress s := by
  unfold advertise
  cases env.advertisePrefilled a.requestId a.numTokens a.blockIds with
  | error => rfl
  | ok remote =>
      simp only [compress, SortedMap.get?_mapValues]
      cases byClient.get? a.clientIndex with
      | none => rfl
      | some b =>
          simp only [Option.map_some, SortedMap.mapValues_insert, ClientBatch.compress_outputs,
            stampKvParams_compress]
          rfl

theorem foldl_compress {α : Type*} {f g : ByClient → α → ByClient}
    (hfg : ∀ byClient a, g (ByClient.compress s byClient) a = (f byClient a).compress s)
    (byClient : ByClient) (l : List α) :
    l.foldl g (byClient.compress s) = (l.foldl f byClient).compress s := by
  induction l generalizing byClient with
  | nil => rfl
  | cons a l ih => rw [List.foldl_cons, List.foldl_cons, hfg, ih]

end ByClient

namespace SimEngine

variable (e : SimEngine env)

theorem retire_compress (requestId : String) :
    (e.compress s).retire requestId = (e.retire requestId).compress s := by
  unfold retire
  rw [compress_activeRequests, SortedMap.get?_mapValues]
  cases e.activeRequests.get? requestId with
  | none => rfl
  | some r =>
      simp only [Option.map_some, compress, ← SortedMap.mapValues_erase]
      rfl

include hs in
theorem dueEmits_compress (now : Instant) :
    (e.compress s).dueEmits (now / s) = (e.dueEmits now).map (DueEmit.compress s) := by
  rw [dueEmits, dueEmits, compress_activeRequests, SortedMap.values_mapValues, List.flatMap_map,
    List.map_flatMap]
  congr 1
  funext r
  exact congrArg Prod.snd (ActiveRequest.emitDue_compress hs e.tokenSource now r)

theorem finishedIds_compress (emits : List DueEmit) :
    finishedIds (emits.map (DueEmit.compress s)) = finishedIds emits := by
  rw [finishedIds, finishedIds, List.filter_map, List.foldl_map]
  rfl

include hs in
theorem popEmits_compress (now : Instant) :
    (e.compress s).popEmits (now / s) = (e.popEmits now).compress s := by
  have hactive : (e.compress s).activeRequests.mapValues
      (fun _ r => (r.emitDue e.tokenSource (now / s)).1) =
      (e.activeRequests.mapValues (fun _ r => (r.emitDue e.tokenSource now).1)).mapValues
        (fun _ => ActiveRequest.compress s) := by
    rw [compress_activeRequests, SortedMap.mapValues_mapValues, SortedMap.mapValues_mapValues]
    congr 1
    funext _ r
    exact congrArg Prod.fst (ActiveRequest.emitDue_compress hs e.tokenSource now r)
  have hcount : (((e.compress s).dueEmits (now / s)).filter DueEmit.finished).length =
      ((e.dueEmits now).filter DueEmit.finished).length := by
    rw [dueEmits_compress hs, List.filter_map, List.length_map]
    rfl
  rw [popEmits, compress_tokenSource, hactive, hcount]
  rfl

include hs in
/-- The flushed outputs go out in the same order. -/
theorem flush_compress (now : Instant) :
    (e.compress s).flush (now / s) =
      ((e.flush now).1.compress s, (e.flush now).2.compress s) := by
  have hsort : ((e.dueEmits now).map (DueEmit.compress s)).insertionSort DueEmit.le =
      ((e.dueEmits now).insertionSort DueEmit.le).map (DueEmit.compress s) :=
    (List.map_insertionSort DueEmit.le DueEmit.le (DueEmit.compress s) _
      (fun a _ b _ => (DueEmit.le_compress hs a b).symm)).symm
  have hadverts : (e.compress s).activeRequests.values.flatMap
      (fun r => r.adverts (e.compress s).tokenSource (now / s)) =
        e.activeRequests.values.flatMap (fun r => r.adverts e.tokenSource now) := by
    rw [compress_activeRequests, SortedMap.values_mapValues, List.flatMap_map]
    congr 1
    funext r
    exact ActiveRequest.adverts_compress hs e.tokenSource now r
  have hempty : (SortedMap.empty : ByClient) = ByClient.compress s SortedMap.empty := rfl
  unfold flush
  simp only [dueEmits_compress hs, hsort, hadverts, finishedIds_compress, popEmits_compress hs,
    List.foldl_map]
  apply Prod.ext
  · exact foldl_compress _ retire_compress _
  · rw [hempty, ByClient.foldl_compress
      (f := fun byClient d => ByClient.add byClient d.clientIndex d.output d.finished)
      (fun byClient d => ByClient.add_compress byClient d.clientIndex d.output d.finished)]
    exact ByClient.foldl_compress ByClient.advertise_compress _ _

theorem stepOutput_compress (engineIndex : ℕ) (now : Instant) (stats : SchedulerStats)
    (batch : ℕ × ClientBatch) :
    stepOutput engineIndex (now / s) stats (batch.1, batch.2.compress s) =
      (stepOutput engineIndex now stats batch).map (EngineOutput.compress s) := by
  unfold stepOutput
  simp only [ClientBatch.compress_outputs, ClientBatch.compress_finished, List.isEmpty_map]
  split
  · rfl
  · rfl

include hs in
theorem emitAndRefill_compress (now : Instant) (caughtUp : List EngineOutput) :
    (e.compress s).emitAndRefill (now / s) (caughtUp.map (EngineOutput.compress s)) =
      compressBoth s (e.emitAndRefill now caughtUp) := by
  have hentries : ∀ (byClient : ByClient) (engineIndex : ℕ) (stats : SchedulerStats),
      (byClient.compress s).entries.filterMap (stepOutput engineIndex (now / s) stats) =
        (byClient.entries.filterMap (stepOutput engineIndex now stats)).map
          (EngineOutput.compress s) := by
    intro byClient engineIndex stats
    rw [ByClient.compress, SortedMap.mapValues, List.filterMap_map, List.map_filterMap]
    congr 1
    funext batch
    exact stepOutput_compress engineIndex now stats batch
  unfold emitAndRefill
  simp only [flush_compress hs, schedule_compress hs, compressBoth, ensureStep_compress hs,
    schedulerStats_compress, hentries, compress_engineIndex, List.map_append]

include hs in
theorem step_compress (fuel : ℕ) (now : Instant) :
    (e.compress s).step fuel (now / s) = (e.step fuel now).map (compressBoth s) := by
  have hclear : (e.compress s).clearSpec = e.clearSpec.compress s := rfl
  rw [step, step, hclear, catchUp_compress hs]
  cases catchUp now fuel e.clearSpec with
  | none => rfl
  | some p => exact congrArg some (emitAndRefill_compress hs p.1 now p.2)

/-! ## Inputs -/

theorem maybeFail_compress (request : EngineCoreRequest) :
    (e.compress s).maybeFail request =
      ((e.maybeFail request).1.compress s, (e.maybeFail request).2) := by
  unfold maybeFail
  simp only [compress_opt, Opt.compress_maxModelLen, Opt.compress_failureInjectionRate,
    Opt.compress_failureTypes, compress_failureRng]
  split
  · rfl
  · split
    · split <;> rfl
    · rfl

theorem enqueue_compress (now : Instant) (request : EngineCoreRequest) :
    (e.compress s).enqueue (now / s) request = (e.enqueue now request).compress s := by
  simp only [enqueue, compress, List.map_append, List.map_cons, List.map_nil]
  rfl

include hs in
theorem refill_compress (now : Instant) :
    (e.compress s).refill (now / s) = compressBoth s (e.refill now) := by
  unfold refill
  rw [schedule_compress hs]
  exact Prod.ext (ensureStep_compress hs _ now) rfl

include hs in
theorem handleRequest_compress (now : Instant) (request : EngineCoreRequest) :
    (e.compress s).handleRequest (now / s) request =
      compressBoth s (e.handleRequest now request) := by
  have hcount : (e.compress s).countReceived = e.countReceived.compress s := rfl
  unfold handleRequest
  simp only [hcount, isKnown_compress, maybeFail_compress]
  split
  · rfl
  · rcases e.countReceived.maybeFail request with ⟨e', _ | reason⟩
    · simp only [enqueue_compress, refill_compress hs]
    · rfl

theorem withdraw_compress (requestId : String) :
    (e.compress s).withdraw requestId =
      ((e.withdraw requestId).1.compress s, (e.withdraw requestId).2) := by
  have hfind : (e.waiting.map (QueuedRequest.compress s)).findIdx?
      (fun q => q.request.requestId = requestId) =
        e.waiting.findIdx? (fun q => q.request.requestId = requestId) := by
    rw [List.findIdx?_map]
    rfl
  unfold withdraw
  simp only [compress_activeRequests, compress_pendingPulls, compress_waiting,
    SortedMap.get?_mapValues, retire_compress, hfind, removeWaiting_compress]
  cases e.activeRequests.get? requestId with
  | some r => rfl
  | none =>
      cases e.pendingPulls.get? requestId with
      | some p =>
          simp only [Option.map_some, Option.map_none, compress, ← SortedMap.mapValues_erase]
          rfl
      | none =>
          simp only [Option.map_none]
          cases e.waiting.findIdx? (fun q => q.request.requestId = requestId) with
          | none => rfl
          | some i =>
              simp only [List.getElem?_map]
              cases e.waiting[i]? <;> rfl

theorem abortOne_compress (acc : SimEngine env × ByClient) (requestId : String) :
    abortOne (acc.1.compress s, acc.2.compress s) requestId =
      ((abortOne acc requestId).1.compress s, (abortOne acc requestId).2.compress s) := by
  unfold abortOne
  simp only [withdraw_compress]
  rcases acc.1.withdraw requestId with ⟨e, _ | ⟨clientIndex, ticket⟩⟩
  · rfl
  · simp only
    exact Prod.ext rfl (ByClient.add_compress acc.2 clientIndex
      (terminalOutput (some ticket) requestId .abort) true)

theorem foldl_abortOne_compress (requestIds : List String) (acc : SimEngine env × ByClient) :
    requestIds.foldl abortOne (acc.1.compress s, acc.2.compress s) =
      ((requestIds.foldl abortOne acc).1.compress s,
        (requestIds.foldl abortOne acc).2.compress s) := by
  induction requestIds generalizing acc with
  | nil => rfl
  | cons id ids ih => rw [List.foldl_cons, List.foldl_cons, abortOne_compress, ih]

theorem abortOutputs_compress (engineIndex : ℕ) (now : Instant) (stats : Option SchedulerStats)
    (batches : List (ℕ × ClientBatch)) :
    abortOutputs engineIndex (now / s) stats
        (batches.map (fun b => (b.1, b.2.compress s))) =
      (abortOutputs engineIndex now stats batches).map (EngineOutput.compress s) := by
  induction batches generalizing stats with
  | nil => rfl
  | cons b rest ih =>
      rw [List.map_cons, abortOutputs, abortOutputs, ih, List.map_cons]
      rfl

include hs in
theorem abortRequests_compress (now : Instant) (requestIds : List String) :
    (e.compress s).abortRequests (now / s) requestIds =
      compressBoth s (e.abortRequests now requestIds) := by
  have hfold : requestIds.foldl abortOne (e.compress s, (SortedMap.empty : ByClient)) = _ :=
    foldl_abortOne_compress requestIds (e, SortedMap.empty)
  unfold abortRequests
  rw [hfold]
  simp only [schedule_compress hs, compressBoth, schedulerStats_compress, ensureStep_compress hs,
    List.map_append, compress_engineIndex]
  rw [ByClient.compress, SortedMap.mapValues, abortOutputs_compress]

include hs in
theorem promote_compress (now : Instant) (completion : PullTask) (pending : PendingPull) :
    (e.compress s).promote (now / s) completion (pending.compress s) =
      ((e.promote now completion pending).1.compress s,
        (e.promote now completion pending).2.map (EngineOutput.compress s)) := by
  have herase : ({ e.compress s with
      pendingPulls := (e.compress s).pendingPulls.erase completion.requestId } : SimEngine env) =
      SimEngine.compress s { e with
        pendingPulls := e.pendingPulls.erase completion.requestId } := by
    simp only [compress, SortedMap.mapValues_erase]
  unfold promote
  rw [herase, PendingPull.compress_queued, admitDirect_compress hs,
    PendingPull.compress_clientIndex, PendingPull.compress_blockIds,
    PendingPull.compress_numLocalCachedTokens, QueuedRequest.compress_ticket]
  rcases ({ e with pendingPulls := e.pendingPulls.erase completion.requestId } :
    SimEngine env).admitDirect now completion.requestId pending.clientIndex pending.queued
      pending.blockIds pending.numLocalCachedTokens with ⟨e', _ | output⟩
  · exact Prod.ext (log_compress e' (.promoted pending.queued.ticket completion.ticket)) rfl
  · rfl

include hs in
theorem finishPull_compress (now : Instant) (completion : PullTask) :
    (e.compress s).finishPull (now / s) completion =
      compressBoth s (e.finishPull now completion) := by
  unfold finishPull
  rw [compress_pendingPulls, SortedMap.get?_mapValues]
  cases e.pendingPulls.get? completion.requestId with
  | none => rfl
  | some pending =>
      simp only [Option.map_some, promote_compress hs, refill_compress hs, compressBoth,
        List.map_append, Option.toList_map]

theorem resetPrefixCache_compress :
    (e.compress s).resetPrefixCache =
      (e.resetPrefixCache.1.compress s, e.resetPrefixCache.2) := by
  unfold resetPrefixCache
  simp only [compress_activeRequests, compress_pendingPulls, SortedMap.isEmpty_mapValues]
  split <;> rfl

theorem loraUtility_compress (request : UtilityRequestSpec) :
    (e.compress s).loraUtility request =
      (e.loraUtility request).map (Option.map (fun p => (p.1.compress s, p.2))) := by
  unfold loraUtility
  split
  · next value _ _ => cases LoraSpec.fromWire value <;> rfl
  · rfl
  · next value _ _ => cases value.asU64 <;> rfl
  · rfl
  · rfl

theorem runUtility_compress (request : UtilityRequestSpec) :
    (e.compress s).runUtility request =
      (e.runUtility request).map (fun p => (p.1.compress s, p.2)) := by
  unfold runUtility
  split
  · rw [resetPrefixCache_compress]
    rfl
  · rw [loraUtility_compress]
    rcases e.loraUtility request with error | _ | ⟨e', ok⟩ <;> rfl

include hs in
theorem applyPatch_compress (now : Instant) (patch : ConfigPatch) :
    (e.compress s).applyPatch (now / s) patch =
      (e.applyPatch now patch).map (compressBoth s) := by
  unfold applyPatch
  rw [compress_opt, Opt.compress_latencyTrace]
  by_cases hrefused : (patch.changesLatency && e.opt.latencyTrace.isSome) = true
  · rw [if_pos hrefused, if_pos hrefused]
    rfl
  · rw [if_neg hrefused, if_neg hrefused]
    have happly : patch.apply (e.opt.compress s) = (patch.apply e.opt).compress s := rfl
    simp only [happly]
    cases hlatency : patch.changesLatency with
    | false => exact congrArg Except.ok (refill_compress hs { e with opt := patch.apply e.opt } now)
    | true =>
        have hknob : (patch.apply e.opt).latencyTrace.isNone = true := by
          rw [hlatency, Bool.true_and] at hrefused
          exact Option.isNone_iff_eq_none.mpr (Option.not_isSome_iff_eq_none.mp hrefused)
        have hbuild : ((patch.apply e.opt).compress s).buildLatency env =
            (patch.apply e.opt).buildLatency env := by
          unfold Opt.buildLatency
          rw [Opt.compress_latencyTrace, if_pos hknob, if_pos hknob]
          rfl
        simp only [hbuild, if_true]
        cases (patch.apply e.opt).buildLatency env with
        | error error => rfl
        | ok latency =>
            exact congrArg Except.ok
              (refill_compress hs { e with opt := patch.apply e.opt, latency := latency } now)

include hs in
theorem handleControl_compress (now : Instant) (request : ControlRequest) :
    ((e.compress s).handleControl (now / s) request).2 =
      compressBoth s (e.handleControl now request).2 := by
  unfold handleControl
  cases request with
  | getConfig => rfl
  | getStats => rfl
  | resetStats => rfl
  | patchConfig patch =>
      simp only [applyPatch_compress hs]
      cases e.applyPatch now patch with
      | error error => rfl
      | ok p => rfl

include hs in
theorem handleInput_compress (now : Instant) (input : EngineInput) :
    (e.compress s).handleInput (now / s) input =
      (e.handleInput now input).map (compressBoth s) := by
  cases input with
  | request request => exact congrArg Except.ok (handleRequest_compress hs e now request)
  | abort requestIds => exact congrArg Except.ok (abortRequests_compress hs e now requestIds)
  | startDpWave => rfl
  | control request => exact congrArg Except.ok (handleControl_compress hs e now request)
  | utility request =>
      simp only [handleInput, runUtility_compress]
      cases e.runUtility request <;> rfl

/-! ## Runs -/

include hs in
theorem perform_compress (fuel : ℕ) (now : Instant) (op : Op) :
    (e.compress s).perform fuel (now / s) op = (e.perform fuel now op).map (compressBoth s) := by
  cases op with
  | input input =>
      simp only [perform, handleInput_compress hs]
      cases e.handleInput now input <;> rfl
  | pullCompletion task =>
      have htake : (e.compress s).receivePull task = (e.receivePull task).compress s := rfl
      simp only [perform, compress_pullTasks, htake, finishPull_compress hs]
      split <;> rfl
  | step => exact step_compress hs e fuel now
  | rejectRequest request => rfl
  | abortAllRequests =>
      have hids : (e.compress s).unfinishedIds = e.unfinishedIds := by
        rw [unfinishedIds, compress_activeRequests, SortedMap.keys_mapValues,
          compress_pendingPulls, SortedMap.keys_mapValues, compress_waiting, List.map_map]
        rfl
      simp only [perform, abortAllRequests, hids, abortRequests_compress hs, Option.map_some]

end SimEngine

@[simps] def Turn.compress (s : ℚ≥0) (t : Turn env) : Turn env where
  op := t.op
  now := t.now / s
  before := t.before.compress s
  outputs := t.outputs.map (EngineOutput.compress s)
  after := t.after.compress s

namespace SimEngine

include hs in
theorem play_compress (fuel : ℕ) (script : List (Instant × Op)) (e : SimEngine env) :
    (e.compress s).play fuel (script.map (fun entry => (entry.1 / s, entry.2))) =
      (e.play fuel script).map (fun played =>
        (played.1.map (Turn.compress s), played.2.compress s)) := by
  induction script generalizing e with
  | nil => rfl
  | cons entry rest ih =>
      unfold play
      rw [List.map_cons]
      simp only [perform_compress hs]
      cases e.perform fuel entry.1 entry.2 with
      | none => rfl
      | some p =>
          simp only [Option.map_some, compressBoth, ih]
          cases p.1.play fuel rest <;> rfl

/-- An engine built with time scale `s` is the compressed engine built with time scale 1. -/
theorem new_compress {engineIndex : ℕ} {opt : Opt} {tokenSource : TokenSource}
    {stepSource : Option StepSource} {e₀ e₁ : SimEngine env} (hscale : opt.timeScale = 1)
    (htrace : ∀ (opt : Opt) (timeScale : ℚ),
      env.traceLatency { opt with timeScale := timeScale } = env.traceLatency opt)
    (h₀ : SimEngine.new env engineIndex opt tokenSource stepSource = .ok e₀)
    (h₁ : SimEngine.new env engineIndex { opt with timeScale := s } tokenSource stepSource =
      .ok e₁) :
    e₁ = e₀.compress s := by
  have hopt : opt.compress s = { opt with timeScale := s } := by
    have hone : opt.effectiveTimeScale = 1 := by
      rw [Opt.effectiveTimeScale, hscale]
      rfl
    rw [Opt.compress, hone, one_mul]
  have hlatency : ({ opt with timeScale := s } : Opt).buildLatency env = opt.buildLatency env := by
    unfold Opt.buildLatency
    rw [htrace]
    rfl
  unfold SimEngine.new at h₀ h₁
  rw [hlatency] at h₁
  cases hbuild : opt.buildLatency env with
  | error message =>
      rw [hbuild] at h₀
      cases h₀
  | ok latency =>
      rw [hbuild] at h₀ h₁
      cases h₀
      cases h₁
      simp only [compress, hopt]
      rfl

end SimEngine

/-- An engine with time scale `s`, driven `s` times as fast, goes through the same states and
returns the same outputs as one with time scale 1, with every instant divided by `s`. -/
theorem time_compression {s : ℚ≥0} (hs : 0 < s) {engineIndex : ℕ} {opt : Opt}
    {tokenSource : TokenSource} {stepSource : Option StepSource} {e₀ e₁ : SimEngine env}
    (hscale : opt.timeScale = 1)
    (htrace : ∀ (opt : Opt) (timeScale : ℚ),
      env.traceLatency { opt with timeScale := timeScale } = env.traceLatency opt)
    (h₀ : SimEngine.new env engineIndex opt tokenSource stepSource = .ok e₀)
    (h₁ : SimEngine.new env engineIndex { opt with timeScale := s } tokenSource stepSource =
      .ok e₁) (fuel : ℕ) (script : List (Instant × Op)) :
    e₁.play fuel (script.map (fun entry => (entry.1 / s, entry.2))) =
      (e₀.play fuel script).map (fun played =>
        (played.1.map (Turn.compress s), played.2.compress s)) := by
  rw [SimEngine.new_compress hscale htrace h₀ h₁]
  exact SimEngine.play_compress hs fuel script e₀

/-- Two requests, the second of them arriving while the first is served. -/
def demoArrivals : List (Instant × Op) :=
  [(0, .input (.request (demoRequest "a" 2))), (1 / 10, .step),
    (1 / 5, .input (.request (demoRequest "b" 1))), (1, .step)]

theorem demoArrivals_compressed :
    ∃ played, (demo demoOpt none).play 9 demoArrivals = some played ∧
      (demo { demoOpt with timeScale := (2 : ℚ≥0) } none).play 9
          (demoArrivals.map (fun entry => (entry.1 / 2, entry.2))) =
        some (played.1.map (Turn.compress 2), played.2.compress 2) := by
  have hplays : ((demo demoOpt none).play 9 demoArrivals).isSome = true := by decide +kernel
  obtain ⟨played, hplay⟩ := Option.isSome_iff_exists.mp hplays
  have h₀ : SimEngine.new demoEnv 0 demoOpt (.random 1) none = .ok (demo demoOpt none) := rfl
  have h₁ : SimEngine.new demoEnv 0 { demoOpt with timeScale := (2 : ℚ≥0) } (.random 1) none =
      .ok (demo { demoOpt with timeScale := (2 : ℚ≥0) } none) := rfl
  have hfast := time_compression (by decide) rfl (fun _ _ => rfl) h₀ h₁ 9 demoArrivals
  rw [hplay] at hfast
  exact ⟨played, hplay, hfast⟩

end VllmVcr
