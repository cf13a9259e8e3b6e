import VllmVcr.Engine.Moves

/-!
# Operations as paths of moves

Every completed operation is a path of moves that shows the operation's outputs, up to
the order in which they are batched and to the descriptors stamped on them.
-/

namespace VllmVcr

variable {env : Env}

/-- An output without the descriptor that the data plane may stamp on it. -/
def EngineCoreOutput.bare (o : EngineCoreOutput) : EngineCoreOutput :=
  { o with kvTransferParams := none }

theorem except_map_eq_ok {ε α β : Type*} {f : α → β} {x : Except ε α} {b : β}
    (h : x.map f = .ok b) : ∃ a, x = .ok a ∧ f a = b := by
  cases x with
  | error _ => cases h
  | ok a => exact ⟨a, rfl, by cases h; rfl⟩

theorem except_toOption_eq_some {ε α : Type*} {x : Except ε α} {a : α}
    (h : x.toOption = some a) : x = .ok a := by
  cases x with
  | error _ => cases h
  | ok b => cases h; rfl

namespace SimEngine

/-! ## The last completed step -/

theorem lastCompleted_log {e : SimEngine env} {ev : Event}
    (h : ∀ step, ev ≠ .completed step) : (e.log ev).lastCompleted = e.lastCompleted := by
  cases ev with
  | completed step => exact absurd rfl (h step)
  | _ => simp [lastCompleted, log]

theorem lastCompleted_completed (e : SimEngine env) (step : EngineStep) :
    (e.log (.completed step)).lastCompleted = some step := by
  simp [lastCompleted, log]

theorem admitRequest_lastCompleted (now : Instant) (queued : QueuedRequest) (e : SimEngine env) :
    (e.admitRequest now queued).1.lastCompleted = e.lastCompleted := by
  have hcache : (e.cacheRequest queued.request).1.lastCompleted = e.lastCompleted :=
    lastCompleted_log (by simp)
  rw [admitRequest_eq]
  split
  · exact hcache
  · rcases admitDirect_cases now queued.request.requestId queued.request.clientIndex queued
      (e.cacheRequest queued.request).2.blockIds (e.cacheRequest queued.request).2.numCachedTokens
      (e.cacheRequest queued.request).1 with ⟨active, _, hadmits⟩ | ⟨reason, hadmits⟩
    · rw [hadmits]
      exact (lastCompleted_log (by simp)).trans hcache
    · rw [hadmits]
      exact hcache

theorem scheduleLoop_lastCompleted (now : Instant) (rounds : ℕ) (e : SimEngine env) :
    (scheduleLoop now rounds e).1.lastCompleted = e.lastCompleted := by
  induction rounds generalizing e with
  | zero => rfl
  | succ rounds ih =>
      unfold scheduleLoop
      split
      · split
        · rfl
        · next i queued _ => exact (ih _).trans (admitRequest_lastCompleted now queued _)
      · rfl

theorem completeDecoder_lastCompleted (stepEnd : Instant) (e : SimEngine env) (d : DecoderEntry) :
    (completeDecoder stepEnd e d).lastCompleted = e.lastCompleted := by
  unfold completeDecoder
  split
  · rfl
  · exact lastCompleted_log (by simp)

theorem completeChunk_lastCompleted (stepEnd : Instant) (numRunning : ℕ) (e : SimEngine env)
    (c : ChunkEntry) : (completeChunk stepEnd numRunning e c).lastCompleted = e.lastCompleted := by
  unfold completeChunk
  split
  · rfl
  · next r _ =>
      split
      · rfl
      · have hlog : (e.log (.chunked c.ticket r.ticket c.take)).lastCompleted = e.lastCompleted :=
          lastCompleted_log (by simp)
        simp only
        split
        · exact hlog
        · exact (lastCompleted_log (by simp)).trans hlog

theorem foldSpecStats_eq (e : SimEngine env) (decoders : List DecoderEntry) :
    ∃ spec, e.foldSpecStats decoders = { e with pendingSpec := spec } := by
  unfold foldSpecStats
  split
  · exact ⟨e.pendingSpec, rfl⟩
  · split
    · exact ⟨e.pendingSpec, rfl⟩
    · exact ⟨_, rfl⟩

/-- What every entry preserves, and the bookkeeping around them, a whole step preserves. -/
theorem executeStep_preserves {I : SimEngine env → Prop} {step : EngineStep} {e : SimEngine env}
    (hlog : I (e.log (.completed step)))
    (hspec : ∀ e spec, I e → I { e with pendingSpec := spec })
    (hdecoder : ∀ e, ∀ d ∈ step.decoders, I e → I (completeDecoder step.endsAt e d))
    (hchunk : ∀ numRunning e, ∀ c ∈ step.chunks, I e →
      I (completeChunk step.endsAt numRunning e c)) :
    I (e.executeStep step) := by
  have hdecoders :
      I (step.decoders.foldl (completeDecoder step.endsAt) (e.log (.completed step))) :=
    List.foldlRecOn _ _ hlog (fun e he d hd => hdecoder e d hd he)
  obtain ⟨spec, hfold⟩ := foldSpecStats_eq
    (step.decoders.foldl (completeDecoder step.endsAt) (e.log (.completed step))) step.decoders
  refine List.foldlRecOn _ _ ?_ (fun e' he' c hc => hchunk e.numRunning e' c hc he')
  rw [hfold]
  exact hspec _ spec hdecoders

/-- A step's entries journal chunks and generations only. -/
theorem executeStep_journal {α : Type} (f : Event → Option α) (step : EngineStep)
    (e : SimEngine env) (hcompleted : f (.completed step) = none)
    (hchunked : ∀ entry ticket take, f (.chunked entry ticket take) = none)
    (hgenerated : ∀ g, f (.generated g) = none) :
    (e.executeStep step).journal.filterMap f = e.journal.filterMap f := by
  refine executeStep_preserves (I := fun e' => e'.journal.filterMap f = e.journal.filterMap f)
    ?_ (fun _ _ h => h) ?_ ?_
  · simp [hcompleted]
  · intro e' d _ h
    unfold completeDecoder
    split
    · exact h
    · simpa [generateFor, hgenerated] using h
  · intro numRunning e' c _ h
    unfold completeChunk
    split
    · exact h
    · split
      · exact h
      · simp only
        split
        · simpa [hchunked] using h
        · simpa [generateFor, hchunked, hgenerated] using h

theorem executeStep_lastCompleted (step : EngineStep) (e : SimEngine env) :
    (e.executeStep step).lastCompleted = some step :=
  executeStep_preserves (I := fun e => e.lastCompleted = some step)
    (lastCompleted_completed e step) (fun _ _ h => h)
    (fun e d _ h => (completeDecoder_lastCompleted _ e d).trans h)
    (fun n e c _ h => (completeChunk_lastCompleted _ n e c).trans h)

/-! ## The step clock -/

theorem dueStep_some {now : Instant} {e : SimEngine env} {step : EngineStep}
    (h : e.dueStep now = some step) : e.currentStep = some step ∧ step.endsAt ≤ now := by
  obtain ⟨hstep, hdue⟩ := Option.filter_eq_some_iff.mp h
  exact ⟨hstep, of_decide_eq_true hdue⟩

theorem completeStep_emits {P : Effect → Prop} {now : Instant} {e : SimEngine env} {step : EngineStep}
    (hallow : ∀ step, P (.completed step)) (hdue : e.dueStep now = some step) :
    Emits P now e (coreOf (e.takeStep.completeStep now step).2)
      (e.takeStep.completeStep now step).1 := by
  obtain ⟨hstep, hend⟩ := dueStep_some hdue
  have hlast : ((e.takeStep.executeStep step).schedule now).1.lastCompleted = some step :=
    (scheduleLoop_lastCompleted now _ _).trans (executeStep_lastCompleted step _)
  have hexec : Emits P now e [] (e.takeStep.executeStep step) :=
    Emits.of_move (Move.executed e hstep hend) (hallow step)
  have hpath := (hexec.trans ((e.takeStep.executeStep step).schedule_emits now)).trans
    (ensureStep_emits (Or.inr ⟨step, hlast, rfl⟩))
  rw [List.nil_append, List.append_nil] at hpath
  exact hpath

theorem catchUp_none {now : Instant} {fuel : ℕ} {e : SimEngine env} (h : e.dueStep now = none) :
    catchUp now (fuel + 1) e = some (e, []) := by
  unfold catchUp
  rw [h]

theorem catchUp_some {now : Instant} {fuel : ℕ} {e : SimEngine env} {step : EngineStep}
    (h : e.dueStep now = some step) :
    catchUp now (fuel + 1) e = (catchUp now fuel (e.takeStep.completeStep now step).1).map
      (fun res => (res.1, (e.takeStep.completeStep now step).2 ++ res.2)) := by
  conv_lhs => unfold catchUp
  rw [h]

/-- Rounds that catch up leave nothing to later rounds. -/
theorem catchUp_more {now : Instant} {fuel : ℕ} {e : SimEngine env}
    {res : SimEngine env × List EngineOutput} (h : catchUp now fuel e = some res) (more : ℕ) :
    catchUp now (fuel + more) e = some res := by
  induction fuel generalizing e res with
  | zero => cases h
  | succ fuel ih =>
      rw [Nat.succ_add]
      cases hdue : e.dueStep now with
      | none => rwa [catchUp_none hdue] at h ⊢
      | some step =>
          rw [catchUp_some hdue] at h ⊢
          obtain ⟨rest, hrest, heq⟩ := Option.map_eq_some_iff.mp h
          rw [ih hrest, Option.map_some, heq]

theorem catchUp_unique {now : Instant} {fuel fuel' : ℕ} {e : SimEngine env}
    {res res' : SimEngine env × List EngineOutput} (h : catchUp now fuel e = some res)
    (h' : catchUp now fuel' e = some res') : res = res' := by
  have hmore := catchUp_more h fuel'
  rw [Nat.add_comm, catchUp_more h' fuel, Option.some.injEq] at hmore
  exact hmore.symm

theorem catchUp_emits {P : Effect → Prop} {now : Instant} {fuel : ℕ} {e e' : SimEngine env}
    {outs : List EngineOutput} (hallow : ∀ step, P (.completed step))
    (h : catchUp now fuel e = some (e', outs)) : Emits P now e (coreOf outs) e' := by
  induction fuel generalizing e outs with
  | zero => cases h
  | succ fuel ih =>
      unfold catchUp at h
      split at h
      · cases h
        exact Emits.refl _
      · next step hdue =>
          obtain ⟨⟨e'', more⟩, hrest, heq⟩ := Option.map_eq_some_iff.mp h
          cases heq
          rw [coreOf_append]
          exact (completeStep_emits hallow hdue).trans (ih hrest)

end SimEngine

/-! ## Batches by client -/

namespace ByClient

def outputs (byClient : ByClient) : List EngineCoreOutput :=
  byClient.entries.flatMap (fun b => b.2.outputs)

theorem outputs_insert (byClient : ByClient) (client : ℕ) (b : ClientBatch) :
    (outputs (byClient.insert client b)).Perm
      (b.outputs ++ outputs (byClient.erase client)) :=
  (SortedMap.insert_perm byClient client b).flatMap_right _

theorem outputs_erase (byClient : ByClient) (client : ℕ) :
    (outputs byClient).Perm
      ((byClient.batch client).outputs ++ outputs (byClient.erase client)) := by
  unfold batch
  cases hb : byClient.get? client with
  | none =>
      rw [SortedMap.erase_of_none hb]
      exact List.Perm.refl _
  | some b => exact (SortedMap.perm_erase hb).flatMap_right _

theorem outputs_add (byClient : ByClient) (client : ℕ) (o : EngineCoreOutput) (finished : Bool) :
    (outputs (byClient.add client o finished)).Perm (outputs byClient ++ [o]) := by
  refine (outputs_insert _ _ _).trans ?_
  rw [List.append_assoc]
  refine List.Perm.trans ?_ ((outputs_erase byClient client).append_right [o]).symm
  rw [List.append_assoc]
  exact List.Perm.append_left _ List.perm_append_comm

theorem outputs_foldl_add {α : Type} (client : α → ℕ) (output : α → EngineCoreOutput)
    (finished : α → Bool) (l : List α) (byClient : ByClient) :
    (outputs (l.foldl (fun m a => m.add (client a) (output a) (finished a)) byClient)).Perm
      (outputs byClient ++ l.map output) := by
  induction l generalizing byClient with
  | nil => simp
  | cons a l ih =>
      refine (ih _).trans ?_
      rw [List.map_cons, ← List.singleton_append, ← List.append_assoc]
      exact (outputs_add _ _ _ _).append_right _

end ByClient

theorem stampKvParams_bare (requestId : String) (kv : JsonValue) (os : List EngineCoreOutput) :
    (stampKvParams requestId kv os).map EngineCoreOutput.bare = os.map EngineCoreOutput.bare := by
  induction os with
  | nil => rfl
  | cons o os ih =>
      unfold stampKvParams
      split
      · rfl
      · rw [List.map_cons, ih, List.map_cons]

theorem advertise_bare (byClient : ByClient) (a : Advert) :
    ((ByClient.outputs (advertise env byClient a)).map EngineCoreOutput.bare).Perm
      (byClient.outputs.map EngineCoreOutput.bare) := by
  unfold advertise
  split
  · exact List.Perm.refl _
  · split
    · exact List.Perm.refl _
    · next b hb =>
        have hbatch : (ByClient.batch byClient a.clientIndex).outputs = b.outputs := by
          rw [ByClient.batch, hb, Option.getD_some]
        refine ((ByClient.outputs_insert _ _ _).map _).trans ?_
        refine List.Perm.trans ?_ ((ByClient.outputs_erase byClient a.clientIndex).map _).symm
        rw [List.map_append, List.map_append, hbatch, stampKvParams_bare]

namespace SimEngine

/-- A flush shows the due outputs, batched by client. -/
theorem flush_outputs (now : Instant) (e : SimEngine env) :
    ((ByClient.outputs (e.flush now).2).map EngineCoreOutput.bare).Perm
      (((e.dueEmits now).map DueEmit.output).map EngineCoreOutput.bare) := by
  let grouped : ByClient := ((e.dueEmits now).insertionSort DueEmit.le).foldl
    (fun byClient d => ByClient.add byClient d.clientIndex d.output d.finished) SortedMap.empty
  have hgrouped : grouped.outputs.Perm ((e.dueEmits now).map DueEmit.output) := by
    have hfold := ByClient.outputs_foldl_add DueEmit.clientIndex DueEmit.output DueEmit.finished
      ((e.dueEmits now).insertionSort DueEmit.le) SortedMap.empty
    rw [show ByClient.outputs SortedMap.empty = [] from rfl, List.nil_append] at hfold
    exact hfold.trans ((List.perm_insertionSort _ _).map _)
  refine List.Perm.trans ?_ (hgrouped.map _)
  exact List.foldlRecOn (motive := fun m : ByClient =>
      (m.outputs.map EngineCoreOutput.bare).Perm (grouped.outputs.map EngineCoreOutput.bare))
    _ _ (List.Perm.refl _) (fun m hm a _ => (advertise_bare m a).trans hm)

theorem coreOf_stepOutput (engineIndex : ℕ) (now : Instant) (stats : SchedulerStats)
    (b : ℕ × ClientBatch) : coreOf (stepOutput engineIndex now stats b).toList = b.2.outputs := by
  unfold stepOutput
  split
  · next hempty => exact (List.isEmpty_iff.mp hempty).symm
  · exact List.append_nil _

theorem coreOf_stepOutputs (engineIndex : ℕ) (now : Instant) (stats : SchedulerStats)
    (batches : List (ℕ × ClientBatch)) :
    coreOf (batches.filterMap (stepOutput engineIndex now stats)) =
      batches.flatMap (fun b => b.2.outputs) := by
  induction batches with
  | nil => rfl
  | cons b batches ih =>
      rw [List.flatMap_cons, ← ih, ← coreOf_stepOutput engineIndex now stats b, ← coreOf_append,
        List.filterMap_cons]
      cases stepOutput engineIndex now stats b <;> rfl

theorem coreOf_abortOutputs (engineIndex : ℕ) (now : Instant) (stats : Option SchedulerStats)
    (batches : List (ℕ × ClientBatch)) :
    coreOf (abortOutputs engineIndex now stats batches) = batches.flatMap (fun b => b.2.outputs) := by
  induction batches generalizing stats with
  | nil => rfl
  | cons b batches ih =>
      rw [abortOutputs, coreOf_cons, ih]
      rfl

/-! ## Aborts -/

theorem withdraw_none {e e' : SimEngine env} {requestId : String}
    (h : e.withdraw requestId = (e', none)) : e' = e := by
  unfold withdraw at h
  split at h
  · cases h
  · split at h
    · cases h
    · split at h
      · next i hi =>
          obtain ⟨hlt, _⟩ := List.findIdx?_eq_some_iff_getElem.mp hi
          rw [List.getElem?_eq_getElem hlt] at h
          cases h
      · cases h
        rfl

theorem abortOne_emits {P : Effect → Prop} (now : Instant) (e : SimEngine env) (byClient : ByClient) (id : String) :
    ∃ os, Emits P now e os (abortOne (e, byClient) id).1 ∧
      (ByClient.outputs (abortOne (e, byClient) id).2).Perm (byClient.outputs ++ os) := by
  unfold abortOne
  split
  · next e' hnone =>
      cases withdraw_none hnone
      exact ⟨[], Emits.refl e, by simp⟩
  · next e' client ticket hsome =>
      exact ⟨_, Emits.move (Move.withdrawn e hsome), ByClient.outputs_add _ _ _ _⟩

theorem abortMany_emits {P : Effect → Prop} (now : Instant) (ids : List String) (e : SimEngine env)
    (byClient : ByClient) :
    ∃ os, Emits P now e os (ids.foldl abortOne (e, byClient)).1 ∧
      (ByClient.outputs (ids.foldl abortOne (e, byClient)).2).Perm (byClient.outputs ++ os) := by
  induction ids generalizing e byClient with
  | nil => exact ⟨[], Emits.refl e, by simp⟩
  | cons id ids ih =>
      obtain ⟨os, hone, hperm⟩ := abortOne_emits (P := P) now e byClient id
      obtain ⟨os', hrest, hperm'⟩ :=
        ih (abortOne (e, byClient) id).1 (abortOne (e, byClient) id).2
      refine ⟨os ++ os', hone.trans hrest, hperm'.trans ?_⟩
      rw [← List.append_assoc]
      exact hperm.append_right os'

/-! ## Operations -/

theorem drained_emits {P : Effect → Prop} (now : Instant) (e : SimEngine env)
    (hallow : ∀ s, P (.drained s)) : Emits P now e [] e.schedulerStats.1 :=
  Emits.of_move (Move.drained e) (hallow _)

theorem abortRequests_emits {P : Effect → Prop} (now : Instant) (ids : List String) (e : SimEngine env)
    (hallow : ∀ s, P (.drained s)) :
    ∃ os, Emits P now e os (e.abortRequests now ids).1 ∧
      (coreOf (e.abortRequests now ids).2).Perm os := by
  obtain ⟨os, habort, hperm⟩ := abortMany_emits (P := P) now ids e SortedMap.empty
  rw [show ByClient.outputs SortedMap.empty = [] from rfl, List.nil_append] at hperm
  have hpath := (habort.trans (schedule_emits now _)).trans
    ((drained_emits now _ hallow).trans (ensureStep_emits (Or.inl rfl)))
  refine ⟨_, hpath, ?_⟩
  change (coreOf (_ ++ abortOutputs _ now _ _)).Perm _
  rw [coreOf_append, coreOf_abortOutputs, List.append_nil, List.append_nil]
  exact (hperm.append_left _).trans List.perm_append_comm

theorem step_emits {now : Instant} {fuel : ℕ} {e e' : SimEngine env} {outs : List EngineOutput}
    (h : e.step fuel now = some (e', outs)) :
    ∃ os, Emits Op.step.Allows now e os e' ∧
      ((coreOf outs).map EngineCoreOutput.bare).Perm (os.map EngineCoreOutput.bare) := by
  obtain ⟨⟨e₁, caughtUp⟩, hcatch, heq⟩ := Option.map_eq_some_iff.mp h
  cases heq
  have hflush : Emits Op.step.Allows now e₁ ((e₁.dueEmits now).map DueEmit.output) (e₁.flush now).1 :=
    Emits.move (Move.flushed e₁)
  have hspec : Emits Op.step.Allows now e [] e.clearSpec := Emits.move (Move.specCleared e)
  have hpath := (((hspec.trans (catchUp_emits (fun _ => rfl) hcatch)).trans hflush).trans
    (schedule_emits now _)).trans ((ensureStep_emits (Or.inl rfl)).trans
      (drained_emits now _ (fun _ => Or.inl rfl)))
  refine ⟨_, hpath, ?_⟩
  change ((coreOf (List.filterMap (stepOutput _ now _) _ ++ (caughtUp ++ _))).map _).Perm _
  rw [coreOf_append, coreOf_append, coreOf_stepOutputs, List.nil_append, List.append_nil,
    List.append_nil]
  simp only [List.map_append]
  refine ((flush_outputs now e₁).append_right _).trans ?_
  rw [← List.append_assoc]
  exact List.perm_append_comm.append_right _

theorem handleRequest_emits (now : Instant) (request : EngineCoreRequest) (e : SimEngine env) :
    Emits (Op.Allows (.input (.request request))) now e (coreOf (e.handleRequest now request).2)
      (e.handleRequest now request).1 := by
  have hfail : ∀ (rng : env.Rng) (reason : FinishReason),
      Emits (Op.Allows (.input (.request request))) now e [terminalOutput none request.requestId reason]
        (e.countReceived.withFailureRng rng).countFailed :=
    fun rng reason => Emits.move (Move.arrivalFailed e rng request.requestId reason)
  have hrng : ∃ rng, (e.countReceived.maybeFail request).1 =
      e.countReceived.withFailureRng rng := by
    simp only [maybeFail]
    split
    · exact ⟨e.failureRng, rfl⟩
    · split
      · split <;> exact ⟨_, rfl⟩
      · exact ⟨e.failureRng, rfl⟩
  simp only [handleRequest]
  split
  · exact hfail e.failureRng .error
  · next hknown =>
      obtain ⟨rng, hrng⟩ := hrng
      split
      · next e₁ reason heq =>
          rw [heq] at hrng
          cases hrng
          exact hfail rng reason
      · next e₁ heq =>
          rw [heq] at hrng
          cases hrng
          have hq : Emits (Op.Allows (.input (.request request))) now e []
              ((e.countReceived.withFailureRng rng).enqueue now request) :=
            Emits.of_move (Move.enqueued e rng request (Bool.eq_false_iff.mpr hknown)) rfl
          exact hq.trans (refill_emits now _)

theorem finishPull_emits (now : Instant) {e : SimEngine env} {task : PullTask}
    (htask : task ∈ e.pullTasks) :
    Emits (Op.Allows (.pullCompletion task)) now e (coreOf ((e.receivePull task).finishPull now task).2)
      ((e.receivePull task).finishPull now task).1 := by
  unfold finishPull
  split
  · next hnone => exact Emits.of_move (Move.orphaned e htask hnone) rfl
  · next pending hpending =>
      have hpromote : Emits (Op.Allows (.pullCompletion task)) now e
          (coreOf ((e.receivePull task).promote now task pending).2.toList)
          ((e.receivePull task).promote now task pending).1 := by
        unfold promote
        rcases admitDirect_cases now task.requestId pending.clientIndex pending.queued
          pending.blockIds pending.numLocalCachedTokens
          { e.receivePull task with
            pendingPulls := (e.receivePull task).pendingPulls.erase task.requestId }
          with ⟨active, hbuild, hadmits⟩ | ⟨reason, hadmits⟩
        · rw [hadmits]
          exact Emits.of_move (Move.promoted e htask hpending hbuild) rfl
        · rw [hadmits]
          exact Emits.of_move (Move.pullRefused e htask hpending reason) rfl
      change Emits _ now e (coreOf (_ ++ _)) _
      rw [coreOf_append]
      exact hpromote.trans (refill_emits now _)

/-- A utility call resets the prefix cache, changes the loaded adapters or does nothing. -/
theorem runUtility_cases {request : UtilityRequestSpec} {e e' : SimEngine env}
    {result : UtilityResult} (h : e.runUtility request = .ok (e', result)) :
    e' = e.resetPrefixCache.1 ∨ (∃ loaded, e' = e.withLoras { e.loras with loaded := loaded }) ∨
      e' = e := by
  have hlora : ∀ {ok : Bool}, e.loraUtility request = .ok (some (e', ok)) →
      ∃ loaded, e' = e.withLoras { e.loras with loaded := loaded } := by
    intro ok hok
    unfold loraUtility at hok
    split at hok
    · obtain ⟨lora, _, heq⟩ := except_map_eq_ok hok
      cases heq
      exact ⟨_, rfl⟩
    · cases hok
    · split at hok
      · cases hok
      · cases hok
        exact ⟨_, rfl⟩
    · cases hok
    · cases hok
  unfold runUtility at h
  split at h
  · cases h
    exact Or.inl rfl
  · obtain ⟨res, hres, heq⟩ := except_map_eq_ok h
    cases res with
    | none =>
        cases heq
        exact Or.inr (Or.inr rfl)
    | some res =>
        cases heq
        exact Or.inr (Or.inl (hlora hres))

theorem runUtility_emits {P : Effect → Prop} {now : Instant} {request : UtilityRequestSpec}
    {e e' : SimEngine env} {result : UtilityResult}
    (h : e.runUtility request = .ok (e', result)) : Emits P now e [] e' := by
  rcases runUtility_cases h with rfl | ⟨loaded, rfl⟩ | rfl
  · exact Emits.move (Move.cacheReset e)
  · exact Emits.move (Move.adaptersChanged e loaded)
  · exact Emits.refl e'

/-- A patch that is accepted sets the options, rebuilds the latency model if it must, and refills. -/
theorem applyPatch_ok {now : Instant} {patch : ConfigPatch} {e : SimEngine env}
    {result : SimEngine env × List EngineOutput} (h : e.applyPatch now patch = .ok result) :
    ∃ latency, (if patch.changesLatency then (patch.apply e.opt).buildLatency env = .ok latency
        else latency = e.latency) ∧
      result = ({ e with opt := patch.apply e.opt, latency := latency } : SimEngine env).refill
        now := by
  unfold applyPatch at h
  split at h
  · cases h
  · simp only at h
    split at h
    · next hlatency =>
        split at h
        · cases h
        · next latency hbuild =>
            exact ⟨latency, by rwa [if_pos hlatency], (Except.ok.inj h).symm⟩
    · next hlatency => exact ⟨e.latency, by rw [if_neg hlatency], (Except.ok.inj h).symm⟩

theorem applyPatch_emits {now : Instant} {patch : ConfigPatch} {e e' : SimEngine env}
    {outs : List EngineOutput} (h : e.applyPatch now patch = .ok (e', outs)) :
    Emits (Op.Allows (.input (.control (.patchConfig patch)))) now e (coreOf outs) e' := by
  obtain ⟨latency, _, heq⟩ := applyPatch_ok h
  have hset : Emits (Op.Allows (.input (.control (.patchConfig patch)))) now e []
      { e with opt := patch.apply e.opt, latency := latency } :=
    Emits.of_move (Move.configured e patch latency) rfl
  have hrefill := refill_emits (P := Op.Allows (.input (.control (.patchConfig patch)))) now
    { e with opt := patch.apply e.opt, latency := latency }
  rw [← heq] at hrefill
  exact hset.trans hrefill

end SimEngine

/-- Every operation is a path of moves that shows the operation's outputs. -/
theorem perform_emits {now : Instant} {fuel : ℕ} {op : Op} {e e' : SimEngine env}
    {outs : List EngineOutput} (h : e.perform fuel now op = some (e', outs)) :
    ∃ os, Emits op.Allows now e os e' ∧
      ((coreOf outs).map EngineCoreOutput.bare).Perm (os.map EngineCoreOutput.bare) := by
  cases op with
  | input input =>
      cases input with
      | request request =>
          have hres : e.handleRequest now request = (e', outs) := Option.some.inj h
          have hemits := e.handleRequest_emits now request
          rw [hres] at hemits
          exact ⟨_, hemits, List.Perm.refl _⟩
      | abort ids =>
          cases h
          obtain ⟨os, hemits, hperm⟩ := e.abortRequests_emits (P := Op.Allows (.input (.abort ids))) now ids
            (fun _ => Or.inr (Or.inr ⟨ids, rfl⟩))
          exact ⟨os, hemits, hperm.map _⟩
      | utility request =>
          obtain ⟨res, hrun, heq⟩ := except_map_eq_ok (except_toOption_eq_some h)
          cases heq
          exact ⟨_, SimEngine.runUtility_emits hrun, List.Perm.refl _⟩
      | startDpWave =>
          cases h
          exact ⟨_, Emits.refl e, List.Perm.refl _⟩
      | control request =>
          cases request with
          | getConfig =>
              cases h
              exact ⟨_, Emits.refl e, List.Perm.refl _⟩
          | patchConfig patch =>
              simp only [SimEngine.perform, SimEngine.handleInput, SimEngine.handleControl] at h
              split at h
              · next e₁ outs₁ hp =>
                  cases h
                  exact ⟨_, SimEngine.applyPatch_emits hp, List.Perm.refl _⟩
              · cases h
                exact ⟨_, Emits.refl e, List.Perm.refl _⟩
          | getStats =>
              cases h
              exact ⟨_, Emits.refl e, List.Perm.refl _⟩
          | resetStats =>
              cases h
              exact ⟨_, Emits.of_move (Move.statsReset e) rfl, List.Perm.refl _⟩
  | pullCompletion task =>
      simp only [SimEngine.perform] at h
      split at h
      · next htask =>
          have hres : (e.receivePull task).finishPull now task = (e', outs) := Option.some.inj h
          have hemits := SimEngine.finishPull_emits now htask
          rw [hres] at hemits
          exact ⟨_, hemits, List.Perm.refl _⟩
      · cases h
  | step => exact SimEngine.step_emits h
  | rejectRequest request =>
      cases h
      exact ⟨_, Emits.move (Move.arrivalRejected e request.requestId), List.Perm.refl _⟩
  | abortAllRequests =>
      cases h
      obtain ⟨os, hemits, hperm⟩ := e.abortRequests_emits (P := Op.Allows .abortAllRequests) now
        e.unfinishedIds (fun _ => Or.inr (Or.inl rfl))
      exact ⟨os, hemits, hperm.map _⟩

/-- An operation has one result, whatever fuel suffices for it. -/
theorem SimEngine.perform_unique {now : Instant} {fuel fuel' : ℕ} {op : Op} {e : SimEngine env}
    {res res' : SimEngine env × List EngineOutput} (h : e.perform fuel now op = some res)
    (h' : e.perform fuel' now op = some res') : res = res' := by
  cases op with
  | step =>
      obtain ⟨caughtUp, hcatch, rfl⟩ := Option.map_eq_some_iff.mp h
      obtain ⟨caughtUp', hcatch', rfl⟩ := Option.map_eq_some_iff.mp h'
      rw [catchUp_unique hcatch hcatch']
  | input | pullCompletion | rejectRequest | abortAllRequests =>
      exact Option.some.inj (h.symm.trans h')

/-! ## Runs -/

namespace Run

variable {e₀ e : SimEngine env} {turns : List (Turn env)} {clock : Instant}

/-- A property of the turns so far, the state and the clock, carried turn by turn. -/
theorem turnwise {P : List (Turn env) → SimEngine env → Instant → Prop}
    (hrun : Run e₀ turns e clock) (hinit : P [] e₀ 0)
    (hturn : ∀ turns clock fuel (t : Turn env), P turns t.before clock → clock ≤ t.now →
      t.before.perform fuel t.now t.op = some (t.after, t.outputs) →
      P (turns ++ [t]) t.after t.now) :
    P turns e clock := by
  refine Path.history (P := fun turns s => P turns s.1 s.2) hrun hinit ?_
  rintro turns ⟨e, clock⟩ t ⟨e', clock'⟩ hP ht
  obtain ⟨fuel, hperform⟩ := ht.performs
  have hbefore : t.before = e := ht.before
  have hafter : t.after = e' := ht.after
  have hnow : t.now = clock' := ht.now
  have hnext := hturn turns clock fuel t (hbefore ▸ hP) ht.clock hperform
  rw [hafter, hnow] at hnext
  exact hnext

/-- The same over the moves that make up each turn. -/
theorem history {P : List (Turn env) → SimEngine env → Instant → Prop}
    (hrun : Run e₀ turns e clock) (hinit : P [] e₀ 0)
    (hturn : ∀ turns clock (t : Turn env) os, P turns t.before clock → clock ≤ t.now →
      Emits t.op.Allows t.now t.before os t.after →
      ((coreOf t.outputs).map EngineCoreOutput.bare).Perm (os.map EngineCoreOutput.bare) →
      P (turns ++ [t]) t.after t.now) :
    P turns e clock := by
  refine hrun.turnwise hinit (fun turns clock fuel t hP hclock hperform => ?_)
  obtain ⟨os, hemits, hperm⟩ := perform_emits hperform
  exact hturn turns clock t os hP hclock hemits hperm

/-- A run may be cut before and after any of its turns. -/
theorem cut {s : SimEngine env × Instant} {pre post : List (Turn env)} {t : Turn env}
    (hrun : Path (fun s t u => Turn.Takes s t u) s (pre ++ t :: post) (e, clock)) :
    ∃ clock₁, Path (fun s t u => Turn.Takes s t u) s pre (t.before, clock₁) ∧
      Turn.Takes (t.before, clock₁) t (t.after, t.now) ∧
      Path (fun s t u => Turn.Takes s t u) (t.after, t.now) post (e, clock) := by
  obtain ⟨⟨e₁, clock₁⟩, hpre, hpost⟩ := Path.split hrun
  rw [← List.singleton_append] at hpost
  obtain ⟨⟨e₂, clock₂⟩, hone, hrest⟩ := Path.split hpost
  have htakes := hone.of_single
  obtain ⟨hbefore, hafter, hclock, hnow, hperforms⟩ := id htakes
  cases hbefore
  cases hafter
  cases hnow
  exact ⟨clock₁, hpre, htakes, hrest⟩

/-- Every turn of a run starts in a state reached by a part of the run. -/
theorem turn_emits (hrun : Run e₀ turns e clock) {t : Turn env} (ht : t ∈ turns) :
    ∃ pre clock os, pre ⊆ turns ∧ Run e₀ pre t.before clock ∧ clock ≤ t.now ∧
      Emits t.op.Allows t.now t.before os t.after := by
  obtain ⟨pre, post, rfl⟩ := List.append_of_mem ht
  obtain ⟨clock₁, hpre, htakes, _⟩ := cut hrun
  obtain ⟨fuel, hperform⟩ := htakes.performs
  obtain ⟨os, hemits, _⟩ := perform_emits hperform
  exact ⟨pre, clock₁, os, List.subset_append_left _ _, hpre, htakes.clock, hemits⟩

/-- What every move preserves holds in every state reached. -/
theorem invariant {I : SimEngine env → Prop} (hrun : Run e₀ turns e clock) (hinit : I e₀)
    (hmove : ∀ now e effect e', I e → Move now e effect e' → I e') : I e := by
  refine hrun.history (P := fun _ e _ => I e) hinit ?_
  intro _ _ t os he _ hemits _
  exact hemits.invariant he (fun e effect e' _ => hmove t.now e effect e')

/-- What every move of an allowed kind preserves holds as long as only such moves are allowed. -/
theorem invariant_of {I : SimEngine env → Prop} {Q : Effect → Prop} (hrun : Run e₀ turns e clock)
    (hinit : I e₀) (hops : ∀ t ∈ turns, ∀ effect, t.op.Allows effect → Q effect)
    (hmove : ∀ now e effect e', Q effect → I e → Move now e effect e' → I e') : I e := by
  refine hrun.history (P := fun turns e _ =>
    (∀ t ∈ turns, ∀ effect, t.op.Allows effect → Q effect) → I e) (fun _ => hinit) ?_ hops
  intro turns _ t os he _ hemits _ hops
  obtain ⟨effects, hpath, hallow, _⟩ := hemits.allows
  exact hpath.invariant_of (he (fun t' ht' => hops t' (List.mem_append_left _ ht')))
    (fun effect heffect => hops t (List.mem_append_right _ (List.mem_singleton_self t)) effect
      (hallow effect heffect))
    (fun e effect e' => hmove t.now e effect e')

end Run
end VllmVcr
