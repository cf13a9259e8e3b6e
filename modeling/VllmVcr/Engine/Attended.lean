import VllmVcr.Engine.CatchUp
import VllmVcr.Engine.Queue

/-!
# What an operation leaves behind

Every operation ends with a filled batch and, if there is anything to do, an armed step clock: who
waits lacks room or an adapter slot, and an idle clock means that the batch has generated its all.
-/

namespace VllmVcr

variable {env : Env} {now : Instant} {e e' : SimEngine env} {effect : Effect}

open SimEngine

/-! ## Who prefills is listed -/

/-- The prefill order lists every request that prefills. -/
def SimEngine.PrefillsListed (e : SimEngine env) : Prop :=
  ∀ id r, e.activeRequests.get? id = some r → r.phase ≠ .decode → id ∈ e.prefillOrder

theorem Fresh.prefillsListed (h : Fresh e) : e.PrefillsListed := by
  obtain ⟨engineIndex, opt, tokenSource, stepSource, hnew⟩ := h
  obtain ⟨latency, _, rfl⟩ := except_map_eq_ok hnew
  intro id r hr
  cases hr

namespace SimEngine

theorem PrefillsListed.fills (h : e.PrefillsListed) (hfills : e.FillsFrom e')
    (horder : e'.prefillOrder = e.prefillOrder) : e'.PrefillsListed := by
  intro id r' hr' hphase
  obtain ⟨r, hr, _, hprefills⟩ := hfills id r' hr' hphase
  exact horder ▸ h id r hr hprefills

theorem PrefillsListed.congr (h : e.PrefillsListed) (hactive : e'.activeRequests = e.activeRequests)
    (horder : e'.prefillOrder = e.prefillOrder) : e'.PrefillsListed := by
  intro id r hr hphase
  exact horder ▸ h id r (hactive ▸ hr) hphase

theorem PrefillsListed.activate (h : e.PrefillsListed) (now : Instant) (id : String)
    (active : ActiveRequest env) : (e.activate now id active).PrefillsListed := by
  intro id' r hr hphase
  have hinsert : (e.activate now id active).activeRequests = e.activeRequests.insert id
      (active.pinned (e.tokenSource.onRequestAdded active.requestId active.promptTokenIds).2
        (e.takeSchedule active.requestId active.promptTokenIds).2) := rfl
  have hgrows : ∀ k ∈ e.prefillOrder, k ∈ (e.activate now id active).prefillOrder := by
    intro k hk
    unfold SimEngine.activate
    dsimp only [log_prefillOrder]
    split
    · exact List.mem_append_left _ hk
    · exact hk
  by_cases hid : id' = id
  · subst hid
    rw [activate_prefillOrder hr hphase]
    exact List.mem_append_right _ (List.mem_singleton_self id')
  · rw [hinsert, SortedMap.get?_insert, if_neg hid] at hr
    exact hgrows id' (h id' r hr hphase)

end SimEngine

theorem Move.prefillsListed (h : Move now e effect e') (he : Sound e) (hl : e.PrefillsListed) :
    e'.PrefillsListed := by
  cases h with
  | arrivalFailed | arrivalRejected | enqueued | parked | refused | pullRefused | orphaned
  | drained | configured | adaptersChanged | specCleared | statsReset =>
      exact hl.congr (by simp [schedulerStats]) (by simp [schedulerStats])
  | cacheReset =>
      unfold resetPrefixCache
      split
      · exact hl
      · exact hl
  | @admitted i queued hadm active hbuild =>
      apply SimEngine.PrefillsListed.activate
      exact hl.congr (by simp) (by simp)
  | @promoted task htask pending hpending active hbuild =>
      have hunparked : ((e.receivePull task).unpark now task.requestId).PrefillsListed :=
        hl.congr (by simp) (by simp)
      have hactive := hunparked.activate now task.requestId active
      exact hactive.congr (by simp) (by simp)
  | @withdrawn id e₁ client ticket hwithdraw =>
      rcases withdraw_some hwithdraw with ⟨r, _, _, _, rfl⟩ | ⟨p, _, _, _, rfl⟩ |
        ⟨i, q, _, _, _, _, rfl⟩
      · have hfills : e.FillsFrom (e.retire id) := (stands_of_erase (e.retire_active id)).fillsFrom
        exact (hl.fills hfills (retire_flushed (.refl e) id).prefillOrder).congr (by simp) (by simp)
      · exact hl
      · exact hl
  | composed anchor =>
      intro id r' hr' hphase
      obtain ⟨r, hr, _, hprefills⟩ := (composeStep_stands anchor e).fillsFrom id r' hr' hphase
      have horder : (e.composeStep anchor).prefillOrder = e.prunedOrder := e.prunePrefills_order
      rw [horder]
      apply List.mem_filter.mpr ⟨hl id r hr hprefills, ?_⟩
      rw [isPrefilling, hr, Option.any_some]
      exact decide_eq_true hprefills
  | @executed step =>
      exact hl.fills (executeStep_fillsFrom step e.takeStep) (executeStep_line step e.takeStep).2
  | flushed =>
      exact hl.fills (flush_stands he.active now).fillsFrom (e.flush_flushed now).prefillOrder

theorem Emits.prefillsListed {P : Effect → Prop} {os : List EngineCoreOutput}
    (h : Emits P now e os e') (he : Sound e) (hl : e.PrefillsListed) : e'.PrefillsListed := by
  have hboth := h.invariant (I := fun e => Sound e ∧ e.PrefillsListed) ⟨he, hl⟩
    (fun _ _ _ _ hi hmove => ⟨hmove.sound hi.1, hmove.prefillsListed hi.1 hi.2⟩)
  exact hboth.2

/-! ## The batch is filled -/

namespace SimEngine

/-- No waiting request can be admitted. -/
def Filled (e : SimEngine env) : Prop := e.HasRoom → e.nextAdmissibleIndex = none

/-- The step clock idles only over requests that have generated all their tokens. -/
def Armed (e : SimEngine env) : Prop :=
  e.currentStep = none → ∀ id r, e.activeRequests.get? id = some r →
    r.phase = .decode ∧ r.isGenerating = false

theorem scheduleLoop_filled (now : Instant) {rounds : ℕ} {e : SimEngine env}
    (h : e.waiting.length ≤ rounds) : (scheduleLoop now rounds e).1.Filled := by
  induction rounds generalizing e with
  | zero =>
      intro _
      have hnone : e.waiting = [] := List.length_eq_zero_iff.mp (Nat.le_zero.mp h)
      unfold scheduleLoop nextAdmissibleIndex
      rw [Scheduler.nextAdmissible_eq_none, hnone]
      intro q hq
      cases hq
  | succ rounds ih =>
      unfold scheduleLoop
      split
      · next hroom =>
          split
          · next hnone =>
              intro _
              by_contra hsome
              obtain ⟨i, hi⟩ := Option.ne_none_iff_exists'.mp hsome
              obtain ⟨q, hq, _⟩ := Scheduler.nextAdmissible_some hi
              rw [hi, Option.bind_some, hq] at hnone
              cases hnone
          · next i queued hnext =>
              have hat := (nextAdmissible_admissible hroom hnext).waiting
              have hlt : i < e.waiting.length := (List.getElem?_eq_some_iff.mp hat).1
              have hwaiting : ((e.removeWaiting i).admitRequest now queued).1.waiting =
                  e.waiting.eraseIdx i := admitRequest_waiting now queued (e.removeWaiting i)
              apply ih
              rw [hwaiting, List.length_eraseIdx_of_lt hlt]
              omega
      · next hfull => exact fun hroom => absurd hroom hfull

theorem schedule_filled (now : Instant) (e : SimEngine env) : (e.schedule now).1.Filled :=
  scheduleLoop_filled now le_rfl

/-- What admission reads of the batch. -/
def claims (e : SimEngine env) : List (Bool × ℕ × Option String) :=
  e.activeRequests.values.map (fun r => (r.isGenerating, r.backlog, r.loraName))

theorem numGenerating_claims (e : SimEngine env) :
    e.numGenerating = (e.claims.filter (fun c => c.1)).length := by
  rw [claims, List.filter_map, List.length_map]
  rfl

theorem stepTokenBacklog_claims (e : SimEngine env) :
    e.stepTokenBacklog = (e.claims.map (fun c => c.2.1)).sum + e.pendingPulls.size := by
  rw [claims, List.map_map]
  rfl

theorem runningAdapters_claims (e : SimEngine env) :
    e.runningAdapters =
      e.claims.filterMap (fun c => c.2.2) ++ e.pendingPulls.values.filterMap PendingPull.loraName := by
  rw [claims, List.filterMap_map]
  rfl

theorem claims_congr (h : e'.activeRequests = e.activeRequests) : e'.claims = e.claims := by
  rw [claims, claims, h]

theorem claims_drawDecoders (e : SimEngine env) : e.drawDecoders.1.claims = e.claims := by
  simp only [claims, drawDecoders, SortedMap.values, SortedMap.mapValues, List.map_map]
  apply List.map_congr_left
  intro a _
  have hdraw : ((e.drawFor a.2).2.isGenerating, (e.drawFor a.2).2.backlog,
      (e.drawFor a.2).2.loraName) = (a.2.isGenerating, a.2.backlog, a.2.loraName) := by
    unfold drawFor ActiveRequest.drawStep
    split
    · rfl
    · rfl
  simp only [Function.comp_apply]
  split
  · exact hdraw
  · rfl

/-- What decides whether the batch is filled. -/
structure SameRoom (e e' : SimEngine env) : Prop where
  claims : e'.claims = e.claims
  pendingPulls : e'.pendingPulls = e.pendingPulls
  waiting : e'.waiting = e.waiting
  scheduler : e'.scheduler = e.scheduler
  opt : e'.opt = e.opt
  maxLoras : e'.loras.maxLoras = e.loras.maxLoras

theorem SameRoom.filled (h : SameRoom e e') (hfilled : e.Filled) : e'.Filled := by
  have hgenerating : e'.numGenerating = e.numGenerating := by
    rw [numGenerating_claims, numGenerating_claims, h.claims]
  have hbacklog : e'.stepTokenBacklog = e.stepTokenBacklog := by
    rw [stepTokenBacklog_claims, stepTokenBacklog_claims, h.claims, h.pendingPulls]
  have hadapters : e'.runningAdapters = e.runningAdapters := by
    rw [runningAdapters_claims, runningAdapters_claims, h.claims, h.pendingPulls]
  have hadmits : e'.loraAdmits = e.loraAdmits := by
    funext request
    unfold loraAdmits LoraRegistry.admits
    rw [h.maxLoras, hadapters]
  intro hroom
  rw [HasRoom, hgenerating, h.pendingPulls, runningCapacity, h.opt, hbacklog] at hroom
  rw [nextAdmissibleIndex, h.scheduler, h.waiting, hadmits]
  exact hfilled hroom

/-! ## The clock is armed -/

theorem planChunks_nil {active : SortedMap String (ActiveRequest env)} {threshold : ℕ}
    {cost : ℕ → ℕ → Duration} {order : List String} {left : ℕ} (hleft : 0 < left)
    (h : (planChunks active threshold cost order left).1 = []) {id : String} (hid : id ∈ order)
    {r : ActiveRequest env} (hr : active.get? id = some r) : r.phase = .decode := by
  induction order with
  | nil => cases hid
  | cons head rest ih =>
      unfold planChunks at h
      rw [if_neg hleft.ne'] at h
      rcases List.mem_cons.mp hid with rfl | hrest
      · rw [hr] at h
        dsimp only at h
        split at h
        · next hdecode => exact hdecode
        · cases h
      · split at h
        · exact ih h hrest
        · split at h
          · exact ih h hrest
          · cases h

theorem composeStep_get? {anchor : Instant} {id : String} {r' : ActiveRequest env}
    (h : (e.composeStep anchor).activeRequests.get? id = some r') :
    ∃ r, e.activeRequests.get? id = some r ∧ r'.phase = r.phase ∧
      r'.isGenerating = r.isGenerating := by
  have hget : e.drawDecoders.1.activeRequests.get? id = some r' := h
  rw [drawDecoders, SortedMap.get?_mapValues] at hget
  obtain ⟨r, hr, rfl⟩ := Option.map_eq_some_iff.mp hget
  refine ⟨r, hr, ?_⟩
  split
  · exact ⟨(drawStep_stands e.latency e.numRunning r).2.2, (drawStep_work e.latency e.numRunning r).2⟩
  · exact ⟨rfl, rfl⟩

theorem composeStep_armed (anchor : Instant) (hl : e.PrefillsListed) :
    (e.composeStep anchor).Armed := by
  intro hidle id r' hr'
  have hnone : (e.drawDecoders.2.isEmpty &&
      (e.drawDecoders.1.prunePrefills.chunkPlan e.drawDecoders.2).1.isEmpty) = true := by
    by_contra hsome
    simp only [composeStep] at hidle
    rw [if_neg hsome] at hidle
    cases hidle
  obtain ⟨hdecoders, hchunks⟩ := Bool.and_eq_true_iff.mp hnone
  rw [List.isEmpty_iff] at hdecoders hchunks
  obtain ⟨r, hr, hphase, hgenerates⟩ := composeStep_get? hr'
  have hidling : r.isDecoding = false := by
    by_contra hdecodes
    have hmem : r ∈ e.decoding := List.mem_filter.mpr
      ⟨SortedMap.mem_values.mpr ⟨id, hr⟩, by simpa using hdecodes⟩
    have hne := List.ne_nil_of_mem (List.mem_map_of_mem
      (f := fun r => (⟨r.requestId, (e.drawFor r).1.tokens, r.ticket⟩ : DecoderEntry)) hmem)
    exact hne hdecoders
  have hdecode : r.phase = .decode := by
    by_contra hprefills
    have hmem : id ∈ e.prunedOrder := by
      apply List.mem_filter.mpr ⟨hl id r hr hprefills, ?_⟩
      rw [isPrefilling, hr, Option.any_some]
      exact decide_eq_true hprefills
    rw [chunkPlan, hdecoders, List.map_nil, List.sum_nil, Nat.sub_zero, prunePrefills_order]
      at hchunks
    have hbudget := e.drawDecoders.1.prunePrefills.opt.stepBudget_pos
    exact hprefills (hphase ▸ planChunks_nil hbudget hchunks hmem hr')
  refine ⟨hphase ▸ hdecode, ?_⟩
  rw [hgenerates]
  rw [ActiveRequest.isDecoding, hdecode] at hidling
  simpa using hidling

theorem ensureStep_armed (anchor : Instant) (hl : e.PrefillsListed) :
    (e.ensureStep anchor).Armed := by
  unfold ensureStep
  split
  · exact composeStep_armed anchor hl
  · next hbusy =>
      intro hidle
      rw [hidle] at hbusy
      exact absurd rfl hbusy

theorem Armed.congr (h : e.Armed) (hstep : e'.currentStep = e.currentStep)
    (hactive : e'.activeRequests = e.activeRequests) : e'.Armed := by
  intro hidle id r hr
  exact h (hstep ▸ hidle) id r (hactive ▸ hr)

theorem SameRoom.ensureStep (anchor : Instant) (e : SimEngine env) :
    SameRoom e (e.ensureStep anchor) := by
  unfold SimEngine.ensureStep
  split
  · exact ⟨e.claims_drawDecoders, rfl, rfl, rfl, rfl, rfl⟩
  · exact ⟨rfl, rfl, rfl, rfl, rfl, rfl⟩

/-- The batch is filled, the clock is armed, and the prefill order lists who prefills. -/
structure Attended (e : SimEngine env) : Prop where
  filled : e.Filled
  armed : e.Armed
  listed : e.PrefillsListed

/-- What an operation may change without looking at the queue or the clock. -/
theorem Attended.congr (h : e.Attended) (hactive : e'.activeRequests = e.activeRequests)
    (hpending : e'.pendingPulls = e.pendingPulls) (hwaiting : e'.waiting = e.waiting)
    (hscheduler : e'.scheduler = e.scheduler) (hopt : e'.opt = e.opt)
    (hloras : e'.loras.maxLoras = e.loras.maxLoras) (hstep : e'.currentStep = e.currentStep)
    (horder : e'.prefillOrder = e.prefillOrder) : e'.Attended := by
  have hroom : SameRoom e e' :=
    ⟨claims_congr hactive, hpending, hwaiting, hscheduler, hopt, hloras⟩
  exact ⟨hroom.filled h.filled, h.armed.congr hstep hactive, h.listed.congr hactive horder⟩

theorem ensureStep_attended (anchor : Instant) (he : Sound e) (hfilled : e.Filled)
    (hl : e.PrefillsListed) : (e.ensureStep anchor).Attended := by
  refine ⟨(SameRoom.ensureStep anchor e).filled hfilled, ensureStep_armed anchor hl, ?_⟩
  unfold SimEngine.ensureStep
  split
  · next hidle =>
      have hmove : Move anchor e (.outputs []) (e.composeStep anchor) :=
        Move.composed e anchor (Option.isNone_iff_eq_none.mp hidle) (Or.inl rfl)
      exact hmove.prefillsListed he hl
  · exact hl

/-- Scheduling fills the batch, and arming the clock keeps it filled. -/
theorem refill_attended (now anchor : Instant) (he : Sound e) (hl : e.PrefillsListed) :
    ((e.schedule now).1.ensureStep anchor).Attended := by
  have hemits := schedule_emits (P := fun _ => False) now e
  exact ensureStep_attended anchor (hemits.invariant he (fun _ _ _ _ hi hmove => hmove.sound hi))
    (schedule_filled now e) (hemits.prefillsListed he hl)

theorem schedulerStats_attended (h : e.Attended) : e.schedulerStats.1.Attended :=
  h.congr rfl rfl rfl rfl rfl rfl rfl rfl

end SimEngine

theorem Fresh.attended (h : Fresh e) : e.Attended := by
  have hlisted := h.prefillsListed
  obtain ⟨engineIndex, opt, tokenSource, stepSource, hnew⟩ := h
  obtain ⟨latency, _, rfl⟩ := except_map_eq_ok hnew
  refine ⟨?_, ?_, hlisted⟩
  · intro _
    unfold nextAdmissibleIndex
    rw [Scheduler.nextAdmissible_eq_none]
    intro q hq
    cases hq
  · intro _ id r hr
    cases hr

namespace SimEngine

theorem handleRequest_attended (now : Instant) (request : EngineCoreRequest) (he : Sound e)
    (h : e.Attended) : (e.handleRequest now request).1.Attended := by
  obtain ⟨rng, reason, hmaybe⟩ := maybeFail_frame request e.countReceived
  unfold handleRequest
  simp only [hmaybe]
  split
  · exact h.congr rfl rfl rfl rfl rfl rfl rfl rfl
  · next hknown =>
      cases reason with
      | some reason => exact h.congr rfl rfl rfl rfl rfl rfl rfl rfl
      | none =>
          have hmove : Move now e (.accepted request)
              ((e.countReceived.withFailureRng rng).enqueue now request) :=
            Move.enqueued e rng request (Bool.eq_false_iff.mpr hknown)
          exact refill_attended now now (hmove.sound he) (h.listed.congr rfl rfl)

theorem abortRequests_attended (now : Instant) (ids : List String) (he : Sound e)
    (h : e.Attended) : (e.abortRequests now ids).1.Attended := by
  obtain ⟨os, habort, _⟩ := abortMany_emits (P := fun _ => False) now ids e SortedMap.empty
  have hsound : Sound (ids.foldl abortOne (e, SortedMap.empty)).1 :=
    habort.invariant he (fun _ _ _ _ hi hmove => hmove.sound hi)
  have hemits := schedule_emits (P := fun _ => False) now (ids.foldl abortOne
    (e, SortedMap.empty)).1
  have hscheduled := hemits.invariant hsound (fun _ _ _ _ hi hmove => hmove.sound hi)
  have hlisted := hemits.prefillsListed hsound (habort.prefillsListed he h.listed)
  have hdrained : Move now ((ids.foldl abortOne (e, SortedMap.empty)).1.schedule now).1 _ _ :=
    Move.drained ((ids.foldl abortOne (e, SortedMap.empty)).1.schedule now).1
  exact ensureStep_attended now (hdrained.sound hscheduled) (schedule_filled now _)
    (hdrained.prefillsListed hscheduled hlisted)

theorem finishPull_attended (now : Instant) {task : PullTask} (htask : task ∈ e.pullTasks)
    (he : Sound e) (h : e.Attended) : ((e.receivePull task).finishPull now task).1.Attended := by
  unfold finishPull
  split
  · exact h.congr rfl rfl rfl rfl rfl rfl rfl rfl
  · next pending hpending =>
      have hpromote : Emits (fun effect => ∃ task os, effect = .received task os) now e
          (coreOf ((e.receivePull task).promote now task pending).2.toList)
          ((e.receivePull task).promote now task pending).1 := by
        unfold promote
        rcases admitDirect_cases now task.requestId pending.clientIndex pending.queued
          pending.blockIds pending.numLocalCachedTokens
          { e.receivePull task with
            pendingPulls := (e.receivePull task).pendingPulls.erase task.requestId }
          with ⟨active, hbuild, hadmits⟩ | ⟨reason, hadmits⟩
        · rw [hadmits]
          exact Emits.of_move (Move.promoted e htask hpending hbuild) ⟨task, _, rfl⟩
        · rw [hadmits]
          exact Emits.of_move (Move.pullRefused e htask hpending reason) ⟨task, _, rfl⟩
      have hsound := hpromote.invariant he (fun _ _ _ _ hi hmove => hmove.sound hi)
      exact refill_attended now now hsound (hpromote.prefillsListed he h.listed)

theorem step_attended {fuel : ℕ} {outs : List EngineOutput}
    (hstep : e.step fuel now = some (e', outs)) (he : Sound e) (h : e.Attended) :
    e'.Attended := by
  obtain ⟨⟨e₁, caughtUp⟩, hcatch, heq⟩ := Option.map_eq_some_iff.mp hstep
  cases heq
  have hcleared : Emits Op.step.Allows now e [] e.clearSpec := Emits.move (Move.specCleared e)
  have hflushed : Emits Op.step.Allows now e₁ ((e₁.dueEmits now).map DueEmit.output)
      (e₁.flush now).1 := Emits.move (Move.flushed e₁)
  have hpath := (hcleared.trans (catchUp_emits (fun _ => rfl) hcatch)).trans hflushed
  have hsound := hpath.invariant he (fun _ _ _ _ hi hmove => hmove.sound hi)
  exact schedulerStats_attended (refill_attended now now hsound (hpath.prefillsListed he h.listed))

theorem applyPatch_attended {patch : ConfigPatch} {outs : List EngineOutput}
    (hpatch : e.applyPatch now patch = .ok (e', outs)) (he : Sound e) (h : e.Attended) :
    e'.Attended := by
  obtain ⟨latency, _, heq⟩ := applyPatch_ok hpatch
  have hmove : Move now e (.configured patch)
      { e with opt := patch.apply e.opt, latency := latency } := Move.configured e patch latency
  rw [show e' = _ from congrArg Prod.fst heq]
  exact refill_attended now now (hmove.sound he) (h.listed.congr rfl rfl)

theorem runUtility_attended {request : UtilityRequestSpec} {result : UtilityResult}
    (hrun : e.runUtility request = .ok (e', result)) (h : e.Attended) : e'.Attended := by
  rcases runUtility_cases hrun with rfl | ⟨loaded, rfl⟩ | rfl
  · unfold resetPrefixCache
    split
    · exact h.congr rfl rfl rfl rfl rfl rfl rfl rfl
    · exact h
  · exact h.congr rfl rfl rfl rfl rfl rfl rfl rfl
  · exact h

end SimEngine

/-- Every operation leaves the batch filled and the clock armed. -/
theorem perform_attended {fuel : ℕ} {op : Op} {outs : List EngineOutput}
    (hperform : e.perform fuel now op = some (e', outs)) (he : Sound e) (h : e.Attended) :
    e'.Attended := by
  cases op with
  | input input =>
      cases input with
      | request request =>
          have hres : e.handleRequest now request = (e', outs) := Option.some.inj hperform
          have hattended := handleRequest_attended now request he h
          rw [hres] at hattended
          exact hattended
      | abort ids =>
          cases hperform
          exact abortRequests_attended now ids he h
      | utility request =>
          obtain ⟨res, hrun, heq⟩ := except_map_eq_ok (except_toOption_eq_some hperform)
          cases heq
          exact runUtility_attended hrun h
      | startDpWave =>
          cases hperform
          exact h
      | control request =>
          cases request with
          | getConfig =>
              cases hperform
              exact h
          | patchConfig patch =>
              simp only [SimEngine.perform, SimEngine.handleInput, SimEngine.handleControl]
                at hperform
              split at hperform
              · next e₁ outs₁ hp =>
                  cases hperform
                  exact applyPatch_attended hp he h
              · cases hperform
                exact h
          | getStats =>
              cases hperform
              exact h
          | resetStats =>
              cases hperform
              exact h.congr rfl rfl rfl rfl rfl rfl rfl rfl
  | pullCompletion task =>
      simp only [SimEngine.perform] at hperform
      split at hperform
      · next htask =>
          have hres : (e.receivePull task).finishPull now task = (e', outs) :=
            Option.some.inj hperform
          have hattended := finishPull_attended now htask he h
          rw [hres] at hattended
          exact hattended
      · cases hperform
  | step => exact step_attended hperform he h
  | rejectRequest request =>
      cases hperform
      exact h.congr rfl rfl rfl rfl rfl rfl rfl rfl
  | abortAllRequests =>
      cases hperform
      exact abortRequests_attended now e.unfinishedIds he h

theorem Run.attended {e₀ : SimEngine env} {turns : List (Turn env)} {clock : Instant}
    (hrun : Run e₀ turns e clock) (hfresh : Fresh e₀) : e.Attended := by
  have hall := hrun.turnwise (P := fun _ e _ => Sound e ∧ e.Attended)
    ⟨hfresh.sound, hfresh.attended⟩ ?_
  · exact hall.2
  · rintro turns clock fuel t ⟨he, h⟩ _ hperform
    obtain ⟨os, hemits, _⟩ := perform_emits hperform
    exact ⟨hemits.invariant he (fun _ _ _ _ hi hmove => hmove.sound hi),
      perform_attended hperform he h⟩

end VllmVcr
