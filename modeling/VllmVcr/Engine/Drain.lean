import VllmVcr.Engine.Attended
import VllmVcr.Engine.Loop
import VllmVcr.Engine.Pulls
import VllmVcr.Engine.Routing
import VllmVcr.Exhaustion

/-!
# Running dry

Left to itself, an engine takes due steps and receives completed pulls. Each lowers what is left to
do, so that it comes to rest whatever the order, and at rest every request has been answered.
-/

namespace VllmVcr

variable {env : Env} {now : Instant} {e e' : SimEngine env}

/-! ## What is owed -/

namespace ActiveRequest

/-- The work left and the emissions queued. -/
def owed (r : ActiveRequest env) : ℕ := r.work + r.pendingEmits.length

theorem generate_owed (r : ActiveRequest env) (source : TokenSource) (stepEnd : Instant) (n : ℕ)
    (timeScale : ℚ≥0) (seq : ℕ) :
    (r.generate source stepEnd n timeScale seq).1.owed ≤ r.owed := by
  have hwork := r.generate_work source stepEnd n timeScale seq
  rcases r.generate_eq source stepEnd n timeScale seq with
    ⟨_, h⟩ | ⟨rng, source', emit, hpos, hlen, _, _, h⟩
  · rw [h]
  · have hemits : (r.generate source stepEnd n timeScale seq).1.pendingEmits.length =
        r.pendingEmits.length + 1 := by
      rw [h]
      simp
    rw [owed, owed, hemits]
    omega

end ActiveRequest

namespace SimEngine

def owed (e : SimEngine env) : ℕ := e.activeRequests.weight (fun _ r => r.owed)

theorem owed_insert {id : String} {r r' : ActiveRequest env} (e' : SimEngine env)
    (hget : e.activeRequests.get? id = some r)
    (hactive : e'.activeRequests = e.activeRequests.insert id r') (hle : r'.owed ≤ r.owed) :
    e'.owed ≤ e.owed := by
  have hweight := SortedMap.weight_insert_of_some (v := r') (fun _ r => r.owed) hget
  rw [owed, owed, hactive]
  omega

theorem generateFor_owed {id : String} {r r₀ : ActiveRequest env}
    (hget : e.activeRequests.get? id = some r₀) (hle : r.owed ≤ r₀.owed) (stepEnd : Instant)
    (entry : ℕ) (byDecoder : Bool) (n : ℕ) :
    (e.generateFor stepEnd id entry byDecoder n r).owed ≤ e.owed :=
  owed_insert _ hget rfl ((r.generate_owed _ _ _ _ _).trans hle)

theorem completeDecoder_owed (stepEnd : Instant) (e : SimEngine env) (d : DecoderEntry) :
    (completeDecoder stepEnd e d).owed ≤ e.owed := by
  unfold completeDecoder
  split
  · exact le_rfl
  · next r hget => exact generateFor_owed hget le_rfl _ _ _ _

theorem completeChunk_owed (stepEnd : Instant) (numRunning : ℕ) (e : SimEngine env)
    (c : ChunkEntry) : (completeChunk stepEnd numRunning e c).owed ≤ e.owed := by
  unfold completeChunk
  split
  · exact le_rfl
  · next r hget =>
      split
      · exact le_rfl
      · next remaining hphase =>
          have howed : r.owed = remaining + 1 + (r.maxTokens - r.generated) +
              r.pendingEmits.length := by
            rw [ActiveRequest.owed, ActiveRequest.work, hphase]
          dsimp only
          split
          · refine owed_insert _ hget rfl ?_
            have hleft : ({ r with phase := .prefill (remaining - c.take) } :
                ActiveRequest env).owed = remaining - c.take + 1 + (r.maxTokens - r.generated) +
                  r.pendingEmits.length := rfl
            omega
          · have hdecodes : ((e.log (.chunked c.ticket r.ticket c.take)).startDecode numRunning
                r).owed = 0 + (r.maxTokens - r.generated) + r.pendingEmits.length := rfl
            have hnoted : ((e.log (.chunked c.ticket r.ticket c.take)).noteLoad
                ((e.log (.chunked c.ticket r.ticket c.take)).startDecode numRunning
                  r)).activeRequests.get? c.requestId = some r := hget
            exact generateFor_owed hnoted (by omega) _ _ _ _

theorem executeStep_owed (step : EngineStep) (e : SimEngine env) :
    (e.executeStep step).owed ≤ e.owed :=
  executeStep_preserves (I := fun e' => e'.owed ≤ e.owed) le_rfl (fun _ _ h => h)
    (fun e' d _ h => (completeDecoder_owed step.endsAt e' d).trans h)
    (fun n e' c _ h => (completeChunk_owed step.endsAt n e' c).trans h)

theorem composeStep_owed (anchor : Instant) (e : SimEngine env) :
    (e.composeStep anchor).owed = e.owed := by
  have hactive : (e.composeStep anchor).activeRequests = e.drawDecoders.1.activeRequests := rfl
  rw [owed, hactive, drawDecoders, SortedMap.weight_mapValues, owed]
  congr 1
  funext id r
  split
  · unfold drawFor ActiveRequest.drawStep
    split
    · rfl
    · rfl
  · rfl

/-- What the engine still has to do for the requests of its batch. Work counts twice: the tokens
it generates are owed until they are emitted. -/
def outstanding (e : SimEngine env) : ℕ := e.workload + e.owed

theorem ensureStep_outstanding (anchor : Instant) (e : SimEngine env) :
    (e.ensureStep anchor).outstanding = e.outstanding := by
  unfold ensureStep
  split
  · rw [outstanding, composeStep_workload, composeStep_owed, outstanding]
  · rfl

theorem executeStep_outstanding (step : EngineStep) (e : SimEngine env) :
    (e.executeStep step).outstanding ≤ e.outstanding ∧
      (0 < e.opt.outputTokenChunkSize → e.StepWorks step →
        (e.executeStep step).outstanding < e.outstanding) := by
  have howed := executeStep_owed step e
  obtain ⟨hle, hless⟩ := executeStep_workload step e
  refine ⟨Nat.add_le_add hle howed, fun hchunk hworks => ?_⟩
  exact Nat.add_lt_add_of_lt_of_le (hless hchunk hworks) howed

/-! ## Emitting -/

/-- An emission of the batch is due. -/
def EmitsDue (now : Instant) (e : SimEngine env) : Prop :=
  ∃ id r emit rest, e.activeRequests.get? id = some r ∧ r.pendingEmits = emit :: rest ∧
    emit.due ≤ now

theorem flush_outstanding (he : Sound e) (now : Instant) :
    (e.flush now).1.outstanding ≤ e.outstanding ∧
      (e.EmitsDue now → (e.flush now).1.outstanding < e.outstanding) := by
  have hpopped : ∀ r : ActiveRequest env, (r.emitDue e.tokenSource now).1.work = r.work ∧
      (r.emitDue e.tokenSource now).1.pendingEmits =
        r.pendingEmits.dropWhile (fun emit => emit.due ≤ now) := by
    intro r
    rw [ActiveRequest.emitDue, ActiveRequest.emitQueue_request]
    exact ⟨rfl, rfl⟩
  have hactive := flush_active he.active now
  have hwork : (e.flush now).1.workload ≤ e.workload := by
    rw [workload, hactive, SortedMap.weight_mapValues]
    refine (SortedMap.weight_filter_le _ _).trans (le_of_eq ?_)
    exact SortedMap.weight_congr _ (fun _ r _ => (hpopped r).1)
  have hbatch : (e.flush now).1.owed ≤
      e.activeRequests.weight (fun _ r => (r.emitDue e.tokenSource now).1.owed) := by
    rw [owed, hactive, SortedMap.weight_mapValues]
    exact SortedMap.weight_filter_le _ _
  have hless : ∀ r : ActiveRequest env, (r.emitDue e.tokenSource now).1.owed ≤ r.owed := by
    intro r
    have hdropped := (List.dropWhile_sublist (l := r.pendingEmits)
      (fun emit => decide (emit.due ≤ now))).length_le
    rw [ActiveRequest.owed, (hpopped r).1, (hpopped r).2, ActiveRequest.owed]
    omega
  have howed : (e.flush now).1.owed ≤ e.owed := by
    refine hbatch.trans ?_
    exact (SortedMap.Rel.refl (P := fun r r' => r = r') (fun _ => rfl) e.activeRequests).weight_le
      (fun _ r _ heq => heq ▸ hless r)
  refine ⟨Nat.add_le_add hwork howed, ?_⟩
  rintro ⟨id, r, emit, rest, hr, hqueue, hdue⟩
  refine Nat.add_lt_add_of_le_of_lt hwork (hbatch.trans_lt ?_)
  apply SortedMap.weight_lt_weight
  · exact fun _ r _ => hless r
  · refine ⟨id, r, hr, ?_⟩
    have hdropped := (List.dropWhile_sublist (l := rest)
      (fun emit => decide (emit.due ≤ now))).length_le
    rw [ActiveRequest.owed, (hpopped r).1, (hpopped r).2, ActiveRequest.owed, hqueue,
      List.dropWhile_cons, if_pos (decide_eq_true hdue), List.length_cons]
    omega

/-- Without an emission due a flush leaves the batch as it is. -/
theorem flush_still (he : Sound e) (hnone : ¬ e.EmitsDue now) :
    (e.flush now).1.activeRequests = e.activeRequests := by
  have hkept : ∀ id r, e.activeRequests.get? id = some r →
      (r.emitDue e.tokenSource now) = (r, []) := by
    intro id r hr
    unfold ActiveRequest.emitDue
    cases hqueue : r.pendingEmits with
    | nil =>
        unfold ActiveRequest.emitQueue
        rw [← hqueue]
    | cons emit rest =>
        have hlate : ¬ emit.due ≤ now := fun hdue => hnone ⟨id, r, emit, rest, hr, hqueue, hdue⟩
        unfold ActiveRequest.emitQueue
        rw [if_neg hlate, ← hqueue]
  rw [flush_active he.active]
  ext1 id
  rw [SortedMap.get?_mapValues, SortedMap.get?_filter]
  cases hr : e.activeRequests.get? id with
  | none => rfl
  | some r =>
      have hstays : r.finishes e.tokenSource now = false := by
        rw [ActiveRequest.finishes, hkept id r hr]
        rfl
      rw [Option.filter_some, hstays, if_pos (by rfl), Option.map_some, hkept id r hr]

/-! ## What is left to do -/

/-- The step in flight, if any, gets something done. -/
def Working (e : SimEngine env) : Prop := ∀ step, e.currentStep = some step → e.StepWorks step

theorem Working.congr (h : e.Working) (hstep : e'.currentStep = e.currentStep)
    (hactive : e'.activeRequests = e.activeRequests) : e'.Working := by
  intro step hsome
  have hworks := h step (hstep ▸ hsome)
  unfold StepWorks DecoderWorks ChunkWorks at hworks ⊢
  rw [hactive]
  exact hworks

/-- Requests that wait, pulls under way, and what the batch is owed. -/
def burden (e : SimEngine env) : ℕ ×ₗ ℕ ×ₗ ℕ :=
  toLex (e.waiting.length, toLex (e.pullTasks.length, e.outstanding))

theorem burden_eq (hwaiting : e'.waiting = e.waiting) (htasks : e'.pullTasks = e.pullTasks)
    (hout : e'.outstanding = e.outstanding) : e'.burden = e.burden := by
  rw [burden, burden, hwaiting, htasks, hout]

theorem burden_le (hwaiting : e'.waiting = e.waiting) (htasks : e'.pullTasks = e.pullTasks)
    (hout : e'.outstanding ≤ e.outstanding) : e'.burden ≤ e.burden := by
  rw [burden, burden, hwaiting, htasks]
  exact Prod.Lex.toLex_mono ⟨le_rfl, Prod.Lex.toLex_mono ⟨le_rfl, hout⟩⟩

theorem burden_lt (hwaiting : e'.waiting = e.waiting) (htasks : e'.pullTasks = e.pullTasks)
    (hout : e'.outstanding < e.outstanding) : e'.burden < e.burden := by
  rw [burden, burden, Prod.Lex.toLex_lt_toLex, Prod.Lex.toLex_lt_toLex]
  exact Or.inr ⟨congrArg List.length hwaiting, Or.inr ⟨congrArg List.length htasks, hout⟩⟩

theorem burden_lt_of_waiting (h : e'.waiting.length < e.waiting.length) : e'.burden < e.burden := by
  rw [burden, burden, Prod.Lex.toLex_lt_toLex]
  exact Or.inl h

/-- Scheduling admits nothing, or shortens the queue. -/
theorem schedule_burden (now : Instant) (e : SimEngine env) :
    (e.schedule now).1 = e ∨ (e.schedule now).1.burden < e.burden :=
  (e.schedule_shortens now).imp_right burden_lt_of_waiting

theorem ensureStep_burden (anchor : Instant) (e : SimEngine env) :
    (e.ensureStep anchor).burden = e.burden := by
  have hkept : (e.ensureStep anchor).waiting = e.waiting ∧
      (e.ensureStep anchor).pullTasks = e.pullTasks := by
    unfold ensureStep
    split
    · exact ⟨rfl, rfl⟩
    · exact ⟨rfl, rfl⟩
  exact burden_eq hkept.1 hkept.2 (ensureStep_outstanding anchor e)

theorem ensureStep_working {anchor : Instant} (hfiled : e.ActiveFiled) (h : e.Working) :
    (e.ensureStep anchor).Working := by
  unfold ensureStep
  split
  · next hidle =>
      exact fun step hstep =>
        composeStep_works hfiled (Option.isNone_iff_eq_none.mp hidle) hstep
  · exact h

/-! ## Catching up -/

theorem executeStep_burden (step : EngineStep) (e : SimEngine env) :
    (e.executeStep step).burden ≤ e.burden ∧
      (0 < e.opt.outputTokenChunkSize → e.StepWorks step →
        (e.executeStep step).burden < e.burden) := by
  have hprogress := executeStep_progress step e
  obtain ⟨hle, hless⟩ := executeStep_outstanding step e
  exact ⟨burden_le hprogress.waiting hprogress.pullTasks hle, fun hchunk hworks =>
    burden_lt hprogress.waiting hprogress.pullTasks (hless hchunk hworks)⟩

theorem completeStep_burden (now : Instant) (step : EngineStep) (e : SimEngine env) :
    (e.completeStep now step).1.burden ≤ e.burden ∧
      (0 < e.opt.outputTokenChunkSize → e.StepWorks step →
        (e.completeStep now step).1.burden < e.burden) := by
  have hscheduled : ((e.executeStep step).schedule now).1.burden ≤ (e.executeStep step).burden := by
    rcases (e.executeStep step).schedule_burden now with hsame | hless
    · rw [hsame]
    · exact hless.le
  obtain ⟨hle, hless⟩ := e.executeStep_burden step
  rw [completeStep_eq, ensureStep_burden]
  exact ⟨hscheduled.trans hle, fun hchunk hworks => hscheduled.trans_lt (hless hchunk hworks)⟩

/-- Catching up lowers the burden if the first step works; afterwards the step in flight does. -/
theorem catchUp_burden {fuel : ℕ} {res : SimEngine env × List EngineOutput}
    (hfiled : Filed e) (hchunk : 0 < e.opt.outputTokenChunkSize)
    (h : catchUp now fuel e = some res) :
    res.1.burden ≤ e.burden ∧ (e.Working → res.1.Working) ∧
      ∀ step, e.dueStep now = some step →
        res.1.Working ∧ (e.StepWorks step → res.1.burden < e.burden) := by
  induction fuel generalizing e res with
  | zero => cases h
  | succ fuel ih =>
      cases hdue : e.dueStep now with
      | none =>
          rw [catchUp_none hdue] at h
          cases h
          refine ⟨le_rfl, id, ?_⟩
          intro step hsome
          cases hsome
      | some step =>
          rw [catchUp_some hdue] at h
          obtain ⟨rest, hrest, rfl⟩ := Option.map_eq_some_iff.mp h
          have hsettling : Settling (e.takeStep.completeStep now step).1 :=
            completeStep_settling now hfiled hchunk
          have htaken : e.takeStep.burden = e.burden := rfl
          obtain ⟨hround, hless⟩ := e.takeStep.completeStep_burden now step
          obtain ⟨hle, hworking, _⟩ := ih hsettling.filed hsettling.chunk hrest
          rw [htaken] at hround hless
          refine ⟨hle.trans hround, fun _ => hworking hsettling.works, ?_⟩
          intro step' hsome
          cases hsome
          exact ⟨hworking hsettling.works, fun hworks => hle.trans_lt (hless hchunk hworks)⟩

/-! ## One step of its own -/

theorem mem_emitDeadlines {due : Instant} (h : due ∈ e.activeRequests.values.filterMap
    (fun r => r.pendingEmits.head?.map PendingEmit.due)) (hdue : due ≤ now) : e.EmitsDue now := by
  obtain ⟨r, hr, hhead⟩ := List.mem_filterMap.mp h
  obtain ⟨id, hget⟩ := SortedMap.mem_values.mp hr
  obtain ⟨emit, hemit, rfl⟩ := Option.map_eq_some_iff.mp hhead
  obtain ⟨rest, hqueue⟩ := List.head?_eq_some_iff.mp hemit
  exact ⟨id, r, emit, rest, hget, hqueue, hdue⟩

/-- At the deadline the step in flight ends, or a chunk is to be emitted. -/
theorem earliestDeadline_due {due : Instant} (h : e.earliestDeadline = some due)
    (hdue : due ≤ now) : (∃ step, e.dueStep now = some step) ∨ e.EmitsDue now := by
  have hstep : ∀ step, e.currentStep = some step → step.endsAt ≤ now →
      e.dueStep now = some step := by
    intro step hstep hends
    rw [dueStep, hstep, Option.filter_some, if_pos (decide_eq_true hends)]
  unfold earliestDeadline at h
  dsimp only at h
  split at h
  · next stepEnd emit hend hemit =>
      cases h
      rcases min_le_iff.mp hdue with hfirst | hfirst
      · obtain ⟨step, hcurrent, rfl⟩ := Option.map_eq_some_iff.mp hend
        exact Or.inl ⟨step, hstep step hcurrent hfirst⟩
      · exact Or.inr (mem_emitDeadlines (List.min?_mem hemit) hfirst)
  · rcases Option.or_eq_some_iff.mp h with hend | ⟨_, hemit⟩
    · obtain ⟨step, hcurrent, rfl⟩ := Option.map_eq_some_iff.mp hend
      exact Or.inl ⟨step, hstep step hcurrent hdue⟩
    · exact Or.inr (mem_emitDeadlines (List.min?_mem hemit) hdue)

/-- Without a deadline the clock idles and nothing is queued. -/
theorem earliestDeadline_none (h : e.earliestDeadline = none) :
    e.currentStep = none ∧
      ∀ id r, e.activeRequests.get? id = some r → r.pendingEmits = [] := by
  unfold earliestDeadline at h
  dsimp only at h
  split at h
  · cases h
  · obtain ⟨hend, hemit⟩ := Option.or_eq_none_iff.mp h
    refine ⟨Option.map_eq_none_iff.mp hend, fun id r hr => ?_⟩
    rw [List.min?_eq_none_iff, List.filterMap_eq_nil_iff] at hemit
    have hhead := hemit r (SortedMap.mem_values.mpr ⟨id, hr⟩)
    exact List.head?_eq_none_iff.mp (Option.map_eq_none_iff.mp hhead)

open Classical in
/-- The burden, and whether the step in flight is in the way of work. -/
noncomputable def remaining (e : SimEngine env) : (ℕ ×ₗ ℕ ×ₗ ℕ) ×ₗ ℕ :=
  toLex (e.burden, if e.Working then 0 else 1)

theorem remaining_lt_of_burden (h : e'.burden < e.burden) : e'.remaining < e.remaining := by
  rw [remaining, remaining, Prod.Lex.toLex_lt_toLex]
  exact Or.inl h

theorem remaining_lt_of_working (hle : e'.burden ≤ e.burden) (hstuck : ¬ e.Working)
    (hworks : e'.Working) : e'.remaining < e.remaining := by
  rcases hle.lt_or_eq with hless | hsame
  · exact remaining_lt_of_burden hless
  · rw [remaining, remaining, Prod.Lex.toLex_lt_toLex, if_pos hworks, if_neg hstuck]
    exact Or.inr ⟨hsame, Nat.one_pos⟩

theorem emitAndRefill_stages (now : Instant) (caughtUp : List EngineOutput) (e : SimEngine env) :
    (e.emitAndRefill now caughtUp).1 =
      (((e.flush now).1.schedule now).1.ensureStep now).schedulerStats.1 := rfl

theorem schedulerStats_burden (e : SimEngine env) : e.schedulerStats.1.burden = e.burden := rfl

/-- Emitting, refilling and arming do not add to the burden; an emission that is due lowers it, and
if nothing lowers it a step in flight that works still does. -/
theorem emitAndRefill_burden (he : Sound e) (now : Instant) (caughtUp : List EngineOutput) :
    (e.emitAndRefill now caughtUp).1.burden ≤ e.burden ∧
      (e.EmitsDue now → (e.emitAndRefill now caughtUp).1.burden < e.burden) ∧
      (e.Working → (e.emitAndRefill now caughtUp).1.Working ∨
        (e.emitAndRefill now caughtUp).1.burden < e.burden) := by
  have hflushed := e.flush_flushed now
  have hfiled : (e.flush now).1.ActiveFiled := (he.toFiled.flush now).active
  have hstill : ¬ e.EmitsDue now → e.Working → (e.flush now).1.Working := fun hnone hworks =>
    hworks.congr hflushed.currentStep (flush_still he hnone)
  obtain ⟨hout, hless⟩ := flush_outstanding he now
  have hflush : (e.flush now).1.burden ≤ e.burden :=
    burden_le hflushed.waiting hflushed.pullTasks hout
  have hemits : e.EmitsDue now → (e.flush now).1.burden < e.burden := fun hdue =>
    burden_lt hflushed.waiting hflushed.pullTasks (hless hdue)
  rw [emitAndRefill_stages, schedulerStats_burden, ensureStep_burden]
  generalize (e.flush now).1 = flushed at hfiled hstill hflush hemits
  have hcases := flushed.schedule_burden now
  generalize (flushed.schedule now).1 = scheduled at hcases
  rcases hcases with rfl | hshort
  · refine ⟨hflush, hemits, fun hworks => ?_⟩
    by_cases hdue : e.EmitsDue now
    · exact Or.inr (hemits hdue)
    · exact Or.inl ((ensureStep_working hfiled (hstill hdue hworks)).congr rfl rfl)
  · have hlower := hshort.trans_le hflush
    exact ⟨hlower.le, fun _ => hlower, fun _ => Or.inr hlower⟩

theorem step_remaining {fuel : ℕ} {outs : List EngineOutput} {due : Instant} (he : Sound e)
    (hchunk : 0 < e.opt.outputTokenChunkSize) (hdeadline : e.earliestDeadline = some due)
    (hdue : due ≤ now) (h : e.step fuel now = some (e', outs)) : e'.remaining < e.remaining := by
  obtain ⟨⟨e₁, caughtUp⟩, hcatch, heq⟩ := Option.map_eq_some_iff.mp h
  have hspec : Move now e (.outputs []) e.clearSpec := Move.specCleared e
  have hcleared : Sound e.clearSpec := hspec.sound he
  have hemits : Emits Op.step.Allows now e.clearSpec (coreOf caughtUp) e₁ :=
    catchUp_emits (fun _ => rfl) hcatch
  have hsound : Sound e₁ := hemits.invariant hcleared (fun _ _ _ _ hi hmove => hmove.sound hi)
  obtain ⟨hcaught, _, hfirst⟩ := catchUp_burden hcleared.toFiled hchunk hcatch
  have hburden : e.clearSpec.burden = e.burden := rfl
  rw [hburden] at hcaught
  obtain ⟨hle, hless, hworking⟩ := emitAndRefill_burden hsound now caughtUp
  have hres : e' = (e₁.emitAndRefill now caughtUp).1 := (congrArg Prod.fst heq).symm
  rw [← hres] at hle hless hworking
  cases hstep : e.dueStep now with
  | some step =>
      obtain ⟨hworks, hlower⟩ := hfirst step hstep
      by_cases hthis : e.StepWorks step
      · exact remaining_lt_of_burden (hle.trans_lt (hlower hthis))
      · rcases hworking hworks with hfinal | hshort
        · apply remaining_lt_of_working (hle.trans hcaught) ?_ hfinal
          intro hall
          exact hthis (hall step (dueStep_some hstep).1)
        · exact remaining_lt_of_burden (hshort.trans_le hcaught)
  | none =>
      have hemit : e.EmitsDue now := by
        rcases earliestDeadline_due hdeadline hdue with ⟨step, hsome⟩ | hemit
        · rw [hstep] at hsome
          cases hsome
        · exact hemit
      have hsame : e₁ = e.clearSpec := by
        cases fuel with
        | zero => cases hcatch
        | succ fuel =>
            have hnone : e.clearSpec.dueStep now = none := hstep
            rw [catchUp_none hnone] at hcatch
            cases hcatch
            rfl
      have hemits₁ : e₁.EmitsDue now := by
        rw [hsame]
        exact hemit
      exact remaining_lt_of_burden ((hless hemits₁).trans_le hcaught)

theorem promote_kept (now : Instant) (task : PullTask) (pending : PendingPull)
    (e : SimEngine env) : (e.promote now task pending).1.waiting = e.waiting ∧
      (e.promote now task pending).1.pullTasks = e.pullTasks := by
  unfold promote
  rcases admitDirect_cases now task.requestId pending.clientIndex pending.queued pending.blockIds
    pending.numLocalCachedTokens { e with
      pendingPulls := e.pendingPulls.erase task.requestId } with ⟨active, _, hadmits⟩ |
    ⟨reason, hadmits⟩
  · rw [hadmits]
    exact ⟨rfl, rfl⟩
  · rw [hadmits]
    exact ⟨rfl, rfl⟩

theorem finishPull_remaining (now : Instant) {task : PullTask} (htask : task ∈ e.pullTasks) :
    ((e.receivePull task).finishPull now task).1.remaining < e.remaining := by
  have hfewer : ∀ {e' : SimEngine env}, e'.waiting = e.waiting →
      e'.pullTasks = e.pullTasks.erase task → e'.burden < e.burden := by
    intro e' hwaiting htasks
    rw [burden, burden, Prod.Lex.toLex_lt_toLex, Prod.Lex.toLex_lt_toLex]
    refine Or.inr ⟨congrArg List.length hwaiting, Or.inl ?_⟩
    have hpos := List.length_pos_of_mem htask
    rw [htasks, List.length_erase_of_mem htask]
    dsimp only
    omega
  apply remaining_lt_of_burden
  unfold finishPull
  split
  · exact hfewer rfl rfl
  · next pending hpending =>
      obtain ⟨hwaiting, htasks⟩ := (e.receivePull task).promote_kept now task pending
      have hpromoted := hfewer hwaiting htasks
      have hend : ∀ e₁ : SimEngine env, (e₁.refill now).1.burden ≤ e₁.burden := by
        intro e₁
        have hrefill : (e₁.refill now).1 = (e₁.schedule now).1.ensureStep now := rfl
        rw [hrefill, ensureStep_burden]
        rcases e₁.schedule_burden now with hsame | hshort
        · rw [hsame]
        · exact hshort.le
      exact (hend _).trans_lt hpromoted

/-! ## At rest -/

/-- An engine with no deadline and no pull under way holds nothing, unless a request was capped at
zero tokens. -/
theorem idle_live (he : Sound e) (htasked : Tasked e) (h : e.Attended)
    (hdeadline : e.earliestDeadline = none) (htasks : e.pullTasks = [])
    (hcaps : ∀ id r, e.activeRequests.get? id = some r → 0 < r.maxTokens) : e.live = [] := by
  obtain ⟨hidle, hqueues⟩ := earliestDeadline_none hdeadline
  have hactive : ∀ id, e.activeRequests.get? id = none := by
    intro id
    by_contra hsome
    obtain ⟨r, hr⟩ := Option.ne_none_iff_exists'.mp hsome
    have hok := he.ok id r hr
    have hproduced := hok.produced
    have hgenerated : ¬ r.generated < r.maxTokens := by
      have hdone := (h.armed hidle id r hr).2
      simpa [ActiveRequest.isGenerating] using hdone
    have hcap := hcaps id r hr
    rw [ActiveRequest.pendingTokens, hqueues id r hr] at hproduced
    rcases hok.unfinished with hless | hzero
    · simp only [List.flatMap_nil, List.length_nil] at hproduced
      omega
    · omega
  have hpending : ∀ id, e.pendingPulls.get? id = none := by
    intro id
    by_contra hsome
    obtain ⟨p, hp⟩ := Option.ne_none_iff_exists'.mp hsome
    have htask := htasked.pending id p hp
    rw [htasks] at htask
    cases htask
  have hbatch : e.activeRequests = SortedMap.empty := by
    ext1 id
    rw [hactive]
    rfl
  have hpulls : e.pendingPulls = SortedMap.empty := by
    ext1 id
    rw [hpending]
    rfl
  have hroom : e.HasRoom := by
    have hcapacity : 0 < e.runningCapacity := lt_of_lt_of_le Nat.one_pos (le_max_right _ _)
    have hbudget := e.opt.stepBudget_pos
    rw [HasRoom, numGenerating, stepTokenBacklog, hbatch, hpulls]
    exact ⟨hcapacity, hbudget⟩
  have hwaiting : e.waiting = [] := by
    have hnone := Scheduler.nextAdmissible_eq_none.mp (h.filled hroom)
    apply List.eq_nil_iff_forall_not_mem.mpr
    intro q hq
    have hrefused := hnone q hq
    have hadmits := e.loras.admits_nil q.request.requestLoraName
    have hadapters : e.runningAdapters = [] := by
      rw [runningAdapters, hbatch, hpulls]
      rfl
    rw [loraAdmits, hadapters, hadmits] at hrefused
    cases hrefused
  rw [live, hbatch, hpulls, hwaiting]
  rfl

end SimEngine

/-! ## Runs -/

/-- The engine acts on its own: a step once its deadline has come, or a completed pull. -/
def Turn.Internal (t : Turn env) : Prop :=
  match t.op with
  | .step => t.before.earliestDeadline.any (fun due => due ≤ t.now) = true
  | .pullCompletion _ => True
  | _ => False

/-- A turn of an engine that is left to itself. -/
def ActsAlone (s u : SimEngine env × Instant) : Prop := ∃ t : Turn env, t.Internal ∧ t.Takes s u

theorem Turn.Internal.taken {t : Turn env} (h : t.Internal) : t.op.taken = none := by
  unfold Turn.Internal at h
  split at h
  · next hop => rw [hop]; rfl
  · next hop => rw [hop]; rfl
  · cases h

theorem ActsAlone.remaining {s u : SimEngine env × Instant} (he : Sound s.1)
    (hchunk : 0 < s.1.opt.outputTokenChunkSize) (h : ActsAlone s u) :
    u.1.remaining < s.1.remaining := by
  obtain ⟨t, hinternal, hbefore, hafter, _, _, fuel, hperform⟩ := h
  unfold Turn.Internal at hinternal
  rw [← hbefore, ← hafter]
  rw [← hbefore] at he hchunk
  split at hinternal
  · next hop =>
      rw [hop] at hperform
      obtain ⟨due, hdeadline, hdue⟩ := (Option.any_eq_true _ _).mp hinternal
      exact SimEngine.step_remaining he hchunk hdeadline (of_decide_eq_true hdue) hperform
  · next task hop =>
      rw [hop, SimEngine.perform] at hperform
      split at hperform
      · next htask =>
          have hres : ((t.before.receivePull task).finishPull t.now task) =
              (t.after, t.outputs) := Option.some.inj hperform
          have hless := SimEngine.finishPull_remaining t.now htask
          rw [hres] at hless
          exact hless
      · cases hperform
  · cases hinternal

/-- What keeps an engine able to come to rest. -/
structure Tended (e : SimEngine env) : Prop where
  sound : Sound e
  tasked : Tasked e
  attended : e.Attended
  chunk : 0 < e.opt.outputTokenChunkSize

theorem perform_tended {fuel : ℕ} {op : Op} {outs : List EngineOutput}
    (h : e.perform fuel now op = some (e', outs)) (ht : Tended e) : Tended e' := by
  obtain ⟨os, hemits, _⟩ := perform_emits h
  have hkept := hemits.invariant (I := fun e => (Sound e ∧ Tasked e) ∧
      0 < e.opt.outputTokenChunkSize) ⟨⟨ht.sound, ht.tasked⟩, ht.chunk⟩ (by
    rintro e effect e' _ ⟨⟨hsound, htasked⟩, hchunk⟩ hmove
    refine ⟨⟨hmove.sound hsound, hmove.tasked hsound htasked⟩, ?_⟩
    rcases hmove.settings.1 with hsame | ⟨patch, _, hopt⟩
    · rw [hsame]
      exact hchunk
    · rw [hopt]
      exact hchunk)
  exact ⟨hkept.1.1, hkept.1.2, perform_attended h ht.sound ht.attended, hkept.2⟩

theorem Run.tended {e₀ : SimEngine env} {turns : List (Turn env)} {clock : Instant}
    (hrun : Run e₀ turns e clock) (hfresh : Fresh e₀) (hchunk : 0 < e₀.opt.outputTokenChunkSize) :
    Tended e :=
  hrun.turnwise (P := fun _ e _ => Tended e)
    ⟨hfresh.sound, hfresh.tasked, hfresh.attended, hchunk⟩
    (fun _ _ _ _ ht _ hperform => perform_tended hperform ht)

/-- An engine at rest has no deadline and no pull under way. -/
theorem Tended.rest {clock : Instant} (ht : Tended e) (h : AtRest ActsAlone (e, clock)) :
    e.earliestDeadline = none ∧ e.pullTasks = [] := by
  constructor
  · by_contra hsome
    obtain ⟨due, hdue⟩ := Option.ne_none_iff_exists'.mp hsome
    have hcleared : Filed e.clearSpec := ht.sound.toFiled.congr rfl rfl
    obtain ⟨fuel, res, hcatch, _⟩ := SimEngine.catchesUp hcleared ht.chunk (max clock due)
    have hstep : e.step fuel (max clock due) =
        some (res.1.emitAndRefill (max clock due) res.2) := by
      rw [SimEngine.step, hcatch]
      rfl
    apply h ((res.1.emitAndRefill (max clock due) res.2).1, max clock due)
    refine ⟨⟨.step, max clock due, e, _, _⟩, ?_, rfl, rfl, le_max_left _ _, rfl, fuel, hstep⟩
    rw [Turn.Internal, hdue]
    exact decide_eq_true (le_max_right clock due)
  · by_contra hsome
    obtain ⟨task, htask⟩ := List.exists_mem_of_ne_nil _ hsome
    apply h (((e.receivePull task).finishPull clock task).1, clock)
    exact ⟨⟨.pullCompletion task, clock, e, ((e.receivePull task).finishPull clock task).2, _⟩,
      trivial, rfl, rfl, le_rfl, rfl, 0, if_pos htask⟩

/-- An engine left to itself cannot go on forever, whatever the order of its steps and pulls; and
once it is at rest without a request capped at zero tokens, no request is live and every request
taken has been answered. -/
theorem Run.comes_to_rest {e₀ : SimEngine env} {turns : List (Turn env)} {clock : Instant}
    (hfresh : Fresh e₀) (hchunk : 0 < e₀.opt.outputTokenChunkSize)
    (hrun : Run e₀ turns e clock) :
    (∀ run : ℕ → SimEngine env × Instant, run 0 = (e, clock) →
      ∃ n, ¬ ActsAlone (run n) (run (n + 1))) ∧
    ∀ more e' clock', Run e₀ (turns ++ more) e' clock' → (∀ t ∈ more, t.Internal) →
      AtRest ActsAlone (e', clock') →
      (∀ id r, e'.activeRequests.get? id = some r → 0 < r.maxTokens) →
      e'.live = [] ∧ (takenBy turns).Perm (closedFor ((turns ++ more).flatMap Turn.outputs)) := by
  constructor
  · intro run hstart
    have hexhausts : Exhausts ActsAlone (e, clock) := by
      apply Exhausts.of_measure (I := fun s => Tended s.1) (fun s => s.1.remaining)
      · rintro s u ht hacts
        obtain ⟨t, _, hbefore, hafter, _, _, fuel, hperform⟩ := id hacts
        refine ⟨?_, hacts.remaining ht.sound ht.chunk⟩
        rw [hbefore, hafter] at hperform
        exact perform_tended hperform ht
      · exact hrun.tended hfresh hchunk
    exact hexhausts.no_infinite_run run hstart
  · intro more e' clock' hrun' hinternal hrest hcaps
    have ht := hrun'.tended hfresh hchunk
    obtain ⟨hdeadline, htasks⟩ := ht.rest hrest
    have hlive := SimEngine.idle_live ht.sound ht.tasked ht.attended hdeadline htasks hcaps
    refine ⟨hlive, ?_⟩
    have hperm := (hrun'.accounted hfresh).closed
    have htaken : takenBy (turns ++ more) = takenBy turns := by
      have hnone : more.filterMap (fun t => t.op.taken) = [] :=
        List.filterMap_eq_nil_iff.mpr (fun t ht => (hinternal t ht).taken)
      rw [takenBy, List.filterMap_append, hnone, List.append_nil, takenBy]
    rw [htaken, SimEngine.liveFor, hlive, List.map_nil, List.append_nil] at hperm
    exact hperm

theorem atRest_of_idle {clock : Instant} (hdeadline : e.earliestDeadline = none)
    (htasks : e.pullTasks = []) : AtRest ActsAlone (e, clock) := by
  rintro u ⟨t, hinternal, hbefore, _, _, _, fuel, hperform⟩
  dsimp only at hbefore
  unfold Turn.Internal at hinternal
  split at hinternal
  · rw [hbefore, hdeadline] at hinternal
    cases hinternal
  · next task hop =>
      rw [hop, hbefore] at hperform
      simp only [SimEngine.perform, htasks] at hperform
      split at hperform
      · next htask => cases htask
      · cases hperform
  · cases hinternal

instance : DecidablePred (@Turn.Internal env) := fun t =>
  match t with
  | ⟨.step, _, _, _, _⟩ => inferInstanceAs (Decidable (_ = true))
  | ⟨.pullCompletion _, _, _, _, _⟩ => .isTrue trivial
  | ⟨.input _, _, _, _, _⟩ | ⟨.rejectRequest _, _, _, _, _⟩ | ⟨.abortAllRequests, _, _, _, _⟩ =>
      .isFalse id

/-- A remote request is parked behind its pull, and another prefills; then the engine is left to
itself. -/
def unattendedScript : List (Instant × Op) :=
  [(0, .input (.request (demoRemoteRequest "a"))), (0, .input (.request (demoRequest "b" 1))),
    (0, .step), (1, .pullCompletion ⟨"a", 0⟩), (12, .step)]

theorem unattended_drains : ∃ (turns more : List (Turn demoEnv)) (e e' : SimEngine demoEnv)
    (clock clock' : Instant), Run (demo demoOpt none demoOpt_starts) turns e clock ∧
      Run (demo demoOpt none demoOpt_starts) (turns ++ more) e' clock' ∧
      takenBy turns = [(0, "a"), (0, "b")] ∧ (∀ t ∈ more, t.Internal) ∧
      e'.live = [] ∧ (takenBy turns).Perm (closedFor ((turns ++ more).flatMap Turn.outputs)) := by
  have hplays : ((demo demoOpt none demoOpt_starts).play 20 unattendedScript).any (fun played =>
      decide (takenBy (played.1.take 2) = [(0, "a"), (0, "b")]) &&
        decide (∀ t ∈ played.1.drop 2, t.Internal) && played.2.earliestDeadline.isNone &&
        played.2.pullTasks.isEmpty && played.2.activeRequests.isEmpty) = true := by decide +kernel
  obtain ⟨turns, e', clock', hrun, _, hp⟩ := Run.of_script
    (p := fun (turns : List (Turn demoEnv)) e =>
      decide (takenBy (turns.take 2) = [(0, "a"), (0, "b")]) &&
        decide (∀ t ∈ turns.drop 2, t.Internal) && e.earliestDeadline.isNone &&
        e.pullTasks.isEmpty && e.activeRequests.isEmpty) hplays (by decide +kernel)
  simp only [Bool.and_eq_true, decide_eq_true_eq, Option.isNone_iff_eq_none,
    List.isEmpty_iff] at hp
  obtain ⟨⟨⟨⟨htaken, hinternal⟩, hdeadline⟩, htasks⟩, hactive⟩ := hp
  rw [← List.take_append_drop 2 turns] at hrun
  obtain ⟨⟨e, clock⟩, hfirst, _⟩ := Path.split hrun
  have hcaps : ∀ id r, e'.activeRequests.get? id = some r → 0 < r.maxTokens := by
    intro id r hr
    have hmem := SortedMap.mem_entries.mpr hr
    rw [List.isEmpty_iff.mp hactive] at hmem
    cases hmem
  exact ⟨turns.take 2, turns.drop 2, e, e', clock, clock', hfirst, hrun, htaken, hinternal,
    (Run.comes_to_rest (demo_fresh demoOpt none demoOpt_starts) (by decide +kernel) hfirst).2 _ _ _ hrun
      hinternal (atRest_of_idle hdeadline htasks) hcaps⟩

/-! ## The draining loop -/

/-- A round in which nothing arrives and the drain does not time out. -/
def LoopTurn.Unprompted (t : LoopTurn env) : Prop :=
  match t.branch with
  | .complete => True
  | .internal _ => True
  | .step => True
  | _ => False

/-- A round of a loop that is left to itself. -/
def RunsAlone (shutdownTimeout : Duration) (s u : EngineLoop env × Instant) : Prop :=
  ∃ t : LoopTurn env, t.Unprompted ∧ t.Takes shutdownTimeout s u

/-- The loop completes its drain, or its engine acts. -/
theorem RunsAlone.cases {shutdownTimeout : Duration} {s u : EngineLoop env × Instant}
    (h : RunsAlone shutdownTimeout s u) : s.1.exit = none ∧
      u.1.drainDeadline = s.1.drainDeadline ∧
      (u.1.exit = some .drained ∧ u.1.engine = s.1.engine ∨
        u.1.exit = none ∧ ActsAlone (s.1.engine, s.2) (u.1.engine, u.2)) := by
  obtain ⟨l, clock⟩ := s
  obtain ⟨l', clock'⟩ := u
  obtain ⟨⟨branch, now, before, outputs, after⟩, halone, hbefore, hafter, hclock, hnow, hrunning,
    hready, fuel, hround⟩ := h
  dsimp only at hbefore hafter hclock hnow hrunning hready hround
  subst hbefore hafter hnow
  refine ⟨hrunning, ?_⟩
  cases branch with
  | complete =>
      cases hround
      exact ⟨rfl, Or.inl ⟨rfl, rfl⟩⟩
  | internal task =>
      cases hround
      have htask := of_decide_eq_true (Bool.and_eq_true_iff.mp hready).2
      refine ⟨rfl, Or.inr ⟨hrunning, ?_⟩⟩
      exact ⟨⟨.pullCompletion task, now, before.engine,
        ((before.engine.receivePull task).finishPull now task).2, _⟩, trivial, rfl, rfl, hclock,
        rfl, 0, if_pos htask⟩
  | step =>
      obtain ⟨result, hresult, heq⟩ := Option.map_eq_some_iff.mp hround
      cases heq
      refine ⟨rfl, Or.inr ⟨hrunning, ?_⟩⟩
      exact ⟨⟨.step, now, before.engine, result.2, result.1⟩, (Bool.and_eq_true_iff.mp hready).2, rfl,
        rfl, hclock, rfl, fuel, hresult⟩
  | _ => cases halone

theorem ActsAlone.tended {s u : SimEngine env × Instant} (h : ActsAlone s u) (ht : Tended s.1) :
    Tended u.1 := by
  obtain ⟨t, _, hbefore, hafter, _, _, fuel, hperform⟩ := h
  rw [hbefore, hafter] at hperform
  exact perform_tended hperform ht

theorem RunsAlone.tended {shutdownTimeout : Duration} {s u : EngineLoop env × Instant}
    (h : RunsAlone shutdownTimeout s u) (ht : Tended s.1.engine) : Tended u.1.engine := by
  obtain ⟨_, _, ⟨_, hsame⟩ | ⟨_, hacts⟩⟩ := h.cases
  · rw [hsame]
    exact ht
  · exact hacts.tended ht

theorem RunsAlone.reaches {shutdownTimeout : Duration} {s u : EngineLoop env × Instant}
    (h : Relation.ReflTransGen (RunsAlone shutdownTimeout) s u) (ht : Tended s.1.engine)
    (hdraining : s.1.draining = true) (hrunning : s.1.exit = none) :
    Tended u.1.engine ∧ u.1.draining = true ∧ (u.1.exit = none ∨ u.1.exit = some .drained) := by
  induction h with
  | refl => exact ⟨ht, hdraining, Or.inl hrunning⟩
  | tail _ halone ih =>
      obtain ⟨htended, hdrains, _⟩ := ih
      obtain ⟨_, hdeadline, hcases⟩ := halone.cases
      refine ⟨halone.tended htended, ?_, ?_⟩
      · rw [EngineLoop.draining, hdeadline]
        exact hdrains
      · rcases hcases with ⟨hexit, _⟩ | ⟨hexit, _⟩
        · exact Or.inr hexit
        · exact Or.inl hexit

/-- A draining loop that can do nothing by itself has completed its drain. -/
theorem drained_of_rest {shutdownTimeout : Duration} {l : EngineLoop env} {clock : Instant}
    (ht : Tended l.engine) (hdraining : l.draining = true)
    (hexit : l.exit = none ∨ l.exit = some .drained)
    (hrest : AtRest (RunsAlone shutdownTimeout) (l, clock))
    (hcaps : ∀ id r, l.engine.activeRequests.get? id = some r → 0 < r.maxTokens) :
    l.exit = some .drained := by
  rcases hexit with hrunning | hdrained
  · exfalso
    have hbusy : l.isComplete = false := by
      by_contra hcomplete
      apply hrest ({ l with exit := some .drained }, clock)
      refine ⟨⟨.complete, clock, l, [], { l with exit := some .drained }⟩, trivial, rfl, rfl,
        le_rfl, rfl, hrunning, Bool.eq_true_of_not_eq_false hcomplete, 0, rfl⟩
    have hengine : AtRest ActsAlone (l.engine, clock) := by
      rintro ⟨e', clock'⟩ ⟨⟨op, now, before, outputs, after⟩, hinternal, hbefore, hafter, hclock,
        hnow, fuel, hperform⟩
      dsimp only at hbefore hafter hclock hnow hperform
      subst hbefore hafter hnow
      unfold Turn.Internal at hinternal
      split at hinternal
      · next hop =>
          dsimp only at hop hinternal
          subst hop
          have hstep : l.engine.step fuel now = some (after, outputs) := hperform
          apply hrest ({ l with engine := after }, now)
          refine ⟨⟨.step, now, l, outputs, { l with engine := after }⟩, trivial, rfl, rfl, hclock,
            rfl, hrunning, ?_, fuel, ?_⟩
          · rw [EngineLoop.ready, hbusy, hinternal]
            rfl
          · rw [EngineLoop.round, hstep]
            rfl
      · next task hop =>
          dsimp only at hop
          subst hop
          simp only [SimEngine.perform] at hperform
          split at hperform
          · next htask =>
              have hres := Option.some.inj hperform
              apply hrest ({ l with engine := after }, now)
              refine ⟨⟨.internal task, now, l, outputs, { l with engine := after }⟩, trivial, rfl,
                rfl, hclock, rfl, hrunning, ?_, 0, ?_⟩
              · rw [EngineLoop.ready, hbusy, decide_eq_true htask]
                rfl
              · rw [EngineLoop.round, EngineLoop.goOn, hres]
          · cases hperform
      · cases hinternal
    obtain ⟨hdeadline, htasks⟩ := ht.rest hengine
    have hlive := SimEngine.idle_live ht.sound ht.tasked ht.attended hdeadline htasks hcaps
    have hnone : l.engine.numUnfinishedRequests = 0 := by
      rw [← SimEngine.length_live, hlive]
      rfl
    rw [EngineLoop.isComplete, hdraining, hnone] at hbusy
    cases hbusy
  · exact hdrained

/-- A draining loop to which nothing more arrives cannot go on forever; and where it stops before
its deadline, without a request capped at zero tokens, its drain is complete. -/
theorem LoopRun.completes_drain {shutdownTimeout : Duration} {e₀ : SimEngine env}
    {turns : List (LoopTurn env)} {l : EngineLoop env} {clock : Instant} (hfresh : Fresh e₀)
    (hchunk : 0 < e₀.opt.outputTokenChunkSize)
    (hrun : LoopRun shutdownTimeout e₀ turns l clock) (hdraining : l.draining = true)
    (hrunning : l.exit = none) :
    (∀ run : ℕ → EngineLoop env × Instant, run 0 = (l, clock) →
      ∃ n, ¬ RunsAlone shutdownTimeout (run n) (run (n + 1))) ∧
    ∀ l' clock', Relation.ReflTransGen (RunsAlone shutdownTimeout) (l, clock) (l', clock') →
      AtRest (RunsAlone shutdownTimeout) (l', clock') →
      (∀ id r, l'.engine.activeRequests.get? id = some r → 0 < r.maxTokens) →
      l'.exit = some .drained := by
  obtain ⟨⟨last, _, hengine⟩, _⟩ := hrun.engine_run
  have ht : Tended l.engine := hengine.tended hfresh hchunk
  constructor
  · intro run hstart
    have hexhausts : Exhausts (RunsAlone shutdownTimeout) (l, clock) := by
      apply Exhausts.of_measure (I := fun s => Tended s.1.engine)
        (fun s => toLex (s.1.engine.remaining, if s.1.exit = none then 1 else 0))
      · intro s u hs halone
        refine ⟨halone.tended hs, ?_⟩
        obtain ⟨hopen, _, ⟨hexit, hsame⟩ | ⟨_, hacts⟩⟩ := halone.cases
        · rw [Prod.Lex.toLex_lt_toLex, hsame, hexit, hopen]
          exact Or.inr ⟨rfl, Nat.one_pos⟩
        · rw [Prod.Lex.toLex_lt_toLex]
          exact Or.inl (hacts.remaining hs.sound hs.chunk)
      · exact ht
    exact hexhausts.no_infinite_run run hstart
  · intro l' clock' hreach hrest hcaps
    have hkept := RunsAlone.reaches hreach ht hdraining hrunning
    exact drained_of_rest hkept.1 hkept.2.1 hkept.2.2 hrest hcaps

/-- The drain begins with one request prefilling. -/
def busyDrainScript : List (Instant × Branch) :=
  [(0, .input (some (.request (demoRequest "a" 1)))), (1, .shutdown)]

theorem busyDrain_completes : ∃ (l : EngineLoop demoEnv) (clock : Instant),
    l.engine.liveIds = ["a"] ∧
    (∀ run : ℕ → EngineLoop demoEnv × Instant, run 0 = (l, clock) →
      ∃ n, ¬ RunsAlone 10 (run n) (run (n + 1))) ∧
    ∀ l' clock', Relation.ReflTransGen (RunsAlone 10) (l, clock) (l', clock') →
      AtRest (RunsAlone 10) (l', clock') →
      (∀ id r, l'.engine.activeRequests.get? id = some r → 0 < r.maxTokens) →
      l'.exit = some .drained := by
  have hplays : ((EngineLoop.start (demo demoOpt none demoOpt_starts)).play 20 10
      busyDrainScript).any (fun played => played.2.draining && played.2.exit.isNone &&
        decide (played.2.engine.liveIds = ["a"])) = true := by decide +kernel
  obtain ⟨turns, l, clock, hrun, hp⟩ := LoopRun.of_script (p := fun _ l =>
    l.draining && l.exit.isNone && decide (l.engine.liveIds = ["a"])) hplays (by decide +kernel)
  simp only [Bool.and_eq_true, Option.isNone_iff_eq_none, decide_eq_true_eq] at hp
  obtain ⟨⟨hdraining, hrunning⟩, hlive⟩ := hp
  exact ⟨l, clock, hlive, LoopRun.completes_drain (demo_fresh demoOpt none demoOpt_starts)
    (by decide +kernel) hrun hdraining hrunning⟩

end VllmVcr
