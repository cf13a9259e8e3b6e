import VllmVcr.Engine.Sound

/-!
# Rules of the step clock

An admission is one move that leaves the in-flight step alone. What executing a due step,
admitting and recomposing preserve, `step()` preserves while it catches up.
-/

namespace VllmVcr

variable {env : Env} {now : Instant}

namespace SimEngine

theorem admitRequest_move (now : Instant) {e : SimEngine env} {i : ℕ} {queued : QueuedRequest}
    (hadm : e.Admissible i queued) :
    (∃ os, Move now e (.outputs os) ((e.removeWaiting i).admitRequest now queued).1) ∧
      ((e.removeWaiting i).admitRequest now queued).1.currentStep = e.currentStep := by
  rw [admitRequest_eq]
  split
  · next remote hremote => exact ⟨⟨_, Move.parked e hadm (hremote ▸ rfl)⟩, rfl⟩
  · rcases admitDirect_cases now queued.request.requestId queued.request.clientIndex queued
      (e.dequeue i queued).2.blockIds (e.dequeue i queued).2.numCachedTokens
      (e.dequeue i queued).1 with ⟨active, hbuild, hadmits⟩ | ⟨reason, hadmits⟩
    · refine Eq.subst (motive := fun e' => (∃ os, Move now e (.outputs os) e') ∧
        e'.currentStep = e.currentStep) (congrArg Prod.fst hadmits).symm ?_
      exact ⟨⟨_, Move.admitted e hadm hbuild⟩, by simp⟩
    · refine Eq.subst (motive := fun e' => (∃ os, Move now e (.outputs os) e') ∧
        e'.currentStep = e.currentStep) (congrArg Prod.fst hadmits).symm ?_
      exact ⟨⟨_, Move.refused e hadm reason⟩, by simp⟩

/-- What every admission preserves, `schedule` preserves. -/
theorem schedule_preserves {I : SimEngine env → Prop} {e : SimEngine env} (he : I e)
    (hmove : ∀ e os e', Move now e (.outputs os) e' → e'.currentStep = e.currentStep → I e → I e') :
    I (e.schedule now).1 := by
  have hloop : ∀ rounds e, I e → I (scheduleLoop now rounds e).1 := by
    intro rounds
    induction rounds with
    | zero => exact fun e he => he
    | succ rounds ih =>
        intro e he
        unfold scheduleLoop
        split
        · next hroom =>
            split
            · exact he
            · next i queued hnext =>
                obtain ⟨⟨os, hadm⟩, hstep⟩ :=
                  admitRequest_move now (nextAdmissible_admissible hroom hnext)
                exact ih _ (hmove e os _ hadm hstep he)
        · exact he
  exact hloop _ e he

theorem executeStep_currentStep (step : EngineStep) (e : SimEngine env) :
    (e.executeStep step).currentStep = e.currentStep := by
  apply executeStep_preserves (I := fun e' => e'.currentStep = e.currentStep) rfl
  · exact fun _ _ h => h
  · intro e' d _ h
    unfold completeDecoder
    split
    · exact h
    · exact h
  · intro numRunning e' c _ h
    unfold completeChunk
    split
    · exact h
    · split
      · exact h
      · simp only
        split
        · exact h
        · exact h

/-- What logging, draining a prefill and generating preserve, executing a step preserves. -/
theorem executeStep_rule {I : SimEngine env → Prop} {step : EngineStep} {e : SimEngine env}
    (hlog : I (e.log (.completed step)))
    (hspec : ∀ e spec, I e → I { e with pendingSpec := spec })
    (hchunked : ∀ e entry ticket take, I e → I (e.log (.chunked entry ticket take)))
    (hdrain : ∀ e id r m n, e.activeRequests.get? id = some r → r.phase = .prefill m → 0 < n →
      I e → I { e with activeRequests := e.activeRequests.insert id { r with phase := .prefill n } })
    (hload : ∀ e r, I e → I (e.noteLoad r))
    (hgenerate : ∀ e id r r₁ entry byDecoder n, e.activeRequests.get? id = some r →
      (r₁ = r ∨ r.phase ≠ .decode ∧ ∃ numRunning, r₁ = e.startDecode numRunning r) → I e →
      I (e.generateFor step.endsAt id entry byDecoder n r₁)) :
    I (e.executeStep step) := by
  apply executeStep_preserves hlog hspec
  · intro e d _ he
    unfold completeDecoder
    split
    · exact he
    · next r hr => exact hgenerate e _ r r _ _ _ hr (Or.inl rfl) he
  · intro numRunning e c _ he
    unfold completeChunk
    split
    · exact he
    · next r hr =>
        split
        · exact he
        · next remaining hphase =>
            have hlogged := hchunked e c.ticket r.ticket c.take he
            simp only
            split
            · next hmore => exact hdrain _ _ r remaining _ hr hphase hmore hlogged
            · have hprefills : r.phase ≠ .decode := by simp [hphase]
              exact hgenerate ((e.log (.chunked c.ticket r.ticket c.take)).noteLoad _) _ r _ _ _ _
                hr (Or.inr ⟨hprefills, numRunning, rfl⟩) (hload _ _ hlogged)

theorem ensureStep_of_idle {anchor : Instant} {e : SimEngine env} (h : e.currentStep = none) :
    e.ensureStep anchor = e.composeStep anchor := by
  simp [ensureStep, h]

/-- `I` holds between engine steps, `M` from the execution of a step to the next composition. -/
theorem catchUp_preserves {I : SimEngine env → Prop} {M : EngineStep → SimEngine env → Prop}
    {fuel : ℕ} {e : SimEngine env} {res : SimEngine env × List EngineOutput}
    (h : catchUp now fuel e = some res) (he : I e)
    (hexecute : ∀ e step, Move now e (.completed step) (e.takeStep.executeStep step) →
      e.dueStep now = some step → I e → M step (e.takeStep.executeStep step))
    (hadmits : ∀ step e os e', Move now e (.outputs os) e' → e'.currentStep = none → M step e →
      M step e')
    (hcompose : ∀ step e, Move now e (.outputs []) (e.composeStep step.endsAt) →
      e.currentStep = none → M step e → I (e.composeStep step.endsAt)) :
    I res.1 ∧ res.1.dueStep now = none := by
  induction fuel generalizing e res with
  | zero => cases h
  | succ fuel ih =>
      cases hdue : e.dueStep now with
      | none =>
          rw [catchUp_none hdue] at h
          cases h
          exact ⟨he, hdue⟩
      | some step =>
          rw [catchUp_some hdue] at h
          obtain ⟨rest, hrest, rfl⟩ := Option.map_eq_some_iff.mp h
          obtain ⟨hstep, hend⟩ := dueStep_some hdue
          have hexec := Move.executed e hstep hend
          have hmid : ((e.takeStep.executeStep step).schedule now).1.currentStep = none ∧
              M step ((e.takeStep.executeStep step).schedule now).1 := by
            apply schedule_preserves (I := fun e => e.currentStep = none ∧ M step e)
            · exact ⟨executeStep_currentStep step _, hexecute e step hexec hdue he⟩
            · intro e os e' hmove hkept he
              have hidle : e'.currentStep = none := hkept.trans he.1
              exact ⟨hidle, hadmits step e os e' hmove hidle he.2⟩
          have hlast : ((e.takeStep.executeStep step).schedule now).1.lastCompleted = some step :=
            (scheduleLoop_lastCompleted now _ _).trans (executeStep_lastCompleted step _)
          have hcomposed : Move now _ _
              (((e.takeStep.executeStep step).schedule now).1.composeStep step.endsAt) :=
            Move.composed _ step.endsAt hmid.1 (Or.inr ⟨step, hlast, rfl⟩)
          have hnext : (e.takeStep.completeStep now step).1 =
              ((e.takeStep.executeStep step).schedule now).1.composeStep step.endsAt :=
            ensureStep_of_idle hmid.1
          have hrec := ih hrest (hnext ▸ hcompose step _ hcomposed hmid.1 hmid.2)
          exact hrec

/-- The rest of `step()` is a path of moves that completes no step. -/
theorem emitAndRefill_emits {e e' : SimEngine env} {caughtUp outs : List EngineOutput}
    (h : e.emitAndRefill now caughtUp = (e', outs)) :
    ∃ os, Emits (fun effect => ∃ s, effect = .drained s) now e os e' := by
  cases h
  have hflush : Emits (fun effect => ∃ s, effect = .drained s) now e
      ((e.dueEmits now).map DueEmit.output) (e.flush now).1 := Emits.move (Move.flushed e)
  exact ⟨_, (hflush.trans (schedule_emits now _)).trans ((ensureStep_emits (Or.inl rfl)).trans
    (drained_emits now _ (fun s => ⟨s, rfl⟩)))⟩

end SimEngine
end VllmVcr
