import VllmVcr.Engine.Steady

/-!
# Requests taken and requests answered

An operation that takes no request only ends live ones; one that takes a request either refuses
it at once or adds it to the live requests. So of each id, as many requests were taken as were
answered by a finishing output or are live.
-/

namespace VllmVcr

variable {env : Env} {now : Instant}

/-- The ids of the requests taken in a run. -/
def takenIds (turns : List (Turn env)) : List String :=
  (turns.filterMap (fun t => t.op.taken)).map EngineCoreRequest.requestId

namespace SimEngine

variable {e e' : SimEngine env}

/-! ## Operations that take no request -/

/-- The requests that came in, as the engine counts them. -/
def received (e : SimEngine env) : ℕ := e.stats.requestsReceived

theorem received_congr (h : e'.stats = e.stats) : e'.received = e.received :=
  congrArg Stats.requestsReceived h

theorem received_of_steady (h : e'.steady = e.steady) : e'.received = e.received :=
  congrArg Steady.received h

theorem refill_received (now : Instant) (e : SimEngine env) :
    (e.refill now).1.received = e.received := received_of_steady (refill_steady now e)

theorem catchUp_received {fuel : ℕ} {outs : List EngineOutput}
    (h : catchUp now fuel e = some (e', outs)) : e'.received = e.received := by
  induction fuel generalizing e outs with
  | zero => cases h
  | succ fuel ih =>
      cases hdue : e.dueStep now with
      | none =>
          rw [catchUp_none hdue] at h
          cases h
          rfl
      | some step =>
          rw [catchUp_some hdue] at h
          obtain ⟨⟨e'', more⟩, hrest, heq⟩ := Option.map_eq_some_iff.mp h
          cases heq
          have hexecute : (e.takeStep.executeStep step).received = e.received :=
            received_congr (e.takeStep.executeStep_progress step).stats
          have hcomplete : (e.takeStep.completeStep now step).1.received =
              (e.takeStep.executeStep step).received :=
            received_of_steady ((ensureStep_steady _ _).trans (schedule_steady now _))
          exact (ih hrest).trans (hcomplete.trans hexecute)

theorem step_received {fuel : ℕ} {outs : List EngineOutput}
    (h : e.step fuel now = some (e', outs)) : e'.received = e.received := by
  obtain ⟨e₁, caughtUp, engineIndex, stats, hcatch, rfl, _⟩ := step_parts h
  have hrest : ((((e₁.flush now).1.schedule now).1.ensureStep now).schedulerStats.1).steady =
      e₁.steady := by
    rw [schedulerStats_steady, ensureStep_steady, schedule_steady, flush_steady]
  have hcaught : e₁.received = e.clearSpec.received := catchUp_received hcatch
  exact (received_of_steady hrest).trans hcaught

/-- An operation that takes no request counts none. -/
theorem perform_received {fuel : ℕ} {op : Op} {outs : List EngineOutput}
    (h : e.perform fuel now op = some (e', outs)) (htaken : op.taken = none)
    (hreset : op ≠ .input (.control .resetStats)) : e'.received = e.received := by
  by_cases hstep : op = .step
  · subst hstep
    exact step_received h
  · exact received_of_steady (perform_steady h htaken hstep hreset)

end SimEngine

/-! ## The ids of a turn -/

theorem closed_bare (os : List EngineCoreOutput) : closed (os.map EngineCoreOutput.bare) = closed os := by
  simp only [closed, List.filter_map, List.map_map]
  rfl

theorem closed_perm {os os' : List EngineCoreOutput}
    (h : (os.map EngineCoreOutput.bare).Perm (os'.map EngineCoreOutput.bare)) :
    (closed os).Perm (closed os') := by
  rw [← closed_bare os, ← closed_bare os']
  exact (h.filter _).map _

def SimEngine.liveIds (e : SimEngine env) : List String := e.live.map Prod.fst

def closedIds (os : List EngineCoreOutput) : List String := (closed os).map Prod.fst

theorem closedIds_append (os os' : List EngineCoreOutput) :
    closedIds (os ++ os') = closedIds os ++ closedIds os' := by
  rw [closedIds, closed_append, List.map_append, closedIds, closedIds]

/-- What a move without an arrival keeps, a path on which no request comes in keeps. -/
theorem Emits.without_arrivals {P : Effect → Prop} {e e' : SimEngine env}
    {os : List EngineCoreOutput} {Q : List EngineCoreOutput → SimEngine env → Prop}
    (h : Emits P now e os e') (hP : ¬ P .statsReset) (he : Sound e)
    (hreceived : e'.received = e.received) (hinit : Q [] e)
    (hmove : ∀ os u effect v, Sound u → Q os u → Move now u effect v → effect ≠ .statsReset →
      v.received = u.received → Q (os ++ effect.toOutputs) v) : Q os e' := by
  obtain ⟨effects, hpath, hallow, rfl⟩ := h
  have hresets : ∀ effect ∈ effects, effect ≠ .statsReset := by
    rintro effect heffect rfl
    rcases hallow _ heffect with ⟨os, hos⟩ | hallowed
    · cases hos
    · exact hP hallowed
  have hrun : (∀ effect ∈ effects, effect ≠ .statsReset) → Sound e' ∧ e.received ≤ e'.received ∧
      (e'.received = e.received → Q (effects.flatMap Effect.toOutputs) e') := by
    apply hpath.history (P := fun effects u => (∀ effect ∈ effects, effect ≠ .statsReset) →
      Sound u ∧ e.received ≤ u.received ∧
        (u.received = e.received → Q (effects.flatMap Effect.toOutputs) u))
    · exact fun _ => ⟨he, le_rfl, fun _ => hinit⟩
    · intro effects u effect v ih hone hresets
      obtain ⟨hu, hle, hq⟩ := ih (fun f hf => hresets f (List.mem_append_left _ hf))
      have hreset := hresets effect (List.mem_append_right _ (List.mem_singleton_self effect))
      have hgrows : u.received ≤ v.received := by
        cases hone.liveChange hreset hu with
        | closes _ _ _ _ hkept => exact hkept.ge
        | refuses _ _ _ _ hnext => exact (Nat.le_succ _).trans hnext.ge
        | enqueues _ _ _ _ _ hnext => exact (Nat.le_succ _).trans hnext.ge
      refine ⟨hone.sound hu, hle.trans hgrows, fun heq => ?_⟩
      rw [List.flatMap_append, List.flatMap_singleton]
      exact hmove _ u effect v hu (hq (by omega)) hone hreset (by omega)
  exact (hrun hresets).2.2 hreceived

/-- A move on which no request comes in closes the requests that leave. -/
theorem Move.closes {e e' : SimEngine env} {effect : Effect} (h : Move now e effect e')
    (he : Sound e) (hreset : effect ≠ .statsReset) (hreceived : e'.received = e.received) :
    ∃ gone, e.live.Perm (gone ++ e'.live) ∧
      closed effect.toOutputs = gone.map (fun x => (x.1, some x.2)) := by
  cases h.liveChange hreset he with
  | closes gone hlive hclosed => exact ⟨gone, hlive, hclosed⟩
  | refuses id _ _ _ hone =>
      have hnext : e'.received = e.received + 1 := hone
      omega
  | enqueues id _ _ _ _ hone =>
      have hnext : e'.received = e.received + 1 := hone
      omega

theorem Emits.closes {P : Effect → Prop} {e e' : SimEngine env} {os : List EngineCoreOutput}
    (h : Emits P now e os e') (hP : ¬ P .statsReset) (he : Sound e)
    (hreceived : e'.received = e.received) :
    e.liveIds.Perm (closedIds os ++ e'.liveIds) := by
  apply h.without_arrivals (Q := fun os u => e.liveIds.Perm (closedIds os ++ u.liveIds)) hP he
    hreceived (List.Perm.refl _)
  intro os u effect v hu hperm hmove hreset hkept
  obtain ⟨gone, hlive, hclosed⟩ := hmove.closes hu hreset hkept
  have hgone : closedIds effect.toOutputs = gone.map Prod.fst := by
    rw [closedIds, hclosed, List.map_map]
    rfl
  rw [closedIds_append, hgone, List.append_assoc]
  refine hperm.trans (List.Perm.append_left _ ?_)
  rw [SimEngine.liveIds, SimEngine.liveIds, ← List.map_append]
  exact hlive.map _

namespace SimEngine

variable {e e' : SimEngine env}

theorem maybeFail_frame (request : EngineCoreRequest) (e : SimEngine env) :
    ∃ rng reason, e.maybeFail request = (e.withFailureRng rng, reason) := by
  unfold maybeFail
  simp only
  split
  · exact ⟨e.failureRng, _, rfl⟩
  · split
    · split <;> exact ⟨_, _, rfl⟩
    · exact ⟨e.failureRng, _, rfl⟩

/-- A request is refused at once, or becomes live before anything else happens. -/
theorem handleRequest_cases (request : EngineCoreRequest) (e : SimEngine env) :
    (∃ e₁ reason, e₁.live = e.live ∧ e₁.nextTicket = e.nextTicket ∧ e.handleRequest now request =
      (e₁, [⟨request.clientIndex,
        emptyFinishOutputs e.engineIndex now none request.requestId reason⟩])) ∨
    ∃ rng, e.isKnown request.requestId = false ∧ e.handleRequest now request =
      ((e.countReceived.withFailureRng rng).enqueue now request).refill now := by
  obtain ⟨rng, reason, hmaybe⟩ := maybeFail_frame request e.countReceived
  unfold handleRequest
  simp only [hmaybe]
  split
  · exact Or.inl ⟨e.countReceived.countFailed, .error, rfl, rfl, rfl⟩
  · next hknown =>
      cases reason with
      | some reason =>
          exact Or.inl ⟨(e.countReceived.withFailureRng rng).countFailed, reason, rfl, rfl, rfl⟩
      | none => exact Or.inr ⟨rng, Bool.eq_false_iff.mpr hknown, rfl⟩

theorem live_enqueue (request : EngineCoreRequest) (e : SimEngine env) :
    (e.enqueue now request).live = e.live ++ [(request.requestId, e.nextTicket)] := by
  simp only [live, enqueue, List.map_append, List.map_cons, List.map_nil, List.append_assoc]

/-- The ids live before an operation and the one it takes are those it closes and those live
after it. -/
theorem perform_ids {fuel : ℕ} {op : Op} {outs : List EngineOutput} (he : Sound e)
    (h : e.perform fuel now op = some (e', outs)) :
    (e.liveIds ++ (op.taken.map EngineCoreRequest.requestId).toList).Perm
      (closedIds (coreOf outs) ++ e'.liveIds) := by
  by_cases hreset : op = .input (.control .resetStats)
  · subst hreset
    cases h
    rw [show Op.taken (.input (.control .resetStats)) = none from rfl, Option.map_none,
      Option.toList_none, List.append_nil]
    exact List.Perm.refl _
  cases htaken : op.taken with
  | none =>
      obtain ⟨os, hemits, hperm⟩ := perform_emits h
      rw [Option.map_none, Option.toList_none, List.append_nil]
      apply (hemits.closes (fun hallow => hreset hallow) he
        (perform_received h htaken hreset)).trans
      exact ((closed_perm hperm).map Prod.fst).symm.append_right _
  | some request =>
      rw [Option.map_some, Option.toList_some]
      cases op with
      | input input =>
          cases input with
          | request request' =>
              cases htaken
              have hres : e.handleRequest now request = (e', outs) := Option.some.inj h
              rcases @handleRequest_cases _ now request e with
                ⟨e₁, reason, hlive, _, heq⟩ | ⟨rng, hknown, heq⟩
              · rw [heq] at hres
                cases hres
                rw [liveIds, liveIds, hlive]
                exact List.perm_append_comm
              · rw [heq] at hres
                have hmove : Move now e _ _ := Move.enqueued e rng request hknown
                have hclosed := (refill_emits (P := fun _ => False) now
                  ((e.countReceived.withFailureRng rng).enqueue now request)).closes
                    (fun hfalse => hfalse) (hmove.sound he) (refill_received now _)
                rw [hres, liveIds, live_enqueue, List.map_append] at hclosed
                exact hclosed
          | _ => cases htaken
      | rejectRequest request' =>
          cases htaken
          cases h
          exact List.perm_append_comm
      | _ => cases htaken

end SimEngine

/-- Of each id, as many requests were taken as were answered by a finishing output or are live. -/
theorem Run.ids_answered {e₀ e : SimEngine env} {turns : List (Turn env)} {clock : Instant}
    (hrun : Run e₀ turns e clock) (hfresh : Fresh e₀) :
    (takenIds turns).Perm (closedIds (coreOutputs turns) ++ e.liveIds) := by
  have hall := hrun.turnwise (P := fun turns e _ =>
    Sound e ∧ (takenIds turns).Perm (closedIds (coreOutputs turns) ++ e.liveIds)) ?_ ?_
  · exact hall.2
  · obtain ⟨engineIndex, opt, tokenSource, stepSource, hnew⟩ := id hfresh
    obtain ⟨latency, _, rfl⟩ := except_map_eq_ok hnew
    exact ⟨hfresh.sound, List.Perm.refl _⟩
  · rintro turns clock fuel t ⟨he, hperm⟩ _ hperform
    obtain ⟨os, hemits, _⟩ := perform_emits hperform
    refine ⟨hemits.invariant he (fun _ _ _ _ hi hmove => hmove.sound hi), ?_⟩
    have htaken : takenIds (turns ++ [t]) =
        takenIds turns ++ (t.op.taken.map EngineCoreRequest.requestId).toList := by
      rw [takenIds, List.filterMap_append, List.map_append, takenIds]
      cases h : t.op.taken <;> simp [h]
    have houtputs : coreOutputs (turns ++ [t]) = coreOutputs turns ++ coreOf t.outputs := by
      simp [coreOutputs, coreOf]
    rw [htaken, houtputs, closedIds_append, List.append_assoc]
    refine (hperm.append_right _).trans ?_
    rw [List.append_assoc]
    exact (SimEngine.perform_ids he hperform).append_left _

end VllmVcr
