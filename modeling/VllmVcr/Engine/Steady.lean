import VllmVcr.Engine.Delivery

/-!
# What only arrivals and the step clock change

The count of the requests received and the speculative accounting stay as they are while
requests are admitted, promoted, aborted and flushed, and while the engine is configured.
-/

namespace VllmVcr

variable {env : Env} {now : Instant}

/-- The request that an operation takes from the frontend, whether it is accepted or not. -/
def Op.taken : Op → Option EngineCoreRequest
  | .input (.request request) => some request
  | .rejectRequest request => some request
  | _ => none

/-- The parts of an engine that admission, aborts, emission and configuration leave alone. -/
@[ext] structure Steady where
  received : ℕ
  specTokens : Option ℕ
  pendingSpec : Option SpecDecodingStats

namespace SimEngine

variable {e e' : SimEngine env}

@[simps] def steady (e : SimEngine env) : Steady where
  received := e.stats.requestsReceived
  specTokens := e.specTokens
  pendingSpec := e.pendingSpec

theorem admitDirect_steady (requestId : String) (clientIndex : ℕ) (queued : QueuedRequest)
    (blockIds : List ℕ) (numLocalCached : ℕ) (e : SimEngine env) :
    (e.admitDirect now requestId clientIndex queued blockIds numLocalCached).1.steady =
      e.steady := by
  rcases admitDirect_cases now requestId clientIndex queued blockIds numLocalCached e
    with ⟨active, _, hadmits⟩ | ⟨reason, hadmits⟩
  · rw [hadmits]
    rfl
  · rw [hadmits]
    rfl

theorem admitRequest_steady (queued : QueuedRequest) (e : SimEngine env) :
    (e.admitRequest now queued).1.steady = e.steady := by
  rw [admitRequest_eq]
  split
  · rfl
  · exact admitDirect_steady _ _ _ _ _ _

theorem scheduleLoop_steady (now : Instant) (rounds : ℕ) (e : SimEngine env) :
    (scheduleLoop now rounds e).1.steady = e.steady := by
  induction rounds generalizing e with
  | zero => rfl
  | succ rounds ih =>
      unfold scheduleLoop
      split
      · split
        · rfl
        · exact (ih _).trans (admitRequest_steady _ _)
      · rfl

theorem schedule_steady (now : Instant) (e : SimEngine env) :
    (e.schedule now).1.steady = e.steady := scheduleLoop_steady now _ e

theorem ensureStep_steady (anchor : Instant) (e : SimEngine env) :
    (e.ensureStep anchor).steady = e.steady := by
  unfold ensureStep
  split <;> rfl

theorem schedulerStats_steady (e : SimEngine env) : e.schedulerStats.1.steady = e.steady := rfl

theorem refill_steady (now : Instant) (e : SimEngine env) :
    (e.refill now).1.steady = e.steady :=
  (ensureStep_steady now _).trans (schedule_steady now e)

theorem retire_steady (id : String) (e : SimEngine env) : (e.retire id).steady = e.steady := by
  unfold retire
  split <;> rfl

theorem flush_steady (now : Instant) (e : SimEngine env) : (e.flush now).1.steady = e.steady :=
  flush_preserves (I := fun e' => e'.steady = e.steady) rfl
    (fun e' id h => (retire_steady id e').trans h)

theorem abortOne_steady (acc : SimEngine env × ByClient) (id : String) :
    (abortOne acc id).1.steady = acc.1.steady := by
  unfold abortOne
  split
  · next e₁ hwithdraw => rw [withdraw_none hwithdraw]
  · next e₁ client ticket hwithdraw =>
      rcases withdraw_some hwithdraw with ⟨r, _, _, _, rfl⟩ | ⟨p, _, _, _, rfl⟩ |
        ⟨i, q, _, _, _, _, rfl⟩
      · exact retire_steady id acc.1
      · rfl
      · rfl

theorem aborted_steady (ids : List String) (acc : SimEngine env × ByClient) :
    (ids.foldl abortOne acc).1.steady = acc.1.steady := by
  induction ids generalizing acc with
  | nil => rfl
  | cons id ids ih => exact (ih (abortOne acc id)).trans (abortOne_steady acc id)

theorem abortRequests_steady (now : Instant) (ids : List String) (e : SimEngine env) :
    (e.abortRequests now ids).1.steady = e.steady := by
  have hresult : (e.abortRequests now ids).1 =
      (((ids.foldl abortOne (e, SortedMap.empty)).1.schedule now).1.schedulerStats.1).ensureStep
        now := rfl
  rw [hresult, ensureStep_steady, schedulerStats_steady, schedule_steady]
  exact aborted_steady ids _

theorem finishPull_steady (task : PullTask) (e : SimEngine env) :
    (e.finishPull now task).1.steady = e.steady := by
  unfold finishPull
  split
  · rfl
  · next pending _ =>
      have hadmit := @admitDirect_steady _ now task.requestId pending.clientIndex
        pending.queued pending.blockIds pending.numLocalCachedTokens
        { e with pendingPulls := e.pendingPulls.erase task.requestId }
      refine (refill_steady now _).trans ?_
      unfold promote
      split
      · next e₁ heq =>
          rw [heq] at hadmit
          exact hadmit
      · next e₁ output heq =>
          rw [heq] at hadmit
          exact hadmit

theorem runUtility_steady {request : UtilityRequestSpec} {result : UtilityResult}
    (h : e.runUtility request = .ok (e', result)) : e'.steady = e.steady := by
  rcases runUtility_cases h with rfl | ⟨loaded, rfl⟩ | rfl
  · unfold resetPrefixCache
    split <;> rfl
  · rfl
  · rfl

theorem applyPatch_steady {patch : ConfigPatch} {outs : List EngineOutput}
    (h : e.applyPatch now patch = .ok (e', outs)) : e'.steady = e.steady := by
  obtain ⟨latency, _, heq⟩ := applyPatch_ok h
  have hrefill := refill_steady now { e with opt := patch.apply e.opt, latency := latency }
  rw [← heq] at hrefill
  exact hrefill

/-- An operation that takes no request keeps them, a clock call and a reset apart. -/
theorem perform_steady {fuel : ℕ} {op : Op} {outs : List EngineOutput}
    (h : e.perform fuel now op = some (e', outs)) (htaken : op.taken = none) (hstep : op ≠ .step)
    (hreset : op ≠ .input (.control .resetStats)) : e'.steady = e.steady := by
  cases op with
  | input input =>
      cases input with
      | request request => cases htaken
      | abort ids =>
          cases h
          exact abortRequests_steady now ids e
      | utility request =>
          obtain ⟨res, hrun, heq⟩ := except_map_eq_ok (except_toOption_eq_some h)
          cases heq
          exact runUtility_steady hrun
      | startDpWave =>
          cases h
          rfl
      | control request =>
          cases request with
          | patchConfig patch =>
              simp only [perform, handleInput, handleControl] at h
              split at h
              · next e₁ outs₁ hp =>
                  cases h
                  exact applyPatch_steady hp
              · cases h
                rfl
          | getConfig | getStats =>
              cases h
              rfl
          | resetStats => exact absurd rfl hreset
  | pullCompletion task =>
      simp only [perform] at h
      split at h
      · have hres : (e.receivePull task).finishPull now task = (e', outs) := Option.some.inj h
        have hsame := @finishPull_steady _ now task (e.receivePull task)
        rw [hres] at hsame
        exact hsame
      · cases h
  | step => exact absurd rfl hstep
  | rejectRequest request => cases htaken
  | abortAllRequests =>
      cases h
      exact abortRequests_steady now _ e

end SimEngine
end VllmVcr
