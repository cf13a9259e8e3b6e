import VllmVcr.Engine.Sound

/-!
# Accounting of requests

Every received request is completed, failed, aborted, running or waiting, and every
request that reached an end was answered by one finishing output.
-/

namespace VllmVcr

variable {env : Env}

/-- The requests that reached an end. -/
def Stats.settled (s : Stats) : ℕ := s.requestsCompleted + s.requestsFailed + s.requestsAborted

theorem length_closed_bare (os : List EngineCoreOutput) :
    (closed (os.map EngineCoreOutput.bare)).length = (closed os).length := by
  simp only [closed, List.length_map, List.filter_map]
  rfl

/-- A move that shows `n` finishing outputs settles `n` requests. -/
theorem Move.settled {now : Instant} {e e' : SimEngine env} {effect : Effect}
    (h : Move now e effect e') (hreset : effect ≠ .statsReset) (he : Sound e) :
    e'.stats.settled = e.stats.settled + (closed effect.toOutputs).length := by
  have hkept : ∀ {e e' : SimEngine env}, e'.stats = e.stats →
      e'.stats.settled = e.stats.settled + (closed []).length := by
    intro e e' hstats
    rw [hstats]
    rfl
  cases h with
  | arrivalFailed | arrivalRejected | refused | pullRefused =>
      simp [Stats.settled, Effect.toOutputs]
      omega
  | @withdrawn id e₁ client ticket hwithdraw =>
      simp [Stats.settled, Effect.toOutputs, (SimEngine.withdraw_kept hwithdraw).2]
      omega
  | flushed =>
      rw [Effect.toOutputs, SimEngine.closed_flush he.active he.ok, e.flush_stats now]
      simp only [Stats.settled, SimEngine.popEmits_stats_requestsCompleted,
        SimEngine.popEmits_stats_requestsFailed, SimEngine.popEmits_stats_requestsAborted,
        SimEngine.finished_dueEmits he.ok now, SimEngine.flushed, List.length_map, SortedMap.size]
      omega
  | enqueued => rfl
  | parked | admitted | promoted => exact hkept (by simp)
  | composed anchor => exact hkept (e.composeStep_progress anchor).stats
  | @executed step => exact hkept (e.takeStep.executeStep_progress step).stats
  | cacheReset =>
      refine hkept ?_
      unfold SimEngine.resetPrefixCache
      split <;> rfl
  | orphaned | drained | configured | adaptersChanged | specCleared => rfl
  | statsReset => exact absurd rfl hreset

/-- The books of an engine that has shown `n` finishing outputs. -/
structure Balanced (n : ℕ) (e : SimEngine env) : Prop where
  settled : e.stats.settled = n
  received : e.stats.requestsReceived = n + e.live.length

theorem Fresh.balanced {e : SimEngine env} (h : Fresh e) : Balanced 0 e := by
  obtain ⟨engineIndex, opt, tokenSource, stepSource, hnew⟩ := h
  obtain ⟨latency, _, rfl⟩ := except_map_eq_ok hnew
  exact ⟨rfl, rfl⟩

theorem Move.balanced {now : Instant} {e e' : SimEngine env} {effect : Effect} {n : ℕ}
    (h : Move now e effect e') (hreset : effect ≠ .statsReset) (he : Sound e)
    (hn : Balanced n e) : Balanced (n + (closed effect.toOutputs).length) e' := by
  have hsettled := hn.settled
  have hreceived := hn.received
  refine ⟨(h.settled hreset he).trans (by omega), ?_⟩
  cases h.liveChange hreset he with
  | closes gone hlive hclosed _ hkept =>
      have hlen := hlive.length_eq
      rw [List.length_append] at hlen
      rw [hclosed, List.length_map, hkept]
      omega
  | refuses id hlive hclosed _ hone =>
      rw [hclosed, hlive, hone, List.length_singleton]
      omega
  | enqueues id _ hlive hclosed _ hone =>
      have hlen := hlive.length_eq
      rw [List.length_cons] at hlen
      rw [hclosed, hone, hlen, List.length_nil]
      omega

theorem Emits.balanced {op : Op} {now : Instant} {e e' : SimEngine env}
    {os : List EngineCoreOutput} {n : ℕ} (h : Emits op.Allows now e os e')
    (hop : op ≠ .input (.control .resetStats)) (he : Sound e) (hn : Balanced n e) :
    Balanced (n + (closed os).length) e' := by
  obtain ⟨effects, hpath, hallow, rfl⟩ := h.allows
  have hresets : ∀ effect ∈ effects, effect ≠ .statsReset := by
    rintro effect heffect rfl
    exact hop (hallow _ heffect)
  have hrun : (∀ effect ∈ effects, effect ≠ .statsReset) →
      Sound e' ∧ Balanced (n + (closed (effects.flatMap Effect.toOutputs)).length) e' := by
    refine hpath.history (P := fun effects e => (∀ effect ∈ effects, effect ≠ .statsReset) →
      Sound e ∧ Balanced (n + (closed (effects.flatMap Effect.toOutputs)).length) e)
      (fun _ => ⟨he, hn⟩) ?_
    intro effects e effect e' ih hmove hresets
    obtain ⟨he, hn⟩ := ih (fun f hf => hresets f (List.mem_append_left _ hf))
    have hreset := hresets effect (List.mem_append_right _ (List.mem_singleton_self effect))
    refine ⟨hmove.sound he, ?_⟩
    rw [List.flatMap_append, closed_append, List.length_append, ← Nat.add_assoc,
      List.flatMap_singleton]
    exact hmove.balanced hreset he hn
  exact (hrun hresets).2

theorem Run.balanced {e₀ e : SimEngine env} {turns : List (Turn env)} {clock : Instant}
    (hrun : Run e₀ turns e clock) (hfresh : Fresh e₀)
    (hops : ∀ t ∈ turns, t.op ≠ .input (.control .resetStats)) :
    Balanced (closed (coreOutputs turns)).length e := by
  have hall := hrun.history (P := fun turns e _ =>
    (∀ t ∈ turns, t.op ≠ .input (.control .resetStats)) →
      Sound e ∧ Balanced (closed (coreOutputs turns)).length e)
    (fun _ => ⟨hfresh.sound, hfresh.balanced⟩) (by
      intro turns _ t os ih _ hemits hperm hops
      obtain ⟨he, hn⟩ := ih (fun t' ht' => hops t' (List.mem_append_left _ ht'))
      have hop := hops t (List.mem_append_right _ (List.mem_singleton_self t))
      have hsound : Sound t.after := by
        obtain ⟨effects, hpath, _, _⟩ := hemits
        exact hpath.invariant he (fun _ _ _ he h => h.sound he)
      have hlen : (closed (coreOf t.outputs)).length = (closed os).length := by
        rw [← length_closed_bare, ← length_closed_bare os]
        exact ((hperm.filter _).map _).length_eq
      refine ⟨hsound, ?_⟩
      have hturn : coreOutputs (turns ++ [t]) = coreOutputs turns ++ coreOf t.outputs := by
        simp [coreOutputs, coreOf]
      rw [hturn, closed_append, List.length_append, hlen]
      exact hemits.balanced hop he hn)
  exact (hall hops).2

/-- Received requests are completed, failed, aborted, running or waiting, and the outputs
that carry a finish reason are as many as the requests that reached an end. -/
theorem requests_accounted {e₀ e : SimEngine env} {turns : List (Turn env)} {clock : Instant}
    (hfresh : Fresh e₀) (hrun : Run e₀ turns e clock)
    (hops : ∀ t ∈ turns, t.op ≠ .input (.control .resetStats)) :
    e.reportedStats.requestsReceived = e.reportedStats.requestsCompleted +
      e.reportedStats.requestsFailed + e.reportedStats.requestsAborted +
      e.reportedStats.running + e.reportedStats.waiting ∧
    ((coreOutputs turns).filter (fun o => o.finishReason.isSome)).length =
      e.reportedStats.requestsCompleted + e.reportedStats.requestsFailed +
      e.reportedStats.requestsAborted := by
  obtain ⟨hsettled, hreceived⟩ := hrun.balanced hfresh hops
  rw [SimEngine.length_live, SimEngine.numUnfinishedRequests] at hreceived
  rw [Stats.settled] at hsettled
  rw [closed, List.length_map] at hsettled hreceived
  simp only [SimEngine.reportedStats]
  omega

/-- A duplicate, an abort that names an unknown id, an invalid request and a completion. -/
def mixedScript : List (Instant × Op) :=
  [(0, .input (.request (demoRequest "a" 2))), (0, .input (.request (demoRequest "a" 1))),
    (1, .input (.request (demoRequest "b" 0))), (1, .step), (1, .input (.abort ["a", "z"])),
    (2, .input (.request (demoRequest "c" 1))), (3, .step)]

theorem mixedScript_accounted :
    ∃ turns e clock, Run (demo demoOpt none) turns e clock ∧
      e.reportedStats.requestsReceived = 4 ∧
      e.reportedStats.requestsReceived = e.reportedStats.requestsCompleted +
        e.reportedStats.requestsFailed + e.reportedStats.requestsAborted +
        e.reportedStats.running + e.reportedStats.waiting ∧
      ((coreOutputs turns).filter (fun o => o.finishReason.isSome)).length =
        e.reportedStats.requestsCompleted + e.reportedStats.requestsFailed +
        e.reportedStats.requestsAborted := by
  have hplays : ((demo demoOpt none).play 20 mixedScript).any
      (fun played => played.2.stats.requestsReceived = 4) = true := by decide +kernel
  obtain ⟨turns, e, clock, hrun, hops, hreceived⟩ :=
    Run.of_script (p := fun _ e => e.stats.requestsReceived = 4) hplays (by decide +kernel)
  refine ⟨turns, e, clock, hrun, of_decide_eq_true hreceived, ?_⟩
  refine requests_accounted (demo_fresh _ _ _) hrun (fun t ht hop => ?_)
  have hmem : Op.input (.control .resetStats) ∈ mixedScript.map Prod.snd := by
    rw [← hops, ← hop]
    exact List.mem_map_of_mem ht
  simp [mixedScript] at hmem

end VllmVcr
