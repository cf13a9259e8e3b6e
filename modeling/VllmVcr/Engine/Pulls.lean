import VllmVcr.Engine.Sound

/-!
# Pull completions

A completion carries the request id alone. It promotes the request its pull was spawned
for as long as it does not find the id pending again behind a later pull.
-/

namespace VllmVcr

variable {env : Env}

namespace SimEngine

/-- The promotions so far: the ticket promoted and that of the completed pull. -/
def promotions (e : SimEngine env) : List (ℕ × ℕ) :=
  e.journal.filterMap fun
    | .promoted ticket task => some (ticket, task)
    | _ => none

@[simp] theorem promotions_promoted (e : SimEngine env) (ticket task : ℕ) :
    (e.log (.promoted ticket task)).promotions = e.promotions ++ [(ticket, task)] := by
  simp [promotions]

theorem promotions_congr {e e' : SimEngine env} (h : e'.journal = e.journal) :
    e'.promotions = e.promotions := by
  rw [promotions, promotions, h]

theorem dequeue_promotions (i : ℕ) (queued : QueuedRequest) (e : SimEngine env) :
    (e.dequeue i queued).1.promotions = e.promotions := by
  simp [promotions, dequeue, cacheRequest]

theorem activate_promotions (now : Instant) (id : String) (r : ActiveRequest env)
    (e : SimEngine env) : (e.activate now id r).promotions = e.promotions := by
  simp [promotions, activate]

end SimEngine

/-- Only a received completion promotes. -/
theorem Move.promotions {now : Instant} {e e' : SimEngine env} {effect : Effect}
    (h : Move now e effect e') (hreceived : ∀ task os, effect ≠ .received task os) :
    e'.promotions = e.promotions := by
  cases h with
  | promoted | pullRefused | orphaned => exact absurd rfl (hreceived _ _)
  | arrivalFailed | arrivalRejected | enqueued | drained | configured | adaptersChanged
  | specCleared | statsReset => rfl
  | @parked i queued => exact e.dequeue_promotions i queued
  | @admitted i queued hadm active =>
      rw [SimEngine.activate_promotions]
      exact e.dequeue_promotions i queued
  | @refused i queued => exact e.dequeue_promotions i queued
  | @withdrawn id e₁ client ticket hwithdraw =>
      refine SimEngine.promotions_congr ?_
      rw [SimEngine.countAborted_journal]
      rcases SimEngine.withdraw_some hwithdraw with ⟨r, _, _, _, rfl⟩ | ⟨p, _, _, _, rfl⟩ |
        ⟨i, q, _, _, _, _, rfl⟩
      · unfold SimEngine.retire
        split <;> rfl
      · rfl
      · rfl
  | composed => rfl
  | @executed step =>
      exact SimEngine.executeStep_journal _ step e.takeStep rfl (fun _ _ _ => rfl) (fun _ => rfl)
  | flushed => exact SimEngine.promotions_congr (e.flush_flushed now).journal
  | cacheReset =>
      refine SimEngine.promotions_congr ?_
      unfold SimEngine.resetPrefixCache
      split <;> rfl

/-- Every pending request waits for its own pull, and no pull is newer than the live
requests of its id. -/
structure Tasked (e : SimEngine env) : Prop where
  pending : ∀ id p, e.pendingPulls.get? id = some p → ⟨id, p.queued.ticket⟩ ∈ e.pullTasks
  newest : ∀ task ∈ e.pullTasks, ∀ x ∈ e.live, x.1 = task.requestId → task.ticket ≤ x.2
  issued : ∀ task ∈ e.pullTasks, task.ticket < e.nextTicket

theorem Fresh.tasked {e : SimEngine env} (h : Fresh e) : Tasked e := by
  obtain ⟨engineIndex, opt, tokenSource, stepSource, hnew⟩ := h
  obtain ⟨latency, _, rfl⟩ := except_map_eq_ok hnew
  exact ⟨by simp, by simp, by simp⟩

theorem Move.tasked {now : Instant} {e e' : SimEngine env} {effect : Effect}
    (h : Move now e effect e') (he : Sound e) (ht : Tasked e) : Tasked e' := by
  obtain ⟨hnext, hback⟩ := h.live_back he
  have hold : ∀ task ∈ e.pullTasks,
      (∀ x ∈ e'.live, x.1 = task.requestId → task.ticket ≤ x.2) ∧ task.ticket < e'.nextTicket := by
    intro task htask
    have hissued := ht.issued task htask
    refine ⟨fun x hx hid => ?_, hissued.trans_le hnext⟩
    rcases hback x hx with hlive | hnew
    · exact ht.newest task htask x hlive hid
    · omega
  have hkept : (∀ task ∈ e'.pullTasks, task ∈ e.pullTasks) →
      (∀ id p, e'.pendingPulls.get? id = some p → ⟨id, p.queued.ticket⟩ ∈ e'.pullTasks) →
      Tasked e' := fun hsub hpending =>
    ⟨hpending, fun task htask => (hold task (hsub task htask)).1,
      fun task htask => (hold task (hsub task htask)).2⟩
  have hsame : e'.pullTasks = e.pullTasks → e'.pendingPulls = e.pendingPulls → Tasked e' := by
    intro htasks hpending
    rw [htasks, hpending] at hkept
    exact hkept (fun _ => id) ht.pending
  -- Receiving a completion forgets it, with the pending request of its id.
  have hreceive : ∀ task, e'.pullTasks = e.pullTasks.erase task →
      (∀ id p, e'.pendingPulls.get? id = some p →
        id ≠ task.requestId ∧ e.pendingPulls.get? id = some p) → Tasked e' := by
    intro task htasks hpending
    rw [htasks] at hkept
    refine hkept (fun other hother => List.mem_of_mem_erase hother) (fun id p hp => ?_)
    obtain ⟨hne, hget⟩ := hpending id p hp
    refine (List.mem_erase_of_ne ?_).mpr (ht.pending id p hget)
    rintro rfl
    exact hne rfl
  have hunpark : ∀ (id : String) {m : SortedMap String PendingPull} {k : String} {p : PendingPull},
      m.get? k = some p → m = e.pendingPulls.erase id →
        k ≠ id ∧ e.pendingPulls.get? k = some p := by
    rintro id m k p hp rfl
    rw [SortedMap.get?_erase] at hp
    split at hp
    · cases hp
    · next hne => exact ⟨hne, hp⟩
  cases h with
  | arrivalFailed | arrivalRejected | enqueued | admitted | refused | drained | configured
  | adaptersChanged | specCleared | statsReset =>
      exact hsame (by simp [SimEngine.schedulerStats]) (by simp [SimEngine.schedulerStats])
  | @parked i queued hadm hremote =>
      have hmem := SimEngine.mem_live_pending (e := (e.dequeue i queued).1.park queued
        (e.dequeue i queued).2) (k := queued.request.requestId)
        (by rw [SimEngine.park_pendingPulls]; exact SortedMap.get?_insert_self _ _ _)
      have hmove : Move now e (.outputs []) _ := Move.parked e hadm hremote
      have hsound := hmove.sound he
      have htasks : ((e.dequeue i queued).1.park queued (e.dequeue i queued).2).pullTasks =
          e.pullTasks ++ [⟨queued.request.requestId, queued.ticket⟩] := by simp
      refine ⟨fun id p hp => ?_, fun task htask => ?_, fun task htask => ?_⟩
      · rw [htasks]
        rw [SimEngine.park_pendingPulls, SortedMap.get?_insert] at hp
        split at hp
        · next heq =>
            cases hp
            exact List.mem_append_right _ (by simp [heq])
        · exact List.mem_append_left _ (ht.pending id p (by simpa using hp))
      · rw [htasks] at htask
        rcases List.mem_append.mp htask with hprev | hone
        · exact (hold task hprev).1
        · intro x hx hid
          rw [List.mem_singleton.mp hone] at hid ⊢
          have hsameReq : x = (queued.request.requestId, queued.ticket) :=
            List.inj_on_of_nodup_map hsound.ids hx hmem hid
          rw [hsameReq]
      · rw [htasks] at htask
        rcases List.mem_append.mp htask with hprev | hone
        · exact (hold task hprev).2
        · rw [List.mem_singleton.mp hone]
          exact hsound.ticket_lt _ hmem
  | @promoted task htask pending hpending active hbuild =>
      exact hreceive task (by simp) (fun id p hp => hunpark _ hp (by simp))
  | @pullRefused task htask pending hpending reason =>
      exact hreceive task (by simp) (fun id p hp => hunpark _ hp (by simp))
  | @orphaned task htask hpending =>
      refine hreceive task (by simp) (fun id p hp => ⟨?_, by simpa using hp⟩)
      rintro rfl
      rw [SimEngine.receivePull_pendingPulls, hpending] at hp
      cases hp
  | @withdrawn id e₁ client ticket hwithdraw =>
      rcases SimEngine.withdraw_some hwithdraw with ⟨r, _, _, _, rfl⟩ | ⟨p, _, _, _, rfl⟩ |
        ⟨i, q, _, _, _, _, rfl⟩
      · refine hsame ?_ ?_ <;> (unfold SimEngine.retire; split <;> rfl)
      · exact hkept (fun _ => by simp) (fun k p' hp' => by
          simpa using ht.pending k p' (hunpark id hp' (by simp)).2)
      · exact hsame (by simp) (by simp)
  | composed anchor =>
      have hprog := e.composeStep_progress anchor
      exact hsame hprog.pullTasks hprog.pendingPulls
  | @executed step =>
      have hprog := e.takeStep.executeStep_progress step
      exact hsame hprog.pullTasks hprog.pendingPulls
  | flushed =>
      have hflush := e.flush_flushed now
      exact hsame hflush.pullTasks hflush.pendingPulls
  | cacheReset =>
      refine hsame ?_ ?_ <;> (unfold SimEngine.resetPrefixCache; split <;> rfl)

/-- A completion finds its id pending only if no later pull of the id is outstanding. -/
def Op.InPullOrder (op : Op) (e : SimEngine env) : Prop :=
  match op with
  | .pullCompletion task => ∀ later ∈ e.pullTasks, later.requestId = task.requestId →
      task.ticket < later.ticket → (e.pendingPulls.get? task.requestId).isNone
  | _ => True

instance (op : Op) (e : SimEngine env) : Decidable (op.InPullOrder e) :=
  match op with
  | .pullCompletion _ => List.decidableBAll _ _
  | .input _ | .step | .rejectRequest _ | .abortAllRequests => .isTrue trivial

namespace SimEngine

variable {now : Instant} {e : SimEngine env}

theorem refill_promotions (now : Instant) (e : SimEngine env) :
    (e.refill now).1.promotions = e.promotions := by
  have hallow := (refill_emits (P := Op.step.Allows) now e).allows
  obtain ⟨effects, hpath, hallow, _⟩ := hallow
  refine hpath.invariant_of (P := Op.step.Allows) (I := fun e' => e'.promotions = e.promotions)
    rfl hallow (fun _ effect _ hok hsame hmove => (hmove.promotions ?_).trans hsame)
  rintro task os rfl
  cases hok

/-- What a completion promotes: the pending request of its id, if any. -/
theorem finishPull_promotions (now : Instant) (task : PullTask) (e : SimEngine env) :
    ∀ x ∈ (e.finishPull now task).1.promotions, x ∈ e.promotions ∨
      ∃ p, e.pendingPulls.get? task.requestId = some p ∧ x = (p.queued.ticket, task.ticket) := by
  intro x hx
  unfold finishPull at hx
  split at hx
  · exact Or.inl hx
  · next pending hpending =>
      change x ∈ ((e.promote now task pending).1.refill now).1.promotions at hx
      rw [refill_promotions] at hx
      unfold promote at hx
      rcases admitDirect_cases now task.requestId pending.clientIndex pending.queued
        pending.blockIds pending.numLocalCachedTokens
        { e with pendingPulls := e.pendingPulls.erase task.requestId }
        with ⟨active, _, hadmits⟩ | ⟨reason, hadmits⟩
      · rw [hadmits] at hx
        simp only [promotions_promoted, activate_promotions, List.mem_append,
          List.mem_singleton] at hx
        exact hx.imp_right (fun heq => ⟨pending, hpending, heq⟩)
      · rw [hadmits] at hx
        exact Or.inl hx

end SimEngine

/-- One operation promotes nothing, or completes a pull. -/
theorem perform_promotions {now : Instant} {fuel : ℕ} {op : Op} {e e' : SimEngine env}
    {outs : List EngineOutput} (h : e.perform fuel now op = some (e', outs)) :
    ∀ x ∈ e'.promotions, x ∈ e.promotions ∨ ∃ task p, op = .pullCompletion task ∧
      task ∈ e.pullTasks ∧ e.pendingPulls.get? task.requestId = some p ∧
      x = (p.queued.ticket, task.ticket) := by
  by_cases hpull : ∃ task, op = .pullCompletion task
  · obtain ⟨task, rfl⟩ := hpull
    simp only [SimEngine.perform] at h
    split at h
    · next htask =>
        have hres : (e.receivePull task).finishPull now task = (e', outs) := Option.some.inj h
        intro x hx
        rw [show e' = ((e.receivePull task).finishPull now task).1 by rw [hres]] at hx
        rcases SimEngine.finishPull_promotions now task _ x hx with hold | ⟨p, hp, heq⟩
        · exact Or.inl hold
        · exact Or.inr ⟨task, p, rfl, htask, hp, heq⟩
    · cases h
  · obtain ⟨os, hemits, _⟩ := perform_emits h
    obtain ⟨effects, hpath, hallow, _⟩ := hemits.allows
    have hsame : e'.promotions = e.promotions := by
      refine hpath.invariant_of (P := op.Allows) (I := fun e' => e'.promotions = e.promotions)
        rfl hallow (fun _ effect _ hok hsame hmove => (hmove.promotions ?_).trans hsame)
      rintro task os rfl
      exact hpull ⟨task, hok⟩
    exact fun x hx => Or.inl (hsame ▸ hx)

theorem Run.tasked {e₀ e : SimEngine env} {turns : List (Turn env)} {clock : Instant}
    (hrun : Run e₀ turns e clock) (hfresh : Fresh e₀) : Sound e ∧ Tasked e :=
  hrun.invariant (I := fun e => Sound e ∧ Tasked e) ⟨hfresh.sound, hfresh.tasked⟩
    (fun _ _ _ _ he h => ⟨h.sound he.1, h.tasked he.1 he.2⟩)

/-- In a run whose completions come in pull order, each promotes the request it was spawned for. -/
theorem promotes_own_pull {e₀ e : SimEngine env} {turns : List (Turn env)} {clock : Instant}
    (hfresh : Fresh e₀) (hrun : Run e₀ turns e clock) (hturns : ∀ t ∈ turns, t.op.InPullOrder t.before) :
    ∀ ticket task, Event.promoted ticket task ∈ e.journal → ticket = task := by
  have hall : (∀ t ∈ turns, t.op.InPullOrder t.before) →
      (Sound e ∧ Tasked e) ∧ ∀ x ∈ e.promotions, x.1 = x.2 := by
    refine hrun.turnwise (P := fun turns e _ => (∀ t ∈ turns, t.op.InPullOrder t.before) →
      (Sound e ∧ Tasked e) ∧ ∀ x ∈ e.promotions, x.1 = x.2) ?_ ?_
    · intro _
      refine ⟨⟨hfresh.sound, hfresh.tasked⟩, ?_⟩
      obtain ⟨engineIndex, opt, tokenSource, stepSource, hnew⟩ := hfresh
      obtain ⟨latency, _, rfl⟩ := except_map_eq_ok hnew
      simp [SimEngine.promotions]
    · intro turns _ fuel t ih _ hperform hturns
      obtain ⟨⟨hsound, htasked⟩, hpromotions⟩ :=
        ih (fun t' ht' => hturns t' (List.mem_append_left _ ht'))
      have horder := hturns t (List.mem_append_right _ (List.mem_singleton_self t))
      refine ⟨?_, fun x hx => ?_⟩
      · obtain ⟨os, ⟨effects, hpath, _, _⟩, _⟩ := perform_emits hperform
        exact hpath.invariant (I := fun e => Sound e ∧ Tasked e) ⟨hsound, htasked⟩
          (fun _ _ _ he h => ⟨h.sound he.1, h.tasked he.1 he.2⟩)
      · rcases perform_promotions hperform x hx with hold | ⟨task, p, hop, htask, hp, rfl⟩
        · exact hpromotions x hold
        · -- The pending request's own pull is outstanding, so it is no later than this one.
          have hown := htasked.pending task.requestId p hp
          have hle := htasked.newest task htask _ (SimEngine.mem_live_pending hp) rfl
          by_contra hne
          rw [hop] at horder
          have hnone := horder _ hown rfl (by simp only at hne hle ⊢; omega)
          rw [hp] at hnone
          cases hnone
  intro ticket task hmem
  exact (hall hturns).2 (ticket, task) (List.mem_filterMap.mpr ⟨_, hmem, rfl⟩)

def demoRemoteRequest (requestId : String) : EngineCoreRequest :=
  { demoRequest requestId 1 with
    samplingParams := some ⟨1, 0, none, some [("kv_transfer_params",
      buildPrefillKvParams ⟨"prefill", "host", 1, [0], requestId⟩ requestId 1)]⟩ }

/-- A pull completes after its request was aborted and, later, its id was free. -/
def orphanScript : List (Instant × Op) :=
  [(0, .input (.request (demoRemoteRequest "a"))), (1, .input (.abort ["a"])),
    (2, .pullCompletion ⟨"a", 0⟩), (3, .input (.request (demoRemoteRequest "a"))),
    (4, .pullCompletion ⟨"a", 1⟩)]

theorem orphanScript_promotes :
    ∃ turns e clock, Run (demo demoOpt none) turns e clock ∧ e.promotions ≠ [] ∧
      ∀ ticket task, Event.promoted ticket task ∈ e.journal → ticket = task := by
  have hplays : ((demo demoOpt none).play 20 orphanScript).any (fun played =>
      played.2.promotions ≠ [] ∧ ∀ t ∈ played.1, t.op.InPullOrder t.before) = true := by
    decide +kernel
  obtain ⟨turns, e, clock, hrun, _, hfound⟩ := Run.of_script
    (p := fun (turns : List (Turn demoEnv)) e =>
      e.promotions ≠ [] ∧ ∀ t ∈ turns, t.op.InPullOrder t.before)
    hplays (by decide +kernel)
  obtain ⟨hpromotes, horder⟩ := of_decide_eq_true hfound
  exact ⟨turns, e, clock, hrun, hpromotes, promotes_own_pull (demo_fresh _ _ _) hrun horder⟩

/-- The completion of an aborted request's pull promotes a later request of the same id. -/
def staleScript : List (Instant × Op) :=
  [(0, .input (.request (demoRemoteRequest "a"))), (1, .input (.abort ["a"])),
    (2, .input (.request (demoRemoteRequest "a"))), (3, .pullCompletion ⟨"a", 0⟩)]

theorem stale_pull_promotes :
    ¬ ∀ turns (e : SimEngine demoEnv) clock, Run (demo demoOpt none) turns e clock →
      ∀ ticket task, Event.promoted ticket task ∈ e.journal → ticket = task := by
  intro hclaim
  have hplays : ((demo demoOpt none).play 20 staleScript).any
      (fun played => Event.promoted 1 0 ∈ played.2.journal) = true := by decide +kernel
  obtain ⟨turns, e, clock, hrun, _, hstale⟩ :=
    Run.of_script (p := fun _ e => Event.promoted 1 0 ∈ e.journal) hplays (by decide +kernel)
  exact absurd (hclaim turns e clock hrun 1 0 (of_decide_eq_true hstale)) Nat.one_ne_zero

end VllmVcr
