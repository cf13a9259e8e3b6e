import VllmVcr.Engine.Sound

/-!
# What a move does to the batch

A move leaves the batch alone, enters one request, withdraws one, or is one of the three
that work on the whole of it: composing a step, executing it, flushing.
-/

namespace VllmVcr

variable {env : Env} {now : Instant}

/-- A request as it enters the batch. -/
structure ActiveRequest.Entering (id : String) (r : ActiveRequest env) : Prop where
  requestId : r.requestId = id
  generated : r.generated = 0
  emitted : r.emitted = 0
  pendingEmits : r.pendingEmits = []
  pendingEvents : r.pendingEvents ≠ []
  remaining : ∀ n, r.phase = .prefill n → 0 < n
  offset : r.phase ≠ .decode → r.emitOffset = 0

/-- An event that is about no entry of a step and admits nothing. -/
def Event.IsQuiet : Event → Prop
  | .cached _ | .promoted _ _ | .completed _ => True
  | _ => False

namespace SimEngine

/-- The ticket waits for admission, in the queue or behind a pull. -/
def Queued (e : SimEngine env) (ticket : ℕ) : Prop :=
  (∃ id p, e.pendingPulls.get? id = some p ∧ p.queued.ticket = ticket) ∨
    ∃ q ∈ e.waiting, q.ticket = ticket

/-- The request waits for admission, in the queue or behind a pull. -/
def Waits (e : SimEngine env) (q : QueuedRequest) : Prop :=
  (∃ id p, e.pendingPulls.get? id = some p ∧ p.queued = q) ∨ q ∈ e.waiting

theorem queued_iff {e : SimEngine env} {ticket : ℕ} :
    e.Queued ticket ↔ ∃ q, e.Waits q ∧ q.ticket = ticket := by
  constructor
  · rintro (⟨id, p, hp, hticket⟩ | ⟨q, hq, hticket⟩)
    · exact ⟨p.queued, Or.inl ⟨id, p, hp, rfl⟩, hticket⟩
    · exact ⟨q, Or.inr hq, hticket⟩
  · rintro ⟨q, ⟨id, p, hp, rfl⟩ | hq, hticket⟩
    · exact Or.inl ⟨id, p, hp, hticket⟩
    · exact Or.inr ⟨q, hq, hticket⟩

end SimEngine

/-- A ticket in the batch is not queued. -/
theorem Sound.not_queued {e : SimEngine env} (he : Sound e) {id : String} {r : ActiveRequest env}
    (hr : e.activeRequests.get? id = some r) : ¬ e.Queued r.ticket := by
  have hnodup := he.tickets
  rw [SimEngine.live, List.map_append] at hnodup
  have hleft : r.ticket ∈
      (e.activeRequests.entries.map (fun a => (a.1, a.2.ticket))).map Prod.snd := by
    rw [List.map_map]
    exact List.mem_map.mpr ⟨(id, r), SortedMap.mem_entries.mpr hr, rfl⟩
  refine fun hqueued => (List.nodup_append.mp hnodup).2.2 _ hleft r.ticket ?_ rfl
  rw [List.map_append, List.mem_append, List.map_map, List.map_map]
  apply hqueued.imp
  · rintro ⟨k, p, hp, hticket⟩
    exact List.mem_map.mpr ⟨(k, p), SortedMap.mem_entries.mpr hp, hticket⟩
  · rintro ⟨q, hq, hticket⟩
    exact List.mem_map.mpr ⟨q, hq, hticket⟩

/-- What a move that shows `effect` does to the batch. -/
inductive BatchChange (now : Instant) (e : SimEngine env) : Effect → SimEngine env → Prop
  | still {effect : Effect} {e' : SimEngine env} {evs : List Event}
      (hcompleted : ∀ step, effect ≠ .completed step)
      (hactive : e'.activeRequests = e.activeRequests) (hstep : e'.currentStep = e.currentStep)
      (hseq : e'.emitSeq = e.emitSeq) (hjournal : e'.journal = e.journal ++ evs)
      (hquiet : ∀ ev ∈ evs, ev.IsQuiet)
      (hshown : effect.toOutputs = [] ∨
        ∃ ticket id reason, effect.toOutputs = [terminalOutput ticket id reason]) :
      BatchChange now e effect e'
  | entered {effect : Effect} {e' : SimEngine env} {id : String} {r : ActiveRequest env}
      {pre post : List Event} (hcompleted : ∀ step, effect ≠ .completed step)
      (hnone : e.activeRequests.get? id = none) (hentering : r.Entering id)
      (hqueued : e.Queued r.ticket)
      (hactive : e'.activeRequests = e.activeRequests.insert id r)
      (hstep : e'.currentStep = e.currentStep) (hseq : e'.emitSeq = e.emitSeq)
      (hjournal : e'.journal = (e.journal ++ pre) ++ .admitted r.ticket r.uncached r.maxTokens
        (e.currentStep.any (EngineStep.lists · id)) :: post)
      (hquiet : ∀ ev ∈ pre ++ post, ev.IsQuiet) (hshown : effect.toOutputs = []) :
      BatchChange now e effect e'
  | withdrew {e' : SimEngine env} {id : String} {r : ActiveRequest env}
      (hr : e.activeRequests.get? id = some r)
      (hactive : e'.activeRequests = e.activeRequests.erase id)
      (hstep : e'.currentStep = e.currentStep) (hseq : e'.emitSeq = e.emitSeq)
      (hjournal : e'.journal = e.journal) :
      BatchChange now e (.outputs [terminalOutput (some r.ticket) id .abort]) e'
  | composed (anchor : Instant) (hidle : e.currentStep = none)
      (hanchor : anchor = now ∨ ∃ step, e.lastCompleted = some step ∧ step.endsAt = anchor) :
      BatchChange now e (.outputs []) (e.composeStep anchor)
  | executed {step : EngineStep} (hstep : e.currentStep = some step) (hdue : step.endsAt ≤ now) :
      BatchChange now e (.completed step) (e.takeStep.executeStep step)
  | flushed : BatchChange now e (.outputs ((e.dueEmits now).map DueEmit.output)) (e.flush now).1

namespace SimEngine

variable {e : SimEngine env}

/-- Activation enters the request, with the clamps of the replay sources. -/
theorem activate_entered (now : Instant) {id : String} {queued : QueuedRequest}
    {blockIds : List ℕ} {r : ActiveRequest env} (hr : r.BuiltFrom queued blockIds)
    (hid : queued.request.requestId = id) :
    ∃ r' : ActiveRequest env, r'.Entering id ∧ r'.ticket = queued.ticket ∧
      (e.activate now id r).activeRequests = e.activeRequests.insert id r' ∧
      (e.activate now id r).journal = e.journal ++ [.admitted r'.ticket r'.uncached r'.maxTokens
        (e.currentStep.any (EngineStep.lists · id))] := by
  refine ⟨r.pinned (e.tokenSource.onRequestAdded r.requestId r.promptTokenIds).2
    (e.takeSchedule r.requestId r.promptTokenIds).2, ?_, ?_, rfl, rfl⟩
  · obtain ⟨maxTokens, scripted, _, heq⟩ := r.pinned_eq
      (e.tokenSource.onRequestAdded r.requestId r.promptTokenIds).2
      (e.takeSchedule r.requestId r.promptTokenIds).2
    rw [heq]
    exact ⟨hr.requestId.trans hid, hr.generated, hr.emitted, hr.pendingEmits, hr.pendingEvents,
      hr.remaining, hr.offset⟩
  · obtain ⟨maxTokens, scripted, _, heq⟩ := r.pinned_eq
      (e.tokenSource.onRequestAdded r.requestId r.promptTokenIds).2
      (e.takeSchedule r.requestId r.promptTokenIds).2
    rw [heq]
    exact hr.ticket

@[simp] theorem dequeue_journal (i : ℕ) (queued : QueuedRequest) (e : SimEngine env) :
    (e.dequeue i queued).1.journal = e.journal ++ [.cached (contribution e.pool
      (e.pool.cachePrompt queued.request.prompt queued.request.requestLoraName
        queued.request.cacheSalt).1)] := rfl

end SimEngine

theorem Move.batch {e e' : SimEngine env} {effect : Effect} (h : Move now e effect e')
    (he : Sound e) : BatchChange now e effect e' := by
  have hquiet : ∀ ev ∈ ([] : List Event), ev.IsQuiet := by simp
  cases h with
  | arrivalFailed | arrivalRejected | pullRefused =>
      refine .still (by simp) ?_ ?_ ?_ (?_ : _ = _ ++ []) hquiet (Or.inr ⟨_, _, _, rfl⟩) <;> simp
  | enqueued | configured | adaptersChanged | specCleared | statsReset | orphaned | drained =>
      refine .still (by simp) ?_ ?_ ?_ (?_ : _ = _ ++ []) hquiet (Or.inl rfl) <;>
        simp [SimEngine.schedulerStats]
  | cacheReset =>
      refine .still (by simp) ?_ ?_ ?_ (?_ : _ = _ ++ []) hquiet (Or.inl rfl) <;>
        (unfold SimEngine.resetPrefixCache; split <;> simp)
  | @parked i queued hadm =>
      have hjournal := SimEngine.dequeue_journal i queued e
      rw [← SimEngine.park_journal queued (e.dequeue i queued).2] at hjournal
      exact .still (by simp) (by simp) (by simp) (by simp) hjournal (by simp [Event.IsQuiet])
        (Or.inl rfl)
  | @refused i queued hadm reason =>
      have hjournal := SimEngine.dequeue_journal i queued e
      rw [← (e.dequeue i queued).1.pruneBigAdmissions_journal now,
        ← SimEngine.countFailed_journal, ← SimEngine.failAdmission_journal
          (e.dequeue i queued).2.blockIds] at hjournal
      exact .still (by simp) (by simp) (by simp) (by simp) hjournal (by simp [Event.IsQuiet])
        (Or.inr ⟨_, _, _, rfl⟩)
  | @admitted i queued hadm active hbuild =>
      obtain ⟨r, hentering, hticket, hactive, hjournal⟩ := SimEngine.activate_entered
        (e := (e.dequeue i queued).1.pruneBigAdmissions now) now
        (SimEngine.buildRequest_ok hbuild) rfl
      rw [SimEngine.pruneBigAdmissions_journal, SimEngine.dequeue_journal,
        SimEngine.pruneBigAdmissions_currentStep, SimEngine.dequeue_currentStep] at hjournal
      refine .entered (by simp) ?_ hentering ?_ (by simpa using hactive) (by simp) (by simp)
        hjournal (by simp [Event.IsQuiet]) rfl
      · exact (SimEngine.free_of_perm he.ids (SimEngine.live_dequeue hadm.waiting)).1
      · exact Or.inr ⟨queued, List.mem_of_getElem? hadm.waiting, hticket.symm⟩
  | @promoted task htask pending hpending active hbuild =>
      obtain ⟨r, hentering, hticket, hactive, hjournal⟩ := SimEngine.activate_entered
        (e := (e.receivePull task).unpark now task.requestId) now
        (SimEngine.buildRequest_ok hbuild) (he.pending _ _ hpending)
      have hlive : e.live.Perm ((task.requestId, pending.queued.ticket) ::
          ((e.receivePull task).unpark now task.requestId).live) :=
        SimEngine.live_erase_pending hpending (by simp) (by simp) (by simp)
      have hentry : ((((e.receivePull task).unpark now task.requestId).activate now
          task.requestId active).log (.promoted pending.queued.ticket task.ticket)).journal =
            (e.journal ++ []) ++ .admitted r.ticket r.uncached r.maxTokens
              (e.currentStep.any (EngineStep.lists · task.requestId)) ::
                [.promoted pending.queued.ticket task.ticket] := by
        rw [SimEngine.log_journal, hjournal]
        simp
      have hfree := (SimEngine.free_of_perm he.ids hlive).1
      rw [SimEngine.unpark_activeRequests] at hfree hactive
      exact .entered (by simp) hfree hentering (Or.inl ⟨_, pending, hpending, hticket.symm⟩)
        hactive (by simp) (by simp) hentry (by simp [Event.IsQuiet]) rfl
  | @withdrawn id e₁ client ticket hwithdraw =>
      rcases SimEngine.withdraw_some hwithdraw with ⟨r, hr, _, rfl, rfl⟩ | ⟨p, _, _, _, rfl⟩ |
        ⟨i, q, _, _, _, _, rfl⟩
      · have hkept := SimEngine.retire_flushed (.refl e) id
        refine .withdrew hr ?_ ?_ ?_ ?_
        · rw [SimEngine.countAborted_activeRequests, SimEngine.retire_active]
        · rw [SimEngine.countAborted_currentStep, hkept.currentStep]
        · rw [SimEngine.countAborted_emitSeq, hkept.emitSeq]
        · rw [SimEngine.countAborted_journal, hkept.journal]
      · refine .still (by simp) ?_ ?_ ?_ (?_ : _ = _ ++ []) hquiet (Or.inr ⟨_, _, _, rfl⟩) <;> simp
      · refine .still (by simp) ?_ ?_ ?_ (?_ : _ = _ ++ []) hquiet (Or.inr ⟨_, _, _, rfl⟩) <;> simp
  | composed anchor hidle hanchor => exact .composed anchor hidle hanchor
  | executed hstep hdue => exact .executed hstep hdue
  | flushed => exact .flushed

/-! ## Admitted tickets -/

/-- A request that waits after a move waited before it, or was accepted by it. -/
theorem Move.waits_back {e e' : SimEngine env} {effect : Effect} (h : Move now e effect e')
    {q : QueuedRequest} (hq : e'.Waits q) :
    e.Waits q ∨ effect = .accepted q.request ∧ q.ticket = e.nextTicket := by
  have hsame : e'.pendingPulls = e.pendingPulls → e'.waiting = e.waiting → e.Waits q := by
    intro hp hw
    rwa [SimEngine.Waits, hp, hw] at hq
  have hfewer : (∀ k p, e'.pendingPulls.get? k = some p → e.pendingPulls.get? k = some p) →
      (∀ q ∈ e'.waiting, q ∈ e.waiting) → e.Waits q := by
    intro hp hw
    rcases hq with ⟨k, p, hget, rfl⟩ | hmem
    · exact Or.inl ⟨k, p, hp k p hget, rfl⟩
    · exact Or.inr (hw q hmem)
  have herase : ∀ (id k : String) (p : PendingPull),
      (e.pendingPulls.erase id).get? k = some p → e.pendingPulls.get? k = some p := by
    intro id k p hget
    rw [SortedMap.get?_erase] at hget
    split at hget
    · cases hget
    · exact hget
  cases h with
  | arrivalFailed | arrivalRejected | configured | adaptersChanged | specCleared | statsReset
  | orphaned | drained =>
      exact Or.inl (hsame (by simp [SimEngine.schedulerStats]) (by simp [SimEngine.schedulerStats]))
  | cacheReset =>
      left
      apply hsame <;> (unfold SimEngine.resetPrefixCache; split <;> simp)
  | composed anchor =>
      have hprog := e.composeStep_progress anchor
      exact Or.inl (hsame hprog.pendingPulls hprog.waiting)
  | @executed step =>
      have hprog := e.takeStep.executeStep_progress step
      exact Or.inl (hsame hprog.pendingPulls hprog.waiting)
  | flushed =>
      exact Or.inl (hsame (e.flush_flushed now).pendingPulls (e.flush_flushed now).waiting)
  | @enqueued rng request =>
      rcases hq with ⟨k, p, hget, rfl⟩ | hmem
      · exact Or.inl (Or.inl ⟨k, p, by simpa using hget, rfl⟩)
      · simp only [SimEngine.enqueue_waiting, SimEngine.withFailureRng_waiting,
          SimEngine.countReceived_waiting, SimEngine.withFailureRng_nextTicket,
          SimEngine.countReceived_nextTicket, List.mem_append, List.mem_singleton] at hmem
        rcases hmem with hold | rfl
        · exact Or.inl (Or.inr hold)
        · exact Or.inr ⟨rfl, rfl⟩
  | @parked i queued hadm =>
      have hmem : queued ∈ e.waiting := List.mem_of_getElem? hadm.waiting
      left
      rcases hq with ⟨k, p, hget, rfl⟩ | hrest
      · rw [SimEngine.park_pendingPulls, SortedMap.get?_insert] at hget
        split at hget
        · cases hget
          exact Or.inr hmem
        · exact Or.inl ⟨k, p, by simpa using hget, rfl⟩
      · exact Or.inr (List.mem_of_mem_eraseIdx (by simpa using hrest))
  | admitted | refused =>
      exact Or.inl (hfewer (by simp) (fun q hmem => List.mem_of_mem_eraseIdx (by simpa using hmem)))
  | promoted | pullRefused =>
      exact Or.inl (hfewer (fun k p hget => herase _ k p (by simpa using hget)) (by simp))
  | @withdrawn id e₁ client ticket' hwithdraw =>
      left
      rcases SimEngine.withdraw_some hwithdraw with ⟨r, _, _, _, rfl⟩ | ⟨p, _, _, _, rfl⟩ |
        ⟨i, q, _, _, _, _, rfl⟩
      · have hkept := SimEngine.retire_flushed (.refl e) id
        exact hsame hkept.pendingPulls hkept.waiting
      · exact hfewer (fun k p' hget => herase id k p' (by simpa using hget)) (by simp)
      · exact hfewer (by simp) (fun q' hmem => List.mem_of_mem_eraseIdx (by simpa using hmem))

theorem Move.queued_back {e e' : SimEngine env} {effect : Effect} (h : Move now e effect e')
    {ticket : ℕ} (hq : e'.Queued ticket) : e.Queued ticket ∨ ticket = e.nextTicket := by
  obtain ⟨q, hwaits, rfl⟩ := SimEngine.queued_iff.mp hq
  rcases h.waits_back hwaits with hold | ⟨_, hnew⟩
  · exact Or.inl (SimEngine.queued_iff.mpr ⟨q, hold, rfl⟩)
  · exact Or.inr hnew

def Event.admission : Event → Option ℕ
  | .admitted ticket _ _ _ => some ticket
  | _ => none

/-- The tickets admitted so far. -/
def SimEngine.admissions (e : SimEngine env) : List ℕ := e.journal.filterMap Event.admission

theorem Event.IsQuiet.admission {ev : Event} (h : ev.IsQuiet) : ev.admission = none := by
  cases ev with
  | admitted => cases h
  | _ => rfl

theorem filterMap_quiet {α : Type} {f : Event → Option α}
    (hf : ∀ ev : Event, ev.IsQuiet → f ev = none) {evs : List Event} (hquiet : ∀ ev ∈ evs, ev.IsQuiet) : evs.filterMap f = [] :=
  List.filterMap_eq_nil_iff.mpr (fun ev hev => hf ev (hquiet ev hev))

/-- A ticket is admitted once, after it was issued and has left the queue. -/
structure Enrolled (e : SimEngine env) : Prop where
  issued : ∀ t ∈ e.admissions, t < e.nextTicket
  queued : ∀ t ∈ e.admissions, ¬ e.Queued t
  active : ∀ id r, e.activeRequests.get? id = some r → r.ticket ∈ e.admissions
  once : e.admissions.Nodup

theorem Fresh.enrolled {e : SimEngine env} (h : Fresh e) : Enrolled e := by
  obtain ⟨engineIndex, opt, tokenSource, stepSource, hnew⟩ := h
  obtain ⟨latency, _, rfl⟩ := except_map_eq_ok hnew
  exact ⟨by simp [SimEngine.admissions], by simp [SimEngine.admissions], by simp, List.nodup_nil⟩

theorem Move.enrolled {e e' : SimEngine env} {effect : Effect} (h : Move now e effect e')
    (he : Sound e) (hen : Enrolled e) : Enrolled e' := by
  obtain ⟨hnext, _⟩ := h.live_back he
  -- Without an entry, the tickets in the batch are among those it had.
  have hkept : e'.admissions = e.admissions →
      (∀ id r', e'.activeRequests.get? id = some r' →
        ∃ r, e.activeRequests.get? id = some r ∧ r'.ticket = r.ticket) → Enrolled e' := by
    intro hsame hactive
    refine ⟨fun t ht => ?_, fun t ht hqueued => ?_, fun id r' hr' => ?_, hsame ▸ hen.once⟩
    · exact (hen.issued t (hsame ▸ ht)).trans_le hnext
    · rcases h.queued_back hqueued with hold | hnew
      · exact hen.queued t (hsame ▸ ht) hold
      · have := hen.issued t (hsame ▸ ht)
        omega
    · obtain ⟨r, hr, hticket⟩ := hactive id r' hr'
      rw [hsame, hticket]
      exact hen.active id r hr
  cases h.batch he with
  | still hcompleted hactive hstep hseq hjournal hquiet =>
      apply hkept
      · rw [SimEngine.admissions, hjournal, List.filterMap_append, filterMap_quiet (fun _ => Event.IsQuiet.admission) hquiet,
          List.append_nil, SimEngine.admissions]
      · exact fun id r' hr' => ⟨r', hactive ▸ hr', rfl⟩
  | @entered _ _ id r pre post hcompleted hnone hentering hqueued hactive hstep hseq hjournal hquiet =>
      have hsame : e'.admissions = e.admissions ++ [r.ticket] := by
        rw [SimEngine.admissions, hjournal, List.filterMap_append, List.filterMap_append,
          filterMap_quiet (fun _ => Event.IsQuiet.admission) (fun ev hev => hquiet ev (List.mem_append_left _ hev)),
          List.filterMap_cons,
          filterMap_quiet (fun _ => Event.IsQuiet.admission) (fun ev hev => hquiet ev (List.mem_append_right _ hev)),
          List.append_nil]
        rfl
      have hget : e'.activeRequests.get? id = some r := by rw [hactive, SortedMap.get?_insert_self]
      have hsound := h.sound he
      refine ⟨fun t ht => ?_, fun t ht hstill => ?_, fun id' r' hr' => ?_, ?_⟩
      · rw [hsame, List.mem_append, List.mem_singleton] at ht
        rcases ht with hold | rfl
        · exact (hen.issued t hold).trans_le hnext
        · exact hsound.ticket_lt _ (SimEngine.mem_live_active hget)
      · rw [hsame, List.mem_append, List.mem_singleton] at ht
        rcases ht with hold | rfl
        · rcases h.queued_back hstill with hqueue | hnew
          · exact hen.queued t hold hqueue
          · have := hen.issued t hold
            omega
        · exact hsound.not_queued hget hstill
      · rw [hactive, SortedMap.get?_insert] at hr'
        rw [hsame, List.mem_append, List.mem_singleton]
        split at hr'
        · cases hr'
          exact Or.inr rfl
        · exact Or.inl (hen.active id' r' hr')
      · rw [hsame]
        refine List.nodup_append.mpr ⟨hen.once, List.nodup_singleton _, ?_⟩
        rintro t ht _ hlast rfl
        rw [List.mem_singleton] at hlast
        exact hen.queued t ht (hlast ▸ hqueued)
  | @withdrew _ id r hr hactive hstep hseq hjournal =>
      apply hkept
      · rw [SimEngine.admissions, hjournal, SimEngine.admissions]
      · intro id' r' hr'
        rw [hactive, SortedMap.get?_erase] at hr'
        split at hr'
        · cases hr'
        · exact ⟨r', hr', rfl⟩
  | composed anchor hidle =>
      apply hkept
      · rfl
      · intro id r' hr'
        obtain ⟨r, hr, hprog⟩ := (e.composeStep_progress anchor).active.right hr'
        exact ⟨r, hr, hprog.ticket⟩
  | @executed step hstep hdue =>
      apply hkept
      · exact SimEngine.executeStep_journal _ step e.takeStep rfl (fun _ _ _ => rfl) (fun _ => rfl)
      · intro id r' hr'
        obtain ⟨r, hr, hprog⟩ := (e.takeStep.executeStep_progress step).active.right hr'
        exact ⟨r, hr, hprog.ticket⟩
  | flushed =>
      apply hkept
      · rw [SimEngine.admissions, (e.flush_flushed now).journal, SimEngine.admissions]
      · intro id r' hr'
        obtain ⟨r, hr, _, heq⟩ := e.flush_get? he.active now hr'
        exact ⟨r, hr, by rw [← heq, ActiveRequest.emitDue, ActiveRequest.emitQueue_request]⟩

end VllmVcr
