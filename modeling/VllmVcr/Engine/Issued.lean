import VllmVcr.Engine.Batch

/-!
# Accepted requests

The requests accepted so far, in the order of their tickets, against the tickets that wait
or run, and the schedules that the replay source has handed out in the order of admission.
-/

namespace VllmVcr

variable {env : Env} {now : Instant}

/-- The request that a move accepts. -/
def Effect.issued : Effect → List EngineCoreRequest
  | .accepted request => [request]
  | _ => []

/-- The request that a turn accepts. -/
def Turn.issued (t : Turn env) : List EngineCoreRequest :=
  match t.op with
  | .input (.request request) => if t.before.nextTicket < t.after.nextTicket then [request] else []
  | _ => []

/-- The requests accepted in a run, in the order of their tickets. -/
def issued (turns : List (Turn env)) : List EngineCoreRequest := turns.flatMap Turn.issued

/-- The request that an operation brings. -/
def Op.requested : Op → Option EngineCoreRequest
  | .input (.request request) => some request
  | _ => none

theorem issued_sublist (turns : List (Turn env)) :
    (issued turns).Sublist ((turns.map Turn.op).filterMap Op.requested) := by
  induction turns with
  | nil => exact List.Sublist.refl _
  | cons t turns ih =>
      have hone : t.issued.Sublist t.op.requested.toList := by
        rw [Turn.issued]
        split
        · next request hop =>
            rw [hop]
            split
            · exact List.Sublist.refl _
            · exact List.nil_sublist _
        · exact List.nil_sublist _
      rw [issued, List.flatMap_cons, List.map_cons, List.filterMap_cons]
      cases hrequested : t.op.requested with
      | none =>
          rw [hrequested, Option.toList_none, List.sublist_nil] at hone
          rw [hone]
          exact ih
      | some request =>
          rw [hrequested] at hone
          exact hone.append ih

/-- When as many requests were accepted as were brought, they are the ones brought. -/
theorem issued_of_ops {turns : List (Turn env)} {ops : List Op}
    (hops : turns.map Turn.op = ops)
    (hlength : (issued turns).length = (ops.filterMap Op.requested).length) :
    issued turns = ops.filterMap Op.requested := by
  have hsub := issued_sublist turns
  rw [hops] at hsub
  exact hsub.eq_of_length hlength

/-- What the replay source, if there is one, hands to a request. -/
def handTo (source : Option StepSource) (request : EngineCoreRequest) :
    Option StepSource × Option ScriptedDecode :=
  match source with
  | none => (none, none)
  | some s =>
      let (s, schedule) := s.takeSchedule request.requestId request.prompt
      (some s, schedule)

/-- The source after the requests of `tickets` entered the batch in this order, and the schedule
that each of them got. -/
def handOut (requests : List EngineCoreRequest) (source : Option StepSource) (tickets : List ℕ) :
    Option StepSource × List (ℕ × Option ScriptedDecode) :=
  tickets.foldl (fun acc ticket =>
    match requests[ticket]? with
    | none => acc
    | some request =>
        ((handTo acc.1 request).1, acc.2 ++ [(ticket, (handTo acc.1 request).2)])) (source, [])

/-- The schedule with which each admitted ticket of a run from `e₀` to `e` entered. -/
def schedules (e₀ : SimEngine env) (turns : List (Turn env)) (e : SimEngine env) :
    List (ℕ × Option ScriptedDecode) :=
  (handOut (issued turns) e₀.stepSource e.admissions).2

section HandOut

variable {requests : List EngineCoreRequest} {source : Option StepSource} {tickets : List ℕ}

theorem handOut_snoc {ticket : ℕ} {request : EngineCoreRequest}
    (h : requests[ticket]? = some request) :
    handOut requests source (tickets ++ [ticket]) =
      ((handTo (handOut requests source tickets).1 request).1,
        (handOut requests source tickets).2 ++
          [(ticket, (handTo (handOut requests source tickets).1 request).2)]) := by
  rw [handOut, List.foldl_append, List.foldl_cons, List.foldl_nil, h]
  rfl

theorem handOut_tickets (requests : List EngineCoreRequest) (source : Option StepSource)
    (tickets : List ℕ) :
    ((handOut requests source tickets).2.map Prod.fst).Sublist tickets := by
  induction tickets using List.reverseRecOn with
  | nil => exact List.Sublist.refl _
  | append_singleton tickets ticket ih =>
      cases hrequest : requests[ticket]? with
      | none =>
          have hskip : handOut requests source (tickets ++ [ticket]) =
              handOut requests source tickets := by
            rw [handOut, List.foldl_append, List.foldl_cons, List.foldl_nil, hrequest]
            rfl
          rw [hskip]
          exact ih.trans (List.sublist_append_left _ _)
      | some request =>
          rw [handOut_snoc hrequest, List.map_append]
          exact ih.append (List.Sublist.refl _)

/-- Requests accepted later do not change what was handed out. -/
theorem handOut_append (h : ∀ ticket ∈ tickets, ticket < requests.length)
    (more : List EngineCoreRequest) :
    handOut (requests ++ more) source tickets = handOut requests source tickets := by
  apply List.foldl_ext
  intro acc ticket hticket
  rw [List.getElem?_append_left (h ticket hticket)]

end HandOut

/-! ## Entering the batch -/

namespace ActiveRequest

theorem new_prompt {engineIndex ticket : ℕ} {request : EngineCoreRequest} {opt : Opt}
    {latency : LatencyModel env.Rng} {admission : AdmissionCtx} {r : ActiveRequest env}
    (h : new engineIndex now request ticket opt latency admission = .ok r) :
    r.promptTokenIds = request.prompt := by
  simp only [new] at h
  split at h
  · cases h
  · split at h
    · cases h
    · cases h
      rfl

end ActiveRequest

/-- `q` leaves the queue and enters the batch as `r`. -/
structure Entry (now : Instant) (e e' : SimEngine env) (q : QueuedRequest)
    (r : ActiveRequest env) : Prop where
  waits : e.Waits q
  built : ∃ admission active,
    ActiveRequest.new e.engineIndex now q.request q.ticket e.opt e.latency admission = .ok active ∧
    r = active.pinned (e.tokenSource.onRequestAdded q.request.requestId q.request.prompt).2
      (handTo e.stepSource q.request).2
  active : e'.activeRequests = e.activeRequests.insert q.request.requestId r
  currentStep : e'.currentStep = e.currentStep
  journal : ∃ pre post, (∀ ev ∈ pre ++ post, ev.IsQuiet) ∧
    e'.journal = (e.journal ++ pre) ++ .admitted r.ticket r.uncached r.maxTokens
      (e.currentStep.any (EngineStep.lists · q.request.requestId)) :: post
  stepSource : e'.stepSource = (handTo e.stepSource q.request).1

namespace Entry

variable {e e' : SimEngine env} {q : QueuedRequest} {r : ActiveRequest env}

theorem ticket (h : Entry now e e' q r) : r.ticket = q.ticket := by
  obtain ⟨admission, active, hbuild, rfl⟩ := h.built
  obtain ⟨_, _, _, heq⟩ := active.pinned_eq
    (e.tokenSource.onRequestAdded q.request.requestId q.request.prompt).2
    (handTo e.stepSource q.request).2
  rw [heq]
  exact (ActiveRequest.new_ok hbuild).ticket

theorem admissions (h : Entry now e e' q r) : e'.admissions = e.admissions ++ [q.ticket] := by
  obtain ⟨pre, post, hquiet, hjournal⟩ := h.journal
  have hpre := filterMap_quiet (fun _ => Event.IsQuiet.admission)
    (fun ev hev => hquiet ev (List.mem_append_left post hev))
  have hpost := filterMap_quiet (fun _ => Event.IsQuiet.admission)
    (fun ev hev => hquiet ev (List.mem_append_right pre hev))
  rw [SimEngine.admissions, hjournal, List.filterMap_append, List.filterMap_append, hpre,
    List.append_nil, List.filterMap_cons, hpost, ← h.ticket]
  rfl

end Entry

namespace SimEngine

theorem admissions_append {e e' : SimEngine env} {evs : List Event}
    (h : e'.journal = e.journal ++ evs) :
    e'.admissions = e.admissions ++ evs.filterMap Event.admission := by
  rw [admissions, h, List.filterMap_append, admissions]

/-- The request that is built under `e` and activated in `e₁` enters the batch. -/
theorem entry_of_build {e e₁ e' : SimEngine env} {q : QueuedRequest} {active : ActiveRequest env}
    {admission : AdmissionCtx} {pre post : List Event} (hwaits : e.Waits q)
    (hbuild : ActiveRequest.new e.engineIndex now q.request q.ticket e.opt e.latency admission =
      .ok active)
    (hactive : e₁.activeRequests = e.activeRequests) (hstep : e₁.currentStep = e.currentStep)
    (htokens : e₁.tokenSource = e.tokenSource) (hsteps : e₁.stepSource = e.stepSource)
    (hjournal : e₁.journal = e.journal ++ pre) (hquiet : ∀ ev ∈ pre ++ post, ev.IsQuiet)
    (hactive' : e'.activeRequests =
      (e₁.activate now q.request.requestId active).activeRequests)
    (hstep' : e'.currentStep = e₁.currentStep)
    (hsource' : e'.stepSource = (e₁.activate now q.request.requestId active).stepSource)
    (hjournal' : e'.journal = (e₁.activate now q.request.requestId active).journal ++ post) :
    ∃ r, Entry now e e' q r := by
  have hbuilt := ActiveRequest.new_ok hbuild
  have hid : active.requestId = q.request.requestId := hbuilt.requestId
  have hprompt := ActiveRequest.new_prompt hbuild
  have hhanded : e₁.takeSchedule q.request.requestId q.request.prompt =
      handTo e.stepSource q.request := by
    rw [takeSchedule, hsteps]
    rfl
  have hinsert : (e₁.activate now q.request.requestId active).activeRequests =
      e₁.activeRequests.insert q.request.requestId
        (active.pinned (e₁.tokenSource.onRequestAdded active.requestId active.promptTokenIds).2
          (e₁.takeSchedule active.requestId active.promptTokenIds).2) := rfl
  have hlogged : (e₁.activate now q.request.requestId active).journal = e₁.journal ++
      [.admitted (active.pinned
        (e₁.tokenSource.onRequestAdded active.requestId active.promptTokenIds).2
        (e₁.takeSchedule active.requestId active.promptTokenIds).2).ticket
        (active.pinned
        (e₁.tokenSource.onRequestAdded active.requestId active.promptTokenIds).2
        (e₁.takeSchedule active.requestId active.promptTokenIds).2).uncached
        (active.pinned
        (e₁.tokenSource.onRequestAdded active.requestId active.promptTokenIds).2
        (e₁.takeSchedule active.requestId active.promptTokenIds).2).maxTokens
        (e₁.currentStep.any (EngineStep.lists · q.request.requestId))] := rfl
  have hsource : (e₁.activate now q.request.requestId active).stepSource =
      (e₁.takeSchedule active.requestId active.promptTokenIds).1 := rfl
  rw [hid, hprompt, htokens, hhanded, hactive] at hinsert
  rw [hid, hprompt, htokens, hhanded, hjournal, hstep] at hlogged
  rw [hid, hprompt, hhanded] at hsource
  refine ⟨_, hwaits, ⟨admission, active, hbuild, rfl⟩, hactive'.trans hinsert,
    hstep'.trans hstep, ⟨pre, post, hquiet, ?_⟩, hsource'.trans hsource⟩
  rw [hjournal', hlogged, List.append_assoc _ [_], List.singleton_append]

/-- The request that `schedule` admits directly enters the batch. -/
theorem Admissible.entry {e : SimEngine env} {i : ℕ} {queued : QueuedRequest}
    (hadm : e.Admissible i queued) {active : ActiveRequest env}
    (hbuild : ((e.dequeue i queued).1.pruneBigAdmissions now).buildRequest now queued
      (e.dequeue i queued).2.blockIds (e.dequeue i queued).2.numCachedTokens = .ok active) :
    ∃ r, Entry now e (((e.dequeue i queued).1.pruneBigAdmissions now).activate now
      queued.request.requestId active) queued r := by
  have hcached := dequeue_journal i queued e
  rw [← (e.dequeue i queued).1.pruneBigAdmissions_journal now] at hcached
  have hwaits : e.Waits queued := Or.inr (List.mem_of_getElem? hadm.waiting)
  exact entry_of_build hwaits hbuild (by simp) (by simp) (by simp) (by simp) hcached
    (by simp [Event.IsQuiet]) rfl (by simp) rfl (List.append_nil _).symm

end SimEngine

/-- A move lets one queued request into the batch, or none. -/
theorem Move.entry {e e' : SimEngine env} {effect : Effect} (h : Move now e effect e')
    (he : Sound e) : (e'.admissions = e.admissions ∧ e'.stepSource = e.stepSource) ∨
      ∃ q r, Entry now e e' q r := by
  have hjournal : e'.journal = e.journal → e'.admissions = e.admissions := by
    intro hsame
    rw [SimEngine.admissions, hsame, SimEngine.admissions]
  cases h with
  | arrivalFailed | arrivalRejected | enqueued | configured | adaptersChanged | specCleared
  | statsReset | orphaned | drained | pullRefused =>
      exact Or.inl ⟨hjournal (by simp [SimEngine.schedulerStats]),
        by simp [SimEngine.schedulerStats]⟩
  | cacheReset =>
      left
      unfold SimEngine.resetPrefixCache
      split
      · exact ⟨rfl, rfl⟩
      · exact ⟨rfl, rfl⟩
  | @parked i queued hadm =>
      refine Or.inl ⟨?_, by simp⟩
      have hcached := SimEngine.dequeue_journal i queued e
      rw [← SimEngine.park_journal queued (e.dequeue i queued).2] at hcached
      rw [SimEngine.admissions_append hcached]
      exact List.append_nil _
  | @refused i queued hadm reason =>
      refine Or.inl ⟨?_, by simp⟩
      have hcached := SimEngine.dequeue_journal i queued e
      rw [← (e.dequeue i queued).1.pruneBigAdmissions_journal now,
        ← SimEngine.countFailed_journal, ← SimEngine.failAdmission_journal
          (e.dequeue i queued).2.blockIds] at hcached
      rw [SimEngine.admissions_append hcached]
      exact List.append_nil _
  | admitted hadm hbuild => exact Or.inr ⟨_, hadm.entry hbuild⟩
  | @promoted task htask pending hpending active hbuild =>
      have hid : pending.queued.request.requestId = task.requestId := he.pending _ _ hpending
      have hkept : ((e.receivePull task).unpark now task.requestId).journal = e.journal ++ [] := by
        simp
      have hlast : ((((e.receivePull task).unpark now task.requestId).activate now task.requestId
          active).log (.promoted pending.queued.ticket task.ticket)).journal =
            (((e.receivePull task).unpark now task.requestId).activate now
              pending.queued.request.requestId active).journal ++
                [.promoted pending.queued.ticket task.ticket] := by
        rw [hid, SimEngine.log_journal]
      have hwaits : e.Waits pending.queued := Or.inl ⟨_, pending, hpending, rfl⟩
      refine Or.inr ⟨pending.queued, SimEngine.entry_of_build hwaits hbuild (by simp) (by simp)
        (by simp) (by simp) hkept (by simp [Event.IsQuiet]) ?_ ?_ ?_ hlast⟩
      · rw [hid, SimEngine.log_activeRequests]
      · rw [SimEngine.log_currentStep, SimEngine.activate_currentStep]
      · rw [hid, SimEngine.log_stepSource]
  | @withdrawn id e₁ client ticket hwithdraw =>
      left
      rcases SimEngine.withdraw_some hwithdraw with ⟨r, _, _, _, rfl⟩ | ⟨p, _, _, _, rfl⟩ |
        ⟨i, q, _, _, _, _, rfl⟩
      · have hkept := SimEngine.retire_flushed (.refl e) id
        exact ⟨hjournal hkept.journal, hkept.stepSource⟩
      · exact ⟨rfl, rfl⟩
      · exact ⟨rfl, rfl⟩
  | composed anchor => exact Or.inl ⟨rfl, rfl⟩
  | @executed step =>
      left
      refine ⟨?_, (e.takeStep.executeStep_progress step).stepSource⟩
      exact SimEngine.executeStep_journal _ step e.takeStep rfl (fun _ _ _ => rfl) (fun _ => rfl)
  | flushed =>
      have hflushed := e.flush_flushed now
      exact Or.inl ⟨hjournal hflushed.journal, hflushed.stepSource⟩

theorem Move.nextTicket {e e' : SimEngine env} {effect : Effect} (h : Move now e effect e') :
    e'.nextTicket = e.nextTicket + effect.issued.length := by
  cases h with
  | arrivalFailed | arrivalRejected | enqueued | configured | adaptersChanged | specCleared
  | statsReset | orphaned | drained | pullRefused | parked | refused | admitted | promoted =>
      simp [SimEngine.schedulerStats, Effect.issued]
  | cacheReset =>
      unfold SimEngine.resetPrefixCache
      split
      · rfl
      · rfl
  | @withdrawn id e₁ client ticket hwithdraw =>
      rcases SimEngine.withdraw_some hwithdraw with ⟨r, _, _, _, rfl⟩ | ⟨p, _, _, _, rfl⟩ |
        ⟨i, q, _, _, _, _, rfl⟩
      · exact (SimEngine.retire_flushed (.refl e) id).nextTicket
      · rfl
      · rfl
  | composed anchor => rfl
  | @executed step => exact (e.takeStep.executeStep_progress step).nextTicket
  | flushed => exact (e.flush_flushed now).nextTicket

/-! ## The requests behind the tickets -/

/-- `requests` are the requests that `e` has issued its tickets to. -/
structure Issued (source : Option StepSource) (requests : List EngineCoreRequest)
    (e : SimEngine env) : Prop where
  length : requests.length = e.nextTicket
  waits : ∀ q, e.Waits q → requests[q.ticket]? = some q.request
  source : e.stepSource = (handOut requests source e.admissions).1
  active : ∀ id r, e.activeRequests.get? id = some r →
    ∃ request, requests[r.ticket]? = some request ∧ request.requestId = id

theorem Fresh.issued {e : SimEngine env} (h : Fresh e) : Issued e.stepSource [] e := by
  obtain ⟨engineIndex, opt, tokenSource, stepSource, hnew⟩ := h
  obtain ⟨latency, _, rfl⟩ := except_map_eq_ok hnew
  refine ⟨rfl, ?_, rfl, by simp⟩
  rintro q (⟨id, p, hp, _⟩ | hq)
  · cases hp
  · cases hq

/-- Who is active after a move was active before it under the same ticket, or has entered. -/
theorem Move.active_back {e e' : SimEngine env} {effect : Effect} (h : Move now e effect e')
    (he : Sound e) {id : String} {r' : ActiveRequest env}
    (hr' : e'.activeRequests.get? id = some r') :
    (∃ r, e.activeRequests.get? id = some r ∧ r'.ticket = r.ticket) ∨
      ∃ q, Entry now e e' q r' ∧ q.request.requestId = id := by
  have hentered : e'.admissions ≠ e.admissions → ∃ q r, Entry now e e' q r :=
    fun hne => (h.entry he).resolve_left (fun hkept => hne hkept.1)
  cases h.batch he with
  | still _ hactive => exact Or.inl ⟨r', hactive ▸ hr', rfl⟩
  | @entered _ _ id₁ r _ _ _ hnone _ _ hactive _ _ hjournal =>
      obtain ⟨q, r₁, hentry⟩ : ∃ q r, Entry now e e' q r := by
        apply hentered
        rw [SimEngine.admissions_append ((List.append_assoc _ _ _).symm ▸ hjournal)]
        simp [Event.admission]
      rw [hentry.active, SortedMap.get?_insert] at hr'
      split at hr'
      · next hid =>
          cases hr'
          exact Or.inr ⟨q, hentry, hid.symm⟩
      · exact Or.inl ⟨r', hr', rfl⟩
  | withdrew _ hactive =>
      rw [hactive, SortedMap.get?_erase] at hr'
      split at hr'
      · cases hr'
      · exact Or.inl ⟨r', hr', rfl⟩
  | composed anchor =>
      obtain ⟨r, hr, hprog⟩ := (e.composeStep_progress anchor).active.right hr'
      exact Or.inl ⟨r, hr, hprog.ticket⟩
  | @executed step =>
      obtain ⟨r, hr, hprog⟩ := (e.takeStep.executeStep_progress step).active.right hr'
      exact Or.inl ⟨r, hr, hprog.ticket⟩
  | flushed =>
      obtain ⟨r, hr, _, heq⟩ := e.flush_get? he.active now hr'
      exact Or.inl ⟨r, hr, by rw [← heq, ActiveRequest.emitDue, ActiveRequest.emitQueue_request]⟩

theorem Move.issued {source : Option StepSource} {requests : List EngineCoreRequest}
    {e e' : SimEngine env} {effect : Effect} (h : Move now e effect e') (he : Sound e)
    (hen : Enrolled e) (hi : Issued source requests e) :
    Issued source (requests ++ effect.issued) e' := by
  have hold : ∀ {k : ℕ} {request : EngineCoreRequest}, requests[k]? = some request →
      (requests ++ effect.issued)[k]? = some request := by
    intro k request hk
    rw [List.getElem?_append_left (List.getElem?_eq_some_iff.mp hk).1, hk]
  have hhanded : handOut (requests ++ effect.issued) source e.admissions =
      handOut requests source e.admissions :=
    handOut_append (fun k hk => hi.length ▸ hen.issued k hk) _
  refine ⟨?_, ?_, ?_, ?_⟩
  · rw [List.length_append, hi.length, h.nextTicket]
  · intro q hq
    rcases h.waits_back hq with hwas | ⟨rfl, hticket⟩
    · exact hold (hi.waits q hwas)
    · rw [hticket, ← hi.length]
      exact List.getElem?_concat_length
  · rcases h.entry he with ⟨hadmissions, hkept⟩ | ⟨q, r, hentry⟩
    · rw [hkept, hadmissions, hhanded, hi.source]
    · rw [hentry.stepSource, hentry.admissions,
        handOut_snoc (hold (hi.waits q hentry.waits)), hhanded, hi.source]
  · intro id r' hr'
    rcases h.active_back he hr' with ⟨r, hr, hticket⟩ | ⟨q, hentry, hid⟩
    · obtain ⟨request, hrequest, hfiled⟩ := hi.active id r hr
      exact ⟨request, hticket ▸ hold hrequest, hfiled⟩
    · exact ⟨q.request, hentry.ticket ▸ hold (hi.waits q hentry.waits), hid⟩

/-! ## Runs -/

namespace SimEngine

/-- A path that accepts nothing issues no ticket. -/
theorem nextTicket_of_emits {P : Effect → Prop} {e e' : SimEngine env}
    {os : List EngineCoreOutput} (h : Emits P now e os e')
    (hallow : ∀ effect, P effect → effect.issued = []) : e'.nextTicket = e.nextTicket := by
  apply h.invariant (I := fun e' => e'.nextTicket = e.nextTicket) rfl
  intro e₁ effect e₂ hok heq hmove
  have hnone : effect.issued = [] := by
    rcases hok with ⟨os, rfl⟩ | hallowed
    · rfl
    · exact hallow effect hallowed
  rw [hmove.nextTicket, hnone, heq]
  rfl

theorem handleRequest_nextTicket (now : Instant) (request : EngineCoreRequest)
    (e : SimEngine env) : (e.handleRequest now request).1.nextTicket ≤ e.nextTicket + 1 := by
  simp only [handleRequest]
  split
  · exact Nat.le_succ _
  · have hmaybe : (e.countReceived.maybeFail request).1.nextTicket = e.nextTicket := by
      simp only [maybeFail]
      split
      · rfl
      · split
        · split
          · rfl
          · rfl
        · rfl
    split
    · next e₁ reason heq =>
        rw [heq] at hmaybe
        rw [failArrival, countFailed_nextTicket, hmaybe]
        exact Nat.le_succ _
    · next e₁ heq =>
        rw [heq] at hmaybe
        have hrefill := nextTicket_of_emits
          (refill_emits (P := fun _ => False) now (e₁.enqueue now request)) (by simp)
        rw [hrefill, enqueue_nextTicket]
        simp only at hmaybe
        omega

end SimEngine

/-- What a path of moves accepts is what its turn accepts. -/
theorem Turn.issued_eq {fuel : ℕ} {t : Turn env} {effects : List Effect}
    (hperform : t.before.perform fuel t.now t.op = some (t.after, t.outputs))
    (hpath : Path (Move t.now) t.before effects t.after)
    (hallow : ∀ effect ∈ effects, t.op.Allows effect) :
    effects.flatMap Effect.issued = t.issued := by
  have hcount : t.after.nextTicket =
      t.before.nextTicket + (effects.flatMap Effect.issued).length := by
    apply hpath.history (P := fun effects e =>
      e.nextTicket = t.before.nextTicket + (effects.flatMap Effect.issued).length) rfl
    intro effects e effect e' heq hmove
    rw [hmove.nextTicket, heq, List.flatMap_append, List.length_append, List.flatMap_singleton]
    omega
  rw [Turn.issued]
  split
  · next request hop =>
      have hall : ∀ r ∈ effects.flatMap Effect.issued, r = request := by
        intro r hr
        obtain ⟨effect, heffect, hr⟩ := List.mem_flatMap.mp hr
        have hallowed := hallow effect heffect
        cases effect with
        | accepted request' =>
            cases hop.symm.trans hallowed
            exact List.mem_singleton.mp hr
        | _ => cases hr
      have hle : t.after.nextTicket ≤ t.before.nextTicket + 1 := by
        have hres : t.before.handleRequest t.now request = (t.after, t.outputs) := by
          rw [hop] at hperform
          exact Option.some.inj hperform
        have hone := t.before.handleRequest_nextTicket t.now request
        rwa [hres] at hone
      split
      · have hlength : (effects.flatMap Effect.issued).length = 1 := by omega
        obtain ⟨r, hr⟩ := List.length_eq_one_iff.mp hlength
        rw [hr, hall r (hr ▸ List.mem_singleton_self r)]
      · exact List.length_eq_zero_iff.mp (by omega)
  · next hop =>
      apply List.flatMap_eq_nil_iff.mpr
      intro effect heffect
      have hallowed := hallow effect heffect
      cases effect with
      | accepted request => exact absurd hallowed (hop request)
      | _ => rfl

/-- A property of the requests accepted so far, the state and the clock, carried move by move over a
run whose operations allow only effects that satisfy `Q`. -/
theorem Run.issuing {P : List EngineCoreRequest → SimEngine env → Instant → Prop}
    {Q : Effect → Prop} {e₀ e : SimEngine env} {turns : List (Turn env)} {clock : Instant}
    (hrun : Run e₀ turns e clock) (hops : ∀ t ∈ turns, ∀ effect, t.op.Allows effect → Q effect)
    (hinit : P [] e₀ 0)
    (hlater : ∀ requests e now later, now ≤ later → P requests e now → P requests e later)
    (hmove : ∀ requests now e effect e', Q effect → P requests e now → Move now e effect e' →
      P (requests ++ effect.issued) e' now) : P (issued turns) e clock := by
  have hturns : (∀ t ∈ turns, ∀ effect, t.op.Allows effect → Q effect) →
      P (issued turns) e clock := by
    apply hrun.turnwise (P := fun turns e clock =>
      (∀ t ∈ turns, ∀ effect, t.op.Allows effect → Q effect) → P (issued turns) e clock)
    · exact fun _ => hinit
    · intro turns clock fuel t ih hclock hperform hops
      obtain ⟨os, hemits, _⟩ := perform_emits hperform
      obtain ⟨effects, hpath, hallow, _⟩ := hemits.allows
      have hissued := Turn.issued_eq hperform hpath hallow
      have hlabels : ∀ effect ∈ effects, Q effect := fun effect heffect =>
        hops t (List.mem_append_right _ (List.mem_singleton_self t)) effect (hallow effect heffect)
      have hmoves : (∀ effect ∈ effects, Q effect) →
          P (issued turns ++ effects.flatMap Effect.issued) t.after t.now := by
        apply hpath.history (P := fun effects e => (∀ effect ∈ effects, Q effect) →
          P (issued turns ++ effects.flatMap Effect.issued) e t.now)
        · intro _
          rw [List.flatMap_nil, List.append_nil]
          exact hlater _ _ _ _ hclock (ih (fun t' ht' => hops t' (List.mem_append_left _ ht')))
        · intro effects e effect e' ih hone hlabels
          rw [List.flatMap_append, List.flatMap_singleton, ← List.append_assoc]
          apply hmove _ _ e effect e' _ _ hone
          · exact hlabels effect (List.mem_append_right _ (List.mem_singleton_self effect))
          · exact ih (fun l hl => hlabels l (List.mem_append_left _ hl))
      rw [issued, List.flatMap_append, List.flatMap_singleton, ← hissued]
      exact hmoves hlabels
  exact hturns hops

/-- The tickets of a run are those of the requests it accepted. -/
theorem Run.issued {e₀ e : SimEngine env} {turns : List (Turn env)} {clock : Instant}
    (hrun : Run e₀ turns e clock) (hfresh : Fresh e₀) :
    Sound e ∧ Enrolled e ∧ Issued e₀.stepSource (issued turns) e := by
  apply hrun.issuing (Q := fun _ => True) (P := fun requests e _ =>
    Sound e ∧ Enrolled e ∧ Issued e₀.stepSource requests e) (by simp)
  · exact ⟨hfresh.sound, hfresh.enrolled, hfresh.issued⟩
  · exact fun _ _ _ _ _ h => h
  · intro requests now e effect e' _ ⟨hsound, hen, hi⟩ hmove
    exact ⟨hmove.sound hsound, hmove.enrolled hsound hen, hmove.issued hsound hen hi⟩

/-! ## Whom an output answers -/

/-- The output answers one of `requests`, under the request's ticket and id. -/
def Names (requests : List EngineCoreRequest) (o : EngineCoreOutput) : Prop :=
  ∃ k request, o.ticket = some k ∧ requests[k]? = some request ∧ request.requestId = o.requestId

theorem Names.mono {requests : List EngineCoreRequest} {o : EngineCoreOutput}
    (h : Names requests o) (more : List EngineCoreRequest) : Names (requests ++ more) o := by
  obtain ⟨k, request, hticket, hrequest, hid⟩ := h
  refine ⟨k, request, hticket, ?_, hid⟩
  rw [List.getElem?_append_left (List.getElem?_eq_some_iff.mp hrequest).1, hrequest]

theorem Move.names {source : Option StepSource} {requests : List EngineCoreRequest}
    {e e' : SimEngine env} {effect : Effect} (h : Move now e effect e') (he : Sound e)
    (hi : Issued source requests e) :
    ∀ o ∈ effect.toOutputs, o.newTokenIds ≠ [] → Names requests o := by
  intro o ho htokens
  cases h.batch he with
  | still _ _ _ _ _ _ hshown =>
      rcases hshown with hnone | ⟨ticket, id, reason, hterminal⟩
      · rw [hnone] at ho
        cases ho
      · rw [hterminal, List.mem_singleton] at ho
        subst ho
        exact absurd rfl htokens
  | entered _ _ _ _ _ _ _ _ _ hshown =>
      rw [hshown] at ho
      cases ho
  | withdrew =>
      cases List.mem_singleton.mp ho
      exact absurd rfl htokens
  | composed => cases ho
  | executed => cases ho
  | flushed =>
      obtain ⟨d, hd, rfl⟩ := List.mem_map.mp ho
      obtain ⟨r, hr, hshown⟩ := List.mem_flatMap.mp hd
      obtain ⟨id, hget⟩ := SortedMap.mem_values.mp hr
      have hd' := r.emitQueue_shown e.tokenSource now r.pendingEmits d hshown
      obtain ⟨request, hrequest, hid⟩ := hi.active id r hget
      exact ⟨r.ticket, request, hd'.ticket, hrequest,
        hid.trans ((he.active id r hget).symm.trans hd'.requestId.symm)⟩

/-- Tokens are only shown to the requests accepted, under their tickets and ids. -/
theorem Run.names {e₀ e : SimEngine env} {turns : List (Turn env)} {clock : Instant}
    (hrun : Run e₀ turns e clock) (hfresh : Fresh e₀) :
    ∀ o ∈ coreOutputs turns, o.newTokenIds ≠ [] → Names (VllmVcr.issued turns) o := by
  have hall : Sound e ∧ Enrolled e ∧ Issued e₀.stepSource (VllmVcr.issued turns) e ∧
      ∀ o ∈ coreOutputs turns, o.newTokenIds ≠ [] → Names (VllmVcr.issued turns) o := by
    apply hrun.turnwise (P := fun turns e _ => Sound e ∧ Enrolled e ∧
      Issued e₀.stepSource (VllmVcr.issued turns) e ∧
        ∀ o ∈ coreOutputs turns, o.newTokenIds ≠ [] → Names (VllmVcr.issued turns) o)
    · refine ⟨hfresh.sound, hfresh.enrolled, hfresh.issued, ?_⟩
      intro o ho
      cases ho
    · rintro turns _ fuel t ⟨hsound, hen, hi, hnames⟩ _ hperform
      obtain ⟨os, hemits, hperm⟩ := perform_emits hperform
      obtain ⟨effects, hpath, hallow, rfl⟩ := hemits.allows
      have hissued := Turn.issued_eq hperform hpath hallow
      have hmoves : Sound t.after ∧ Enrolled t.after ∧
          Issued e₀.stepSource (VllmVcr.issued turns ++ effects.flatMap Effect.issued) t.after ∧
          ∀ o ∈ effects.flatMap Effect.toOutputs, o.newTokenIds ≠ [] →
            Names (VllmVcr.issued turns ++ effects.flatMap Effect.issued) o := by
        apply hpath.history (P := fun effects e => Sound e ∧ Enrolled e ∧
          Issued e₀.stepSource (VllmVcr.issued turns ++ effects.flatMap Effect.issued) e ∧
          ∀ o ∈ effects.flatMap Effect.toOutputs, o.newTokenIds ≠ [] →
            Names (VllmVcr.issued turns ++ effects.flatMap Effect.issued) o)
        · refine ⟨hsound, hen, ?_, ?_⟩
          · rwa [List.flatMap_nil, List.append_nil]
          · intro o ho
            cases ho
        · rintro effects e effect e' ⟨hsound, hen, hi, hnames⟩ hmove
          rw [List.flatMap_append, List.flatMap_append, List.flatMap_singleton,
            List.flatMap_singleton, ← List.append_assoc]
          refine ⟨hmove.sound hsound, hmove.enrolled hsound hen, hmove.issued hsound hen hi, ?_⟩
          intro o ho htokens
          rcases List.mem_append.mp ho with hold | hnew
          · exact (hnames o hold htokens).mono _
          · exact (hmove.names hsound hi o hnew htokens).mono _
      obtain ⟨hsound', hen', hi', hnames'⟩ := hmoves
      have hturn : coreOutputs (turns ++ [t]) = coreOutputs turns ++ coreOf t.outputs := by
        simp [coreOutputs, coreOf]
      rw [VllmVcr.issued, List.flatMap_append, List.flatMap_singleton, ← hissued, hturn]
      refine ⟨hsound', hen', hi', ?_⟩
      intro o ho htokens
      rcases List.mem_append.mp ho with hold | hnew
      · exact (hnames o hold htokens).mono _
      · obtain ⟨o', ho', hbare⟩ := List.mem_map.mp
          (hperm.mem_iff.mp (List.mem_map_of_mem (f := EngineCoreOutput.bare) hnew))
        have htokens' : o'.bare.newTokenIds = o.bare.newTokenIds := by rw [hbare]
        have hticket : o'.bare.ticket = o.bare.ticket := by rw [hbare]
        have hid : o'.bare.requestId = o.bare.requestId := by rw [hbare]
        obtain ⟨k, request, hk, hrequest, hfiled⟩ :=
          hnames' o' ho' (fun hnone => htokens (htokens'.symm.trans hnone))
        exact ⟨k, request, hticket.symm.trans hk, hrequest, hfiled.trans hid⟩
  exact hall.2.2.2

end VllmVcr
