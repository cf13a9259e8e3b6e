import VllmVcr.Engine.Lives

/-!
# The waiting line

What a move does to the queue and to the prefill order when requests are admitted first
come, first served, without an adapter cap and without remote KV. The requests then enter
the batch in the order of their tickets and prefill in the order in which they entered.
-/

namespace VllmVcr

variable {env : Env} {now : Instant} {e e' : SimEngine env} {effect : Effect}

open SimEngine

/-- The settings under which requests are served in the order in which they came. -/
structure SimEngine.FirstCome (e : SimEngine env) : Prop where
  scheduler : e.scheduler = .fcfs
  maxLoras : e.loras.maxLoras = 0
  threshold : e.opt.longPrefillTokenThreshold = 0

/-- The entries of a step change neither the policy nor the prefill order. -/
theorem SimEngine.executeStep_line (step : EngineStep) (e : SimEngine env) :
    (e.executeStep step).scheduler = e.scheduler ∧
      (e.executeStep step).prefillOrder = e.prefillOrder := by
  apply executeStep_preserves
    (I := fun e' => e'.scheduler = e.scheduler ∧ e'.prefillOrder = e.prefillOrder)
  · exact ⟨rfl, rfl⟩
  · exact fun _ _ h => h
  · intro e' d _ h
    unfold completeDecoder
    split
    · exact h
    · exact h
  · intro numRunning e' c _ h
    unfold completeChunk
    split
    · exact h
    · split
      · exact h
      · simp only
        split
        · exact h
        · exact h

@[simp] theorem SimEngine.dequeue_scheduler (i : ℕ) (queued : QueuedRequest) (e : SimEngine env) :
    (e.dequeue i queued).1.scheduler = e.scheduler := rfl

@[simp] theorem SimEngine.activate_scheduler (now : Instant) (id : String)
    (active : ActiveRequest env) (e : SimEngine env) :
    (e.activate now id active).scheduler = e.scheduler := rfl

theorem Move.scheduler (h : Move now e effect e') : e'.scheduler = e.scheduler := by
  cases h with
  | arrivalFailed | arrivalRejected | enqueued | refused | orphaned | drained | adaptersChanged
  | specCleared | statsReset | parked | admitted | promoted | pullRefused | configured =>
      simp [schedulerStats]
  | composed => rfl
  | @withdrawn id e₁ client ticket hwithdraw =>
      rcases withdraw_some hwithdraw with ⟨r, _, _, _, rfl⟩ | ⟨p, _, _, _, rfl⟩ |
        ⟨i, q, _, _, _, _, rfl⟩
      · rw [countAborted_scheduler]
        unfold retire
        split
        · rfl
        · rfl
      · rfl
      · rfl
  | @executed step => exact (executeStep_line step e.takeStep).1
  | flushed =>
      apply flush_preserves (I := fun e' => e'.scheduler = e.scheduler) rfl
      intro e' id he'
      unfold retire
      split
      · exact he'
      · exact he'
  | cacheReset =>
      unfold resetPrefixCache
      split
      · rfl
      · rfl

theorem Move.firstCome (h : Move now e effect e') (he : e.FirstCome) : e'.FirstCome := by
  obtain ⟨hopt, hloras⟩ := h.settings
  refine ⟨h.scheduler.trans he.scheduler, hloras.trans he.maxLoras, ?_⟩
  rcases hopt with hsame | ⟨patch, _, hpatched⟩
  · rw [hsame, he.threshold]
  · rw [hpatched]
    exact he.threshold

/-- First come, first served without an adapter cap: the head of the queue is next. -/
theorem SimEngine.Admissible.first {i : ℕ} {queued : QueuedRequest} (he : e.FirstCome)
    (hadm : e.Admissible i queued) : i = 0 := by
  have hnext := hadm.next
  have hadmits : ∀ q : QueuedRequest, e.loraAdmits q.request = true := by
    intro q
    unfold loraAdmits LoraRegistry.admits
    rw [if_pos he.maxLoras]
  rw [nextAdmissibleIndex, he.scheduler, Scheduler.nextAdmissible] at hnext
  cases hwaiting : e.waiting with
  | nil =>
      rw [hwaiting] at hnext
      cases hnext
  | cons q rest =>
      rw [hwaiting, List.findIdx?_cons, if_pos (hadmits q)] at hnext
      exact (Option.some.inj hnext).symm

/-- A request with a remote descriptor asks for a remote prefill. -/
theorem EngineCoreRequest.prefilledRemotely_of_remote {request : EngineCoreRequest}
    (h : (request.extractKvParams.bind parseRemoteKv).isSome) :
    request.prefilledRemotely = true := by
  obtain ⟨remote, hremote⟩ := Option.isSome_iff_exists.mp h
  obtain ⟨kv, hkv, hparse⟩ := Option.bind_eq_some_iff.mp hremote
  rw [EngineCoreRequest.prefilledRemotely, hkv, Option.any_some]
  unfold parseRemoteKv at hparse
  split at hparse
  · assumption
  · cases hparse

/-- A request whose prompt is computed here starts by prefilling. -/
theorem ActiveRequest.new_phase {engineIndex ticket : ℕ} {request : EngineCoreRequest} {opt : Opt}
    {latency : LatencyModel env.Rng} {admission : AdmissionCtx} {r : ActiveRequest env}
    (h : new engineIndex now request ticket opt latency admission = .ok r)
    (hlocal : request.prefilledRemotely = false) : r.phase ≠ .decode := by
  rw [EngineCoreRequest.prefilledRemotely] at hlocal
  simp only [new] at h
  split at h
  · cases h
  · split at h
    · cases h
    · cases h
      simp [hlocal]

theorem Entry.phase {q : QueuedRequest} {r : ActiveRequest env} (h : Entry now e e' q r)
    (hlocal : q.request.prefilledRemotely = false) : r.phase ≠ .decode := by
  obtain ⟨admission, active, hbuild, rfl⟩ := h.built
  obtain ⟨_, _, _, heq⟩ := active.pinned_eq
    (e.tokenSource.onRequestAdded q.request.requestId q.request.prompt).2
    (handTo e.stepSource q.request).2
  have hphase : active.phase ≠ .decode := ActiveRequest.new_phase hbuild hlocal
  rw [heq]
  exact hphase

/-- A request that enters prefilling joins the end of the prefill order. -/
theorem SimEngine.activate_prefillOrder {id : String} {active r : ActiveRequest env}
    (hr : (e.activate now id active).activeRequests.get? id = some r) (hphase : r.phase ≠ .decode) :
    (e.activate now id active).prefillOrder = e.prefillOrder ++ [id] := by
  have hinsert : (e.activate now id active).activeRequests = e.activeRequests.insert id
      (active.pinned (e.tokenSource.onRequestAdded active.requestId active.promptTokenIds).2
        (e.takeSchedule active.requestId active.promptTokenIds).2) := rfl
  rw [hinsert, SortedMap.get?_insert_self, Option.some.injEq] at hr
  cases hpinned : r.phase with
  | decode => exact absurd hpinned hphase
  | prefill remaining =>
      rw [← hr] at hpinned
      unfold activate
      dsimp only
      rw [ActiveRequest.pinned] at hpinned
      rw [hpinned]
      rfl

/-! ## One move -/

/-- What a move does to the queue and the prefill order, when nobody waits for remote KV. -/
inductive LineChange (now : Instant) (e : SimEngine env) : Effect → SimEngine env → Prop
  | kept {effect : Effect} {e' : SimEngine env} (hissued : effect.issued = [])
      (hadmissions : e'.admissions = e.admissions) (hwaiting : e'.waiting.Sublist e.waiting)
      (hpulls : e'.pendingPulls = e.pendingPulls)
      (horder : e'.prefillOrder = e.prefillOrder ∨ e'.prefillOrder = e.prunedOrder) :
      LineChange now e effect e'
  | joined {request : EngineCoreRequest} {e' : SimEngine env}
      (hadmissions : e'.admissions = e.admissions)
      (hwaiting : e'.waiting = e.waiting ++ [⟨request, now, e.nextTicket⟩])
      (hpulls : e'.pendingPulls = e.pendingPulls) (horder : e'.prefillOrder = e.prefillOrder) :
      LineChange now e (.accepted request) e'
  | entered {effect : Effect} {e' : SimEngine env} {q : QueuedRequest} {r : ActiveRequest env}
      (hissued : effect.issued = []) (hwaiting : e.waiting = q :: e'.waiting)
      (hpulls : e'.pendingPulls = e.pendingPulls) (hentry : Entry now e e' q r)
      (hphase : r.phase ≠ .decode)
      (horder : e'.prefillOrder = e.prefillOrder ++ [q.request.requestId]) :
      LineChange now e effect e'

theorem SimEngine.admissions_congr (h : e'.journal = e.journal) :
    e'.admissions = e.admissions := by rw [admissions, h, admissions]

theorem Move.line (h : Move now e effect e') (he : e.FirstCome)
    (hlocal : ∀ q ∈ e.waiting, q.request.prefilledRemotely = false)
    (hpulls : ∀ id, e.pendingPulls.get? id = none) : LineChange now e effect e' := by
  cases h with
  | arrivalFailed | arrivalRejected | configured | adaptersChanged | specCleared | statsReset
  | orphaned | drained =>
      apply LineChange.kept rfl (admissions_congr (by simp [schedulerStats]))
      · simp [schedulerStats]
      · simp [schedulerStats]
      · left
        simp [schedulerStats]
  | cacheReset =>
      unfold resetPrefixCache
      split
      · exact .kept rfl rfl (List.Sublist.refl _) rfl (Or.inl rfl)
      · exact .kept rfl rfl (List.Sublist.refl _) rfl (Or.inl rfl)
  | enqueued rng request =>
      exact .joined (admissions_congr (by simp)) (by simp) (by simp) (by simp)
  | @parked i queued hadm hremote =>
      have hflag := EngineCoreRequest.prefilledRemotely_of_remote hremote
      rw [hlocal queued (List.mem_of_getElem? hadm.waiting)] at hflag
      cases hflag
  | @admitted i queued hadm active hbuild =>
      obtain ⟨r, hentry⟩ := hadm.entry hbuild
      have hphase := hentry.phase (hlocal queued (List.mem_of_getElem? hadm.waiting))
      have hget := hentry.active
      have hqueue : e.waiting = queued :: e.waiting.eraseIdx i := by
        have hhead := hadm.waiting
        rw [hadm.first he] at hhead ⊢
        cases hwaiting : e.waiting with
        | nil =>
            rw [hwaiting] at hhead
            cases hhead
        | cons q rest =>
            rw [hwaiting] at hhead
            cases hhead
            rfl
      refine .entered rfl (by simpa using hqueue) (by simp) hentry hphase ?_
      have hlast := activate_prefillOrder (hget ▸ SortedMap.get?_insert_self _ _ _) hphase
      rw [hlast, pruneBigAdmissions_prefillOrder, dequeue_prefillOrder]
  | @refused i queued hadm reason =>
      have hrest := List.eraseIdx_sublist e.waiting i
      refine .kept rfl ?_ (by simpa using hrest) (by simp) (Or.inl (by simp))
      have hcached := dequeue_journal i queued e
      rw [← (e.dequeue i queued).1.pruneBigAdmissions_journal now, ← countFailed_journal,
        ← failAdmission_journal (e.dequeue i queued).2.blockIds] at hcached
      rw [admissions_append hcached]
      exact List.append_nil _
  | promoted htask hpending | pullRefused htask hpending =>
      rw [hpulls] at hpending
      cases hpending
  | @withdrawn id e₁ client ticket hwithdraw =>
      rcases withdraw_some hwithdraw with ⟨r, _, _, _, rfl⟩ | ⟨p, hp, _, _, rfl⟩ |
        ⟨i, q, _, _, _, _, rfl⟩
      · have hkept := retire_flushed (.refl e) id
        exact .kept rfl (admissions_congr hkept.journal) (hkept.waiting ▸ List.Sublist.refl _)
          hkept.pendingPulls (Or.inl hkept.prefillOrder)
      · rw [hpulls] at hp
        cases hp
      · exact .kept rfl rfl (List.eraseIdx_sublist _ i) rfl (Or.inl rfl)
  | composed anchor => exact .kept rfl rfl (List.Sublist.refl _) rfl (Or.inr e.prunePrefills_order)
  | @executed step =>
      have hprog := e.takeStep.executeStep_progress step
      refine .kept rfl ?_ (hprog.waiting ▸ List.Sublist.refl _) hprog.pendingPulls (Or.inl ?_)
      · exact executeStep_journal _ step e.takeStep rfl (fun _ _ _ => rfl) (fun _ => rfl)
      · exact (executeStep_line step e.takeStep).2
  | flushed =>
      have hflushed := e.flush_flushed now
      exact .kept rfl (admissions_congr hflushed.journal) (hflushed.waiting ▸ List.Sublist.refl _)
        hflushed.pendingPulls (Or.inl hflushed.prefillOrder)

/-! ## The order of entry -/

/-- The id of the request accepted under a ticket. -/
def idOf (requests : List EngineCoreRequest) (ticket : ℕ) : Option String :=
  requests[ticket]?.map EngineCoreRequest.requestId

theorem map_idOf_append {requests : List EngineCoreRequest} (more : List EngineCoreRequest)
    {tickets : List ℕ} (h : ∀ k ∈ tickets, k < requests.length) :
    tickets.map (idOf (requests ++ more)) = tickets.map (idOf requests) := by
  apply List.map_congr_left
  intro k hk
  rw [idOf, List.getElem?_append_left (h k hk), idOf]

/-- Under distinct ids, an id belongs to one ticket. -/
theorem idOf_inj {requests : List EngineCoreRequest}
    (hids : (requests.map EngineCoreRequest.requestId).Nodup) {k k' : ℕ} {id : String}
    (hk : idOf requests k = some id) (hk' : idOf requests k' = some id) : k = k' := by
  rw [idOf, ← List.getElem?_map] at hk hk'
  obtain ⟨hlt, _⟩ := List.getElem?_eq_some_iff.mp hk
  by_contra hne
  rcases Nat.lt_or_gt_of_ne hne with hless | hmore
  · obtain ⟨hbound, _⟩ := List.getElem?_eq_some_iff.mp hk'
    exact List.nodup_iff_getElem?_ne_getElem?.mp hids k k' hless hbound (hk.trans hk'.symm)
  · exact List.nodup_iff_getElem?_ne_getElem?.mp hids k' k hmore hlt (hk'.trans hk.symm)

/-- Requests enter in the order of their tickets, and prefill in the order of entry. -/
structure Lined (requests : List EngineCoreRequest) (e : SimEngine env) : Prop where
  settings : e.FirstCome
  pulls : ∀ id, e.pendingPulls.get? id = none
  line : (e.admissions ++ e.waiting.map QueuedRequest.ticket).Pairwise (· < ·)
  order : (e.prefillOrder.map some).Sublist (e.admissions.map (idOf requests))
  listed : ∀ id r, e.activeRequests.get? id = some r → r.phase ≠ .decode → id ∈ e.prefillOrder
  inFlight : ∀ step, e.currentStep = some step → ∀ id, step.lists id = true →
    some id ∈ e.admissions.map (idOf requests)
  own : ∀ k, e.intruded k = false

theorem Fresh.lined (h : Fresh e) (hscheduler : e.opt.schedulingPolicy = .fcfs)
    (hloras : e.opt.maxLoras = 0) (hthreshold : e.opt.longPrefillTokenThreshold = 0) :
    Lined [] e := by
  obtain ⟨engineIndex, opt, tokenSource, stepSource, hnew⟩ := h
  obtain ⟨latency, _, rfl⟩ := except_map_eq_ok hnew
  refine ⟨⟨hscheduler, hloras, hthreshold⟩, by simp, List.Pairwise.nil, List.Sublist.refl _, ?_, ?_,
    fun _ => rfl⟩
  · intro id r hr
    cases hr
  · intro step hstep
    cases hstep

/-- Who prefills in `e'` prefilled in `e`. -/
def SimEngine.FillsFrom (e e' : SimEngine env) : Prop :=
  ∀ id r', e'.activeRequests.get? id = some r' → r'.phase ≠ .decode →
    ∃ r, e.activeRequests.get? id = some r ∧ r'.ticket = r.ticket ∧ r.phase ≠ .decode

theorem SimEngine.Stands.fillsFrom (h : e.Stands e') : e.FillsFrom e' := by
  intro id r' hr' hphase
  obtain ⟨r, hr, hticket, hsame⟩ := h id r' hr'
  exact ⟨r, hr, hticket, hsame ▸ hphase⟩

theorem SimEngine.FillsFrom.insert {e₁ : SimEngine env} {id : String} {r r' : ActiveRequest env}
    (h : e.FillsFrom e₁) (hr : e₁.activeRequests.get? id = some r)
    (hactive : e'.activeRequests = e₁.activeRequests.insert id r') (hticket : r'.ticket = r.ticket)
    (hphase : r'.phase ≠ .decode → r.phase ≠ .decode) : e.FillsFrom e' := by
  intro id' s hs hprefills
  rw [hactive, SortedMap.get?_insert] at hs
  split at hs
  · next hid =>
      cases hs
      obtain ⟨r₀, hr₀, hticket₀, hphase₀⟩ := h id r hr (hphase hprefills)
      exact ⟨r₀, hid ▸ hr₀, hticket.trans hticket₀, hphase₀⟩
  · exact h id' s hs hprefills

theorem SimEngine.executeStep_fillsFrom (step : EngineStep) (e : SimEngine env) :
    e.FillsFrom (e.executeStep step) := by
  apply executeStep_preserves (I := e.FillsFrom)
  · exact fun id r hr hphase => ⟨r, hr, rfl, hphase⟩
  · exact fun _ _ h => h
  · intro e' d _ h
    unfold completeDecoder
    split
    · exact h
    · next r hr =>
        obtain ⟨r', hactive, hticket, hphase⟩ := e'.generateFor_active step.endsAt d.requestId
          d.ticket true (if 1 < d.tokens then d.tokens else e'.opt.outputTokenChunkSize) r
        exact h.insert hr hactive hticket (fun hprefills => hphase ▸ hprefills)
  · intro numRunning e' c _ h
    unfold completeChunk
    split
    · exact h
    · next r hr =>
        split
        · exact h
        · next remaining hphase =>
            have hprefills : r.phase ≠ .decode := by simp [hphase]
            simp only
            split
            · exact h.insert hr rfl rfl (fun _ => hprefills)
            · obtain ⟨r', hactive, hticket, _⟩ := generateFor_active step.endsAt c.requestId
                c.ticket false _ (SimEngine.startDecode _ numRunning r)
                (e'.log (.chunked c.ticket r.ticket c.take))
              exact h.insert hr hactive hticket (fun _ => hprefills)

/-- Without an entry, who prefills after a move prefilled before it. -/
theorem Move.fillsFrom (h : Move now e effect e') (he : Sound e)
    (hkept : e'.admissions = e.admissions) : e.FillsFrom e' := by
  cases h.batch he with
  | still _ hactive =>
      apply SimEngine.Stands.fillsFrom
      exact fun id r' hr' => ⟨r', hactive ▸ hr', rfl, rfl⟩
  | entered _ _ _ _ _ _ _ hjournal =>
      rw [admissions_append ((List.append_assoc _ _ _).symm ▸ hjournal)] at hkept
      simp [Event.admission] at hkept
  | withdrew _ hactive => exact (stands_of_erase hactive).fillsFrom
  | composed anchor => exact (composeStep_stands anchor e).fillsFrom
  | @executed step => exact executeStep_fillsFrom step e.takeStep
  | flushed => exact (flush_stands he.active now).fillsFrom

/-- A composed step lists requests of the batch only. -/
theorem SimEngine.composeStep_lists {anchor : Instant} {step : EngineStep} (hfiled : e.ActiveFiled)
    (hidle : e.currentStep = none) (hstep : (e.composeStep anchor).currentStep = some step)
    {id : String} (hlists : step.lists id = true) : ∃ r, e.activeRequests.get? id = some r := by
  rw [EngineStep.lists, Bool.or_eq_true, List.any_eq_true, List.any_eq_true] at hlists
  obtain ⟨hdecoders, hchunks⟩ := composeStep_step hidle hstep
  rcases hlists with ⟨d, hd, hid⟩ | ⟨c, hc, hid⟩
  · rw [hdecoders] at hd
    obtain ⟨r, hr, rfl⟩ := List.mem_map.mp hd
    obtain ⟨id', hget⟩ := SortedMap.mem_values.mp (List.mem_filter.mp hr).1
    have hsame : id = id' := (of_decide_eq_true hid).symm.trans (hfiled id' r hget)
    exact ⟨r, hsame ▸ hget⟩
  · rw [hchunks] at hc
    obtain ⟨r', _, hr', _⟩ := mem_planChunks hc
    obtain ⟨r, hr, _⟩ := composeStep_stands anchor e c.requestId r' hr'
    exact ⟨r, of_decide_eq_true hid ▸ hr⟩

namespace Lined

variable {source : Option StepSource} {requests : List EngineCoreRequest}

/-- A request of a new id is not listed by the in-flight step. -/
theorem not_listed (hl : Lined requests e) (hen : Enrolled e) (hi : Issued source requests e)
    (hids : (requests.map EngineCoreRequest.requestId).Nodup) {q : QueuedRequest}
    (hq : e.Waits q) : e.currentStep.any (EngineStep.lists · q.request.requestId) = false := by
  rw [← Bool.not_eq_true]
  intro hlisted
  obtain ⟨step, hstep, hlists⟩ := (Option.any_eq_true _ _).mp hlisted
  obtain ⟨k, hk, hid⟩ := List.mem_map.mp (hl.inFlight step hstep _ hlists)
  have hqid : idOf requests q.ticket = some q.request.requestId := by
    rw [idOf, hi.waits q hq, Option.map_some]
  have hsame : k = q.ticket := idOf_inj hids hid hqid
  exact hen.queued k hk (queued_iff.mpr ⟨q, hq, hsame.symm⟩)

theorem line_change (hl : Lined requests e) (he : Sound e) (hen : Enrolled e)
    (hc : LineChange now e effect e') :
    (e'.admissions ++ e'.waiting.map QueuedRequest.ticket).Pairwise (· < ·) := by
  cases hc with
  | kept _ hadmissions hwaiting =>
      rw [hadmissions]
      exact hl.line.sublist ((List.Sublist.refl _).append (hwaiting.map _))
  | joined hadmissions hwaiting =>
      rw [hadmissions, hwaiting, List.map_append, ← List.append_assoc]
      apply List.pairwise_append.mpr ⟨hl.line, List.pairwise_singleton _ _, ?_⟩
      intro k hk k' hk'
      cases List.mem_singleton.mp hk'
      rcases List.mem_append.mp hk with hadmitted | hwaits
      · exact hen.issued k hadmitted
      · obtain ⟨q, hq, rfl⟩ := List.mem_map.mp hwaits
        exact he.ticket_lt _ (mem_live_waiting hq)
  | entered _ hwaiting _ hentry =>
      have hline := hl.line
      rw [hwaiting, List.map_cons] at hline
      rw [hentry.admissions, List.append_assoc]
      exact hline

theorem order_change (hl : Lined requests e) (hen : Enrolled e) (hi : Issued source requests e)
    (hc : LineChange now e effect e') : (e'.prefillOrder.map some).Sublist
      (e'.admissions.map (idOf (requests ++ effect.issued))) := by
  have hlt : ∀ k ∈ e.admissions, k < requests.length := fun k hk => hi.length ▸ hen.issued k hk
  cases hc with
  | kept _ hadmissions _ _ horder =>
      rw [hadmissions, map_idOf_append _ hlt]
      rcases horder with hsame | hpruned
      · exact hsame ▸ hl.order
      · rw [hpruned]
        exact (List.filter_sublist.map _).trans hl.order
  | joined hadmissions _ _ horder =>
      rw [hadmissions, map_idOf_append _ hlt, horder]
      exact hl.order
  | @entered _ _ q r hissued _ _ hentry _ horder =>
      have hid : idOf requests q.ticket = some q.request.requestId := by
        rw [idOf, hi.waits q hentry.waits, Option.map_some]
      rw [hissued, List.append_nil, horder, hentry.admissions, List.map_append, List.map_append,
        List.map_singleton, List.map_singleton, hid]
      exact hl.order.append (List.Sublist.refl _)

theorem listed_change (hl : Lined requests e) (he : Sound e) (h : Move now e effect e')
    (hc : LineChange now e effect e') {id : String} {r' : ActiveRequest env}
    (hr' : e'.activeRequests.get? id = some r') (hphase : r'.phase ≠ .decode) :
    id ∈ e'.prefillOrder := by
  cases hc with
  | kept _ hadmissions _ _ horder =>
      obtain ⟨r, hr, _, hprefills⟩ := h.fillsFrom he hadmissions id r' hr' hphase
      have hlisted := hl.listed id r hr hprefills
      rcases horder with hsame | hpruned
      · exact hsame ▸ hlisted
      · rw [hpruned]
        apply List.mem_filter.mpr ⟨hlisted, ?_⟩
        rw [isPrefilling, hr, Option.any_some]
        exact decide_eq_true hprefills
  | joined hadmissions _ _ horder =>
      obtain ⟨r, hr, _, hprefills⟩ := h.fillsFrom he hadmissions id r' hr' hphase
      exact horder ▸ hl.listed id r hr hprefills
  | entered _ _ _ hentry _ horder =>
      rw [hentry.active, SortedMap.get?_insert] at hr'
      rw [horder, List.mem_append, List.mem_singleton]
      split at hr'
      · next hid => exact Or.inr hid
      · exact Or.inl (hl.listed id r' hr' hphase)

theorem admissions_change (hen : Enrolled e) (hi : Issued source requests e)
    (hc : LineChange now e effect e') {id : String}
    (hid : some id ∈ e.admissions.map (idOf requests)) :
    some id ∈ e'.admissions.map (idOf (requests ++ effect.issued)) := by
  have hlt : ∀ k ∈ e.admissions, k < requests.length := fun k hk => hi.length ▸ hen.issued k hk
  rw [← map_idOf_append effect.issued hlt] at hid
  cases hc with
  | kept _ hadmissions => exact hadmissions ▸ hid
  | joined hadmissions => exact hadmissions ▸ hid
  | entered _ _ _ hentry =>
      rw [hentry.admissions, List.map_append]
      exact List.mem_append_left _ hid

theorem own_change (hl : Lined requests e) (he : Sound e) (hen : Enrolled e)
    (hi : Issued source requests e) (hids : (requests.map EngineCoreRequest.requestId).Nodup)
    (h : Move now e effect e') (k : ℕ) : e'.intruded k = false := by
  cases h.batch he with
  | still _ _ _ _ hjournal hquiet =>
      rw [intruded_append k hjournal hquiet]
      exact hl.own k
  | entered _ _ _ hqueued hactive hstep _ hjournal hquiet =>
      rcases h.entry he with ⟨hkept, _⟩ | ⟨q, r, hentry⟩
      · rw [admissions_append ((List.append_assoc _ _ _).symm ▸ hjournal)] at hkept
        simp [Event.admission] at hkept
      · obtain ⟨pre, post, hquiet', hjournal'⟩ := hentry.journal
        rw [← Bool.not_eq_true, intruded_entered k hjournal' hquiet',
          hl.not_listed hen hi hids hentry.waits]
        simp [hl.own k]
  | withdrew _ _ _ _ hjournal =>
      rw [intruded, hjournal]
      exact hl.own k
  | composed => exact hl.own k
  | @executed step =>
      rw [executeStep_intruded]
      exact hl.own k
  | flushed =>
      rw [intruded, (e.flush_flushed now).journal]
      exact hl.own k

end Lined

theorem Move.lined {source : Option StepSource} {requests : List EngineCoreRequest}
    (h : Move now e effect e') (he : Sound e) (hen : Enrolled e) (hi : Issued source requests e)
    (hlocal : ∀ request ∈ requests, request.prefilledRemotely = false)
    (hids : (requests.map EngineCoreRequest.requestId).Nodup) (hl : Lined requests e) :
    LineChange now e effect e' ∧ Lined (requests ++ effect.issued) e' := by
  have hc : LineChange now e effect e' :=
    h.line hl.settings (fun q hq => hlocal _ (List.mem_of_getElem? (hi.waits q (Or.inr hq))))
      hl.pulls
  refine ⟨hc, h.firstCome hl.settings, ?_, hl.line_change he hen hc, hl.order_change hen hi hc,
    fun id r' hr' => hl.listed_change he h hc hr', ?_, hl.own_change he hen hi hids h⟩
  · cases hc with
    | kept _ _ _ hpulls => exact hpulls ▸ hl.pulls
    | joined _ _ hpulls => exact hpulls ▸ hl.pulls
    | entered _ _ hpulls => exact hpulls ▸ hl.pulls
  · intro step hstep id hlists
    apply Lined.admissions_change hen hi hc
    cases h.batch he with
    | still _ _ hsame => exact hl.inFlight step (hsame ▸ hstep) id hlists
    | entered _ _ _ _ _ hsame => exact hl.inFlight step (hsame ▸ hstep) id hlists
    | withdrew _ _ hsame => exact hl.inFlight step (hsame ▸ hstep) id hlists
    | composed anchor hidle =>
        obtain ⟨r, hr⟩ := composeStep_lists he.active hidle hstep hlists
        obtain ⟨request, hrequest, hid⟩ := hi.active id r hr
        apply List.mem_map.mpr ⟨r.ticket, hen.active id r hr, ?_⟩
        rw [idOf, hrequest, Option.map_some, hid]
    | @executed step' =>
        rw [executeStep_currentStep step' e.takeStep] at hstep
        cases hstep
    | flushed => exact hl.inFlight step ((e.flush_flushed now).currentStep ▸ hstep) id hlists

end VllmVcr
