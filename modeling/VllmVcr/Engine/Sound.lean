import VllmVcr.Engine.Flush

/-!
# What every reachable engine satisfies

No move loses or duplicates a live request: it closes some, each by one finishing output
under its id and ticket, or it enqueues a new one.
-/

namespace VllmVcr

variable {env : Env}

/-- The requests that a list of outputs finishes. -/
def closed (os : List EngineCoreOutput) : List (String × Option ℕ) :=
  (os.filter (fun o => o.finishReason.isSome)).map (fun o => (o.requestId, o.ticket))

@[simp] theorem closed_nil : closed [] = [] := rfl

@[simp] theorem closed_terminal (ticket : Option ℕ) (id : String) (reason : FinishReason) :
    closed [terminalOutput ticket id reason] = [(id, ticket)] := rfl

@[simp] theorem closed_append (os os' : List EngineCoreOutput) :
    closed (os ++ os') = closed os ++ closed os' := by
  simp [closed]

namespace SimEngine

/-! ## Single functions -/

theorem activate_active (now : Instant) (id : String) (r : ActiveRequest env) (e : SimEngine env) :
    ∃ maxTokens scripted, maxTokens ≤ r.maxTokens ∧
      (e.activate now id r).activeRequests = e.activeRequests.insert id
        { r with maxTokens := maxTokens, scriptedDecode := scripted } := by
  obtain ⟨maxTokens, scripted, hle, heq⟩ := r.pinned_eq
    (e.tokenSource.onRequestAdded r.requestId r.promptTokenIds).2
    (e.takeSchedule r.requestId r.promptTokenIds).2
  exact ⟨maxTokens, scripted, hle, congrArg (e.activeRequests.insert id) heq⟩

theorem buildRequest_ok {now : Instant} {queued : QueuedRequest} {blockIds : List ℕ}
    {numLocalCached : ℕ} {e : SimEngine env} {r : ActiveRequest env}
    (h : e.buildRequest now queued blockIds numLocalCached = .ok r) :
    r.BuiltFrom queued blockIds := ActiveRequest.new_ok h

theorem live_insert {e e' : SimEngine env} {id : String} {r : ActiveRequest env}
    (hnone : e.activeRequests.get? id = none)
    (hactive : e'.activeRequests = e.activeRequests.insert id r)
    (hpending : e'.pendingPulls = e.pendingPulls) (hwaiting : e'.waiting = e.waiting) :
    e'.live.Perm ((id, r.ticket) :: e.live) := by
  have hperm := SortedMap.insert_perm e.activeRequests id r
  rw [SortedMap.erase_of_none hnone] at hperm
  rw [live, hactive, hpending, hwaiting]
  exact (hperm.map _).append_right _

theorem live_activate (now : Instant) {id : String} {r : ActiveRequest env} {e : SimEngine env}
    (hnone : e.activeRequests.get? id = none) :
    (e.activate now id r).live.Perm ((id, r.ticket) :: e.live) := by
  obtain ⟨maxTokens, scripted, _, hactive⟩ := e.activate_active now id r
  exact live_insert (r := { r with maxTokens := maxTokens, scriptedDecode := scripted }) hnone
    hactive rfl rfl

theorem live_park {queued : QueuedRequest} (outcome : CacheOutcome) {e : SimEngine env}
    (hnone : e.pendingPulls.get? queued.request.requestId = none) :
    (e.park queued outcome).live.Perm ((queued.request.requestId, queued.ticket) :: e.live) := by
  have hperm := SortedMap.insert_perm e.pendingPulls queued.request.requestId
    ⟨queued, outcome.blockIds, outcome.numCachedTokens, queued.request.clientIndex,
      queued.request.requestLoraName⟩
  rw [SortedMap.erase_of_none hnone] at hperm
  refine List.Perm.trans ?_ List.perm_middle
  exact List.Perm.append_left _ ((hperm.map _).append_right _)

theorem live_dequeue {i : ℕ} {queued : QueuedRequest} {e : SimEngine env}
    (hget : e.waiting[i]? = some queued) :
    e.live.Perm ((queued.request.requestId, queued.ticket) :: (e.dequeue i queued).1.live) := by
  obtain ⟨hlt, hq⟩ := List.getElem?_eq_some_iff.mp hget
  have hperm := (List.getElem_cons_eraseIdx_perm hlt).symm
  rw [hq] at hperm
  refine List.Perm.trans ?_ List.perm_middle
  refine List.Perm.append_left _ ?_
  refine List.Perm.trans ?_ List.perm_middle
  exact List.Perm.append_left _ (hperm.map _)

theorem live_erase_pending {e e' : SimEngine env} {id : String} {p : PendingPull}
    (hget : e.pendingPulls.get? id = some p) (hactive : e'.activeRequests = e.activeRequests)
    (hpending : e'.pendingPulls = e.pendingPulls.erase id) (hwaiting : e'.waiting = e.waiting) :
    e.live.Perm ((id, p.queued.ticket) :: e'.live) := by
  rw [live, live, hactive, hpending, hwaiting]
  refine List.Perm.trans ?_ List.perm_middle
  exact List.Perm.append_left _ (((SortedMap.perm_erase hget).map _).append_right _)

theorem live_retire {e : SimEngine env} {id : String} {r : ActiveRequest env}
    (hget : e.activeRequests.get? id = some r) :
    e.live.Perm ((id, r.ticket) :: (e.retire id).live) := by
  have hretire : (e.retire id).live =
      (e.activeRequests.erase id).entries.map (fun a => (a.1, a.2.ticket)) ++
        (e.pendingPulls.entries.map (fun p => (p.1, p.2.queued.ticket)) ++
          e.waiting.map (fun q => (q.request.requestId, q.ticket))) := by
    simp only [retire, hget]
    rfl
  rw [hretire]
  exact (((SortedMap.perm_erase hget).map _).append_right _)

/-- A request is withdrawn from the batch, from the pending pulls or from the queue. -/
theorem withdraw_some {e e' : SimEngine env} {id : String} {client ticket : ℕ}
    (h : e.withdraw id = (e', some (client, ticket))) :
    (∃ r, e.activeRequests.get? id = some r ∧ client = r.clientIndex ∧ ticket = r.ticket ∧
      e' = e.retire id) ∨
    (∃ p, e.pendingPulls.get? id = some p ∧ client = p.clientIndex ∧ ticket = p.queued.ticket ∧
      e' = { e with
        pendingPulls := e.pendingPulls.erase id
        pool := e.pool.unpin p.blockIds }) ∨
    ∃ i q, e.waiting[i]? = some q ∧ q.request.requestId = id ∧ client = q.request.clientIndex ∧
      ticket = q.ticket ∧ e' = e.removeWaiting i := by
  unfold withdraw at h
  split at h
  · next r hr =>
      cases h
      exact Or.inl ⟨r, hr, rfl, rfl, rfl⟩
  · split at h
    · next p hp =>
        cases h
        exact Or.inr (Or.inl ⟨p, hp, rfl, rfl, rfl⟩)
    · split at h
      · next i hi =>
          obtain ⟨hlt, hid, _⟩ := List.findIdx?_eq_some_iff_getElem.mp hi
          have hget : e.waiting[i]? = some e.waiting[i] := List.getElem?_eq_getElem hlt
          rw [hget] at h
          cases h
          exact Or.inr (Or.inr ⟨i, _, hget, of_decide_eq_true hid, rfl, rfl, rfl⟩)
      · cases h

theorem withdraw_live {e e' : SimEngine env} {id : String} {client ticket : ℕ}
    (h : e.withdraw id = (e', some (client, ticket))) : e.live.Perm ((id, ticket) :: e'.live) := by
  rcases withdraw_some h with ⟨r, hr, _, rfl, rfl⟩ | ⟨p, hp, _, rfl, rfl⟩ |
    ⟨i, q, hq, rfl, _, rfl, rfl⟩
  · exact live_retire hr
  · exact live_erase_pending hp rfl rfl rfl
  · exact live_dequeue hq

end SimEngine

theorem Progress.live {e e' : SimEngine env} (h : Progress e e') : e'.live = e.live := by
  have hactive : e.activeRequests.entries.map (fun a => (a.1, a.2.ticket)) =
      e'.activeRequests.entries.map (fun a => (a.1, a.2.ticket)) :=
    h.active.map_entries_eq (f := fun id r => (id, r.ticket)) (g := fun id r => (id, r.ticket))
      (fun id r r' hr => by rw [hr.ticket])
  rw [SimEngine.live, SimEngine.live, ← hactive, h.pendingPulls, h.waiting]

namespace SimEngine

/-- The live requests that a flush finishes. -/
def flushed (now : Instant) (e : SimEngine env) : List (String × ℕ) :=
  (e.activeRequests.filter (fun _ r => r.finishes e.tokenSource now)).entries.map
    (fun a => (a.1, a.2.ticket))

theorem flush_live {e : SimEngine env} (hfiled : e.ActiveFiled) (now : Instant) :
    e.live.Perm (e.flushed now ++ (e.flush now).1.live) := by
  obtain ⟨hpending, hwaiting, _⟩ := e.flush_flushed now
  have hstay : (e.flush now).1.activeRequests.entries.map (fun a => (a.1, a.2.ticket)) =
      (e.activeRequests.entries.filter (fun a => !a.2.finishes e.tokenSource now)).map
        (fun a => (a.1, a.2.ticket)) := by
    rw [flush_active hfiled, SortedMap.mapValues, List.map_map, SortedMap.filter]
    refine List.map_congr_left (fun a _ => ?_)
    simp only [Function.comp_apply, ActiveRequest.emitDue, ActiveRequest.emitQueue_request]
  have hsplit := (List.filter_append_perm (fun a => a.2.finishes e.tokenSource now)
    e.activeRequests.entries).symm.map (fun a => (a.1, a.2.ticket))
  rw [List.map_append, ← hstay] at hsplit
  rw [live, live, hpending, hwaiting, ← List.append_assoc (e.flushed now)]
  exact hsplit.append_right _

theorem finishing_shown {e : SimEngine env} {id : String} {r : ActiveRequest env} (hok : r.Ok)
    (hid : r.requestId = id) (now : Instant) :
    closed ((r.emitDue e.tokenSource now).2.map DueEmit.output) =
      if r.finishes e.tokenSource now then [(id, some r.ticket)] else [] := by
  have hshown := r.emitQueue_shown e.tokenSource now r.pendingEmits
  have hlen := hok.finished_length e.tokenSource now
  have hfilter : ((r.emitDue e.tokenSource now).2.map DueEmit.output).filter
      (fun o => o.finishReason.isSome) =
        ((r.emitDue e.tokenSource now).2.filter DueEmit.finished).map DueEmit.output := by
    rw [List.filter_map]
    refine congrArg _ (List.filter_congr (fun d hd => ?_))
    rw [(hshown d hd).finished, Function.comp_apply]
  rw [closed, hfilter, List.map_map]
  split at hlen
  · next hfin =>
      obtain ⟨d, hd⟩ := List.length_eq_one_iff.mp hlen
      have hmem : d ∈ (r.emitDue e.tokenSource now).2 := List.mem_of_mem_filter (hd ▸ List.mem_singleton_self d)
      rw [hd, if_pos hfin, List.map_singleton, Function.comp_apply, (hshown d hmem).requestId,
        (hshown d hmem).ticket, hid]
  · next hfin =>
      rw [List.length_eq_zero_iff.mp hlen, if_neg hfin, List.map_nil]

theorem closed_flush {e : SimEngine env} (hfiled : e.ActiveFiled)
    (hok : ∀ id r, e.activeRequests.get? id = some r → r.Ok) (now : Instant) :
    closed ((e.dueEmits now).map DueEmit.output) =
      (e.flushed now).map (fun x => (x.1, some x.2)) := by
  have hentries : ∀ a ∈ e.activeRequests.entries,
      closed ((a.2.emitDue e.tokenSource now).2.map DueEmit.output) =
        if a.2.finishes e.tokenSource now then [(a.1, some a.2.ticket)] else [] :=
    fun a ha => finishing_shown (hok a.1 a.2 (SortedMap.mem_entries.mp ha))
      (hfiled a.1 a.2 (SortedMap.mem_entries.mp ha)) now
  change closed (((e.activeRequests.entries.map Prod.snd).flatMap
      (fun r => (r.emitDue e.tokenSource now).2)).map DueEmit.output) =
    ((e.activeRequests.entries.filter (fun a => a.2.finishes e.tokenSource now)).map
      (fun a => (a.1, a.2.ticket))).map (fun x => (x.1, some x.2))
  generalize e.activeRequests.entries = entries at hentries ⊢
  induction entries with
  | nil => rfl
  | cons a l ih =>
      rw [List.map_cons, List.flatMap_cons, List.map_append, closed_append,
        hentries a List.mem_cons_self, ih (fun b hb => hentries b (List.mem_cons_of_mem _ hb)),
        List.filter_cons]
      split <;> rfl

end SimEngine

/-! ## The invariant -/

/-- Requests are filed under their own ids, and the account of each is in order. -/
structure Filed (e : SimEngine env) : Prop where
  active : e.ActiveFiled
  pending : ∀ id p, e.pendingPulls.get? id = some p → p.queued.request.requestId = id
  ok : ∀ id r, e.activeRequests.get? id = some r → r.Ok

structure Sound (e : SimEngine env) : Prop extends Filed e where
  ids : (e.live.map Prod.fst).Nodup
  tickets : (e.live.map Prod.snd).Nodup
  ticket_lt : ∀ x ∈ e.live, x.2 < e.nextTicket

theorem Fresh.sound {e : SimEngine env} (h : Fresh e) : Sound e := by
  obtain ⟨engineIndex, opt, tokenSource, stepSource, hnew⟩ := h
  obtain ⟨latency, _, rfl⟩ := except_map_eq_ok hnew
  exact ⟨⟨by simp [SimEngine.ActiveFiled], by simp, by simp⟩, List.nodup_nil, List.nodup_nil,
    by simp [SimEngine.live]⟩

namespace Filed

variable {e e' : SimEngine env}

theorem congr (h : Filed e) (hactive : e'.activeRequests = e.activeRequests)
    (hpending : e'.pendingPulls = e.pendingPulls) : Filed e' :=
  ⟨fun id r hr => h.active id r (hactive ▸ hr), fun id p hp => h.pending id p (hpending ▸ hp),
    fun id r hr => h.ok id r (hactive ▸ hr)⟩

theorem progress (h : Filed e) (hp : Progress e e') : Filed e' where
  active := fun id r' hr' => by
    obtain ⟨r, hr, hprog⟩ := hp.active.right hr'
    exact hprog.requestId.trans (h.active id r hr)
  pending := fun id p hget => h.pending id p (hp.pendingPulls ▸ hget)
  ok := fun id r' hr' => by
    obtain ⟨r, hr, hprog⟩ := hp.active.right hr'
    exact hprog.ok (h.ok id r hr)

theorem activate (h : Filed e) {now : Instant} {id : String} {queued : QueuedRequest}
    {blockIds : List ℕ} {r : ActiveRequest env} (hr : r.BuiltFrom queued blockIds)
    (hid : queued.request.requestId = id) : Filed (e.activate now id r) := by
  obtain ⟨maxTokens, scripted, hle, hactive⟩ := e.activate_active now id r
  refine ⟨fun id' r' hget => ?_, h.pending, fun id' r' hget => ?_⟩
  · rw [hactive, SortedMap.get?_insert] at hget
    split at hget
    · next heq =>
        cases hget
        rw [heq]
        exact hr.requestId.trans hid
    · exact h.active id' r' hget
  · rw [hactive, SortedMap.get?_insert] at hget
    split at hget
    · cases hget
      refine ⟨?_, ?_, ?_, ?_⟩
      · simp [hr.generated, hr.emitted, ActiveRequest.pendingTokens, hr.pendingEmits]
      · simp [hr.generated]
      · simp [hr.pendingEmits]
      · simp only [hr.emitted]
        omega
    · exact h.ok id' r' hget

theorem eraseActive (h : Filed e) {id : String} (hactive : e'.activeRequests = e.activeRequests.erase id)
    (hpending : e'.pendingPulls = e.pendingPulls) : Filed e' := by
  have hget : ∀ id' r, e'.activeRequests.get? id' = some r → e.activeRequests.get? id' = some r := by
    intro id' r hr
    rw [hactive, SortedMap.get?_erase] at hr
    split at hr
    · cases hr
    · exact hr
  exact ⟨fun id' r hr => h.active id' r (hget id' r hr),
    fun id' p hp => h.pending id' p (hpending ▸ hp), fun id' r hr => h.ok id' r (hget id' r hr)⟩

theorem erasePending (h : Filed e) (id : String)
    (hactive : e'.activeRequests = e.activeRequests)
    (hpending : e'.pendingPulls = e.pendingPulls.erase id) : Filed e' := by
  refine ⟨fun id' r hr => h.active id' r (hactive ▸ hr), fun id' p hp => ?_,
    fun id' r hr => h.ok id' r (hactive ▸ hr)⟩
  rw [hpending, SortedMap.get?_erase] at hp
  split at hp
  · cases hp
  · exact h.pending id' p hp

theorem park (h : Filed e) (queued : QueuedRequest) (outcome : CacheOutcome) :
    Filed (e.park queued outcome) := by
  refine ⟨h.active, fun id p hp => ?_, h.ok⟩
  simp only [SimEngine.park, SortedMap.get?_insert] at hp
  split at hp
  · next heq =>
      cases hp
      exact heq.symm
  · exact h.pending id p hp

theorem retire (h : Filed e) (id : String) : Filed (e.retire id) := by
  refine h.eraseActive (e.retire_active id) ?_
  unfold SimEngine.retire
  split <;> rfl

theorem withdraw (h : Filed e) {id : String} {client ticket : ℕ}
    (hw : e.withdraw id = (e', some (client, ticket))) : Filed e' := by
  rcases SimEngine.withdraw_some hw with ⟨r, _, _, _, rfl⟩ | ⟨p, _, _, _, rfl⟩ |
    ⟨i, q, _, _, _, _, rfl⟩
  · exact h.retire id
  · exact h.erasePending id rfl rfl
  · exact h.congr rfl rfl

theorem flush (h : Filed e) (now : Instant) : Filed (e.flush now).1 := by
  have hget : ∀ id r', (e.flush now).1.activeRequests.get? id = some r' →
      ∃ r, e.activeRequests.get? id = some r ∧ r.finishes e.tokenSource now = false ∧
        (r.emitDue e.tokenSource now).1 = r' := fun _ _ => e.flush_get? h.active now
  refine ⟨fun id r' hr' => ?_, ?_, fun id r' hr' => ?_⟩
  · obtain ⟨r, hr, _, rfl⟩ := hget id r' hr'
    rw [ActiveRequest.emitDue, ActiveRequest.emitQueue_request]
    exact h.active id r hr
  · rw [(e.flush_flushed now).pendingPulls]
    exact h.pending
  · obtain ⟨r, hr, hstays, rfl⟩ := hget id r' hr'
    exact (h.ok id r hr).emitDue e.tokenSource now hstays

end Filed

theorem Move.filed {now : Instant} {e e' : SimEngine env} {effect : Effect}
    (h : Move now e effect e') (he : Filed e) : Filed e' := by
  cases h with
  | arrivalFailed | arrivalRejected | enqueued | refused | orphaned | drained | configured
  | adaptersChanged | specCleared | statsReset =>
      exact he.congr (by simp [SimEngine.schedulerStats]) (by simp [SimEngine.schedulerStats])
  | @parked i queued hadm =>
      have hqueue : Filed (e.dequeue i queued).1 := he.congr rfl rfl
      exact hqueue.park queued (e.dequeue i queued).2
  | @admitted i queued hadm active hbuild =>
      have hqueue : Filed ((e.dequeue i queued).1.pruneBigAdmissions now) :=
        he.congr (by simp) (by simp)
      exact hqueue.activate (SimEngine.buildRequest_ok hbuild) rfl
  | @promoted task htask pending hpending active hbuild =>
      have hpark : Filed ((e.receivePull task).unpark now task.requestId) :=
        he.erasePending task.requestId (by simp) (by simp)
      exact (hpark.activate (SimEngine.buildRequest_ok hbuild) (he.pending _ _ hpending)).congr
        (SimEngine.log_activeRequests _ _) (SimEngine.log_pendingPulls _ _)
  | @pullRefused task htask pending hpending reason =>
      exact he.erasePending task.requestId (by simp) (by simp)
  | withdrawn hwithdraw => exact (he.withdraw hwithdraw).congr (by simp) (by simp)
  | composed anchor hidle hanchor => exact he.progress (e.composeStep_progress anchor)
  | @executed step hstep hdue =>
      have htake : Filed e.takeStep := he.congr rfl rfl
      exact htake.progress (e.takeStep.executeStep_progress step)
  | flushed => exact he.flush now
  | cacheReset =>
      refine he.congr ?_ ?_ <;> (unfold SimEngine.resetPrefixCache; split <;> rfl)

/-! ## Live requests across a move -/

/-- What a move that shows `os` does to the live requests. -/
inductive LiveChange (e : SimEngine env) (os : List EngineCoreOutput) (e' : SimEngine env) : Prop
  | closes (gone : List (String × ℕ)) (hlive : e.live.Perm (gone ++ e'.live))
      (hclosed : closed os = gone.map (fun x => (x.1, some x.2)))
      (hnext : e'.nextTicket = e.nextTicket)
      (hreceived : e'.stats.requestsReceived = e.stats.requestsReceived)
  | refuses (id : String) (hlive : e'.live = e.live) (hclosed : closed os = [(id, none)])
      (hnext : e'.nextTicket = e.nextTicket)
      (hreceived : e'.stats.requestsReceived = e.stats.requestsReceived + 1)
  | enqueues (id : String) (hnew : id ∉ e.live.map Prod.fst)
      (hlive : e'.live.Perm ((id, e.nextTicket) :: e.live)) (hclosed : closed os = [])
      (hnext : e'.nextTicket = e.nextTicket + 1)
      (hreceived : e'.stats.requestsReceived = e.stats.requestsReceived + 1)

namespace LiveChange

variable {e e' : SimEngine env} {os : List EngineCoreOutput}

theorem kept (hlive : e.live.Perm e'.live) (hclosed : closed os = [])
    (hnext : e'.nextTicket = e.nextTicket)
    (hreceived : e'.stats.requestsReceived = e.stats.requestsReceived) : LiveChange e os e' :=
  .closes [] hlive hclosed hnext hreceived

theorem one {id : String} {ticket : ℕ} (hlive : e.live.Perm ((id, ticket) :: e'.live))
    (hclosed : closed os = [(id, some ticket)]) (hnext : e'.nextTicket = e.nextTicket)
    (hreceived : e'.stats.requestsReceived = e.stats.requestsReceived) : LiveChange e os e' :=
  .closes [(id, ticket)] hlive hclosed hnext hreceived

end LiveChange

namespace SimEngine

variable {e e' : SimEngine env}

/-- What taking a request out leaves alone. -/
theorem withdraw_kept {id : String} {client ticket : ℕ}
    (h : e.withdraw id = (e', some (client, ticket))) :
    e'.nextTicket = e.nextTicket ∧ e'.stats = e.stats := by
  rcases withdraw_some h with ⟨r, _, _, _, rfl⟩ | ⟨p, _, _, _, rfl⟩ | ⟨i, q, _, _, _, _, rfl⟩
  · unfold retire
    split <;> exact ⟨rfl, rfl⟩
  · exact ⟨rfl, rfl⟩
  · exact ⟨rfl, rfl⟩

theorem live_congr (hactive : e'.activeRequests = e.activeRequests)
    (hpending : e'.pendingPulls = e.pendingPulls) (hwaiting : e'.waiting = e.waiting) :
    e'.live = e.live := by
  rw [live, live, hactive, hpending, hwaiting]

@[simp] theorem live_pruneBigAdmissions (now : Instant) :
    (e.pruneBigAdmissions now).live = e.live := live_congr (by simp) (by simp) (by simp)

@[simp] theorem live_failAdmission (blockIds : List ℕ) :
    (e.failAdmission blockIds).live = e.live := live_congr (by simp) (by simp) (by simp)

@[simp] theorem live_countAborted : e.countAborted.live = e.live :=
  live_congr (by simp) (by simp) (by simp)

@[simp] theorem live_log (ev : Event) : (e.log ev).live = e.live :=
  live_congr (by simp) (by simp) (by simp)

theorem get?_of_not_live {id : String} (h : id ∉ e.live.map Prod.fst) :
    e.activeRequests.get? id = none ∧ e.pendingPulls.get? id = none := by
  constructor <;> rw [Option.eq_none_iff_forall_not_mem]
  · exact fun r hr => h (List.mem_map_of_mem (mem_live_active hr))
  · exact fun p hp => h (List.mem_map_of_mem (mem_live_pending hp))

/-- A ticket taken out of an engine without duplicate tickets is not live any more. -/
theorem not_live_of_gone {gone : List (String × ℕ)} (htickets : (e.live.map Prod.snd).Nodup)
    (hlive : e.live.Perm (gone ++ e'.live)) {x : String × ℕ} (hx : x ∈ gone) :
    x.2 ∉ e'.live.map Prod.snd := by
  have hnodup := (hlive.map Prod.snd).nodup_iff.mp htickets
  rw [List.map_append] at hnodup
  exact fun hmem => (List.nodup_append.mp hnodup).2.2 x.2 (List.mem_map_of_mem hx) x.2 hmem rfl

/-- A request taken out of an engine without duplicate ids leaves its id free. -/
theorem free_of_perm {id : String} {ticket : ℕ} (hids : (e.live.map Prod.fst).Nodup)
    (hlive : e.live.Perm ((id, ticket) :: e'.live)) :
    e'.activeRequests.get? id = none ∧ e'.pendingPulls.get? id = none := by
  have hnodup := (hlive.map Prod.fst).nodup_iff.mp hids
  exact get?_of_not_live (List.nodup_cons.mp hnodup).1

end SimEngine

theorem Move.liveChange {now : Instant} {e e' : SimEngine env} {effect : Effect}
    (h : Move now e effect e') (hreset : effect ≠ .statsReset) (he : Sound e) :
    LiveChange e effect.toOutputs e' := by
  cases h with
  | arrivalFailed rng id reason =>
      exact .refuses id (SimEngine.live_congr (by simp) (by simp) (by simp)) rfl (by simp)
        (by simp)
  | arrivalRejected id =>
      exact .refuses id (SimEngine.live_congr (by simp) (by simp) (by simp)) rfl (by simp)
        (by simp)
  | enqueued rng request hnew =>
      refine .enqueues request.requestId ?_ ?_ rfl (by simp) (by simp)
      · rw [← SimEngine.isKnown_iff, hnew]
        exact Bool.false_ne_true
      · simp only [SimEngine.live, SimEngine.enqueue_activeRequests, SimEngine.enqueue_pendingPulls,
          SimEngine.enqueue_waiting, SimEngine.withFailureRng_activeRequests,
          SimEngine.withFailureRng_pendingPulls, SimEngine.withFailureRng_waiting,
          SimEngine.withFailureRng_nextTicket, SimEngine.countReceived_activeRequests,
          SimEngine.countReceived_pendingPulls, SimEngine.countReceived_waiting,
          SimEngine.countReceived_nextTicket, List.map_append, List.map_singleton]
        rw [← List.append_assoc, ← List.append_assoc, ← List.append_assoc]
        exact List.perm_append_comm
  | @parked i queued hadm =>
      have hqueue := SimEngine.live_dequeue (e := e) hadm.waiting
      have hpark := SimEngine.live_park (e.dequeue i queued).2
        (SimEngine.free_of_perm he.ids hqueue).2
      exact .kept (hqueue.trans hpark.symm) rfl (by simp) (by simp)
  | @admitted i queued hadm active hbuild =>
      have hqueue : e.live.Perm ((queued.request.requestId, queued.ticket) ::
          ((e.dequeue i queued).1.pruneBigAdmissions now).live) := by
        rw [SimEngine.live_pruneBigAdmissions]
        exact SimEngine.live_dequeue hadm.waiting
      have hactive := SimEngine.live_activate now (r := active)
        (SimEngine.free_of_perm he.ids hqueue).1
      rw [(SimEngine.buildRequest_ok hbuild).ticket] at hactive
      exact .kept (hqueue.trans hactive.symm) rfl (by simp) (by simp)
  | @refused i queued hadm reason =>
      refine .one ?_ rfl (by simp) (by simp)
      rw [SimEngine.live_failAdmission, SimEngine.live_pruneBigAdmissions]
      exact SimEngine.live_dequeue hadm.waiting
  | @promoted task htask pending hpending active hbuild =>
      have hpark : e.live.Perm ((task.requestId, pending.queued.ticket) ::
          ((e.receivePull task).unpark now task.requestId).live) :=
        SimEngine.live_erase_pending hpending (by simp) (by simp) (by simp)
      have hactive := SimEngine.live_activate now (r := active)
        (SimEngine.free_of_perm he.ids hpark).1
      rw [(SimEngine.buildRequest_ok hbuild).ticket] at hactive
      refine .kept ?_ rfl (by simp) (by simp)
      rw [SimEngine.live_log]
      exact hpark.trans hactive.symm
  | @pullRefused task htask pending hpending reason =>
      exact .one (SimEngine.live_erase_pending hpending (by simp) (by simp) (by simp)) rfl (by simp)
        (by simp)
  | @withdrawn id e₁ client ticket hwithdraw =>
      obtain ⟨hnext, hstats⟩ := SimEngine.withdraw_kept hwithdraw
      refine .one ?_ rfl (by simp [hnext]) (by simp [hstats])
      rw [SimEngine.live_countAborted]
      exact SimEngine.withdraw_live hwithdraw
  | composed anchor hidle hanchor =>
      have hprog := e.composeStep_progress anchor
      exact .kept (List.Perm.of_eq hprog.live.symm) rfl hprog.nextTicket (by rw [hprog.stats])
  | @executed step hstep hdue =>
      have hprog := e.takeStep.executeStep_progress step
      have hlive : (e.takeStep.executeStep step).live = e.live := hprog.live
      exact .kept (List.Perm.of_eq hlive.symm) rfl hprog.nextTicket
        (congrArg Stats.requestsReceived hprog.stats)
  | flushed =>
      exact .closes _ (SimEngine.flush_live he.active now) (SimEngine.closed_flush he.active he.ok now)
        (e.flush_flushed now).nextTicket (by rw [e.flush_stats now]; rfl)
  | cacheReset =>
      have hsame : e.resetPrefixCache.1.live = e.live ∧
          e.resetPrefixCache.1.nextTicket = e.nextTicket ∧
          e.resetPrefixCache.1.stats = e.stats := by
        unfold SimEngine.resetPrefixCache
        split <;> exact ⟨rfl, rfl, rfl⟩
      exact .kept (List.Perm.of_eq hsame.1.symm) rfl hsame.2.1 (by rw [hsame.2.2])
  | orphaned | drained | configured | adaptersChanged | specCleared =>
      exact .kept (List.Perm.refl _) rfl rfl rfl
  | statsReset => exact absurd rfl hreset

theorem LiveChange.sound {e e' : SimEngine env} {os : List EngineCoreOutput}
    (h : LiveChange e os e') (he : Sound e) (hfiled : Filed e') : Sound e' := by
  cases h with
  | closes gone hlive _ hnext =>
      have hids := (hlive.map Prod.fst).nodup_iff.mp he.ids
      have htickets := (hlive.map Prod.snd).nodup_iff.mp he.tickets
      rw [List.map_append] at hids htickets
      refine ⟨hfiled, (List.nodup_append.mp hids).2.1, (List.nodup_append.mp htickets).2.1, ?_⟩
      intro x hx
      rw [hnext]
      exact he.ticket_lt x (hlive.mem_iff.mpr (List.mem_append_right _ hx))
  | refuses id hlive _ hnext =>
      exact ⟨hfiled, hlive ▸ he.ids, hlive ▸ he.tickets, by rw [hlive, hnext]; exact he.ticket_lt⟩
  | enqueues id hnew hlive _ hnext =>
      have hfresh : e.nextTicket ∉ e.live.map Prod.snd := by
        intro hmem
        obtain ⟨x, hx, heq⟩ := List.mem_map.mp hmem
        exact absurd (he.ticket_lt x hx) (by omega)
      refine ⟨hfiled, (hlive.map Prod.fst).nodup_iff.mpr (List.nodup_cons.mpr ⟨hnew, he.ids⟩),
        (hlive.map Prod.snd).nodup_iff.mpr (List.nodup_cons.mpr ⟨hfresh, he.tickets⟩), ?_⟩
      intro x hx
      rw [hnext]
      rcases List.mem_cons.mp (hlive.mem_iff.mp hx) with rfl | hold
      · exact Nat.lt_succ_self _
      · exact Nat.lt_succ_of_lt (he.ticket_lt x hold)

theorem Move.sound {now : Instant} {e e' : SimEngine env} {effect : Effect}
    (h : Move now e effect e') (he : Sound e) : Sound e' := by
  by_cases hreset : effect = .statsReset
  · subst hreset
    cases h
    exact ⟨⟨he.active, he.pending, he.ok⟩, he.ids, he.tickets, he.ticket_lt⟩
  · exact (h.liveChange hreset he).sound he (h.filed he.toFiled)

/-- A request that is live after a move was live before it, or is newly issued. -/
theorem Move.live_back {now : Instant} {e e' : SimEngine env} {effect : Effect}
    (h : Move now e effect e') (he : Sound e) :
    e.nextTicket ≤ e'.nextTicket ∧ ∀ x ∈ e'.live, x ∈ e.live ∨ x.2 = e.nextTicket := by
  by_cases hreset : effect = .statsReset
  · subst hreset
    cases h
    exact ⟨le_rfl, fun x hx => Or.inl hx⟩
  · cases h.liveChange hreset he with
    | closes gone hlive _ hnext =>
        exact ⟨hnext.ge, fun x hx => Or.inl (hlive.mem_iff.mpr (List.mem_append_right _ hx))⟩
    | refuses id hlive _ hnext => exact ⟨hnext.ge, fun x hx => Or.inl (hlive ▸ hx)⟩
    | enqueues id _ hlive _ hnext =>
        refine ⟨by omega, fun x hx => ?_⟩
        rcases List.mem_cons.mp (hlive.mem_iff.mp hx) with rfl | hold
        · exact Or.inr rfl
        · exact Or.inl hold

theorem Run.sound {e₀ e : SimEngine env} {turns : List (Turn env)} {clock : Instant}
    (hrun : Run e₀ turns e clock) (hfresh : Fresh e₀) : Sound e :=
  hrun.invariant hfresh.sound (fun _ _ _ _ he h => h.sound he)

end VllmVcr
