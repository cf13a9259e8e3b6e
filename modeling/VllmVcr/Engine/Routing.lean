import VllmVcr.Engine.Issued
import VllmVcr.Engine.Reception

/-!
# To whom an output goes

A request keeps the client that sent it wherever it stands, so every output that an
operation returns goes to the client of the request it answers.
-/

namespace VllmVcr

variable {env : Env} {now : Instant}

/-- The output answers one of `requests`, one that `client` sent. -/
def Answers (requests : List EngineCoreRequest) (client : ℕ) (o : EngineCoreOutput) : Prop :=
  ∃ k request, o.ticket = some k ∧ requests[k]? = some request ∧
    request.requestId = o.requestId ∧ request.clientIndex = client

/-- The output refuses a request of `client` that got no ticket. -/
def Refuses (taken : Option EngineCoreRequest) (client : ℕ) (o : EngineCoreOutput) : Prop :=
  o.ticket = none ∧ ∃ request, taken = some request ∧ request.requestId = o.requestId ∧
    request.clientIndex = client

/-- Every output goes to the client of the request that it answers or refuses. -/
def Routed (requests : List EngineCoreRequest) (taken : Option EngineCoreRequest)
    (outs : List EngineOutput) : Prop :=
  ∀ out ∈ outs, ∀ o ∈ out.outputs.requestOutputs,
    Answers requests out.clientIndex o ∨ Refuses taken out.clientIndex o

namespace Routed

variable {requests : List EngineCoreRequest} {taken : Option EngineCoreRequest}
  {outs outs' : List EngineOutput}

theorem nil : Routed requests taken [] := by
  intro out hout
  cases hout

theorem append (h : Routed requests taken outs) (h' : Routed requests taken outs') :
    Routed requests taken (outs ++ outs') := by
  intro out hout
  rcases List.mem_append.mp hout with hleft | hright
  · exact h out hleft
  · exact h' out hright

theorem single {out : EngineOutput}
    (h : ∀ o ∈ out.outputs.requestOutputs, Answers requests out.clientIndex o ∨
      Refuses taken out.clientIndex o) : Routed requests taken [out] := by
  intro out' hout
  cases List.mem_singleton.mp hout
  exact h

theorem mono (h : Routed requests taken outs) (more : List EngineCoreRequest) :
    Routed (requests ++ more) taken outs := by
  intro out hout o ho
  rcases h out hout o ho with ⟨k, request, hk, hrequest, hfiled⟩ | hrefused
  · refine Or.inl ⟨k, request, hk, ?_, hfiled⟩
    rw [List.getElem?_append_left (List.getElem?_eq_some_iff.mp hrequest).1, hrequest]
  · exact Or.inr hrefused

end Routed

/-- Every request that the engine holds is filed under the client that sent it. -/
structure Addressed (requests : List EngineCoreRequest) (e : SimEngine env) : Prop where
  pending : ∀ id p, e.pendingPulls.get? id = some p →
    p.clientIndex = p.queued.request.clientIndex
  active : ∀ id r, e.activeRequests.get? id = some r →
    ∃ request, requests[r.ticket]? = some request ∧ request.requestId = id ∧
      request.clientIndex = r.clientIndex

/-- The tickets of an engine lead back to `requests` and to the clients that sent them. -/
structure Traceable (source : Option StepSource) (requests : List EngineCoreRequest)
    (e : SimEngine env) : Prop where
  sound : Sound e
  enrolled : Enrolled e
  issued : Issued source requests e
  addressed : Addressed requests e

theorem Fresh.traceable {e : SimEngine env} (h : Fresh e) : Traceable e.stepSource [] e := by
  refine ⟨h.sound, h.enrolled, h.issued, ?_⟩
  obtain ⟨engineIndex, opt, tokenSource, stepSource, hnew⟩ := h
  obtain ⟨latency, _, rfl⟩ := except_map_eq_ok hnew
  exact ⟨by simp, by simp⟩

/-! ## What a move keeps -/

theorem ActiveRequest.new_client {engineIndex ticket : ℕ} {request : EngineCoreRequest} {opt : Opt}
    {latency : LatencyModel env.Rng} {admission : AdmissionCtx} {r : ActiveRequest env}
    (h : new engineIndex now request ticket opt latency admission = .ok r) :
    r.clientIndex = request.clientIndex := by
  simp only [new] at h
  split at h
  · cases h
  · split at h
    · cases h
    · cases h
      rfl

theorem ActiveRequest.Progressed.clientIndex {r r' : ActiveRequest env} (h : r.Progressed r') :
    r'.clientIndex = r.clientIndex := by rw [h.kept]

namespace Entry

variable {e e' : SimEngine env} {q : QueuedRequest} {r : ActiveRequest env}

theorem clientIndex (h : Entry now e e' q r) : r.clientIndex = q.request.clientIndex := by
  obtain ⟨admission, active, hbuild, rfl⟩ := h.built
  obtain ⟨_, _, _, heq⟩ := active.pinned_eq
    (e.tokenSource.onRequestAdded q.request.requestId q.request.prompt).2
    (handTo e.stepSource q.request).2
  have hclient : active.clientIndex = q.request.clientIndex := ActiveRequest.new_client hbuild
  rw [heq]
  exact hclient

end Entry

/-- Who is active after a move was active before it for the same client, or has entered. -/
theorem Move.client_back {e e' : SimEngine env} {effect : Effect} (h : Move now e effect e')
    (he : Sound e) {id : String} {r' : ActiveRequest env}
    (hr' : e'.activeRequests.get? id = some r') :
    (∃ r, e.activeRequests.get? id = some r ∧ r'.ticket = r.ticket ∧
      r'.clientIndex = r.clientIndex) ∨ ∃ q, Entry now e e' q r' ∧ q.request.requestId = id := by
  rcases h.active_back he hr' with ⟨r, hr, hticket⟩ | hentered
  swap
  · exact Or.inr hentered
  · cases h.batch he with
    | still _ hactive => exact Or.inl ⟨r', hactive ▸ hr', rfl, rfl⟩
    | @entered _ _ id₁ r₁ _ _ _ hnone _ _ hactive =>
        rw [hactive, SortedMap.get?_insert] at hr'
        split at hr'
        · next hid =>
            rw [hid, hnone] at hr
            cases hr
        · exact Or.inl ⟨r', hr', rfl, rfl⟩
    | withdrew _ hactive =>
        rw [hactive, SortedMap.get?_erase] at hr'
        split at hr'
        · cases hr'
        · exact Or.inl ⟨r', hr', rfl, rfl⟩
    | composed anchor =>
        obtain ⟨r₁, hr₁, hprog⟩ := (e.composeStep_progress anchor).active.right hr'
        exact Or.inl ⟨r₁, hr₁, hprog.ticket, hprog.clientIndex⟩
    | @executed step =>
        obtain ⟨r₁, hr₁, hprog⟩ := (e.takeStep.executeStep_progress step).active.right hr'
        exact Or.inl ⟨r₁, hr₁, hprog.ticket, hprog.clientIndex⟩
    | flushed =>
        obtain ⟨r₁, hr₁, _, heq⟩ := e.flush_get? he.active now hr'
        rw [ActiveRequest.emitDue, ActiveRequest.emitQueue_request] at heq
        refine Or.inl ⟨r₁, hr₁, ?_, ?_⟩
        · rw [← heq]
        · rw [← heq]

/-- A pull that is pending after a move was pending before it, or was parked for its sender. -/
theorem Move.pending_client {e e' : SimEngine env} {effect : Effect} (h : Move now e effect e')
    (hp : ∀ id p, e.pendingPulls.get? id = some p → p.clientIndex = p.queued.request.clientIndex) :
    ∀ id p, e'.pendingPulls.get? id = some p →
      p.clientIndex = p.queued.request.clientIndex := by
  have herase : ∀ k id p, (e.pendingPulls.erase k).get? id = some p →
      p.clientIndex = p.queued.request.clientIndex := by
    intro k id p hget
    rw [SortedMap.get?_erase] at hget
    split at hget
    · cases hget
    · exact hp id p hget
  have hsame : e'.pendingPulls = e.pendingPulls → ∀ id p, e'.pendingPulls.get? id = some p →
      p.clientIndex = p.queued.request.clientIndex := by
    intro heq
    rw [heq]
    exact hp
  intro id p hget
  cases h with
  | arrivalFailed | arrivalRejected | enqueued | configured | adaptersChanged | specCleared
  | statsReset | orphaned | drained =>
      exact hsame (by simp [SimEngine.schedulerStats]) id p hget
  | admitted | refused => exact hsame (by simp) id p hget
  | composed anchor => exact hsame (e.composeStep_progress anchor).pendingPulls id p hget
  | cacheReset =>
      revert hget
      unfold SimEngine.resetPrefixCache
      split
      · exact hp id p
      · exact hp id p
  | @parked i queued hadm =>
      rw [SimEngine.park_pendingPulls, SortedMap.get?_insert] at hget
      split at hget
      · cases hget
        rfl
      · exact hp id p hget
  | @promoted task =>
      rw [SimEngine.log_pendingPulls, SimEngine.activate_pendingPulls,
        SimEngine.unpark_pendingPulls] at hget
      exact herase _ id p hget
  | @pullRefused task =>
      rw [SimEngine.failAdmission_pendingPulls, SimEngine.countFailed_pendingPulls,
        SimEngine.unpark_pendingPulls] at hget
      exact herase _ id p hget
  | @withdrawn k e₁ client ticket hwithdraw =>
      rcases SimEngine.withdraw_some hwithdraw with ⟨r, _, _, _, rfl⟩ | ⟨p, _, _, _, rfl⟩ |
        ⟨i, q, _, _, _, _, rfl⟩
      · rw [SimEngine.countAborted_pendingPulls,
          (SimEngine.retire_flushed (.refl e) k).pendingPulls] at hget
        exact hp id p hget
      · exact herase k id _ hget
      · exact hp id p hget
  | @executed step =>
      rw [(e.takeStep.executeStep_progress step).pendingPulls] at hget
      exact hp id p hget
  | flushed =>
      rw [(e.flush_flushed now).pendingPulls] at hget
      exact hp id p hget

theorem Move.traceable {source : Option StepSource} {requests : List EngineCoreRequest}
    {e e' : SimEngine env} {effect : Effect} (h : Move now e effect e')
    (ht : Traceable source requests e) :
    Traceable source (requests ++ effect.issued) e' := by
  have hissued := h.issued ht.sound ht.enrolled ht.issued
  refine ⟨h.sound ht.sound, h.enrolled ht.sound ht.enrolled, hissued,
    h.pending_client ht.addressed.pending, ?_⟩
  intro id r' hr'
  rcases h.client_back ht.sound hr' with ⟨r, hr, hticket, hclient⟩ | ⟨q, hentry, hid⟩
  · obtain ⟨request, hrequest, hfiled, hsender⟩ := ht.addressed.active id r hr
    refine ⟨request, ?_, hfiled, hsender.trans hclient.symm⟩
    rw [hticket, List.getElem?_append_left (List.getElem?_eq_some_iff.mp hrequest).1, hrequest]
  · have hrequest := ht.issued.waits q hentry.waits
    refine ⟨q.request, ?_, hid, hentry.clientIndex.symm⟩
    rw [hentry.ticket, List.getElem?_append_left (List.getElem?_eq_some_iff.mp hrequest).1,
      hrequest]

/-- A move that accepts nothing keeps the tickets traceable. -/
theorem Traceable.move {source : Option StepSource} {requests : List EngineCoreRequest}
    {e e' : SimEngine env} {effect : Effect} (ht : Traceable source requests e) (now : Instant)
    (h : Move now e effect e') (hnone : effect.issued = []) : Traceable source requests e' := by
  have hnext := h.traceable ht
  rwa [hnone, List.append_nil] at hnext

/-- A path that accepts nothing keeps the tickets traceable. -/
theorem Emits.traceable {P : Effect → Prop} {source : Option StepSource}
    {requests : List EngineCoreRequest} {e e' : SimEngine env} {os : List EngineCoreOutput}
    (h : Emits P now e os e') (hallow : ∀ effect, P effect → effect.issued = [])
    (ht : Traceable source requests e) : Traceable source requests e' := by
  apply h.invariant ht
  intro e₁ effect e₂ hok ht hmove
  apply ht.move now hmove
  rcases hok with ⟨os, rfl⟩ | hallowed
  · rfl
  · exact hallow effect hallowed

/-! ## What an operation returns -/

/-- A terminal output of a ticketed request, in an envelope for its sender. -/
theorem Routed.terminal {requests : List EngineCoreRequest} {taken : Option EngineCoreRequest}
    {k engineIndex : ℕ} {request : EngineCoreRequest} (hrequest : requests[k]? = some request)
    (reason : FinishReason) :
    Routed requests taken [⟨request.clientIndex,
      emptyFinishOutputs engineIndex now (some k) request.requestId reason⟩] := by
  apply Routed.single
  intro o ho
  cases List.mem_singleton.mp ho
  exact Or.inl ⟨k, request, rfl, hrequest, rfl, rfl⟩

theorem Routed.refusal {requests : List EngineCoreRequest} {engineIndex : ℕ}
    (request : EngineCoreRequest) (reason : FinishReason) :
    Routed requests (some request) [⟨request.clientIndex,
      emptyFinishOutputs engineIndex now none request.requestId reason⟩] := by
  apply Routed.single
  intro o ho
  cases List.mem_singleton.mp ho
  exact Or.inr ⟨rfl, request, rfl, rfl, rfl⟩

namespace ByClient

/-- Every batch holds outputs for its own client. -/
def Routed (requests : List EngineCoreRequest) (byClient : ByClient) : Prop :=
  ∀ client b, byClient.get? client = some b → ∀ o ∈ b.outputs, Answers requests client o

namespace Routed

variable {requests : List EngineCoreRequest} {byClient : ByClient}

theorem empty : Routed requests (SortedMap.empty : ByClient) := by
  intro client b hb
  cases hb

theorem add (h : Routed requests byClient) {client : ℕ} {o : EngineCoreOutput}
    (ho : Answers requests client o) (finished : Bool) :
    Routed requests (byClient.add client o finished) := by
  intro client' b hb o' ho'
  rw [ByClient.add, SortedMap.get?_insert] at hb
  split at hb
  · next hclient =>
      cases hb
      subst hclient
      rcases List.mem_append.mp ho' with hold | hnew
      · rw [ByClient.batch] at hold
        cases hget : byClient.get? client' with
        | none =>
            rw [hget] at hold
            cases hold
        | some old =>
            rw [hget] at hold
            exact h client' old hget o' hold
      · cases List.mem_singleton.mp hnew
        exact ho
  · exact h client' b hb o' ho'

theorem advertise (h : Routed requests byClient) (a : Advert) :
    Routed requests (VllmVcr.advertise env byClient a) := by
  have hstamp : ∀ client id kv (os : List EngineCoreOutput),
      (∀ o ∈ os, Answers requests client o) →
        ∀ o ∈ stampKvParams id kv os, Answers requests client o := by
    intro client id kv os hos o ho
    have hbare := List.mem_map_of_mem (f := EngineCoreOutput.bare) ho
    rw [stampKvParams_bare] at hbare
    obtain ⟨o₁, ho₁, heq⟩ := List.mem_map.mp hbare
    have hticket : o₁.bare.ticket = o.bare.ticket := by rw [heq]
    have hid : o₁.bare.requestId = o.bare.requestId := by rw [heq]
    obtain ⟨k, request, hk, hrequest, hfiled, hclient⟩ := hos o₁ ho₁
    exact ⟨k, request, hticket.symm.trans hk, hrequest, hfiled.trans hid, hclient⟩
  unfold VllmVcr.advertise
  split
  · exact h
  · split
    · exact h
    · next b hb =>
        intro client b' hb'
        rw [SortedMap.get?_insert] at hb'
        split at hb'
        · next hclient =>
            cases hb'
            subst hclient
            exact hstamp _ _ _ _ (h _ b hb)
        · exact h client b' hb'

end Routed
end ByClient

namespace SimEngine

variable {requests : List EngineCoreRequest} {taken : Option EngineCoreRequest}
  {source : Option StepSource}

theorem admitDirect_routed {queued : QueuedRequest} (hq : requests[queued.ticket]? =
      some queued.request) (blockIds : List ℕ) (numLocalCached : ℕ) (e : SimEngine env) :
    Routed requests taken (e.admitDirect now queued.request.requestId queued.request.clientIndex
      queued blockIds numLocalCached).2.toList := by
  rcases admitDirect_cases now queued.request.requestId queued.request.clientIndex queued blockIds
    numLocalCached e with ⟨active, _, hadmits⟩ | ⟨reason, hadmits⟩
  · rw [hadmits]
    exact Routed.nil
  · rw [hadmits]
    exact Routed.terminal hq reason

theorem admitRequest_routed {queued : QueuedRequest} (hq : requests[queued.ticket]? =
      some queued.request) (e : SimEngine env) :
    Routed requests taken (e.admitRequest now queued).2.toList := by
  rw [admitRequest_eq]
  split
  · exact Routed.nil
  · exact admitDirect_routed hq _ _ _

theorem scheduleLoop_routed (rounds : ℕ) {e : SimEngine env} (ht : Traceable source requests e) :
    Routed requests taken (scheduleLoop now rounds e).2 := by
  induction rounds generalizing e with
  | zero => exact Routed.nil
  | succ rounds ih =>
      unfold scheduleLoop
      split
      · next hroom =>
          split
          · exact Routed.nil
          · next i queued hnext =>
              have hadm := nextAdmissible_admissible hroom hnext
              have hq := ht.issued.waits queued (Or.inr (List.mem_of_getElem? hadm.waiting))
              have hlater := (admitRequest_emits (P := fun _ => False) now hadm).traceable
                (by simp) ht
              exact (admitRequest_routed hq _).append (ih hlater)
      · exact Routed.nil

theorem refill_routed {e : SimEngine env} (ht : Traceable source requests e) :
    Routed requests taken (e.refill now).2 :=
  scheduleLoop_routed e.waiting.length ht

theorem catchUp_routed {fuel : ℕ} {e e' : SimEngine env} {outs : List EngineOutput}
    (h : catchUp now fuel e = some (e', outs)) (ht : Traceable source requests e) :
    Routed requests taken outs := by
  induction fuel generalizing e outs with
  | zero => cases h
  | succ fuel ih =>
      unfold catchUp at h
      split at h
      · cases h
        exact Routed.nil
      · next step hdue =>
          obtain ⟨⟨e'', more⟩, hrest, heq⟩ := Option.map_eq_some_iff.mp h
          cases heq
          obtain ⟨hstep, hend⟩ := dueStep_some hdue
          have hexec := ht.move now (Move.executed e hstep hend) rfl
          have hnext := (completeStep_emits (P := fun effect => effect.issued = [])
            (fun _ => rfl) hdue).traceable (fun _ h => h) ht
          have hfirst : Routed requests taken (e.takeStep.completeStep now step).2 :=
            scheduleLoop_routed (e.takeStep.executeStep step).waiting.length hexec
          exact hfirst.append (ih hrest hnext)

theorem flush_routed (now : Instant) {e : SimEngine env} (ht : Traceable source requests e) :
    ByClient.Routed requests (e.flush now).2 := by
  apply List.foldlRecOn (motive := ByClient.Routed requests)
  · apply List.foldlRecOn (motive := ByClient.Routed requests)
    · exact ByClient.Routed.empty
    · intro m hm d hd
      rw [(List.perm_insertionSort DueEmit.le _).mem_iff] at hd
      obtain ⟨r, hr, hshown⟩ := List.mem_flatMap.mp hd
      obtain ⟨id, hget⟩ := SortedMap.mem_values.mp hr
      have hd' := r.emitQueue_shown e.tokenSource now r.pendingEmits d hshown
      obtain ⟨request, hrequest, hid, hclient⟩ := ht.addressed.active id r hget
      apply hm.add
      refine ⟨r.ticket, request, hd'.ticket, hrequest, ?_, hclient.trans hd'.clientIndex.symm⟩
      exact hid.trans ((ht.sound.active id r hget).symm.trans hd'.requestId.symm)
  · exact fun m hm a _ => hm.advertise a

theorem stepOutputs_routed {engineIndex : ℕ} {stats : SchedulerStats} {byClient : ByClient}
    (h : byClient.Routed requests) :
    Routed requests taken (byClient.entries.filterMap (stepOutput engineIndex now stats)) := by
  intro out hout o ho
  obtain ⟨b, hb, heq⟩ := List.mem_filterMap.mp hout
  unfold stepOutput at heq
  split at heq
  · cases heq
  · cases heq
    exact Or.inl (h b.1 b.2 (SortedMap.mem_entries.mp hb) o ho)

theorem abortOutputs_routed {engineIndex : ℕ} {stats : Option SchedulerStats}
    {batches : List (ℕ × ClientBatch)}
    (h : ∀ b ∈ batches, ∀ o ∈ b.2.outputs, Answers requests b.1 o) :
    Routed requests taken (abortOutputs engineIndex now stats batches) := by
  induction batches generalizing stats with
  | nil => exact Routed.nil
  | cons b batches ih =>
      rw [abortOutputs, ← List.singleton_append]
      apply Routed.append (Routed.single ?_)
      · exact ih (fun b' hb' => h b' (List.mem_cons_of_mem _ hb'))
      · exact fun o ho => Or.inl (h b List.mem_cons_self o ho)

theorem abortOne_routed (now : Instant) {e : SimEngine env} {byClient : ByClient} (id : String)
    (ht : Traceable source requests e) (hb : byClient.Routed requests) :
    Traceable source requests (abortOne (e, byClient) id).1 ∧
      (abortOne (e, byClient) id).2.Routed requests := by
  unfold abortOne
  split
  · next e' hnone =>
      cases withdraw_none hnone
      exact ⟨ht, hb⟩
  · next e' client ticket hsome =>
      have hafter := ht.move now (Move.withdrawn e hsome) rfl
      refine ⟨hafter, hb.add ?_ true⟩
      rcases withdraw_some hsome with ⟨r, hr, rfl, rfl, _⟩ | ⟨p, hp, rfl, rfl, _⟩ |
        ⟨i, q, hq, rfl, rfl, rfl, _⟩
      · obtain ⟨request, hrequest, hid, hclient⟩ := ht.addressed.active id r hr
        exact ⟨r.ticket, request, rfl, hrequest, hid, hclient⟩
      · have hrequest := ht.issued.waits p.queued (Or.inl ⟨id, p, hp, rfl⟩)
        exact ⟨_, _, rfl, hrequest, ht.sound.pending id p hp, (ht.addressed.pending id p hp).symm⟩
      · have hrequest := ht.issued.waits q (Or.inr (List.mem_of_getElem? hq))
        exact ⟨_, _, rfl, hrequest, rfl, rfl⟩

theorem abortRequests_routed (ids : List String) {e : SimEngine env}
    (ht : Traceable source requests e) : Routed requests taken (e.abortRequests now ids).2 := by
  have hfold : ∀ (ids : List String) (acc : SimEngine env × ByClient),
      Traceable source requests acc.1 → acc.2.Routed requests →
      Traceable source requests (ids.foldl abortOne acc).1 ∧
        (ids.foldl abortOne acc).2.Routed requests := by
    intro ids
    induction ids with
    | nil => exact fun acc ht hb => ⟨ht, hb⟩
    | cons id ids ih =>
        intro acc ht hb
        obtain ⟨ht', hb'⟩ := abortOne_routed now id ht hb
        exact ih _ ht' hb'
  obtain ⟨ht', hb'⟩ := hfold ids (e, SortedMap.empty) ht ByClient.Routed.empty
  apply (scheduleLoop_routed _ ht').append
  apply abortOutputs_routed
  intro b hb o ho
  exact hb' b.1 b.2 (SortedMap.mem_entries.mp hb) o ho

theorem step_routed {fuel : ℕ} {e e' : SimEngine env} {outs : List EngineOutput}
    (h : e.step fuel now = some (e', outs)) (ht : Traceable source requests e) :
    Routed requests taken outs := by
  obtain ⟨⟨e₁, caughtUp⟩, hcatch, heq⟩ := Option.map_eq_some_iff.mp h
  cases heq
  have hcleared := ht.move now (Move.specCleared e) rfl
  have hcaught := (catchUp_emits (P := fun effect => effect.issued = []) (fun _ => rfl)
    hcatch).traceable (fun _ h => h) hcleared
  have hflushed := hcaught.move now (Move.flushed e₁) rfl
  apply (stepOutputs_routed (flush_routed now hcaught)).append
  exact (catchUp_routed hcatch hcleared).append (scheduleLoop_routed _ hflushed)

/-- An arrival is refused, or accepted under the next ticket. -/
theorem handleRequest_routed (now : Instant) (request : EngineCoreRequest) {e : SimEngine env}
    (ht : Traceable source requests e) :
    Routed requests (some request) (e.handleRequest now request).2 ∨
      ((e.handleRequest now request).1.nextTicket = e.nextTicket + 1 ∧
        Routed (requests ++ [request]) (some request) (e.handleRequest now request).2) := by
  rcases @handleRequest_cases _ now request e with ⟨e₁, reason, _, _, heq⟩ | ⟨rng, hknown, heq⟩
  · rw [heq]
    exact Or.inl (Routed.refusal request reason)
  · right
    rw [heq]
    have hmove : Move now e _ _ := Move.enqueued e rng request hknown
    constructor
    · rw [nextTicket_of_emits (refill_emits (P := fun _ => False) now _) (by simp)]
      rfl
    · exact refill_routed (hmove.traceable ht)

theorem finishPull_routed {e : SimEngine env} {task : PullTask} (htask : task ∈ e.pullTasks)
    (ht : Traceable source requests e) :
    Routed requests taken ((e.receivePull task).finishPull now task).2 := by
  unfold finishPull
  split
  · exact Routed.nil
  · next pending hpending =>
      have hid := ht.sound.pending _ _ hpending
      have hclient := ht.addressed.pending _ _ hpending
      have hrequest := ht.issued.waits pending.queued (Or.inl ⟨_, pending, hpending, rfl⟩)
      have hpromote : Traceable source requests ((e.receivePull task).promote now task pending).1 ∧
          Routed requests taken ((e.receivePull task).promote now task pending).2.toList := by
        unfold promote
        rcases admitDirect_cases now task.requestId pending.clientIndex pending.queued
          pending.blockIds pending.numLocalCachedTokens
          { e.receivePull task with
            pendingPulls := (e.receivePull task).pendingPulls.erase task.requestId }
          with ⟨active, hbuild, hadmits⟩ | ⟨reason, hadmits⟩
        · rw [hadmits]
          exact ⟨ht.move now (Move.promoted e htask hpending hbuild) rfl, Routed.nil⟩
        · rw [hadmits]
          refine ⟨ht.move now (Move.pullRefused e htask hpending reason) rfl, ?_⟩
          rw [← hid, hclient]
          exact Routed.terminal hrequest reason
      exact hpromote.2.append (refill_routed hpromote.1)

/-- An operation accepts no request, or the one it brings. -/
theorem perform_routed {fuel : ℕ} {op : Op} {e e' : SimEngine env} {outs : List EngineOutput}
    (h : e.perform fuel now op = some (e', outs)) (ht : Traceable source requests e) :
    Routed requests op.taken outs ∨ ∃ request, op = .input (.request request) ∧
      e'.nextTicket = e.nextTicket + 1 ∧ Routed (requests ++ [request]) op.taken outs := by
  cases op with
  | input input =>
      cases input with
      | request request =>
          have hres : e.handleRequest now request = (e', outs) := Option.some.inj h
          have hrouted := handleRequest_routed now request ht
          rw [hres] at hrouted
          rcases hrouted with hrefused | ⟨hticket, haccepted⟩
          · exact Or.inl hrefused
          · exact Or.inr ⟨request, rfl, hticket, haccepted⟩
      | abort ids =>
          cases h
          exact Or.inl (abortRequests_routed ids ht)
      | utility request =>
          obtain ⟨res, _, heq⟩ := except_map_eq_ok (except_toOption_eq_some h)
          cases heq
          left
          apply Routed.single
          intro o ho
          cases ho
      | startDpWave =>
          cases h
          exact Or.inl Routed.nil
      | control request =>
          left
          cases request with
          | getConfig | getStats | resetStats =>
              cases h
              exact Routed.nil
          | patchConfig patch =>
              simp only [perform, handleInput, handleControl] at h
              split at h
              · next e₁ outs₁ hpatch =>
                  cases h
                  obtain ⟨latency, _, heq⟩ := applyPatch_ok hpatch
                  cases heq
                  exact refill_routed (ht.move now (Move.configured e patch latency) rfl)
              · cases h
                exact Routed.nil
  | pullCompletion task =>
      simp only [perform] at h
      split at h
      · next htask =>
          have hres : (e.receivePull task).finishPull now task = (e', outs) := Option.some.inj h
          have hrouted : Routed requests none ((e.receivePull task).finishPull now task).2 :=
            finishPull_routed htask ht
          rw [hres] at hrouted
          exact Or.inl hrouted
      · cases h
  | step => exact Or.inl (step_routed h ht)
  | rejectRequest request =>
      cases h
      exact Or.inl (Routed.refusal request .abort)
  | abortAllRequests =>
      cases h
      exact Or.inl (abortRequests_routed _ ht)

end SimEngine

/-- What a turn returns goes to the clients of the requests accepted by its end. -/
theorem Turn.routed {fuel : ℕ} {t : Turn env} {source : Option StepSource}
    {requests : List EngineCoreRequest}
    (hperform : t.before.perform fuel t.now t.op = some (t.after, t.outputs))
    (ht : Traceable source requests t.before) :
    Routed (requests ++ t.issued) t.op.taken t.outputs := by
  rcases SimEngine.perform_routed hperform ht with hkept | ⟨request, hop, hticket, haccepted⟩
  · exact hkept.mono _
  · have hissued : t.issued = [request] := by
      simp only [Turn.issued, hop]
      rw [if_pos (by omega)]
    rw [hissued]
    exact haccepted

/-! ## Answers by client -/

/-- The clients and ids of the requests taken in a run. -/
def takenBy (turns : List (Turn env)) : List (ℕ × String) :=
  (turns.filterMap (fun t => t.op.taken)).map (fun request => (request.clientIndex, request.requestId))

/-- The finishing outputs of the envelopes, each as its client and id. -/
def closedFor (outs : List EngineOutput) : List (ℕ × String) :=
  outs.flatMap fun out =>
    (out.outputs.requestOutputs.filter (fun o => o.finishReason.isSome)).map
      (fun o => (out.clientIndex, o.requestId))

/-- Who sent the request that holds the ticket; without a ticket, the one being refused. -/
def senderOf (requests : List EngineCoreRequest) (taken : Option EngineCoreRequest) :
    Option ℕ → ℕ
  | some k => (requests[k]?.map EngineCoreRequest.clientIndex).getD 0
  | none => (taken.map EngineCoreRequest.clientIndex).getD 0

/-- The live requests, each as its client and id. -/
def SimEngine.liveFor (requests : List EngineCoreRequest) (e : SimEngine env) :
    List (ℕ × String) :=
  e.live.map (fun x => (senderOf requests none (some x.2), x.1))

theorem Routed.closedFor {requests : List EngineCoreRequest} {taken : Option EngineCoreRequest}
    {outs : List EngineOutput} (h : Routed requests taken outs) :
    VllmVcr.closedFor outs =
      (closed (coreOf outs)).map (fun x => (senderOf requests taken x.2, x.1)) := by
  induction outs with
  | nil => rfl
  | cons out outs ih =>
      rw [VllmVcr.closedFor, List.flatMap_cons, coreOf_cons, closed_append, List.map_append]
      congr 1
      · rw [closed, List.map_map]
        apply List.map_congr_left
        intro o ho
        have hmem := (List.mem_filter.mp ho).1
        rcases h out List.mem_cons_self o hmem with
          ⟨k, request, hk, hrequest, _, hclient⟩ | ⟨hnone, request, htaken, _, hclient⟩
        · simp [senderOf, hk, hrequest, hclient]
        · simp [senderOf, hnone, htaken, hclient]
      · exact ih (fun out' hout' => h out' (List.mem_cons_of_mem _ hout'))

/-- A path on which no request comes in closes the requests that leave, by their tickets. -/
theorem Emits.closes_tickets {P : Effect → Prop} {e e' : SimEngine env}
    {os : List EngineCoreOutput} (h : Emits P now e os e') (hP : ¬ P .statsReset) (he : Sound e)
    (hreceived : e'.received = e.received) :
    ∃ gone, e.live.Perm (gone ++ e'.live) ∧ closed os = gone.map (fun x => (x.1, some x.2)) := by
  apply h.without_arrivals (Q := fun os u => ∃ gone, e.live.Perm (gone ++ u.live) ∧
    closed os = gone.map (fun x => (x.1, some x.2))) hP he hreceived
  · exact ⟨[], List.Perm.refl _, rfl⟩
  · rintro os u effect v hu ⟨gone, hperm, hgone⟩ hmove hreset hkept
    obtain ⟨left, hlive, hclosed⟩ := hmove.closes hu hreset hkept
    refine ⟨gone ++ left, ?_, ?_⟩
    · rw [List.append_assoc]
      exact hperm.trans (hlive.append_left gone)
    · rw [closed_append, hgone, hclosed, List.map_append]

namespace SimEngine

variable {requests : List EngineCoreRequest} {source : Option StepSource}

theorem liveFor_append {e : SimEngine env} (ht : Traceable source requests e)
    (more : List EngineCoreRequest) : e.liveFor (requests ++ more) = e.liveFor requests := by
  apply List.map_congr_left
  intro x hx
  have hlt : x.2 < requests.length := by
    rw [ht.issued.length]
    exact ht.sound.ticket_lt x hx
  simp only [senderOf, List.getElem?_append_left hlt]

/-- What leaves on a path without an arrival is delivered to those who sent it. -/
theorem closedFor_perm {P : Effect → Prop} {taken : Option EngineCoreRequest}
    {e e' : SimEngine env} {outs : List EngineOutput} {os : List EngineCoreOutput}
    (h : Emits P now e os e') (hP : ¬ P .statsReset) (ht : Traceable source requests e)
    (hreceived : e'.received = e.received) (hrouted : Routed requests taken outs)
    (hperm : ((coreOf outs).map EngineCoreOutput.bare).Perm (os.map EngineCoreOutput.bare)) :
    (e.liveFor requests).Perm (closedFor outs ++ e'.liveFor requests) := by
  obtain ⟨gone, hlive, hgone⟩ := h.closes_tickets hP ht.sound hreceived
  have hclosed := closed_perm hperm
  rw [hgone] at hclosed
  have hdelivered : (closedFor outs).Perm
      (gone.map (fun x => (senderOf requests none (some x.2), x.1))) := by
    rw [hrouted.closedFor]
    refine (hclosed.map _).trans ?_
    rw [List.map_map]
    exact List.Perm.refl _
  refine (hlive.map _).trans ?_
  rw [List.map_append]
  exact hdelivered.symm.append_right _

end SimEngine

/-- An arriving request is answered at once, or enqueued under the next ticket. -/
theorem SimEngine.handleRequest_clients {source : Option StepSource}
    {requests : List EngineCoreRequest} {request : EngineCoreRequest} {e e' : SimEngine env}
    {outs : List EngineOutput} (hres : e.handleRequest now request = (e', outs))
    (ht : Traceable source requests e)
    (hrouted : Routed (requests ++ Turn.issued ⟨.input (.request request), now, e, outs, e'⟩)
      (some request) outs) :
    (e.liveFor requests ++ [(request.clientIndex, request.requestId)]).Perm
      (closedFor outs ++ e'.liveFor
        (requests ++ Turn.issued ⟨.input (.request request), now, e, outs, e'⟩)) := by
  rcases @SimEngine.handleRequest_cases _ now request e with
    ⟨e₁, reason, hlive, hnext, heq⟩ | ⟨rng, hknown, heq⟩
  · rw [heq] at hres
    cases hres
    have hnone : Turn.issued ⟨.input (.request request), now, e, [⟨request.clientIndex,
        emptyFinishOutputs e.engineIndex now none request.requestId reason⟩], e'⟩ = [] := by
      simp only [Turn.issued]
      rw [if_neg (by omega)]
    rw [hnone, List.append_nil, SimEngine.liveFor, SimEngine.liveFor, hlive]
    exact List.perm_append_comm
  · rw [heq] at hres
    have hmove : Move now e _ _ := Move.enqueued e rng request hknown
    have hafter := hmove.traceable ht
    have hemits := SimEngine.refill_emits (P := fun _ => False) now
      ((e.countReceived.withFailureRng rng).enqueue now request)
    have hticket := SimEngine.nextTicket_of_emits hemits (by simp)
    have hreceived := SimEngine.refill_received now
      ((e.countReceived.withFailureRng rng).enqueue now request)
    rw [hres] at hemits hticket hreceived
    have hone : Turn.issued ⟨.input (.request request), now, e, outs, e'⟩ = [request] := by
      simp only [Turn.issued]
      rw [if_pos]
      rw [hticket]
      exact Nat.lt_succ_self _
    rw [hone] at hrouted ⊢
    have hclosed := SimEngine.closedFor_perm hemits (fun hfalse => hfalse) hafter hreceived
      hrouted (List.Perm.refl _)
    have hlast : senderOf (requests ++ [request]) none (some e.nextTicket) =
        request.clientIndex := by
      rw [senderOf, ← ht.issued.length, List.getElem?_concat_length]
      rfl
    refine List.Perm.trans ?_ hclosed
    rw [Effect.issued, ← SimEngine.liveFor_append ht [request], SimEngine.liveFor,
      SimEngine.liveFor, SimEngine.live_enqueue, List.map_append, List.map_singleton]
    change List.Perm (_ ++ [(request.clientIndex, request.requestId)])
      (_ ++ [(senderOf (requests ++ [request]) none (some e.nextTicket), request.requestId)])
    rw [hlast]
    exact List.Perm.refl _

theorem Turn.clients {fuel : ℕ} {t : Turn env} {source : Option StepSource}
    {requests : List EngineCoreRequest}
    (hperform : t.before.perform fuel t.now t.op = some (t.after, t.outputs))
    (ht : Traceable source requests t.before) :
    (t.before.liveFor requests ++ (t.op.taken.map
        (fun request => (request.clientIndex, request.requestId))).toList).Perm
      (closedFor t.outputs ++ t.after.liveFor (requests ++ t.issued)) := by
  have hrouted := Turn.routed hperform ht
  obtain ⟨op, now, e, outs, e'⟩ := t
  simp only at hperform ht hrouted ⊢
  have hquiet : op.taken = none → Turn.issued ⟨op, now, e, outs, e'⟩ = [] := by
    intro hnone
    rw [Turn.issued]
    split
    · next request hop =>
        cases hop
        cases hnone
    · rfl
  cases htaken : op.taken with
  | none =>
      rw [hquiet htaken, List.append_nil, htaken] at hrouted
      rw [hquiet htaken, Option.map_none, Option.toList_none, List.append_nil, List.append_nil]
      by_cases hreset : op = .input (.control .resetStats)
      · subst hreset
        cases hperform
        exact List.Perm.refl _
      · obtain ⟨os, hemits, hperm⟩ := perform_emits hperform
        exact SimEngine.closedFor_perm hemits (fun hallow => hreset hallow) ht
          (SimEngine.perform_received hperform htaken hreset) hrouted hperm
  | some request =>
      rw [Option.map_some, Option.toList_some]
      cases op with
      | input input =>
          cases input with
          | request request' =>
              cases htaken
              exact SimEngine.handleRequest_clients (Option.some.inj hperform) ht hrouted
          | _ => cases htaken
      | rejectRequest request' =>
          cases htaken
          cases hperform
          rw [show Turn.issued _ = [] from rfl, List.append_nil]
          exact List.perm_append_comm
      | _ => cases htaken

/-- The requests accepted before and in a turn, and the engine it leaves. -/
theorem Turn.traceable {fuel : ℕ} {t : Turn env} {source : Option StepSource}
    {requests : List EngineCoreRequest}
    (hperform : t.before.perform fuel t.now t.op = some (t.after, t.outputs))
    (ht : Traceable source requests t.before) :
    Traceable source (requests ++ t.issued) t.after := by
  obtain ⟨os, hemits, _⟩ := perform_emits hperform
  obtain ⟨effects, hpath, hallow, _⟩ := hemits.allows
  rw [← Turn.issued_eq hperform hpath hallow]
  apply hpath.history (P := fun effects e =>
    Traceable source (requests ++ effects.flatMap Effect.issued) e)
  · rwa [List.flatMap_nil, List.append_nil]
  · intro effects e effect e' htrace hmove
    rw [List.flatMap_append, List.flatMap_singleton, ← List.append_assoc]
    exact hmove.traceable htrace

theorem issued_concat (turns : List (Turn env)) (t : Turn env) :
    issued (turns ++ [t]) = issued turns ++ t.issued := by
  rw [issued, List.flatMap_append, List.flatMap_singleton]
  rfl

/-- What the requests answered so far and those still live account for. -/
structure Accounted (source : Option StepSource) (turns : List (Turn env)) (e : SimEngine env) :
    Prop where
  traceable : Traceable source (issued turns) e
  routed : ∀ t ∈ turns, Routed (issued turns) t.op.taken t.outputs
  closed : (takenBy turns).Perm
    (closedFor (turns.flatMap Turn.outputs) ++ e.liveFor (issued turns))

theorem Fresh.accounted {e : SimEngine env} (h : Fresh e) : Accounted e.stepSource [] e := by
  refine ⟨h.traceable, ?_, ?_⟩
  · intro t ht
    cases ht
  · obtain ⟨engineIndex, opt, tokenSource, stepSource, hnew⟩ := id h
    obtain ⟨latency, _, rfl⟩ := except_map_eq_ok hnew
    exact List.Perm.refl _

theorem Accounted.turn {source : Option StepSource} {turns : List (Turn env)} {t : Turn env}
    {fuel : ℕ} (h : Accounted source turns t.before)
    (hperform : t.before.perform fuel t.now t.op = some (t.after, t.outputs)) :
    Accounted source (turns ++ [t]) t.after := by
  have htaken : takenBy (turns ++ [t]) = takenBy turns ++ (t.op.taken.map
      (fun request => (request.clientIndex, request.requestId))).toList := by
    rw [takenBy, List.filterMap_append, List.map_append, takenBy]
    cases h : t.op.taken <;> simp [h]
  have hclosed : closedFor ((turns ++ [t]).flatMap Turn.outputs) =
      closedFor (turns.flatMap Turn.outputs) ++ closedFor t.outputs := by
    simp [closedFor]
  refine ⟨?_, ?_, ?_⟩
  · rw [issued_concat]
    exact Turn.traceable hperform h.traceable
  · intro t' ht'
    rw [issued_concat]
    rcases List.mem_append.mp ht' with hold | hnew
    · exact (h.routed t' hold).mono _
    · cases List.mem_singleton.mp hnew
      exact Turn.routed hperform h.traceable
  · rw [issued_concat, htaken, hclosed, List.append_assoc]
    refine (h.closed.append_right _).trans ?_
    rw [List.append_assoc]
    exact (Turn.clients hperform h.traceable).append_left _

theorem Run.accounted {e₀ e : SimEngine env} {turns : List (Turn env)} {clock : Instant}
    (hrun : Run e₀ turns e clock) (hfresh : Fresh e₀) : Accounted e₀.stepSource turns e :=
  hrun.turnwise (P := fun turns e _ => Accounted e₀.stepSource turns e) hfresh.accounted
    (fun _ _ _ _ h _ hperform => h.turn hperform)

/-- Along a run every output goes to the client of the request that holds its ticket, or refuses
the request of that client that just came in; and of each client and id, as many requests were
taken as finishing outputs were returned for that client or are live. -/
theorem Run.clients_answered {e₀ e : SimEngine env} {turns : List (Turn env)} {clock : Instant}
    (hrun : Run e₀ turns e clock) (hfresh : Fresh e₀) :
    (∀ t ∈ turns, Routed (VllmVcr.issued turns) t.op.taken t.outputs) ∧
      (takenBy turns).Perm
        (closedFor (turns.flatMap Turn.outputs) ++ e.liveFor (VllmVcr.issued turns)) :=
  ⟨(hrun.accounted hfresh).routed, (hrun.accounted hfresh).closed⟩

/-- Two clients, the second of which reuses the id that is in flight. -/
def sharedIdScript : List (Instant × Op) :=
  [(0, .input (.request { demoRequest "a" 1 with clientIndex := 3 })),
    (0, .input (.request { demoRequest "a" 1 with clientIndex := 5 })), (1, .step)]

theorem sharedId_answered : ∃ (turns : List (Turn demoEnv)) (e : SimEngine demoEnv)
    (clock : Instant), Run (demo demoOpt none demoOpt_starts) turns e clock ∧
      closedFor (turns.flatMap Turn.outputs) = [(5, "a"), (3, "a")] ∧
      (takenBy turns).Perm
        (closedFor (turns.flatMap Turn.outputs) ++ e.liveFor (issued turns)) := by
  have hplays : ((demo demoOpt none demoOpt_starts).play 20 sharedIdScript).any
      (fun played => closedFor (played.1.flatMap Turn.outputs) = [(5, "a"), (3, "a")]) =
        true := by decide +kernel
  obtain ⟨turns, e, clock, hrun, _, hshown⟩ :=
    Run.of_script (p := fun (turns : List (Turn demoEnv)) _ =>
      closedFor (turns.flatMap Turn.outputs) = [(5, "a"), (3, "a")]) hplays (by decide +kernel)
  exact ⟨turns, e, clock, hrun, of_decide_eq_true hshown,
    (Run.clients_answered hrun (demo_fresh _ _ _)).2⟩

end VllmVcr
