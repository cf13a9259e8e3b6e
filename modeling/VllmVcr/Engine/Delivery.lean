import VllmVcr.Engine.Streams

/-!
# Delivery

Only `step()` delivers chunks. It delivers those due, each client's in emission order, and
leaves none behind that would come before what it delivered.
-/

namespace VllmVcr

variable {env : Env} {now : Instant}

namespace SimEngine

/-! ## Operations that deliver no chunk -/

/-- The operation shows terminal outputs only, and composes no step that ends before `now`. -/
structure Quiet (now : Instant) (e : SimEngine env) (res : SimEngine env × List EngineOutput) :
    Prop where
  terminal : ∀ o ∈ coreOf res.2, o.emission = none
  step : ∀ step, res.1.currentStep = some step → e.currentStep = some step ∨ now ≤ step.endsAt

variable {e e' : SimEngine env}

theorem Quiet.of_nil (hstep : e'.currentStep = e.currentStep) : Quiet now e (e', []) :=
  ⟨by simp, fun step h => Or.inl (hstep ▸ h)⟩

theorem schedule_currentStep (now : Instant) (e : SimEngine env) :
    (e.schedule now).1.currentStep = e.currentStep :=
  schedule_preserves (I := fun e' => e'.currentStep = e.currentStep) rfl
    (fun _ _ _ _ hkept h => hkept.trans h)

theorem schedule_terminal (now : Instant) (e : SimEngine env) :
    ∀ o ∈ coreOf (e.schedule now).2, o.emission = none := by
  have hloop : ∀ rounds (e : SimEngine env), ∀ o ∈ coreOf (scheduleLoop now rounds e).2,
      o.emission = none := by
    intro rounds
    induction rounds with
    | zero => simp [scheduleLoop]
    | succ rounds ih =>
        intro e
        unfold scheduleLoop
        split
        · split
          · simp
          · next i queued _ =>
              intro o ho
              change o ∈ coreOf (_ ++ _) at ho
              rw [coreOf_append, List.mem_append] at ho
              rcases ho with hfirst | hrest
              · rw [admitRequest_eq] at hfirst
                split at hfirst
                · cases hfirst
                · rcases admitDirect_cases now queued.request.requestId queued.request.clientIndex
                    queued ((e.removeWaiting i).cacheRequest queued.request).2.blockIds
                    ((e.removeWaiting i).cacheRequest queued.request).2.numCachedTokens
                    ((e.removeWaiting i).cacheRequest queued.request).1
                    with ⟨active, _, hadmits⟩ | ⟨reason, hadmits⟩
                  · rw [hadmits] at hfirst
                    cases hfirst
                  · rw [hadmits] at hfirst
                    cases List.mem_singleton.mp hfirst
                    rfl
              · exact ih _ o hrest
        · simp
  exact hloop _ e

theorem ensureStep_ends {anchor : Instant} {step : EngineStep}
    (h : (e.ensureStep anchor).currentStep = some step) :
    e.currentStep = some step ∨ anchor ≤ step.endsAt := by
  by_cases hidle : e.currentStep = none
  · rw [ensureStep_of_idle hidle] at h
    exact Or.inr (composeStep_ends hidle h)
  · rw [ensureStep, if_neg (by simpa using hidle)] at h
    exact Or.inl h

theorem refill_quiet (hstep : e'.currentStep = e.currentStep) : Quiet now e (e'.refill now) where
  terminal := schedule_terminal now e'
  step step h := by
    rcases ensureStep_ends h with hkept | hlate
    · have hsame := (schedule_currentStep now e').symm.trans hkept
      exact Or.inl (hstep ▸ hsame)
    · exact Or.inr hlate

theorem handleRequest_quiet (request : EngineCoreRequest) :
    Quiet now e (e.handleRequest now request) := by
  have hfail : ∀ reason (e' : SimEngine env), e'.currentStep = e.currentStep →
      Quiet now e (e'.failArrival now request reason) := by
    intro reason e' hstep
    refine ⟨fun o ho => ?_, fun step h => Or.inl (hstep ▸ h)⟩
    cases List.mem_singleton.mp ho
    rfl
  have hmaybe : (e.countReceived.maybeFail request).1.currentStep = e.currentStep := by
    simp only [maybeFail]
    split
    · rfl
    · split
      · split <;> rfl
      · rfl
  simp only [handleRequest]
  split
  · exact hfail .error _ rfl
  · split
    · next e₁ reason heq =>
        rw [heq] at hmaybe
        exact hfail reason e₁ hmaybe
    · next e₁ heq =>
        rw [heq] at hmaybe
        exact refill_quiet hmaybe

theorem abortOne_quiet (acc : SimEngine env × ByClient) (id : String)
    (h : ∀ o ∈ acc.2.outputs, o.emission = none) :
    (abortOne acc id).1.currentStep = acc.1.currentStep ∧
      ∀ o ∈ (abortOne acc id).2.outputs, o.emission = none := by
  unfold abortOne
  split
  · next e' hnone =>
      cases withdraw_none hnone
      exact ⟨rfl, h⟩
  · next e' client ticket hsome =>
      constructor
      · rcases withdraw_some hsome with ⟨r, _, _, _, rfl⟩ | ⟨p, _, _, _, rfl⟩ |
          ⟨i, q, _, _, _, _, rfl⟩
        · exact (retire_flushed (.refl acc.1) id).currentStep
        · rfl
        · rfl
      · intro o ho
        rw [(ByClient.outputs_add _ _ _ _).mem_iff, List.mem_append] at ho
        rcases ho with hold | hnew
        · exact h o hold
        · cases List.mem_singleton.mp hnew
          rfl

theorem abortRequests_quiet (ids : List String) : Quiet now e (e.abortRequests now ids) := by
  have hfold : ∀ (ids : List String) (acc : SimEngine env × ByClient),
      (∀ o ∈ acc.2.outputs, o.emission = none) →
      (ids.foldl abortOne acc).1.currentStep = acc.1.currentStep ∧
        ∀ o ∈ (ids.foldl abortOne acc).2.outputs, o.emission = none := by
    intro ids
    induction ids with
    | nil => exact fun acc h => ⟨rfl, h⟩
    | cons id ids ih =>
        intro acc h
        obtain ⟨hstep, hterminal⟩ := abortOne_quiet acc id h
        obtain ⟨hrest, hmore⟩ := ih (abortOne acc id) hterminal
        exact ⟨hrest.trans hstep, hmore⟩
  obtain ⟨hstep, hterminal⟩ := hfold ids (e, SortedMap.empty) (by simp [ByClient.outputs])
  have hcurrent : (((ids.foldl abortOne (e, SortedMap.empty)).1.schedule now).1).currentStep =
      e.currentStep := (schedule_currentStep now _).trans hstep
  constructor
  · intro o ho
    change o ∈ coreOf (_ ++ abortOutputs _ now _ _) at ho
    rw [coreOf_append, coreOf_abortOutputs, List.mem_append] at ho
    rcases ho with hleft | hright
    · exact schedule_terminal now _ o hleft
    · exact hterminal o hright
  · intro step h
    rcases ensureStep_ends h with hkept | hlate
    · exact Or.inl (hcurrent.symm.trans hkept)
    · exact Or.inr hlate

theorem finishPull_quiet (task : PullTask) :
    Quiet now e ((e.receivePull task).finishPull now task) := by
  unfold finishPull
  split
  · exact Quiet.of_nil rfl
  · next pending _ =>
      have hpromote : ((e.receivePull task).promote now task pending).1.currentStep =
          e.currentStep ∧ ∀ o ∈ coreOf ((e.receivePull task).promote now task pending).2.toList,
            o.emission = none := by
        unfold promote
        rcases admitDirect_cases now task.requestId pending.clientIndex pending.queued
          pending.blockIds pending.numLocalCachedTokens
          { e.receivePull task with
            pendingPulls := (e.receivePull task).pendingPulls.erase task.requestId }
          with ⟨active, _, hadmits⟩ | ⟨reason, hadmits⟩
        · rw [hadmits]
          exact ⟨by simp, by simp⟩
        · rw [hadmits]
          refine ⟨by simp, fun o ho => ?_⟩
          cases List.mem_singleton.mp ho
          rfl
      have hrefill : Quiet now e (refill now _) := refill_quiet hpromote.1
      refine ⟨fun o ho => ?_, hrefill.step⟩
      change o ∈ coreOf (_ ++ _) at ho
      rw [coreOf_append, List.mem_append] at ho
      exact ho.elim (hpromote.2 o) (hrefill.terminal o)

theorem runUtility_currentStep {request : UtilityRequestSpec} {result : UtilityResult}
    (h : e.runUtility request = .ok (e', result)) : e'.currentStep = e.currentStep := by
  rcases runUtility_cases h with rfl | ⟨loaded, rfl⟩ | rfl
  · unfold resetPrefixCache
    split <;> rfl
  · rfl
  · rfl

theorem applyPatch_quiet {patch : ConfigPatch} {outs : List EngineOutput}
    (h : e.applyPatch now patch = .ok (e', outs)) : Quiet now e (e', outs) := by
  obtain ⟨latency, _, heq⟩ := applyPatch_ok h
  rw [heq]
  exact refill_quiet rfl

theorem handleInput_quiet {input : EngineInput} {outs : List EngineOutput}
    (h : e.handleInput now input = .ok (e', outs)) : Quiet now e (e', outs) := by
  cases input with
  | request request =>
      have hres : e.handleRequest now request = (e', outs) := Except.ok.inj h
      exact hres ▸ handleRequest_quiet request
  | abort ids =>
      cases h
      exact abortRequests_quiet ids
  | utility request =>
      obtain ⟨res, hrun, heq⟩ := except_map_eq_ok h
      cases heq
      have hstep := runUtility_currentStep hrun
      exact ⟨by simp [Envelope.requestOutputs], fun step hs => Or.inl (hstep.symm.trans hs)⟩
  | startDpWave =>
      cases h
      exact Quiet.of_nil rfl
  | control request =>
      cases request with
      | getConfig =>
          cases h
          exact Quiet.of_nil rfl
      | patchConfig patch =>
          simp only [handleInput, handleControl] at h
          split at h
          · next e₁ outs₁ hp =>
              cases h
              exact applyPatch_quiet hp
          · cases h
            exact Quiet.of_nil rfl
      | getStats =>
          cases h
          exact Quiet.of_nil rfl
      | resetStats =>
          cases h
          exact Quiet.of_nil rfl

/-- No operation but `step()` delivers a chunk. -/
theorem perform_quiet {fuel : ℕ} {op : Op} {outs : List EngineOutput} (hop : op ≠ .step)
    (h : e.perform fuel now op = some (e', outs)) : Quiet now e (e', outs) := by
  cases op with
  | input input => exact handleInput_quiet (except_toOption_eq_some h)
  | pullCompletion task =>
      simp only [perform] at h
      split at h
      · have hres : (e.receivePull task).finishPull now task = (e', outs) := Option.some.inj h
        exact hres ▸ finishPull_quiet task
      · cases h
  | step => exact absurd rfl hop
  | rejectRequest request =>
      cases h
      refine ⟨fun o ho => ?_, fun step hs => Or.inl hs⟩
      cases List.mem_singleton.mp ho
      rfl
  | abortAllRequests =>
      cases h
      exact abortRequests_quiet _

theorem catchUp_terminal {fuel : ℕ} {outs : List EngineOutput}
    (h : catchUp now fuel e = some (e', outs)) : ∀ o ∈ coreOf outs, o.emission = none := by
  induction fuel generalizing e outs with
  | zero => cases h
  | succ fuel ih =>
      cases hdue : e.dueStep now with
      | none =>
          rw [catchUp_none hdue] at h
          cases h
          simp
      | some step =>
          rw [catchUp_some hdue] at h
          obtain ⟨⟨e'', more⟩, hrest, heq⟩ := Option.map_eq_some_iff.mp h
          cases heq
          intro o ho
          rw [coreOf_append, List.mem_append] at ho
          exact ho.elim (schedule_terminal now _ o) (ih hrest o)

end SimEngine

/-! ## The outputs of a flush, client by client -/

namespace ByClient

theorem batch_insert (byClient : ByClient) (client client' : ℕ) (b : ClientBatch) :
    ByClient.batch (byClient.insert client b) client' =
      if client' = client then b else byClient.batch client' := by
  unfold batch
  rw [SortedMap.get?_insert]
  split <;> rfl

/-- Adding in a fixed order keeps that order for every client. -/
theorem batch_foldl_add (ds : List DueEmit) (byClient : ByClient) (client : ℕ) :
    (ByClient.batch (ds.foldl (fun m d => m.add d.clientIndex d.output d.finished) byClient)
      client).outputs = (byClient.batch client).outputs ++
        (ds.filter (fun d => d.clientIndex = client)).map DueEmit.output := by
  induction ds generalizing byClient with
  | nil => simp
  | cons d ds ih =>
      have hadd : (ByClient.batch (byClient.add d.clientIndex d.output d.finished) client).outputs =
          (byClient.batch client).outputs ++
            if d.clientIndex = client then [d.output] else [] := by
        rw [ByClient.add, batch_insert]
        by_cases hclient : client = d.clientIndex
        · subst hclient
          simp
        · rw [if_neg hclient, if_neg (fun heq => hclient heq.symm), List.append_nil]
      rw [List.foldl_cons, ih, hadd, List.append_assoc, List.filter_cons]
      by_cases hclient : d.clientIndex = client
      · simp [hclient]
      · simp [hclient]

theorem batch_advertise (byClient : ByClient) (a : Advert) (client : ℕ) :
    ((ByClient.batch (advertise env byClient a) client).outputs).map EngineCoreOutput.bare =
      ((byClient.batch client).outputs).map EngineCoreOutput.bare := by
  unfold advertise
  split
  · rfl
  · split
    · rfl
    · next b hb =>
        rw [batch_insert]
        split
        · next heq =>
            rw [stampKvParams_bare, heq, batch, hb, Option.getD_some]
        · rfl

end ByClient

namespace SimEngine

variable {e : SimEngine env}

/-- What a flush shows to one client: its due outputs in emission order. -/
theorem flush_batch (now : Instant) (e : SimEngine env) (client : ℕ) :
    ((ByClient.batch (e.flush now).2 client).outputs).map EngineCoreOutput.bare =
      ((((e.dueEmits now).insertionSort DueEmit.le).filter
        (fun d => d.clientIndex = client)).map DueEmit.output).map EngineCoreOutput.bare := by
  have hadverts : ∀ (adverts : List Advert) (m : ByClient),
      ((ByClient.batch (adverts.foldl (advertise env) m) client).outputs).map
        EngineCoreOutput.bare = ((m.batch client).outputs).map EngineCoreOutput.bare := by
    intro adverts
    induction adverts with
    | nil => exact fun m => rfl
    | cons a adverts ih => exact fun m => (ih _).trans (ByClient.batch_advertise m a client)
  refine (hadverts _ _).trans ?_
  rw [ByClient.batch_foldl_add]
  rfl

end SimEngine

/-- The outputs that go to one client. -/
def toClient (client : ℕ) (outs : List EngineOutput) : List EngineCoreOutput :=
  coreOf (outs.filter (fun out => out.clientIndex = client))

theorem toClient_append (client : ℕ) (outs outs' : List EngineOutput) :
    toClient client (outs ++ outs') = toClient client outs ++ toClient client outs' := by
  rw [toClient, List.filter_append, coreOf_append, toClient, toClient]

theorem toClient_subset (client : ℕ) (outs : List EngineOutput) :
    toClient client outs ⊆ coreOf outs := by
  intro o ho
  obtain ⟨out, hout, hmem⟩ := List.mem_flatMap.mp ho
  exact List.mem_flatMap.mpr ⟨out, List.mem_of_mem_filter hout, hmem⟩

namespace ByClient

theorem flatMap_entries {α : Type*} (byClient : ByClient) (client : ℕ)
    (f : ℕ × ClientBatch → List α) (hother : ∀ b, b.1 ≠ client → f b = [])
    (hempty : f (client, ⟨[], SortedMap.empty⟩) = []) :
    byClient.entries.flatMap f = f (client, byClient.batch client) := by
  unfold batch
  cases hb : byClient.get? client with
  | none =>
      rw [Option.getD_none, hempty, List.flatMap_eq_nil_iff]
      rintro ⟨client', b⟩ hmem
      apply hother
      rintro rfl
      rw [SortedMap.mem_entries.mp hmem] at hb
      cases hb
  | some b =>
      apply flatMap_eq_of_unique (SortedMap.mem_entries.mpr hb) byClient.nodup_keys.of_map
      rintro ⟨client', b'⟩ hmem hne
      apply hother
      rintro rfl
      have hb' := SortedMap.mem_entries.mp hmem
      rw [hb, Option.some.injEq] at hb'
      exact hne (by rw [hb'])

/-- A ticket that only one client's batch names. -/
theorem outputsFor_outputs (byClient : ByClient) (k client : ℕ)
    (hother : ∀ client', client' ≠ client →
      outputsFor k (byClient.batch client').outputs = []) :
    outputsFor k byClient.outputs = outputsFor k (byClient.batch client).outputs := by
  have hbatch : ∀ b ∈ byClient.entries, b.2 = byClient.batch b.1 := by
    rintro ⟨client', b⟩ hmem
    rw [batch, SortedMap.mem_entries.mp hmem, Option.getD_some]
  have hsplit : outputsFor k byClient.outputs = byClient.entries.flatMap
      (fun b => if b.1 = client then outputsFor k b.2.outputs else []) := by
    rw [outputs, outputsFor, List.filter_flatMap]
    apply List.flatMap_congr
    intro b hb
    split
    · rfl
    · next hne =>
        rw [hbatch b hb]
        exact hother b.1 hne
  rw [hsplit, flatMap_entries byClient client _ (fun b hne => if_neg hne) (by simp), if_pos rfl]

end ByClient

namespace SimEngine

variable {e : SimEngine env}

theorem toClient_stepOutputs (engineIndex : ℕ) (now : Instant) (stats : SchedulerStats)
    (byClient : ByClient) (client : ℕ) :
    toClient client (byClient.entries.filterMap (stepOutput engineIndex now stats)) =
      (byClient.batch client).outputs := by
  have hlist : ∀ batches : List (ℕ × ClientBatch),
      toClient client (batches.filterMap (stepOutput engineIndex now stats)) =
        batches.flatMap (fun b => if b.1 = client then b.2.outputs else []) := by
    intro batches
    induction batches with
    | nil => rfl
    | cons b batches ih =>
        rw [List.flatMap_cons, ← ih, List.filterMap_cons]
        by_cases hempty : b.2.outputs.isEmpty
        · simp [stepOutput, List.isEmpty_iff.mp hempty]
        · rw [stepOutput, if_neg hempty]
          by_cases hclient : b.1 = client
          · simp [toClient, hclient, Envelope.requestOutputs]
          · simp [toClient, hclient]
  rw [hlist, ByClient.flatMap_entries byClient client _ (fun b hne => if_neg hne) (by simp),
    if_pos rfl]

/-! ## The outputs of a flush, ticket by ticket -/

instance : Std.Total DueEmit.le where
  total a b := by
    unfold DueEmit.le
    rcases lt_trichotomy a.due b.due with hlt | heq | hgt
    · exact Or.inl (Or.inl hlt)
    · exact (le_total a.seq b.seq).imp (fun hle => Or.inr ⟨heq, hle⟩)
        (fun hle => Or.inr ⟨heq.symm, hle⟩)
    · exact Or.inr (Or.inl hgt)

instance : IsTrans DueEmit DueEmit.le where
  trans a b c := by
    rintro (hab | ⟨hab, hle⟩) (hbc | ⟨hbc, hle'⟩)
    · exact Or.inl (hab.trans hbc)
    · exact Or.inl (hbc ▸ hab)
    · exact Or.inl (hab ▸ hbc)
    · exact Or.inr ⟨hab.trans hbc, hle.trans hle'⟩

/-- Sorting keeps a part of the emissions that is in order. -/
theorem filter_insertionSort {ds : List DueEmit} {p : DueEmit → Bool}
    (h : (ds.filter p).Pairwise DueEmit.le) :
    (ds.insertionSort DueEmit.le).filter p = ds.filter p := by
  have hsub := (List.sublist_insertionSort h List.filter_sublist).filter p
  rw [List.filter_filter, List.filter_congr (q := p) (fun d _ => Bool.and_self (p d))] at hsub
  have hlen := ((List.perm_insertionSort DueEmit.le ds).filter p).length_eq
  exact (hsub.eq_of_length hlen.symm).symm

/-- A queue in order gives up its emissions in order. -/
theorem emitDue_sorted {r : ActiveRequest env} (source : TokenSource) (now : Instant)
    (h : r.pendingEmits.Pairwise PendingEmit.Before) :
    (r.emitDue source now).2.Pairwise DueEmit.le := by
  have hdue : (ActiveRequest.due now r.pendingEmits).Pairwise PendingEmit.Before :=
    h.sublist (List.takeWhile_sublist _)
  rw [← ActiveRequest.emitQueue_emissions source now r.pendingEmits r, List.pairwise_map] at hdue
  apply hdue.imp
  rintro d d' ⟨hle, hseq⟩
  rcases hle.lt_or_eq with hlt | heq
  · exact Or.inl hlt
  · exact Or.inr ⟨heq, hseq.le⟩

theorem outputsFor_bare (k : ℕ) (os : List EngineCoreOutput) :
    (outputsFor k os).map EngineCoreOutput.bare = outputsFor k (os.map EngineCoreOutput.bare) := by
  rw [outputsFor, outputsFor, List.filter_map]
  rfl

/-- A flush delivers the outputs of a ticket in the order of its queue. -/
theorem flush_ticket (now : Instant) (hdistinct : e.DistinctTickets)
    (hsorted : ∀ id r, e.activeRequests.get? id = some r →
      r.pendingEmits.Pairwise PendingEmit.Before) (k : ℕ) :
    (outputsFor k (ByClient.outputs (e.flush now).2)).map EngineCoreOutput.bare =
      (outputsFor k ((e.dueEmits now).map DueEmit.output)).map EngineCoreOutput.bare := by
  have hbatch : ∀ client, (outputsFor k (ByClient.batch (e.flush now).2 client).outputs).map
      EngineCoreOutput.bare = (((((e.dueEmits now).insertionSort DueEmit.le).filter
        (fun d => d.output.ticket = some k)).filter (fun d => d.clientIndex = client)).map
          DueEmit.output).map EngineCoreOutput.bare := by
    intro client
    rw [outputsFor_bare, flush_batch, ← outputsFor_bare, outputsFor_map, List.filter_comm]
  by_cases hk : ∃ id r, e.activeRequests.get? id = some r ∧ r.ticket = k
  · obtain ⟨id, r, hr, rfl⟩ := hk
    have hdue := dueEmits_active now hdistinct hr
    have hsort : ((e.dueEmits now).insertionSort DueEmit.le).filter
        (fun d => d.output.ticket = some r.ticket) = (r.emitDue e.tokenSource now).2 := by
      rw [filter_insertionSort, hdue]
      rw [hdue]
      exact emitDue_sorted e.tokenSource now (hsorted id r hr)
    have hshown := ActiveRequest.emitQueue_shown e.tokenSource now r.pendingEmits r
    rw [ByClient.outputsFor_outputs (e.flush now).2 r.ticket r.clientIndex]
    · rw [hbatch, hsort, outputsFor_map, hdue, List.filter_eq_self.mpr]
      intro d hd
      simp [(hshown d hd).clientIndex]
    · intro client hne
      have hnone := hbatch client
      rw [hsort, List.filter_eq_nil_iff.mpr, List.map_nil, List.map_nil] at hnone
      · exact List.map_eq_nil_iff.mp hnone
      · intro d hd
        simp [(hshown d hd).clientIndex, hne.symm]
  · have hother : ∀ id r, e.activeRequests.get? id = some r → r.ticket ≠ k :=
      fun id r hr hticket => hk ⟨id, r, hr, hticket⟩
    have hperm := (flush_outputs now e).filter (fun o => o.ticket = some k)
    have hnone : outputsFor k ((e.dueEmits now).map DueEmit.output) = [] := by
      rw [outputsFor_map, dueEmits_other hother, List.map_nil]
    have hright := outputsFor_bare k ((e.dueEmits now).map DueEmit.output)
    have hleft := outputsFor_bare k (ByClient.outputs (e.flush now).2)
    rw [hnone, List.map_nil] at hright
    rw [hnone, List.map_nil, hleft]
    change (outputsFor k _).Perm (outputsFor k _) at hperm
    rw [← hright] at hperm
    exact hperm.eq_nil

end SimEngine

open SimEngine

/-! ## Streams over a turn -/

/-- What every reachable engine satisfies, with its clock. -/
structure Standing (now : Instant) (e : SimEngine env) : Prop where
  sound : Sound e
  enrolled : Enrolled e
  timed : Timed now e

theorem Standing.later {later : Instant} {e : SimEngine env} (h : Standing now e)
    (hlater : now ≤ later) : Standing later e := ⟨h.sound, h.enrolled, h.timed.later hlater⟩

theorem Fresh.standing {e : SimEngine env} (h : Fresh e) : Standing now e :=
  ⟨h.sound, h.enrolled, Timed.of_fresh h⟩

theorem Move.standing {e e' : SimEngine env} {effect : Effect} (h : Move now e effect e')
    (hst : Standing now e) : Standing now e' :=
  ⟨h.sound hst.sound, h.enrolled hst.sound hst.enrolled,
    h.timed hst.sound hst.enrolled hst.timed⟩

theorem Emits.streamed {P : Effect → Prop} {e e' : SimEngine env}
    {hist os : List EngineCoreOutput} (h : Emits P now e os e') (hst : Standing now e)
    (hs : Streamed hist e) : Standing now e' ∧ Streamed (hist ++ os) e' := by
  obtain ⟨effects, hpath, _, rfl⟩ := h
  apply hpath.history (P := fun effects e => Standing now e ∧
    Streamed (hist ++ effects.flatMap Effect.toOutputs) e)
  · exact ⟨hst, by simpa using hs⟩
  · rintro effects e effect e' ⟨hst, hs⟩ hmove
    have hnext := hmove.streamed hst.sound hst.enrolled hst.timed.ordered hs
    rw [List.append_assoc] at hnext
    refine ⟨hmove.standing hst, ?_⟩
    rw [List.flatMap_append, List.flatMap_singleton]
    exact hnext

theorem Streamed.sorted {e : SimEngine env} {hist : List EngineCoreOutput} (h : Streamed hist e)
    (ho : Ordered e) : ∀ id r, e.activeRequests.get? id = some r →
      r.pendingEmits.Pairwise PendingEmit.Before := by
  intro id r hr
  have hall := ho.ordered r.ticket
  rw [← (h.active id r hr).chunks] at hall
  exact (List.pairwise_append.mp hall).2.1

namespace Framed

variable {os os' : List EngineCoreOutput}

/-- An output that ends a stream is its last. -/
theorem ended (h : Framed (os ++ os')) {o : EngineCoreOutput} (ho : o ∈ os)
    (hfin : o.finishReason.isSome) : os' = [] := by
  by_contra hne
  rw [h.last o (by rw [List.dropLast_append_of_ne_nil hne]; exact List.mem_append_left _ ho)] at hfin
  cases hfin

/-- At most one terminal output follows in a stream. -/
theorem length_terminal (h : Framed (os ++ os')) (hterminal : ∀ o ∈ os', o.emission = none) :
    os'.length ≤ 1 := by
  match os' with
  | [] => exact Nat.zero_le 1
  | [_] => exact le_rfl
  | a :: b :: rest =>
      have hmem : a ∈ os ++ a :: b :: rest :=
        List.mem_append_right _ List.mem_cons_self
      have hfin := (h.bare a hmem (hterminal a List.mem_cons_self)).2.1
      have hsplit : os ++ a :: b :: rest = (os ++ [a]) ++ b :: rest := by simp
      rw [hsplit] at h
      have hnone := h.ended (List.mem_append_right _ (List.mem_singleton_self a)) hfin
      cases hnone

end Framed

theorem perm_of_length_le_one {α : Type*} {l l' : List α} (h : l.Perm l') (hlen : l'.length ≤ 1) :
    l = l' := by
  match l', hlen with
  | [], _ => exact h.eq_nil
  | [a], _ => exact h.eq_singleton

/-- A turn shows for each ticket the next outputs of its stream, in their order. -/
structure Shows (now : Instant) (hist : List EngineCoreOutput) (outs : List EngineOutput)
    (e' : SimEngine env) (os : List EngineCoreOutput) : Prop where
  standing : Standing now e'
  streamed : Streamed (hist ++ os) e'
  order : ∀ k, (outputsFor k (coreOf outs)).map EngineCoreOutput.bare =
    (outputsFor k os).map EngineCoreOutput.bare

namespace SimEngine

variable {e e' : SimEngine env} {hist : List EngineCoreOutput} {outs : List EngineOutput}

/-- The parts of a call of `step()`. -/
theorem step_parts {fuel : ℕ} (h : e.step fuel now = some (e', outs)) :
    ∃ e₁ caughtUp engineIndex stats, catchUp now fuel e.clearSpec = some (e₁, caughtUp) ∧
      e' = (((e₁.flush now).1.schedule now).1.ensureStep now).schedulerStats.1 ∧
      outs = (e₁.flush now).2.entries.filterMap (stepOutput engineIndex now stats) ++
        (caughtUp ++ ((e₁.flush now).1.schedule now).2) := by
  obtain ⟨⟨e₁, caughtUp⟩, hcatch, heq⟩ := Option.map_eq_some_iff.mp h
  exact ⟨e₁, caughtUp, _, _, hcatch, (congrArg Prod.fst heq).symm, (congrArg Prod.snd heq).symm⟩

theorem step_shows {fuel : ℕ} (h : e.step fuel now = some (e', outs)) (hst : Standing now e)
    (hs : Streamed hist e) : ∃ os, Shows now hist outs e' os := by
  obtain ⟨e₁, caughtUp, engineIndex, stats, hcatch, rfl, rfl⟩ := step_parts h
  have hspec : Emits Op.step.Allows now e [] e.clearSpec := Emits.move (Move.specCleared e)
  obtain ⟨hst₁, hs₁⟩ := (hspec.trans (catchUp_emits (fun _ => rfl) hcatch)).streamed hst hs
  rw [List.nil_append] at hs₁
  have hflush : Emits Op.step.Allows now e₁ ((e₁.dueEmits now).map DueEmit.output)
      (e₁.flush now).1 := Emits.move (Move.flushed e₁)
  have hrefill : Emits Op.step.Allows now (e₁.flush now).1
      (coreOf ((e₁.flush now).1.schedule now).2) ((e₁.flush now).1.schedule now).1 :=
    schedule_emits now _
  have hrest := ((hflush.trans hrefill).trans ((ensureStep_emits (Or.inl rfl)).trans
    (drained_emits now _ (fun _ => Or.inl rfl))))
  rw [List.append_nil, List.append_nil] at hrest
  obtain ⟨hst₂, hs₂⟩ := hrest.streamed hst₁ hs₁
  rw [List.append_assoc] at hs₂
  refine ⟨_, hst₂, hs₂, fun k => ?_⟩
  have hcaught : ∀ o ∈ coreOf caughtUp, o.emission = none := catchUp_terminal hcatch
  have hticket := flush_ticket now hst₁.sound.distinctTickets
    (hs₁.sorted hst₁.timed.ordered) k
  rw [coreOf_append, coreOf_append, coreOf_stepOutputs, outputsFor_append, outputsFor_append,
    outputsFor_append, outputsFor_append, List.map_append, List.map_append, List.map_append,
    List.map_append]
  change (outputsFor k (ByClient.outputs (e₁.flush now).2)).map _ ++ _ = _
  rw [hticket]
  by_cases hnone : outputsFor k (coreOf caughtUp) = []
  · rw [hnone, List.map_nil, List.nil_append, List.nil_append]
  · -- The ticket was refused while the engine caught up, so it has nothing to flush.
    obtain ⟨o, rest, hcons⟩ := List.exists_cons_of_ne_nil hnone
    have hframed := (hs₂.stream k).framed
    rw [outputsFor_append, outputsFor_append, outputsFor_append, ← List.append_assoc] at hframed
    have hmem : o ∈ outputsFor k hist ++ outputsFor k (coreOf caughtUp) :=
      List.mem_append_right _ (hcons ▸ List.mem_cons_self)
    have hcore : o ∈ coreOf caughtUp := List.mem_of_mem_filter (hcons ▸ List.mem_cons_self)
    have hfin := (hframed.bare o (List.mem_append_left _ hmem) (hcaught o hcore)).2.1
    obtain ⟨hflushed, _⟩ := List.append_eq_nil_iff.mp (hframed.ended hmem hfin)
    rw [hflushed, List.map_nil, List.nil_append, List.nil_append]

theorem quiet_shows {op : Op} {os : List EngineCoreOutput} (hst : Standing now e)
    (hs : Streamed hist e) (hemits : Emits op.Allows now e os e')
    (hperm : ((coreOf outs).map EngineCoreOutput.bare).Perm (os.map EngineCoreOutput.bare))
    (hterminal : ∀ o ∈ coreOf outs, o.emission = none) : Shows now hist outs e' os := by
  obtain ⟨hst', hs'⟩ := hemits.streamed hst hs
  refine ⟨hst', hs', fun k => ?_⟩
  have hnone : ∀ o ∈ os, o.emission = none := by
    intro o ho
    obtain ⟨o', ho', hbare⟩ := List.mem_map.mp
      (hperm.mem_iff.mpr (List.mem_map_of_mem (f := EngineCoreOutput.bare) ho))
    have hsame : o'.bare.emission = o.bare.emission := by rw [hbare]
    exact hsame.symm.trans (hterminal o' ho')
  have hframed := (hs'.stream k).framed
  rw [outputsFor_append] at hframed
  have hlen := hframed.length_terminal (fun o ho => hnone o (List.mem_of_mem_filter ho))
  have hticket := hperm.filter (fun o => o.ticket = some k)
  change (outputsFor k _).Perm (outputsFor k _) at hticket
  rw [← outputsFor_bare, ← outputsFor_bare] at hticket
  exact perm_of_length_le_one hticket (by rw [List.length_map]; exact hlen)

theorem perform_shows {fuel : ℕ} {op : Op} (h : e.perform fuel now op = some (e', outs))
    (hst : Standing now e) (hs : Streamed hist e) : ∃ os, Shows now hist outs e' os := by
  by_cases hop : op = .step
  · subst hop
    exact step_shows h hst hs
  · obtain ⟨os, hemits, hperm⟩ := perform_emits h
    exact ⟨os, quiet_shows hst hs hemits hperm (perform_quiet hop h).terminal⟩

end SimEngine

/-- The streams of a run, in the order its operations return them. -/
theorem Run.streamed {e₀ e : SimEngine env} {turns : List (Turn env)} {clock : Instant}
    (hrun : Run e₀ turns e clock) (hfresh : Fresh e₀) :
    Standing clock e ∧ ∃ hist, Streamed hist e ∧ ∀ k,
      (outputsFor k (coreOutputs turns)).map EngineCoreOutput.bare =
        (outputsFor k hist).map EngineCoreOutput.bare := by
  apply hrun.turnwise (P := fun turns e clock => Standing clock e ∧ ∃ hist, Streamed hist e ∧
    ∀ k, (outputsFor k (coreOutputs turns)).map EngineCoreOutput.bare =
      (outputsFor k hist).map EngineCoreOutput.bare)
  · exact ⟨hfresh.standing, [], hfresh.streamed, fun _ => rfl⟩
  · rintro turns clock fuel t ⟨hst, hist, hs, horder⟩ hclock hperform
    obtain ⟨os, hshows⟩ := perform_shows hperform (hst.later hclock) hs
    refine ⟨hshows.standing, hist ++ os, hshows.streamed, fun k => ?_⟩
    have hturn : coreOutputs (turns ++ [t]) = coreOutputs turns ++ coreOf t.outputs := by
      simp [coreOutputs, coreOf]
    rw [hturn, outputsFor_append, outputsFor_append, List.map_append, List.map_append, horder,
      hshows.order]

end VllmVcr
