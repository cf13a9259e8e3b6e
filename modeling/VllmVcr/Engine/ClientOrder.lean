import VllmVcr.Engine.Delivery

/-!
# The order in which clients receive chunks

A call of `step()` at `W` leaves only emissions due after `W` in the queues, and what is
generated later falls due at `W` or after, under a later sequence number.
-/

namespace VllmVcr

variable {env : Env} {now W : Instant} {S : ℕ}

def Emission.le (a b : Emission) : Prop := a.due < b.due ∨ a.due = b.due ∧ a.seq ≤ b.seq

open SimEngine

/-- No queued emission comes before the mark: due by `W` with a sequence number below `S`. -/
structure Marked (W : Instant) (S : ℕ) (e : SimEngine env) : Prop where
  seq : S ≤ e.emitSeq
  pending : ∀ id r, e.activeRequests.get? id = some r → ∀ emit ∈ r.pendingEmits,
    W ≤ emit.due ∧ (emit.due = W → S ≤ emit.seq)

namespace Marked

variable {e e' : SimEngine env}

/-- The queues of the batch lose emissions only. -/
theorem kept (h : Marked W S e) (hseq : e.emitSeq ≤ e'.emitSeq)
    (hactive : ∀ id r', e'.activeRequests.get? id = some r' → ∀ emit ∈ r'.pendingEmits,
      ∃ r, e.activeRequests.get? id = some r ∧ emit ∈ r.pendingEmits) : Marked W S e' where
  seq := h.seq.trans hseq
  pending id r' hr' emit hemit := by
    obtain ⟨r, hr, hmem⟩ := hactive id r' hr' emit hemit
    exact h.pending id r hr emit hmem

end Marked

/-- A move keeps the mark unless it completes a step that ends before it. -/
theorem Move.marked {e e' : SimEngine env} {effect : Effect} (h : Move now e effect e')
    (he : Sound e) (hm : Marked W S e)
    (hcompleted : ∀ step, effect = .completed step → W ≤ step.endsAt) : Marked W S e' := by
  cases h.batch he with
  | still _ hactive _ hseq =>
      exact hm.kept hseq.ge (fun id r hr emit hemit => ⟨r, hactive ▸ hr, hemit⟩)
  | @entered _ _ id r _ _ _ _ hentering _ hactive _ hseq =>
      apply hm.kept hseq.ge
      intro id' r' hr' emit hemit
      rw [hactive, SortedMap.get?_insert] at hr'
      split at hr'
      · cases hr'
        rw [hentering.pendingEmits] at hemit
        cases hemit
      · exact ⟨r', hr', hemit⟩
  | @withdrew _ id r _ hactive _ hseq =>
      apply hm.kept hseq.ge
      intro id' r' hr' emit hemit
      rw [hactive, SortedMap.get?_erase] at hr'
      split at hr'
      · cases hr'
      · exact ⟨r', hr', hemit⟩
  | composed anchor =>
      have hseq : e.emitSeq ≤ (e.composeStep anchor).emitSeq := le_rfl
      apply hm.kept hseq
      intro id r' hr' emit hemit
      obtain ⟨r, hr, heq⟩ := composeStep_drawn hr'
      rw [heq] at hemit
      exact ⟨r, hr, hemit⟩
  | @executed step =>
      have hg := Generated.execute e.takeStep step he.distinctTickets
      refine ⟨hm.seq.trans hg.seq, fun id r' hr' emit hemit => ?_⟩
      obtain ⟨r, new, hr, hpending, _, hlate⟩ := hg.active id r' hr'
      rw [hpending, List.mem_append] at hemit
      rcases hemit with hold | hnew
      · exact hm.pending id r hr emit hold
      · obtain ⟨hdue, hseq⟩ := hlate emit hnew
        exact ⟨(hcompleted step rfl).trans hdue, fun _ => hm.seq.trans hseq⟩
  | flushed =>
      apply hm.kept (e.flush_flushed now).emitSeq.ge
      intro id r' hr' emit hemit
      obtain ⟨r, hr, _, heq⟩ := e.flush_get? he.active now hr'
      rw [ActiveRequest.emitDue, ActiveRequest.emitQueue_request] at heq
      rw [← heq] at hemit
      exact ⟨r, hr, (List.dropWhile_sublist _).subset hemit⟩

theorem Emits.marked {P : Effect → Prop} {e e' : SimEngine env} {os : List EngineCoreOutput}
    (h : Emits P now e os e') (hP : ∀ step, ¬ P (.completed step)) (he : Sound e)
    (hm : Marked W S e) : Sound e' ∧ Marked W S e' := by
  apply h.invariant (I := fun e => Sound e ∧ Marked W S e) ⟨he, hm⟩
  rintro e effect e' hallow ⟨he, hm⟩ hmove
  refine ⟨hmove.sound he, hmove.marked he hm ?_⟩
  rintro step rfl
  rcases hallow with ⟨os, heq⟩ | hallowed
  · cases heq
  · exact absurd hallowed (hP step)

/-- The mark, with an in-flight step that does not end before it. -/
structure Ahead (W : Instant) (S : ℕ) (e : SimEngine env) : Prop where
  marked : Marked W S e
  step : ∀ step, e.currentStep = some step → W ≤ step.endsAt

namespace SimEngine

variable {e e' : SimEngine env}

/-- Catching up keeps the mark. -/
theorem catchUp_ahead {fuel : ℕ} {outs : List EngineOutput}
    (h : catchUp now fuel e = some (e', outs)) (he : Sound e) (ha : Ahead W S e) :
    Ahead W S e' ∧ e'.dueStep now = none := by
  have hcatch := catchUp_preserves (I := fun e => Sound e ∧ Ahead W S e)
    (M := fun step e => (Sound e ∧ Marked W S e) ∧ W ≤ step.endsAt) h ⟨he, ha⟩ ?_ ?_ ?_
  · exact ⟨hcatch.1.2, hcatch.2⟩
  · rintro e step hmove hdue ⟨he, ha⟩
    have hend := ha.step step (dueStep_some hdue).1
    refine ⟨⟨hmove.sound he, hmove.marked he ha.marked ?_⟩, hend⟩
    intro step' heq
    cases heq
    exact hend
  · rintro step e os e' hmove _ ⟨⟨he, hm⟩, hend⟩
    exact ⟨⟨hmove.sound he, hmove.marked he hm (by simp)⟩, hend⟩
  · rintro step e hmove hidle ⟨⟨he, hm⟩, hend⟩
    refine ⟨hmove.sound he, hmove.marked he hm (by simp), fun step' hs => ?_⟩
    exact hend.trans (composeStep_ends hidle hs)

/-- Nothing due is left behind by a flush. -/
theorem flush_marked (now : Instant) (he : Sound e) (hsorted : ∀ id r, e.activeRequests.get? id = some r →
      r.pendingEmits.Pairwise PendingEmit.Before) :
    Marked now e.emitSeq (e.flush now).1 := by
  refine ⟨(e.flush_flushed now).emitSeq.ge, fun id r' hr' emit hemit => ?_⟩
  obtain ⟨r, hr, _, heq⟩ := e.flush_get? he.active now hr'
  rw [ActiveRequest.emitDue, ActiveRequest.emitQueue_request] at heq
  rw [← heq] at hemit
  have hlater : now < emit.due := by
    have hpairwise := (hsorted id r hr).sublist
      (List.dropWhile_sublist (fun emit : PendingEmit => emit.due ≤ now))
    cases hdrop : r.pendingEmits.dropWhile (fun emit => emit.due ≤ now) with
    | nil =>
        rw [hdrop] at hemit
        cases hemit
    | cons first rest =>
        have hfirst : now < first.due := by
          have hhead := List.head?_dropWhile_not (fun emit : PendingEmit => emit.due ≤ now)
            r.pendingEmits
          rw [hdrop] at hhead
          simpa using hhead
        rw [hdrop] at hemit hpairwise
        rcases List.mem_cons.mp hemit with rfl | hrest
        · exact hfirst
        · exact hfirst.trans_le (List.rel_of_pairwise_cons hpairwise hrest).1
  exact ⟨hlater.le, fun hdue => absurd hdue hlater.ne'⟩

end SimEngine

/-! ## What one client receives -/

/-- The emissions that a call delivers to one client, in the order returned. -/
def emissionsTo (client : ℕ) (outs : List EngineOutput) : List Emission :=
  (toClient client outs).filterMap EngineCoreOutput.emission

theorem emissionsTo_append (client : ℕ) (outs outs' : List EngineOutput) :
    emissionsTo client (outs ++ outs') = emissionsTo client outs ++ emissionsTo client outs' := by
  rw [emissionsTo, toClient_append, List.filterMap_append, emissionsTo, emissionsTo]

theorem emissionsTo_terminal {client : ℕ} {outs : List EngineOutput}
    (h : ∀ o ∈ coreOf outs, o.emission = none) : emissionsTo client outs = [] :=
  List.filterMap_eq_nil_iff.mpr (fun o ho => h o (toClient_subset client outs ho))

theorem filterMap_emission_bare (os : List EngineCoreOutput) :
    (os.map EngineCoreOutput.bare).filterMap EngineCoreOutput.emission =
      os.filterMap EngineCoreOutput.emission := by
  rw [List.filterMap_map]
  rfl

/-- The mark that one call of `step()` moves from `W` to its own instant. -/
structure Delivers (now W : Instant) (S : ℕ) (outs : List EngineOutput) (e' : SimEngine env) :
    Prop where
  ahead : ∃ S', Ahead now S' e' ∧ S ≤ S' ∧
    ∀ client, ∀ em ∈ emissionsTo client outs, em.due ≤ now ∧ em.seq < S'
  late : ∀ client, ∀ em ∈ emissionsTo client outs, W ≤ em.due ∧ (em.due = W → S ≤ em.seq)
  sorted : ∀ client, (emissionsTo client outs).Pairwise Emission.le

namespace SimEngine

variable {e e' : SimEngine env} {hist : List EngineCoreOutput} {outs : List EngineOutput}

/-- The emissions of a flush to one client, sorted. -/
theorem emissionsTo_flush (engineIndex : ℕ) (stats : SchedulerStats) (client : ℕ) :
    emissionsTo client ((e.flush now).2.entries.filterMap (stepOutput engineIndex now stats)) =
      (((e.dueEmits now).insertionSort DueEmit.le).filter
        (fun d => d.clientIndex = client)).map (fun d => ⟨d.due, d.seq⟩) := by
  rw [emissionsTo, toClient_stepOutputs, ← filterMap_emission_bare, flush_batch,
    filterMap_emission_bare, List.filterMap_map, ← List.filterMap_eq_map]
  apply List.filterMap_congr
  intro d hd
  have hmem := (List.mem_insertionSort DueEmit.le).mp (List.mem_of_mem_filter hd)
  obtain ⟨r, _, hshown⟩ := List.mem_flatMap.mp hmem
  exact (ActiveRequest.emitQueue_shown e.tokenSource now r.pendingEmits r d hshown).emission

/-- What a flush emits was queued, and was due. -/
theorem dueEmits_queued {d : DueEmit} (h : d ∈ e.dueEmits now) :
    ∃ id r, e.activeRequests.get? id = some r ∧ ∃ emit ∈ r.pendingEmits,
      emit.due ≤ now ∧ emit.due = d.due ∧ emit.seq = d.seq := by
  obtain ⟨r, hr, hshown⟩ := List.mem_flatMap.mp h
  obtain ⟨id, hget⟩ := SortedMap.mem_values.mp hr
  have hmem := List.mem_map_of_mem
    (f := fun d : DueEmit => (⟨d.due, d.seq, d.output.newTokenIds⟩ : PendingEmit)) hshown
  rw [ActiveRequest.emitDue, ActiveRequest.emitQueue_emissions] at hmem
  exact ⟨id, r, hget, _, (List.takeWhile_sublist _).subset hmem,
    by simpa using List.mem_takeWhile_imp hmem, rfl, rfl⟩

theorem schedulerStats_currentStep (e : SimEngine env) :
    e.schedulerStats.1.currentStep = e.currentStep := rfl

theorem step_delivers {fuel : ℕ} (h : e.step fuel now = some (e', outs)) (hst : Standing now e)
    (hs : Streamed hist e) (ha : Ahead W S e) : Delivers now W S outs e' := by
  obtain ⟨e₁, caughtUp, engineIndex, stats, hcatch, hafter, houts⟩ := step_parts h
  subst hafter houts
  have hspec : Emits Op.step.Allows now e [] e.clearSpec := Emits.move (Move.specCleared e)
  obtain ⟨hst₁, hs₁⟩ := (hspec.trans (catchUp_emits (fun _ => rfl) hcatch)).streamed hst hs
  have hcleared : Move now e (.outputs []) e.clearSpec := Move.specCleared e
  have hclear := hcleared.sound hst.sound
  have hahead : Ahead W S e.clearSpec := ⟨⟨ha.marked.seq, ha.marked.pending⟩, ha.step⟩
  obtain ⟨ha₁, hdue₁⟩ := catchUp_ahead hcatch hclear hahead
  have hterminal : ∀ o ∈ coreOf (caughtUp ++ ((e₁.flush now).1.schedule now).2),
      o.emission = none := by
    intro o ho
    rw [coreOf_append, List.mem_append] at ho
    exact ho.elim (catchUp_terminal hcatch o) (schedule_terminal now _ o)
  have hemissions : ∀ client, emissionsTo client
      ((e₁.flush now).2.entries.filterMap (stepOutput engineIndex now stats) ++
        (caughtUp ++ ((e₁.flush now).1.schedule now).2)) =
      (((e₁.dueEmits now).insertionSort DueEmit.le).filter
        (fun d => d.clientIndex = client)).map (fun d => ⟨d.due, d.seq⟩) := by
    intro client
    rw [emissionsTo_append, emissionsTo_terminal hterminal, List.append_nil, emissionsTo_flush]
  have hqueued : ∀ client, ∀ em ∈ emissionsTo client
      ((e₁.flush now).2.entries.filterMap (stepOutput engineIndex now stats) ++
        (caughtUp ++ ((e₁.flush now).1.schedule now).2)),
      ∃ id r, e₁.activeRequests.get? id = some r ∧ ∃ emit ∈ r.pendingEmits, emit.due ≤ now ∧ emit.due = em.due ∧ emit.seq = em.seq := by
    intro client em hem
    rw [hemissions] at hem
    obtain ⟨d, hd, rfl⟩ := List.mem_map.mp hem
    exact dueEmits_queued ((List.mem_insertionSort DueEmit.le).mp (List.mem_of_mem_filter hd))
  refine ⟨⟨e₁.emitSeq, ?_, ha₁.marked.seq, fun client em hem => ?_⟩, fun client em hem => ?_,
    fun client => ?_⟩
  · have hflush := flush_marked now hst₁.sound (hs₁.sorted hst₁.timed.ordered)
    have hrefill : Emits (fun effect => ∃ s, effect = .drained s) now (e₁.flush now).1
        (coreOf ((e₁.flush now).1.schedule now).2) ((e₁.flush now).1.schedule now).1 :=
      schedule_emits now _
    have hrest := hrefill.trans ((ensureStep_emits (Or.inl rfl)).trans
      (drained_emits now _ (fun s => ⟨s, rfl⟩)))
    have hflushed : Move now e₁ _ (e₁.flush now).1 := Move.flushed e₁
    have hsound := hflushed.sound hst₁.sound
    refine ⟨(hrest.marked (by simp) hsound hflush).2, fun step hstep => ?_⟩
    rw [schedulerStats_currentStep] at hstep
    rcases ensureStep_ends hstep with hkept | hlate
    · have hsame := (schedule_currentStep now (e₁.flush now).1).symm.trans hkept
      rw [(e₁.flush_flushed now).currentStep] at hsame
      by_contra hearly
      rw [dueStep, hsame, Option.filter_eq_none_iff] at hdue₁
      exact hdue₁ step rfl (by simpa using (not_le.mp hearly).le)
    · exact hlate
  · obtain ⟨id, r, hr, emit, hemit, hdue, heq, hseq⟩ := hqueued client em hem
    have hmem : emit ∈ e₁.chunksOf r.ticket := by
      rw [← (hs₁.active id r hr).chunks]
      exact List.mem_append_right _ hemit
    rw [← heq, ← hseq]
    exact ⟨hdue, hst₁.timed.ordered.seq r.ticket emit hmem⟩
  · obtain ⟨id, r, hr, emit, hemit, _, heq, hseq⟩ := hqueued client em hem
    rw [← heq, ← hseq]
    exact ha₁.marked.pending id r hr emit hemit
  · rw [hemissions, List.pairwise_map]
    exact (List.pairwise_insertionSort DueEmit.le _).sublist List.filter_sublist

/-- An operation other than `step()` delivers nothing and keeps the mark. -/
theorem perform_ahead {fuel : ℕ} {op : Op} (hop : op ≠ .step)
    (h : e.perform fuel now op = some (e', outs)) (he : Sound e) (ha : Ahead W S e)
    (hnow : W ≤ now) : Ahead W S e' ∧ ∀ client, emissionsTo client outs = [] := by
  have hquiet := perform_quiet hop h
  obtain ⟨os, hemits, _⟩ := perform_emits h
  refine ⟨⟨(hemits.marked (fun step hallow => hop hallow) he ha.marked).2, fun step hstep => ?_⟩,
    fun client => emissionsTo_terminal hquiet.terminal⟩
  rcases hquiet.step step hstep with hkept | hlate
  · exact ha.step step hkept
  · exact hnow.trans hlate

end SimEngine

/-- The emissions that a run delivers to one client, in the order returned. -/
def sentTo (client : ℕ) (turns : List (Turn env)) : List Emission :=
  turns.flatMap (fun t => emissionsTo client t.outputs)

theorem sentTo_snoc (client : ℕ) (turns : List (Turn env)) (t : Turn env) :
    sentTo client (turns ++ [t]) = sentTo client turns ++ emissionsTo client t.outputs := by
  rw [sentTo, List.flatMap_append, List.flatMap_singleton, sentTo]

/-- The order in which the clients of a run were served, up to the mark. -/
structure Served (turns : List (Turn env)) (e : SimEngine env) (clock : Instant) : Prop where
  mark : ∃ W S, W ≤ clock ∧ Ahead W S e ∧
    ∀ client, ∀ em ∈ sentTo client turns, em.due ≤ W ∧ em.seq < S
  sorted : ∀ client, (sentTo client turns).Pairwise Emission.le

theorem Fresh.served {e : SimEngine env} (h : Fresh e) : Served [] e 0 := by
  obtain ⟨engineIndex, opt, tokenSource, stepSource, hnew⟩ := h
  obtain ⟨latency, _, rfl⟩ := except_map_eq_ok hnew
  refine ⟨⟨0, 0, le_rfl, ⟨⟨le_rfl, by simp⟩, by simp⟩, by simp [sentTo]⟩, ?_⟩
  exact fun client => List.Pairwise.nil

theorem Run.served {e₀ e : SimEngine env} {turns : List (Turn env)} {clock : Instant}
    (hrun : Run e₀ turns e clock) (hfresh : Fresh e₀) : Served turns e clock := by
  have hall := hrun.turnwise (P := fun turns e clock => (Standing clock e ∧
    ∃ hist, Streamed hist e) ∧ Served turns e clock)
    ⟨⟨hfresh.standing, [], hfresh.streamed⟩, hfresh.served⟩ ?_
  · exact hall.2
  · rintro turns clock fuel t ⟨⟨hst, hist, hs⟩, hserved⟩ hclock hperform
    obtain ⟨W, S, hW, ha, hsent⟩ := hserved.mark
    have hnow := hst.later hclock
    obtain ⟨os, hshows⟩ := perform_shows hperform hnow hs
    refine ⟨⟨hshows.standing, _, hshows.streamed⟩, ?_⟩
    by_cases hop : t.op = .step
    · rw [hop] at hperform
      have hdelivers := step_delivers hperform hnow hs ha
      obtain ⟨S', ha', hle, hnew⟩ := hdelivers.ahead
      refine ⟨⟨t.now, S', le_rfl, ha', fun client em hem => ?_⟩, fun client => ?_⟩
      · rw [sentTo_snoc, List.mem_append] at hem
        rcases hem with hold | hem
        · obtain ⟨hdue, hseq⟩ := hsent client em hold
          exact ⟨hdue.trans (hW.trans hclock), hseq.trans_le hle⟩
        · exact hnew client em hem
      · rw [sentTo_snoc]
        apply List.pairwise_append.mpr
        refine ⟨hserved.sorted client, hdelivers.sorted client, fun em hem em' hem' => ?_⟩
        obtain ⟨hdue, hseq⟩ := hsent client em hem
        obtain ⟨hlate, hsame⟩ := hdelivers.late client em' hem'
        rcases (hdue.trans hlate).lt_or_eq with hlt | heq
        · exact Or.inl hlt
        · have hW' : em'.due = W := le_antisymm (heq ▸ hdue) hlate
          exact Or.inr ⟨heq, hseq.le.trans (hsame hW')⟩
    · obtain ⟨ha', hnone⟩ := perform_ahead hop hperform hst.sound ha (hW.trans hclock)
      refine ⟨⟨W, S, hW.trans hclock, ha', fun client em hem => ?_⟩, fun client => ?_⟩
      · rw [sentTo_snoc, hnone, List.append_nil] at hem
        exact hsent client em hem
      · rw [sentTo_snoc, hnone, List.append_nil]
        exact hserved.sorted client

/-! ## The streams of a run -/

namespace Framed

variable {os os' : List EngineCoreOutput}

theorem of_bare (h : Framed (os.map EngineCoreOutput.bare)) : Framed os := by
  refine ⟨fun o ho => ?_, fun o ho => ?_, fun o ho => ?_, fun o ho => ?_, fun o ho => ?_⟩
  · apply h.first o.bare
    rw [List.head?_map]
    exact Option.mem_map_of_mem EngineCoreOutput.bare ho
  · apply h.rest o.bare
    rw [← List.map_tail]
    exact List.mem_map_of_mem ho
  · apply h.last o.bare
    rw [← List.map_dropLast]
    exact List.mem_map_of_mem ho
  · exact h.tokens o.bare (List.mem_map_of_mem ho)
  · exact h.bare o.bare (List.mem_map_of_mem ho)

theorem map_bare (h : Framed os) : Framed (os.map EngineCoreOutput.bare) := by
  refine ⟨?_, ?_, ?_, ?_, ?_⟩
  · intro o ho
    rw [List.head?_map] at ho
    obtain ⟨o', ho', rfl⟩ := Option.mem_map.mp ho
    exact h.first o' ho'
  · intro o ho
    rw [← List.map_tail] at ho
    obtain ⟨o', ho', rfl⟩ := List.mem_map.mp ho
    exact h.rest o' ho'
  · intro o ho
    rw [← List.map_dropLast] at ho
    obtain ⟨o', ho', rfl⟩ := List.mem_map.mp ho
    exact h.last o' ho'
  · intro o ho
    obtain ⟨o', ho', rfl⟩ := List.mem_map.mp ho
    exact h.tokens o' ho'
  · intro o ho
    obtain ⟨o', ho', rfl⟩ := List.mem_map.mp ho
    exact h.bare o' ho'

/-- The tokens of a stream are those of the chunks it delivers. -/
theorem flatMap_tokens (h : Framed os) : os.flatMap EngineCoreOutput.newTokenIds =
    (os.filterMap EngineCoreOutput.chunk).flatMap PendingEmit.tokens := by
  have hone : ∀ o ∈ os, o.newTokenIds = o.chunk.toList.flatMap PendingEmit.tokens := by
    intro o ho
    cases hemission : o.emission with
    | none =>
        rw [(h.bare o ho hemission).1, EngineCoreOutput.chunk, hemission]
        rfl
    | some em =>
        rw [EngineCoreOutput.chunk, hemission]
        exact (List.append_nil _).symm
  rw [List.flatMap_congr hone, ← List.flatMap_assoc, List.filterMap_eq_flatMap_toList]

end Framed

/-- The stream of a ticket delivers the chunks generated for it, all of them when it finishes. -/
theorem Run.stream {e₀ e : SimEngine env} {turns : List (Turn env)} {clock : Instant}
    (hrun : Run e₀ turns e clock) (hfresh : Fresh e₀) (k : ℕ) :
    Framed (outputsFor k (coreOutputs turns)) ∧
      (outputsFor k (coreOutputs turns)).filterMap EngineCoreOutput.chunk <+: e.chunksOf k ∧
      ∀ o ∈ outputsFor k (coreOutputs turns), o.finishReason.isSome → o.newTokenIds ≠ [] →
        (outputsFor k (coreOutputs turns)).filterMap EngineCoreOutput.chunk = e.chunksOf k ∧
        (k, ((outputsFor k (coreOutputs turns)).flatMap
          EngineCoreOutput.newTokenIds).length) ∈ e.caps := by
  obtain ⟨_, hist, hs, horder⟩ := hrun.streamed hfresh
  have hstream := hs.stream k
  have hframed : Framed (outputsFor k (coreOutputs turns)) := by
    apply Framed.of_bare
    rw [horder]
    exact hstream.framed.map_bare
  have hchunks : (outputsFor k (coreOutputs turns)).filterMap EngineCoreOutput.chunk =
      (outputsFor k hist).filterMap EngineCoreOutput.chunk := by
    have hbare := congrArg (List.filterMap EngineCoreOutput.chunk) (horder k)
    rw [List.filterMap_map, List.filterMap_map] at hbare
    exact hbare
  have htokens : (outputsFor k (coreOutputs turns)).flatMap EngineCoreOutput.newTokenIds =
      (outputsFor k hist).flatMap EngineCoreOutput.newTokenIds := by
    rw [hframed.flatMap_tokens, hchunks, hstream.framed.flatMap_tokens]
  refine ⟨hframed, hchunks ▸ hstream.shown, fun o ho hfin hsome => ?_⟩
  have hbare := List.mem_map_of_mem (f := EngineCoreOutput.bare) ho
  rw [horder] at hbare
  obtain ⟨o', ho', hbare⟩ := List.mem_map.mp hbare
  have hreason : o'.bare.finishReason = o.bare.finishReason := by rw [hbare]
  have hids : o'.bare.newTokenIds = o.bare.newTokenIds := by rw [hbare]
  have hemission : o'.emission.isSome := by
    by_contra hnone
    have hnothing := (hstream.framed.bare o' ho' (by simpa using hnone)).1
    exact hsome (hids.symm.trans hnothing)
  obtain ⟨hall, hcap⟩ := hstream.finished o' ho' (hreason ▸ hfin) hemission
  rw [htokens, hchunks]
  exact ⟨hall, hcap⟩

/-- What a run shows for a ticket is a stream of what was generated for it, which its finishing
output completes, and every client receives its chunks by due time and sequence number. -/
theorem stream_integrity {e₀ e : SimEngine env} {turns : List (Turn env)} {clock : Instant}
    (hfresh : Fresh e₀) (hrun : Run e₀ turns e clock) :
    (∀ k, Framed (outputsFor k (coreOutputs turns)) ∧
      (outputsFor k (coreOutputs turns)).flatMap EngineCoreOutput.newTokenIds <+:
        (e.chunksOf k).flatMap PendingEmit.tokens ∧
      (∀ o ∈ outputsFor k (coreOutputs turns), o.finishReason.isSome → o.newTokenIds ≠ [] →
        (outputsFor k (coreOutputs turns)).flatMap EngineCoreOutput.newTokenIds =
          (e.chunksOf k).flatMap PendingEmit.tokens ∧
        (k, ((outputsFor k (coreOutputs turns)).flatMap
          EngineCoreOutput.newTokenIds).length) ∈ e.caps) ∧
      (k < e.nextTicket → k ∉ e.live.map Prod.snd →
        ∃ o ∈ (outputsFor k (coreOutputs turns)).getLast?, o.finishReason.isSome)) ∧
    ∀ client, (sentTo client turns).Pairwise Emission.le := by
  obtain ⟨_, hist, hs, horder⟩ := hrun.streamed hfresh
  refine ⟨fun k => ?_, (hrun.served hfresh).sorted⟩
  obtain ⟨hframed, ⟨rest, hrest⟩, hfinished⟩ := hrun.stream hfresh k
  refine ⟨hframed, ?_, fun o ho hfin hsome => ?_, fun hlt hgone => ?_⟩
  · rw [hframed.flatMap_tokens]
    exact ⟨rest.flatMap PendingEmit.tokens, by rw [← List.flatMap_append, hrest]⟩
  · obtain ⟨hall, hcap⟩ := hfinished o ho hfin hsome
    exact ⟨by rw [hframed.flatMap_tokens, hall], hcap⟩
  · obtain ⟨o, ho, hfin⟩ := (hs.ended k hlt).resolve_left hgone
    have hbare := List.mem_map_of_mem (f := EngineCoreOutput.bare) ho
    rw [← horder] at hbare
    obtain ⟨o', ho', heq⟩ := List.mem_map.mp hbare
    have hreason : o'.bare.finishReason = o.bare.finishReason := by rw [heq]
    have hfin' : o'.finishReason.isSome := hreason.symm ▸ hfin
    refine ⟨o', ?_, hfin'⟩
    obtain ⟨pre, post, hsplit⟩ := List.append_of_mem ho'
    rw [hsplit, ← List.singleton_append, ← List.append_assoc] at hframed
    have hlast := hframed.ended (List.mem_append_right _ (List.mem_singleton_self o')) hfin'
    rw [hsplit, hlast, List.getLast?_concat]
    rfl

/-- Two requests of two clients, served by two late calls. -/
def lateScript : List (Instant × Op) :=
  [(0, .input (.request (demoRequest "a" 3))),
    (0, .input (.request { demoRequest "b" 2 with clientIndex := 1 })), (1 / 4, .step), (1, .step)]

theorem lateScript_streams :
    ∃ turns e clock, Run (demo demoOpt none) turns e clock ∧
      (outputsFor 0 (coreOutputs turns)).length = 3 ∧ (sentTo 1 turns).length = 2 ∧
      Framed (outputsFor 0 (coreOutputs turns)) ∧ (sentTo 1 turns).Pairwise Emission.le := by
  have hplays : ((demo demoOpt none).play 20 lateScript).any
      (fun played => (outputsFor 0 (coreOutputs played.1)).length = 3 ∧
        (sentTo 1 played.1).length = 2) = true := by decide +kernel
  obtain ⟨turns, e, clock, hrun, _, hshown⟩ :=
    Run.of_script (p := fun (turns : List (Turn demoEnv)) _ =>
      (outputsFor 0 (coreOutputs turns)).length = 3 ∧ (sentTo 1 turns).length = 2) hplays
      (by decide +kernel)
  obtain ⟨hlen, hlen'⟩ := of_decide_eq_true hshown
  obtain ⟨hstreams, hsorted⟩ := stream_integrity (demo_fresh _ _ _) hrun
  exact ⟨turns, e, clock, hrun, hlen, hlen', (hstreams 0).1, hsorted 1⟩

end VllmVcr
