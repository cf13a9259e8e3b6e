import VllmVcr.Engine.Issued
import VllmVcr.Engine.Reception

/-!
# The outputs of one request id

An output names a request that is live, or refuses the request just taken. An id whose request has
finished is not live, so nothing more is shown under it until it is taken again.
-/

namespace VllmVcr

variable {env : Env} {now : Instant}

/-! ## Where outputs come from -/

/-- Unless a request comes in, a move shows outputs of live requests only. -/
theorem Move.sources {e e' : SimEngine env} {effect : Effect} (h : Move now e effect e')
    (he : Sound e) (hreset : effect ≠ .statsReset) (hreceived : e'.received = e.received) :
    ∀ o ∈ effect.toOutputs, ∃ k, o.ticket = some k ∧ (o.requestId, k) ∈ e.live := by
  intro o ho
  by_cases hfinish : o.finishReason.isSome = true
  · have hclosed : (o.requestId, o.ticket) ∈ closed effect.toOutputs :=
      List.mem_map.mpr ⟨o, List.mem_filter.mpr ⟨ho, hfinish⟩, rfl⟩
    obtain ⟨gone, hlive, hgone⟩ := h.closes he hreset hreceived
    rw [hgone] at hclosed
    obtain ⟨x, hx, heq⟩ := List.mem_map.mp hclosed
    obtain ⟨hid, hticket⟩ := Prod.mk.inj heq
    refine ⟨x.2, hticket.symm, ?_⟩
    rw [← hid]
    exact hlive.mem_iff.mpr (List.mem_append_left _ hx)
  · cases h.batch he with
    | still _ _ _ _ _ _ hshown =>
        rcases hshown with hnone | ⟨ticket, id, reason, hterminal⟩
        · rw [hnone] at ho
          cases ho
        · rw [hterminal, List.mem_singleton] at ho
          subst ho
          exact absurd rfl hfinish
    | entered _ _ _ _ _ _ _ _ _ hshown =>
        rw [hshown] at ho
        cases ho
    | withdrew =>
        cases List.mem_singleton.mp ho
        exact absurd rfl hfinish
    | composed => cases ho
    | executed => cases ho
    | flushed =>
        obtain ⟨d, hd, rfl⟩ := List.mem_map.mp ho
        obtain ⟨r, hr, hshown⟩ := List.mem_flatMap.mp hd
        obtain ⟨id, hget⟩ := SortedMap.mem_values.mp hr
        have hd' := r.emitQueue_shown e.tokenSource now r.pendingEmits d hshown
        refine ⟨r.ticket, hd'.ticket, ?_⟩
        rw [hd'.requestId, he.active id r hget]
        exact SimEngine.mem_live_active hget

/-- The same along a path on which no request comes in. -/
theorem Emits.sources {P : Effect → Prop} {e e' : SimEngine env} {os : List EngineCoreOutput}
    (h : Emits P now e os e') (hP : ¬ P .statsReset) (he : Sound e)
    (hreceived : e'.received = e.received) :
    ∀ o ∈ os, ∃ k, o.ticket = some k ∧ (o.requestId, k) ∈ e.live := by
  have hall := h.without_arrivals (Q := fun os u => (∀ x ∈ u.live, x ∈ e.live) ∧
    ∀ o ∈ os, ∃ k, o.ticket = some k ∧ (o.requestId, k) ∈ e.live) hP he hreceived
    ⟨fun _ hx => hx, by simp⟩ ?_
  · exact hall.2
  · rintro os u effect v hu ⟨hback, hos⟩ hmove hreset hkept
    obtain ⟨gone, hlive, _⟩ := hmove.closes hu hreset hkept
    refine ⟨fun x hx => hback x (hlive.mem_iff.mpr (List.mem_append_right _ hx)), fun o ho => ?_⟩
    rcases List.mem_append.mp ho with hold | hnew
    · exact hos o hold
    · obtain ⟨k, hticket, hk⟩ := hmove.sources hu hreset hkept o hnew
      exact ⟨k, hticket, hback _ hk⟩

/-- What an operation may show: outputs of live requests, the refusal of the request it takes, or
outputs of live requests and of the one it accepts. -/
inductive Showing (e : SimEngine env) (op : Op) (outs : List EngineOutput) (e' : SimEngine env) :
    Prop
  | untaken (htaken : op.taken = none)
      (hsources : ∀ o ∈ coreOf outs, ∃ k, o.ticket = some k ∧ (o.requestId, k) ∈ e.live)
  | refused (request : EngineCoreRequest) (htaken : op.taken = some request)
      (reason : FinishReason) (houts : coreOf outs = [terminalOutput none request.requestId reason])
      (hlive : e'.live = e.live) (hnext : e'.nextTicket = e.nextTicket)
  | accepted (request : EngineCoreRequest) (hop : op = .input (.request request))
      (hnew : e.isKnown request.requestId = false)
      (hsources : ∀ o ∈ coreOf outs, ∃ k, o.ticket = some k ∧
        ((o.requestId, k) ∈ e.live ∨ (o.requestId, k) = (request.requestId, e.nextTicket)))
      (hnext : e'.nextTicket = e.nextTicket + 1)

theorem bare_source {os outs : List EngineCoreOutput} {p : String → ℕ → Prop}
    (hperm : (outs.map EngineCoreOutput.bare).Perm (os.map EngineCoreOutput.bare))
    (h : ∀ o ∈ os, ∃ k, o.ticket = some k ∧ p o.requestId k) :
    ∀ o ∈ outs, ∃ k, o.ticket = some k ∧ p o.requestId k := by
  intro o ho
  obtain ⟨o', ho', heq⟩ := List.mem_map.mp (hperm.mem_iff.mp (List.mem_map_of_mem ho))
  obtain ⟨k, hticket, hk⟩ := h o' ho'
  have hids : o'.bare.requestId = o.bare.requestId := by rw [heq]
  have htickets : o'.bare.ticket = o.bare.ticket := by rw [heq]
  exact ⟨k, htickets ▸ hticket, hids ▸ hk⟩

namespace SimEngine

variable {e e' : SimEngine env}

theorem perform_showing {fuel : ℕ} {op : Op} {outs : List EngineOutput} (he : Sound e)
    (h : e.perform fuel now op = some (e', outs)) : Showing e op outs e' := by
  cases htaken : op.taken with
  | none =>
      by_cases hreset : op = .input (.control .resetStats)
      · subst hreset
        cases h
        exact .untaken rfl (by simp)
      · obtain ⟨os, hemits, hperm⟩ := perform_emits h
        exact .untaken htaken (bare_source (p := fun id k => (id, k) ∈ e.live) hperm
          (hemits.sources (fun hallow => hreset hallow) he (perform_received h htaken hreset)))
  | some request =>
      cases op with
      | input input =>
          cases input with
          | request request' =>
              cases htaken
              have hres : e.handleRequest now request = (e', outs) := Option.some.inj h
              rcases @handleRequest_cases _ now request e with
                ⟨e₁, reason, hlive, hnext, heq⟩ | ⟨rng, hknown, heq⟩
              · rw [heq] at hres
                cases hres
                exact .refused request rfl reason rfl hlive hnext
              · rw [heq] at hres
                have hmove : Move now e _ _ := Move.enqueued e rng request hknown
                have hrefill := refill_emits (P := fun _ => False) now
                  ((e.countReceived.withFailureRng rng).enqueue now request)
                have hsources := hrefill.sources (fun hfalse => hfalse) (hmove.sound he)
                  (refill_received now _)
                have hnext := nextTicket_of_emits hrefill (by simp)
                rw [hres] at hsources hnext
                refine .accepted request rfl hknown (fun o ho => ?_) hnext
                obtain ⟨k, hticket, hk⟩ := hsources o ho
                rw [live_enqueue, List.mem_append, List.mem_singleton] at hk
                exact ⟨k, hticket, hk⟩
          | _ => cases htaken
      | rejectRequest request' =>
          cases htaken
          cases h
          exact .refused request rfl .abort rfl rfl rfl
      | _ => cases htaken

end SimEngine

/-! ## An id that is not live -/

theorem Turn.issued_of_next {t : Turn env} {request : EngineCoreRequest}
    (hop : t.op = .input (.request request)) (hnext : t.after.nextTicket = t.before.nextTicket + 1) :
    t.issued = [request] := by
  simp only [Turn.issued, hop]
  exact if_pos (by omega)

/-- An id that is not live stays so until a request with it is accepted, and the only outputs it
gets are the refusals of requests with it. -/
theorem Turn.not_live {fuel : ℕ} {t : Turn env} (he : Sound t.before)
    (hperform : t.before.perform fuel t.now t.op = some (t.after, t.outputs)) {id : String}
    (hid : id ∉ t.before.liveIds) (hissued : ∀ request ∈ t.issued, request.requestId ≠ id) :
    id ∉ t.after.liveIds ∧ ∀ o ∈ coreOf t.outputs, o.requestId = id →
      o.finishReason.isSome = true ∧ ∃ request, t.op.taken = some request ∧
        request.requestId = id := by
  have hids := SimEngine.perform_ids he hperform
  have hnone : ∀ o k, (o, k) ∈ t.before.live → o ≠ id := by
    rintro o k hk rfl
    exact hid (List.mem_map_of_mem hk)
  cases SimEngine.perform_showing he hperform with
  | untaken htaken hsources =>
      rw [htaken, Option.map_none, Option.toList_none, List.append_nil] at hids
      refine ⟨fun hlive => hid (hids.mem_iff.mpr (List.mem_append_right _ hlive)), ?_⟩
      intro o ho heq
      obtain ⟨k, _, hk⟩ := hsources o ho
      exact absurd heq (hnone _ k hk)
  | refused request htaken reason houts hlive _ =>
      refine ⟨by rwa [SimEngine.liveIds, hlive], fun o ho heq => ?_⟩
      rw [houts, List.mem_singleton] at ho
      subst ho
      exact ⟨rfl, request, htaken, heq⟩
  | accepted request hop _ hsources hnext =>
      have hother : request.requestId ≠ id :=
        hissued request (by rw [t.issued_of_next hop hnext]; exact List.mem_singleton_self _)
      refine ⟨fun hlive => ?_, fun o ho heq => ?_⟩
      · have hmem := hids.mem_iff.mpr (List.mem_append_right _ hlive)
        rcases List.mem_append.mp hmem with hold | hone
        · exact hid hold
        · rw [hop] at hone
          exact hother (List.mem_singleton.mp hone).symm
      · obtain ⟨k, _, hk⟩ := hsources o ho
        rcases hk with hk | hk
        · exact absurd heq (hnone _ k hk)
        · exact absurd ((Prod.mk.inj hk).1.symm.trans heq) hother

/-- A turn that finishes an id, other than by refusing a request whose id is live, leaves the id
dead. -/
theorem Turn.finishes {fuel : ℕ} {t : Turn env} (he : Sound t.before)
    (hperform : t.before.perform fuel t.now t.op = some (t.after, t.outputs))
    {o : EngineCoreOutput} (ho : o ∈ coreOf t.outputs) (hfinish : o.finishReason.isSome = true)
    (hown : ∀ request, t.op.taken = some request → request.requestId = o.requestId →
      t.before.isKnown o.requestId = false) :
    o.requestId ∉ t.after.liveIds ∧ (closedIds (coreOf t.outputs)).count o.requestId = 1 := by
  have hids := (SimEngine.perform_ids he hperform).count_eq o.requestId
  rw [List.count_append, List.count_append] at hids
  have hbefore : t.before.liveIds.count o.requestId ≤ 1 := List.nodup_iff_count_le_one.mp he.ids _
  have hclosed : 0 < (closedIds (coreOf t.outputs)).count o.requestId := by
    apply List.count_pos_iff.mpr
    refine List.mem_map.mpr ⟨(o.requestId, o.ticket), ?_, rfl⟩
    exact List.mem_map.mpr ⟨o, List.mem_filter.mpr ⟨ho, hfinish⟩, rfl⟩
  have htotal : t.before.liveIds.count o.requestId +
      (t.op.taken.map EngineCoreRequest.requestId).toList.count o.requestId ≤ 1 := by
    cases htaken : t.op.taken with
    | none => simpa using hbefore
    | some request =>
        by_cases hsame : request.requestId = o.requestId
        · have hunknown := hown request htaken hsame
          have hdead : o.requestId ∉ t.before.liveIds := by
            rw [SimEngine.liveIds, ← SimEngine.isKnown_iff, hunknown]
            exact Bool.false_ne_true
          rw [List.count_eq_zero.mpr hdead]
          simp [hsame]
        · simpa [hsame] using hbefore
  exact ⟨List.count_eq_zero.mp (by omega), by omega⟩

namespace SimEngine

/-- Two outputs of one turn under one id are of one ticket, unless the turn shows a refusal only. -/
theorem one_ticket {e e' : SimEngine env} {fuel : ℕ} {op : Op} {outs : List EngineOutput}
    (he : Sound e) (h : e.perform fuel now op = some (e', outs)) {o o' : EngineCoreOutput}
    (ho : o ∈ coreOf outs) (ho' : o' ∈ coreOf outs) (hid : o'.requestId = o.requestId) :
    coreOf outs = [o] ∨ ∃ k, o.ticket = some k ∧ o'.ticket = some k := by
  have hunique : ∀ {k k'}, (o.requestId, k) ∈ e.live → (o'.requestId, k') ∈ e.live → k' = k := by
    intro k k' hk hk'
    rw [hid] at hk'
    exact (Prod.mk.inj (List.inj_on_of_nodup_map he.ids hk' hk rfl)).2
  cases perform_showing he h with
  | untaken _ hsources =>
      obtain ⟨k, hticket, hk⟩ := hsources o ho
      obtain ⟨k', hticket', hk'⟩ := hsources o' ho'
      exact Or.inr ⟨k, hticket, hunique hk hk' ▸ hticket'⟩
  | refused request _ reason houts =>
      rw [houts, List.mem_singleton] at ho
      exact Or.inl (by rw [houts, ho])
  | accepted request _ hnew hsources =>
      have hdead : request.requestId ∉ e.liveIds := by
        rw [liveIds, ← isKnown_iff, hnew]
        exact Bool.false_ne_true
      obtain ⟨k, hticket, hk⟩ := hsources o ho
      obtain ⟨k', hticket', hk'⟩ := hsources o' ho'
      rw [hid] at hk'
      rcases hk with hk | hk
      · rcases hk' with hk' | hk'
        · rw [← hid] at hk'
          exact Or.inr ⟨k, hticket, hunique hk hk' ▸ hticket'⟩
        · rw [(Prod.mk.inj hk').1] at hk
          exact absurd (List.mem_map_of_mem hk) hdead
      · rcases hk' with hk' | hk'
        · rw [(Prod.mk.inj hk).1] at hk'
          exact absurd (List.mem_map_of_mem hk') hdead
        · rw [(Prod.mk.inj hk').2, ← (Prod.mk.inj hk).2] at hticket'
          exact Or.inr ⟨k, hticket, hticket'⟩

end SimEngine

/-! ## Runs -/

/-- The output that ends a ticket's stream is the last of a run. -/
theorem Run.ended {e₀ e : SimEngine env} {turns : List (Turn env)} {clock : Instant}
    (hrun : Run e₀ turns e clock) (hfresh : Fresh e₀) {k : ℕ} {os os' : List EngineCoreOutput}
    {o : EngineCoreOutput} (hsplit : outputsFor k (coreOutputs turns) = os ++ o :: os')
    (hfinish : o.finishReason.isSome = true) : os' = [] := by
  obtain ⟨_, hist, hs, hbare⟩ := hrun.streamed hfresh
  have hframed := (hs.stream k).framed
  have hmap := hbare k
  rw [hsplit, List.map_append, List.map_cons] at hmap
  obtain ⟨xs, ys, heq, _, hys⟩ := List.map_eq_append_iff.mp hmap.symm
  obtain ⟨x, zs, hcons, hx, hzs⟩ := List.map_eq_cons_iff.mp hys
  have hlast : x.finishReason.isSome = true := by
    have hsame : x.bare.finishReason = o.bare.finishReason := by rw [hx]
    exact (congrArg Option.isSome hsame).trans hfinish
  rw [heq, hcons, List.append_cons] at hframed
  have hzero := hframed.ended (List.mem_append_right _ (List.mem_singleton_self x)) hlast
  rw [hzero, List.map_nil] at hzs
  exact List.map_eq_nil_iff.mp hzs.symm

/-- Once an output under an id carries a finish reason, other than the refusal of a request whose
id was in flight, no further output is shown under the id before a later request with it is
accepted, but the terminal outputs that refuse later requests with it. -/
theorem id_streams {e₀ e : SimEngine env} {pre post : List (Turn env)} {t : Turn env}
    {clock : Instant} (hfresh : Fresh e₀) (hrun : Run e₀ (pre ++ t :: post) e clock)
    {os os' : List EngineCoreOutput} {o : EngineCoreOutput}
    (houts : coreOf t.outputs = os ++ o :: os') (hfinish : o.finishReason.isSome = true)
    (hown : ∀ request, t.op.taken = some request → request.requestId = o.requestId →
      t.before.isKnown o.requestId = false) :
    (∀ o' ∈ os', o'.requestId ≠ o.requestId) ∧
    ∀ mid u rest, post = mid ++ u :: rest →
      (∀ v ∈ mid ++ [u], ∀ request ∈ v.issued, request.requestId ≠ o.requestId) →
      ∀ o' ∈ coreOf u.outputs, o'.requestId = o.requestId → o'.finishReason.isSome = true ∧
        ∃ request, u.op.taken = some request ∧ request.requestId = o.requestId := by
  obtain ⟨clock₁, hpre, htakes, hpost⟩ := Run.cut hrun
  obtain ⟨fuel, hperform⟩ := htakes.performs
  have hsound : Sound t.before := Run.sound hpre hfresh
  have hmem : o ∈ coreOf t.outputs := by
    rw [houts]
    exact List.mem_append_right _ List.mem_cons_self
  obtain ⟨hdead, hone⟩ := t.finishes hsound hperform hmem hfinish hown
  constructor
  · intro o' ho' hid
    have hmem' : o' ∈ coreOf t.outputs := by
      rw [houts]
      exact List.mem_append_right _ (List.mem_cons_of_mem _ ho')
    rcases SimEngine.one_ticket hsound hperform hmem hmem' hid with hsingle | ⟨k, hticket, hticket'⟩
    · rw [houts, List.append_eq_singleton_iff] at hsingle
      rcases hsingle with ⟨_, hcons⟩ | ⟨_, hnil⟩
      · cases hcons
        cases ho'
      · cases hnil
    · have hrun₁ : Run e₀ (pre ++ [t]) t.after t.now := Path.snoc hpre htakes
      have hsplit : outputsFor k (coreOutputs (pre ++ [t])) =
          outputsFor k (coreOutputs pre ++ os) ++ o :: outputsFor k os' := by
        have houtputs : coreOutputs (pre ++ [t]) = (coreOutputs pre ++ os) ++ o :: os' := by
          rw [List.append_assoc, ← houts]
          simp [coreOutputs, coreOf]
        rw [houtputs, outputsFor_append, outputsFor, outputsFor, List.filter_cons_of_pos]
        · rfl
        · simpa using hticket
      have hnil := hrun₁.ended hfresh hsplit hfinish
      have hlater : o' ∈ outputsFor k os' := List.mem_filter.mpr ⟨ho', by simpa using hticket'⟩
      rw [hnil] at hlater
      cases hlater
  · rintro mid u rest rfl hissued o' ho' hid
    obtain ⟨clock₂, hmid, hu, _⟩ := Run.cut hpost
    have hafter : Sound t.after := Run.sound (Path.snoc hpre htakes) hfresh
    have hgone := hmid.invariant_of (P := fun v : Turn env =>
        ∀ request ∈ v.issued, request.requestId ≠ o.requestId)
      (I := fun s => Sound s.1 ∧ o.requestId ∉ s.1.liveIds) ⟨hafter, hdead⟩
      (fun v hv => hissued v (List.mem_append_left _ hv)) ?_
    · obtain ⟨fuel', hperform'⟩ := hu.performs
      have hquiet := hissued u (List.mem_append_right _ (List.mem_singleton_self u))
      exact (u.not_live hgone.1 hperform' hgone.2 hquiet).2 o' ho' hid
    · rintro ⟨e₁, clock₃⟩ v ⟨e₂, clock₄⟩ hquiet ⟨hs, hd⟩ hv
      obtain ⟨fuel', hperform'⟩ := hv.performs
      obtain ⟨os, hemits, _⟩ := perform_emits hperform'
      obtain rfl : v.before = e₁ := hv.before
      obtain rfl : v.after = e₂ := hv.after
      refine ⟨hemits.invariant hs (fun _ _ _ _ hi hmove => hmove.sound hi), ?_⟩
      exact (v.not_live hs hperform' hd hquiet).1

/-! ## A duplicate of a running request -/

def duplicateScript : List (Instant × Op) :=
  [(0, .input (.request (demoRequest "a" 5))), (1, .input (.request (demoRequest "a" 5))),
    (10, .step)]

/-- The second turn finishes an id that the third one shows again, with nothing accepted then. -/
def resumes (turns : List (Turn env)) : Bool :=
  match turns with
  | [_, t, u] => u.issued.isEmpty && (coreOf t.outputs).any (fun o => o.finishReason.isSome &&
      (coreOf u.outputs).any (fun o' => o'.requestId = o.requestId))
  | _ => false

/-- The duplicate is refused under the id of the running request, which then shows a token. -/
theorem duplicateScript_resumes :
    ∃ first t u e clock o o', Run (demo demoOpt none) [first, t, u] e clock ∧
      o ∈ coreOf t.outputs ∧ o.finishReason.isSome = true ∧ o' ∈ coreOf u.outputs ∧
      o'.requestId = o.requestId ∧ u.issued = [] := by
  have hplays : ((demo demoOpt none).play 20 duplicateScript).any
      (fun played => resumes played.1) = true := by decide +kernel
  obtain ⟨turns, e, clock, hrun, hops, hresumes⟩ :=
    Run.of_script (p := fun turns _ => resumes turns) hplays (by decide +kernel)
  unfold resumes at hresumes
  split at hresumes
  · next first t u =>
      obtain ⟨hissued, hany⟩ := Bool.and_eq_true_iff.mp hresumes
      obtain ⟨o, ho, hboth⟩ := List.any_eq_true.mp hany
      obtain ⟨hfinish, hagain⟩ := Bool.and_eq_true_iff.mp hboth
      obtain ⟨o', ho', hid⟩ := List.any_eq_true.mp hagain
      exact ⟨first, t, u, e, clock, o, o', hrun, ho, hfinish, ho', of_decide_eq_true hid,
        List.isEmpty_iff.mp hissued⟩
  · cases hresumes

/-- One of two requests finishes, and its id is refused when it comes again. -/
def pairScript : List (Instant × Op) :=
  [(0, .input (.request (demoRequest "a" 1))), (0, .input (.request (demoRequest "b" 3))),
    (0, .step), (3 / 20, .step), (1 / 4, .rejectRequest (demoRequest "a" 1))]

/-- The third turn finishes the request `a`, the fourth shows the other, the fifth `a` again. -/
def showsBoth (turns : List (Turn env)) : Bool :=
  match turns with
  | [_, _, t, u, v] => t.op.taken.isNone && u.issued.isEmpty && v.issued.isEmpty &&
      (coreOf t.outputs).head?.any (fun o => o.requestId == "a" && o.finishReason.isSome) &&
      (coreOf u.outputs).map EngineCoreOutput.requestId == ["b"] &&
      (coreOf v.outputs).map EngineCoreOutput.requestId == ["a"]
  | _ => false

theorem pairScript_ends :
    ∃ s s' t u v e clock, Run (demo demoOpt none) [s, s', t, u, v] e clock ∧
      (coreOf u.outputs).map EngineCoreOutput.requestId = ["b"] ∧
      (coreOf v.outputs).map EngineCoreOutput.requestId = ["a"] ∧
      ∀ w ∈ [u, v], ∀ o ∈ coreOf w.outputs, o.requestId = "a" → o.finishReason.isSome = true ∧
        ∃ request, w.op.taken = some request ∧ request.requestId = "a" := by
  have hplays : ((demo demoOpt none).play 20 pairScript).any
      (fun played => showsBoth played.1) = true := by decide +kernel
  obtain ⟨turns, e, clock, hrun, hops, hshows⟩ :=
    Run.of_script (p := fun turns _ => showsBoth turns) hplays (by decide +kernel)
  unfold showsBoth at hshows
  split at hshows
  · next s s' t u v =>
      simp only [Bool.and_eq_true, beq_iff_eq, Option.isNone_iff_eq_none, List.isEmpty_iff] at hshows
      obtain ⟨⟨⟨⟨⟨htaken, hu⟩, hv⟩, hhead⟩, hother⟩, hagain⟩ := hshows
      obtain ⟨o, ho, hfinish⟩ := (Option.any_eq_true _ _).mp hhead
      simp only [Bool.and_eq_true, beq_iff_eq] at hfinish
      obtain ⟨hid, hfinish⟩ := hfinish
      obtain ⟨os', houts⟩ := List.head?_eq_some_iff.mp ho
      have hcut : Run (demo demoOpt none) ([s, s'] ++ t :: [u, v]) e clock := hrun
      have hshown : coreOf t.outputs = [] ++ o :: os' := houts
      have hown : ∀ request, t.op.taken = some request → request.requestId = o.requestId →
          t.before.isKnown o.requestId = false := by
        intro request htake
        rw [htaken] at htake
        cases htake
      have hquiet : ∀ w ∈ [u, v], ∀ request ∈ w.issued, request.requestId ≠ o.requestId := by
        simp [hu, hv]
      have hlater := (id_streams (demo_fresh _ _ _) hcut hshown hfinish hown).2
      have hfirst := hlater [] u [v] rfl
        (fun w hw => hquiet w (List.mem_singleton.mp hw ▸ List.mem_cons_self))
      have hsecond := hlater [u] v [] rfl hquiet
      rw [hid] at hfirst hsecond
      refine ⟨s, s', t, u, v, e, clock, hrun, hother, hagain, ?_⟩
      simp only [List.forall_mem_cons]
      exact ⟨hfirst, hsecond, List.forall_mem_nil _⟩
  · cases hshows

end VllmVcr
