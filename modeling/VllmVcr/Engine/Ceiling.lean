import VllmVcr.Engine.Lives
import VllmVcr.Engine.ClientOrder

/-!
# The requested maximum

A request is admitted with a generation cap, and never generates more than it. The cap is at most
the requested `max_tokens`, unless an output length is sampled for a request whose `min_tokens`
is larger than its `max_tokens`.
-/

namespace VllmVcr

variable {env : Env} {now : Instant}

open SimEngine

/-! ## Generating within the cap -/

/-- The tokens generated for a ticket. -/
def SimEngine.tokensOf (e : SimEngine env) (ticket : ℕ) : List Token :=
  (e.chunksOf ticket).flatMap PendingEmit.tokens

/-- Only the tickets in the batch get chunks. -/
theorem Move.chunks_kept {e e' : SimEngine env} {effect : Effect} (h : Move now e effect e')
    (he : Sound e) {k : ℕ} (hk : ∀ id r, e'.activeRequests.get? id = some r → r.ticket ≠ k) :
    e'.chunksOf k = e.chunksOf k := by
  cases h.batch he with
  | still _ _ _ _ hjournal hquiet => exact chunksOf_quiet hjournal hquiet k
  | entered _ _ _ _ _ _ _ hjournal hquiet => exact chunksOf_entered hjournal hquiet k
  | withdrew _ _ _ _ hjournal => rw [chunksOf, hjournal, chunksOf]
  | composed => rfl
  | @executed step =>
      have hg := Generated.execute e.takeStep step he.distinctTickets
      apply hg.others
      intro id r hr hticket
      obtain ⟨r', hr', hprog⟩ := hg.progress.active.left hr
      exact hk id r' hr' (hprog.ticket.trans hticket)
  | flushed => rw [chunksOf, (e.flush_flushed now).journal, chunksOf]

/-- What is generated for an active ticket is what its request counts. -/
theorem Streamed.tokensOf {hist : List EngineCoreOutput} {e : SimEngine env}
    (h : Streamed hist e) (he : Sound e) {id : String} {r : ActiveRequest env}
    (hr : e.activeRequests.get? id = some r) : (e.tokensOf r.ticket).length = r.generated := by
  have hstreaming := h.active id r hr
  rw [(he.ok id r hr).produced, SimEngine.tokensOf, ← hstreaming.chunks, List.flatMap_append,
    List.length_append, ← hstreaming.framed.flatMap_tokens, hstreaming.emitted]
  rfl

/-- No ticket has more tokens than its cap. -/
def Within (e : SimEngine env) : Prop := ∀ k m, (k, m) ∈ e.caps → (e.tokensOf k).length ≤ m

theorem Move.within {e e' : SimEngine env} {effect : Effect} (h : Move now e effect e')
    {hist : List EngineCoreOutput} (hst : Standing now e) (hs : Streamed hist e)
    (hw : Within e) : Within e' := by
  intro k m hcap
  have hst' := h.standing hst
  have hs' := h.streamed hst.sound hst.enrolled hst.timed.ordered hs
  by_cases hactive : ∃ id r, e'.activeRequests.get? id = some r ∧ r.ticket = k
  · obtain ⟨id, r, hr, rfl⟩ := hactive
    rw [hs'.tokensOf hst'.sound hr, caps_unique hst'.enrolled hcap (hs'.cap id r hr)]
    exact (hst'.sound.ok id r hr).capped
  · have hkept := h.chunks_kept hst.sound (k := k)
      (fun id r hr hticket => hactive ⟨id, r, hr, hticket⟩)
    rw [SimEngine.tokensOf, hkept]
    by_cases hk : k ∈ e.admissions
    · rw [← e.caps_tickets] at hk
      obtain ⟨⟨k', m'⟩, hm', hk'⟩ := List.mem_map.mp hk
      obtain rfl : k = k' := hk'.symm
      rw [caps_unique hst'.enrolled hcap (h.caps hst.sound hm')]
      exact hw k m' hm'
    · have hnone : e.chunksOf k = [] := by
        by_contra hne
        exact hk (hst.timed.ordered.admitted k hne)
      rw [hnone]
      exact Nat.zero_le m

/-! ## The cap of a request -/

/-- The generation cap that a new request gets under the engine's settings. -/
def SimEngine.sampledCap (e : SimEngine env) (request : EngineCoreRequest)
    (params : EngineCoreSamplingParams) : ℕ :=
  (ActiveRequest.capTokens e.opt e.latency request.prompt.length params
    (env.seedFromU64 (env.requestSeed e.opt.seed e.engineIndex request.requestId))).1

/-- The request asks for no more tokens at least than at most, or no output length is sampled for
it: the engine replays recordings, the request neither names an EOS token nor fills the context, or
the latency model samples no length. -/
def SimEngine.Ceiled (e : SimEngine env) (request : EngineCoreRequest)
    (params : EngineCoreSamplingParams) : Prop :=
  params.minTokens ≤ params.maxTokens ∨
    (e.opt.replaySteps.isSome || e.opt.replayTokens.isSome) = true ∨
    (params.eosTokenId.isNone ∧
      request.prompt.length + params.maxTokens < e.opt.contextCeiling) ∨
    (e.latency.sampleOutputLen
      (env.seedFromU64 (env.requestSeed e.opt.seed e.engineIndex request.requestId))).1 = none

/-- The cap is within the requested maximum exactly when one of these holds. -/
theorem SimEngine.sampledCap_le_iff (e : SimEngine env) (request : EngineCoreRequest)
    {params : EngineCoreSamplingParams} (hpos : 0 < params.maxTokens) :
    e.sampledCap request params ≤ params.maxTokens ↔ e.Ceiled request params := by
  have heos : (params.eosTokenId.isNone ∧
      request.prompt.length + params.maxTokens < e.opt.contextCeiling) ↔
      (params.eosTokenId.isSome ||
        decide (e.opt.contextCeiling ≤ request.prompt.length + params.maxTokens)) = false := by
    simp
  rw [Ceiled, heos, sampledCap, ActiveRequest.capTokens]
  cases (e.opt.replaySteps.isSome || e.opt.replayTokens.isSome) with
  | true => simp
  | false =>
      cases (params.eosTokenId.isSome ||
        decide (e.opt.contextCeiling ≤ request.prompt.length + params.maxTokens)) with
      | false => simp
      | true =>
          rcases e.latency.sampleOutputLen (env.seedFromU64
            (env.requestSeed e.opt.seed e.engineIndex request.requestId)) with ⟨_ | sampled, rng⟩
          · simp
          · simp
            omega

/-- A request enters with at most the cap sampled for it. -/
theorem ActiveRequest.new_cap {engineIndex ticket : ℕ} {request : EngineCoreRequest} {opt : Opt}
    {latency : LatencyModel env.Rng} {admission : AdmissionCtx} {r : ActiveRequest env}
    (h : new engineIndex now request ticket opt latency admission = .ok r) :
    ∃ params, request.samplingParams = some params ∧ 0 < params.maxTokens ∧
      r.maxTokens = (capTokens opt latency request.prompt.length params
        (env.seedFromU64 (env.requestSeed opt.seed engineIndex request.requestId))).1 := by
  simp only [new] at h
  split at h
  · cases h
  · next params hparams =>
      split at h
      · cases h
      · next hmax =>
          cases h
          exact ⟨params, hparams, Nat.pos_of_ne_zero hmax, rfl⟩

theorem Entry.cap {e e' : SimEngine env} {q : QueuedRequest} {r : ActiveRequest env}
    (h : Entry now e e' q r) : ∃ params, q.request.samplingParams = some params ∧
      0 < params.maxTokens ∧ r.maxTokens ≤ e.sampledCap q.request params := by
  obtain ⟨admission, active, hbuild, rfl⟩ := h.built
  obtain ⟨maxTokens, _, hle, heq⟩ := active.pinned_eq
    (e.tokenSource.onRequestAdded q.request.requestId q.request.prompt).2
    (handTo e.stepSource q.request).2
  obtain ⟨params, hparams, hpos, hcap⟩ := ActiveRequest.new_cap hbuild
  refine ⟨params, hparams, hpos, ?_⟩
  rw [heq, SimEngine.sampledCap, ← hcap]
  exact hle

/-! ## One turn -/

/-- The engines with these settings. -/
def fixed (env : Env) (engineIndex : ℕ) (opt : Opt) (latency : LatencyModel env.Rng) :
    Settings env where
  allows i opt' latency' _ := i = engineIndex ∧ opt' = opt ∧ latency' = latency
  serves _ _ _ _ _ _ _ h := h
  adds _ _ _ _ _ _ h := h
  finishes _ _ _ _ _ h := h

/-- A turn changes the settings first, if it changes them at all. -/
theorem Turn.settles {fuel : ℕ} {t : Turn env}
    (h : t.before.perform fuel t.now t.op = some (t.after, t.outputs)) :
    ∃ base effects, (base = t.before ∨ ∃ effect, effect.issued = [] ∧
        Move t.now t.before effect base ∧ base.caps = t.before.caps) ∧
      Path (Move t.now) base effects t.after ∧
      (∀ effect ∈ effects, ∀ patch, effect ≠ .configured patch) ∧
      effects.flatMap Effect.issued = t.issued := by
  by_cases hpatch : ∃ patch, t.op = .input (.control (.patchConfig patch))
  · obtain ⟨patch, hop⟩ := hpatch
    have hissued : t.issued = [] := by
      rw [Turn.issued, hop]
    rw [hop] at h
    have hres : (t.before.handleControl t.now (.patchConfig patch)).2 = (t.after, t.outputs) :=
      Option.some.inj h
    rw [handleControl] at hres
    cases hpatched : t.before.applyPatch t.now patch with
    | error error =>
        rw [hpatched] at hres
        have hsame : t.before = t.after := (Prod.mk.inj hres).1
        refine ⟨t.before, [], Or.inl rfl, ?_, by simp, hissued.symm⟩
        rw [hsame]
        exact Path.nil _
    | ok result =>
        rw [hpatched] at hres
        obtain ⟨latency, _, hresult⟩ := applyPatch_ok hpatched
        obtain ⟨effects, hpath, hallow, _⟩ := refill_emits (P := fun _ => False) t.now
          { t.before with opt := patch.apply t.before.opt, latency := latency }
        rw [← hresult] at hpath
        have hafter : result.1 = t.after := (Prod.mk.inj hres).1
        rw [hafter] at hpath
        refine ⟨_, effects, Or.inr ⟨_, rfl, .configured _ patch latency, rfl⟩, hpath, ?_, ?_⟩
        · rintro effect heffect patch' rfl
          rcases hallow _ heffect with ⟨os, hos⟩ | hnone
          · cases hos
          · exact hnone
        · rw [hissued, List.flatMap_eq_nil_iff]
          intro effect heffect
          rcases hallow effect heffect with ⟨os, rfl⟩ | hnone
          · rfl
          · cases hnone
  · obtain ⟨os, hemits, _⟩ := perform_emits h
    obtain ⟨effects, hpath, hallow, _⟩ := hemits.allows
    refine ⟨t.before, effects, Or.inl rfl, hpath, ?_, Turn.issued_eq h hpath hallow⟩
    rintro effect heffect patch rfl
    exact hpatch ⟨patch, hallow _ heffect⟩

theorem Entry.caps {e e' : SimEngine env} {q : QueuedRequest} {r : ActiveRequest env}
    (h : Entry now e e' q r) : e'.caps = e.caps ++ [(q.ticket, r.maxTokens)] := by
  obtain ⟨pre, post, hquiet, hjournal⟩ := h.journal
  have hpre := filterMap_quiet (fun _ => Event.IsQuiet.cap)
    (fun ev hev => hquiet ev (List.mem_append_left post hev))
  have hpost := filterMap_quiet (fun _ => Event.IsQuiet.cap)
    (fun ev hev => hquiet ev (List.mem_append_right pre hev))
  rw [SimEngine.caps, hjournal, List.filterMap_append, List.filterMap_append, hpre,
    List.append_nil, List.filterMap_cons, hpost, ← h.ticket]
  rfl

/-- A cap is new only for a request that enters. -/
theorem Move.new_cap {e e' : SimEngine env} {effect : Effect} (h : Move now e effect e')
    (he : Sound e) (hen : Enrolled e) {k m : ℕ} (hcap : (k, m) ∈ e'.caps) :
    (k, m) ∈ e.caps ∨ ∃ q r, Entry now e e' q r ∧ k = q.ticket ∧ m = r.maxTokens := by
  rcases h.entry he with ⟨hkept, _⟩ | ⟨q, r, hentry⟩
  · left
    have hk : k ∈ e'.caps.map Prod.fst := List.mem_map_of_mem hcap
    rw [caps_tickets, hkept, ← caps_tickets] at hk
    obtain ⟨⟨k', m'⟩, hm', hk'⟩ := List.mem_map.mp hk
    obtain rfl : k = k' := hk'.symm
    rwa [caps_unique (h.enrolled he hen) hcap (h.caps he hm')]
  · rw [hentry.caps, List.mem_append, List.mem_singleton] at hcap
    rcases hcap with hold | hnew
    · exact Or.inl hold
    · exact Or.inr ⟨q, r, hentry, congrArg Prod.fst hnew, congrArg Prod.snd hnew⟩

/-- On a path that keeps the settings, the caps that are new are sampled under them. -/
theorem Path.new_caps {source : Option StepSource} {requests : List EngineCoreRequest}
    {base e : SimEngine env} {effects : List Effect} (hpath : Path (Move now) base effects e)
    (hpatch : ∀ effect ∈ effects, ∀ patch, effect ≠ .configured patch) (hst : Standing now base)
    (hi : Issued source requests base) :
    Standing now e ∧ Issued source (requests ++ effects.flatMap Effect.issued) e ∧
    ∀ k m, (k, m) ∈ e.caps → (k, m) ∈ base.caps ∨ k ∉ base.admissions ∧
      ∃ request params, (requests ++ effects.flatMap Effect.issued)[k]? = some request ∧
        request.samplingParams = some params ∧ 0 < params.maxTokens ∧
        m ≤ e.sampledCap request params := by
  have hall : (∀ effect ∈ effects, ∀ patch, effect ≠ .configured patch) → Standing now e ∧
      Issued source (requests ++ effects.flatMap Effect.issued) e ∧
      e.Under (fixed env base.engineIndex base.opt base.latency) ∧ base.caps ⊆ e.caps ∧
      ∀ k m, (k, m) ∈ e.caps → (k, m) ∈ base.caps ∨ k ∉ base.admissions ∧
        ∃ request params, (requests ++ effects.flatMap Effect.issued)[k]? = some request ∧
          request.samplingParams = some params ∧ 0 < params.maxTokens ∧
          m ≤ base.sampledCap request params := by
    apply hpath.history (P := fun effects e =>
      (∀ effect ∈ effects, ∀ patch, effect ≠ .configured patch) → Standing now e ∧
        Issued source (requests ++ effects.flatMap Effect.issued) e ∧
        e.Under (fixed env base.engineIndex base.opt base.latency) ∧ base.caps ⊆ e.caps ∧
        ∀ k m, (k, m) ∈ e.caps → (k, m) ∈ base.caps ∨ k ∉ base.admissions ∧
          ∃ request params, (requests ++ effects.flatMap Effect.issued)[k]? = some request ∧
            request.samplingParams = some params ∧ 0 < params.maxTokens ∧
            m ≤ base.sampledCap request params)
    · intro _
      rw [List.flatMap_nil, List.append_nil]
      exact ⟨hst, hi, ⟨rfl, rfl, rfl⟩, fun _ h => h, fun k m h => Or.inl h⟩
    · intro effects e effect e' ih hmove hlabels
      obtain ⟨hst, hi, hunder, hsub, hnew⟩ := ih
        (fun l hl => hlabels l (List.mem_append_left _ hl))
      have he := hst.sound
      rw [List.flatMap_append, List.flatMap_singleton, ← List.append_assoc]
      refine ⟨hmove.standing hst, hmove.issued he hst.enrolled hi,
        hmove.under (hlabels effect (List.mem_append_right _ (List.mem_singleton_self _))) hunder,
        fun c hc => hmove.caps he (hsub hc), fun k m hcap => ?_⟩
      have hgrow : ∀ {i : ℕ} {request : EngineCoreRequest},
          (requests ++ effects.flatMap Effect.issued)[i]? = some request →
          (requests ++ effects.flatMap Effect.issued ++ effect.issued)[i]? = some request := by
        intro i request hrequest
        rw [List.getElem?_append_left (List.getElem?_eq_some_iff.mp hrequest).1, hrequest]
      rcases hmove.new_cap he hst.enrolled hcap with hold | ⟨q, r, hentry, rfl, rfl⟩
      · rcases hnew k m hold with hbase | ⟨hnot, request, params, hrequest, hparams, hpos, hle⟩
        · exact Or.inl hbase
        · exact Or.inr ⟨hnot, request, params, hgrow hrequest, hparams, hpos, hle⟩
      · right
        obtain ⟨params, hparams, hpos, hle⟩ := hentry.cap
        refine ⟨?_, q.request, params, hgrow (hi.waits q hentry.waits), hparams, hpos, ?_⟩
        · intro hmem
          rw [← caps_tickets] at hmem
          have hold := List.map_subset Prod.fst hsub hmem
          rw [caps_tickets] at hold
          exact hst.enrolled.queued _ hold (queued_iff.mpr ⟨q, hentry.waits, rfl⟩)
        · obtain ⟨hindex, hopt, hlatency⟩ := hunder
          rw [SimEngine.sampledCap, hindex, hopt, hlatency] at hle
          exact hle
  obtain ⟨hst, hi, ⟨hindex, hopt, hlatency⟩, _, hnew⟩ := hall hpatch
  refine ⟨hst, hi, fun k m hcap => ?_⟩
  rcases hnew k m hcap with hbase | ⟨hnot, request, params, hrequest, hparams, hpos, hle⟩
  · exact Or.inl hbase
  · refine Or.inr ⟨hnot, request, params, hrequest, hparams, hpos, ?_⟩
    rw [SimEngine.sampledCap, hindex, hopt, hlatency]
    exact hle

/-! ## Runs -/

theorem Fresh.caps {e : SimEngine env} (h : Fresh e) : e.caps = [] := by
  obtain ⟨engineIndex, opt, tokenSource, stepSource, hnew⟩ := h
  obtain ⟨latency, _, rfl⟩ := except_map_eq_ok hnew
  rfl

theorem Emits.within {P : Effect → Prop} {e e' : SimEngine env} {os hist : List EngineCoreOutput}
    (h : Emits P now e os e') (hst : Standing now e) (hs : Streamed hist e) (hw : Within e) :
    Within e' := by
  obtain ⟨effects, hpath, _, _⟩ := h
  have hall : Standing now e' ∧ (∃ hist, Streamed hist e') ∧ Within e' := by
    apply hpath.history (P := fun _ e => Standing now e ∧ (∃ hist, Streamed hist e) ∧ Within e)
    · exact ⟨hst, ⟨hist, hs⟩, hw⟩
    · rintro _ e effect e' ⟨hst, ⟨hist, hs⟩, hw⟩ hmove
      exact ⟨hmove.standing hst,
        ⟨_, hmove.streamed hst.sound hst.enrolled hst.timed.ordered hs⟩, hmove.within hst hs hw⟩
  exact hall.2.2

/-- No ticket of a run has more tokens than its cap. -/
theorem Run.within {e₀ e : SimEngine env} {turns : List (Turn env)} {clock : Instant}
    (hrun : Run e₀ turns e clock) (hfresh : Fresh e₀) : Within e := by
  have hall : Standing clock e ∧ (∃ hist, Streamed hist e) ∧ Within e := by
    apply hrun.history (P := fun _ e clock => Standing clock e ∧ (∃ hist, Streamed hist e) ∧
      Within e)
    · exact ⟨hfresh.standing, ⟨[], hfresh.streamed⟩, fun k m hcap => by
        rw [hfresh.caps] at hcap
        cases hcap⟩
    · rintro turns clock t os ⟨hst, ⟨hist, hs⟩, hw⟩ hclock hemits _
      have hst' := hst.later hclock
      obtain ⟨hafter, hshown⟩ := hemits.streamed hst' hs
      exact ⟨hafter, ⟨_, hshown⟩, hemits.within hst' hs hw⟩
  exact hall.2.2

/-- The turn admits each request under settings that sample no length above its maximum. -/
def Turn.Ceils (requests : List EngineCoreRequest) (t : Turn env) : Prop :=
  ∀ (k : ℕ) request params, requests[k]? = some request → request.samplingParams = some params →
    k ∉ t.before.admissions → k ∈ t.after.admissions → t.after.Ceiled request params

theorem Turn.Ceils.mono {t : Turn env} {requests more : List EngineCoreRequest}
    (h : t.Ceils (requests ++ more)) : t.Ceils requests := by
  intro k request params hrequest
  apply h k request params
  rw [List.getElem?_append_left (List.getElem?_eq_some_iff.mp hrequest).1, hrequest]

theorem Turn.caps_le {fuel : ℕ} {t : Turn env} {source : Option StepSource}
    {requests : List EngineCoreRequest} (hst : Standing t.now t.before)
    (hi : Issued source requests t.before)
    (h : t.before.perform fuel t.now t.op = some (t.after, t.outputs)) :
    Standing t.now t.after ∧ Issued source (requests ++ t.issued) t.after ∧
    (t.Ceils (requests ++ t.issued) → ∀ k m, (k, m) ∈ t.after.caps → (k, m) ∈ t.before.caps ∨
      ∃ request params, (requests ++ t.issued)[k]? = some request ∧
        request.samplingParams = some params ∧ m ≤ params.maxTokens) := by
  obtain ⟨base, effects, hbase, hpath, hpatch, hissued⟩ := t.settles h
  obtain ⟨hst', hi', hcaps⟩ : Standing t.now base ∧ Issued source requests base ∧
      base.caps = t.before.caps := by
    rcases hbase with rfl | ⟨effect, hnone, hone, hcaps⟩
    · exact ⟨hst, hi, rfl⟩
    · have hnext := hone.issued hst.sound hst.enrolled hi
      rw [hnone, List.append_nil] at hnext
      exact ⟨hone.standing hst, hnext, hcaps⟩
  obtain ⟨hafter, hissues, hnew⟩ := hpath.new_caps hpatch hst' hi'
  rw [hissued] at hissues hnew
  refine ⟨hafter, hissues, fun hceils k m hcap => ?_⟩
  have hin : k ∈ t.after.admissions := by
    rw [← caps_tickets]
    exact List.mem_map_of_mem hcap
  rcases hnew k m hcap with hold | ⟨hout, request, params, hrequest, hparams, hpos, hle⟩
  · exact Or.inl (hcaps ▸ hold)
  · rw [← caps_tickets, hcaps, caps_tickets] at hout
    have hceiled := hceils k request params hrequest hparams hout hin
    exact Or.inr ⟨request, params, hrequest, hparams,
      hle.trans ((t.after.sampledCap_le_iff request hpos).mpr hceiled)⟩

theorem Run.caps_le {e₀ e : SimEngine env} {turns : List (Turn env)} {clock : Instant}
    (hrun : Run e₀ turns e clock) (hfresh : Fresh e₀)
    (hceils : ∀ t ∈ turns, t.Ceils (VllmVcr.issued turns)) {k m : ℕ} (hcap : (k, m) ∈ e.caps) :
    ∃ request params, (VllmVcr.issued turns)[k]? = some request ∧
      request.samplingParams = some params ∧ m ≤ params.maxTokens := by
  have hall : Standing clock e ∧ Issued e₀.stepSource (VllmVcr.issued turns) e ∧
      ((∀ t ∈ turns, t.Ceils (VllmVcr.issued turns)) → ∀ k m, (k, m) ∈ e.caps →
        ∃ request params, (VllmVcr.issued turns)[k]? = some request ∧
          request.samplingParams = some params ∧ m ≤ params.maxTokens) := by
    apply hrun.turnwise (P := fun turns e clock => Standing clock e ∧
      Issued e₀.stepSource (VllmVcr.issued turns) e ∧
      ((∀ t ∈ turns, t.Ceils (VllmVcr.issued turns)) → ∀ k m, (k, m) ∈ e.caps →
        ∃ request params, (VllmVcr.issued turns)[k]? = some request ∧
          request.samplingParams = some params ∧ m ≤ params.maxTokens))
    · refine ⟨hfresh.standing, hfresh.issued, fun _ k m hcap => ?_⟩
      rw [hfresh.caps] at hcap
      cases hcap
    · intro turns clock fuel t ⟨hst, hi, hbound⟩ hclock hperform
      obtain ⟨hafter, hissues, hnew⟩ := t.caps_le (hst.later hclock) hi hperform
      have hall : VllmVcr.issued (turns ++ [t]) = VllmVcr.issued turns ++ t.issued := by
        rw [VllmVcr.issued, List.flatMap_append, List.flatMap_singleton, VllmVcr.issued]
      rw [hall]
      refine ⟨hafter, hissues, fun hceils k m hcap => ?_⟩
      have hlast := hceils t (List.mem_append_right _ (List.mem_singleton_self t))
      rcases hnew hlast k m hcap with hold | hfound
      · obtain ⟨request, params, hrequest, hparams, hle⟩ :=
          hbound (fun t' ht' => (hceils t' (List.mem_append_left _ ht')).mono) k m hold
        refine ⟨request, params, ?_, hparams, hle⟩
        rw [List.getElem?_append_left (List.getElem?_eq_some_iff.mp hrequest).1, hrequest]
      · exact hfound
  exact hall.2.2 hceils k m hcap

/-- In a run that admits each request under settings which sample no length above its maximum,
nothing is generated or shown beyond the requested maximum. -/
theorem ceiling_kept {e₀ e : SimEngine env} {turns : List (Turn env)} {clock : Instant}
    (hfresh : Fresh e₀) (hrun : Run e₀ turns e clock)
    (hceils : ∀ t ∈ turns, t.Ceils (issued turns)) :
    (∀ id r, e.activeRequests.get? id = some r → r.generated ≤ r.maxTokens) ∧
    ∀ k request params, (issued turns)[k]? = some request →
      request.samplingParams = some params →
        ((outputsFor k (coreOutputs turns)).flatMap EngineCoreOutput.newTokenIds).length ≤
          params.maxTokens := by
  obtain ⟨hsound, _, _⟩ := hrun.issued hfresh
  refine ⟨fun id r hr => (hsound.ok id r hr).capped, ?_⟩
  intro k request params hrequest hparams
  obtain ⟨hframed, ⟨rest, hrest⟩, _⟩ := hrun.stream hfresh k
  have hshown : ((outputsFor k (coreOutputs turns)).flatMap EngineCoreOutput.newTokenIds).length ≤
      (e.tokensOf k).length := by
    rw [hframed.flatMap_tokens, tokensOf, ← hrest, List.flatMap_append, List.length_append]
    omega
  by_cases hk : k ∈ e.admissions
  · rw [← caps_tickets] at hk
    obtain ⟨⟨k', m⟩, hm, hk'⟩ := List.mem_map.mp hk
    obtain rfl : k = k' := hk'.symm
    obtain ⟨request', params', hrequest', hparams', hle⟩ := hrun.caps_le hfresh hceils hm
    cases hrequest.symm.trans hrequest'
    cases hparams.symm.trans hparams'
    exact hshown.trans ((hrun.within hfresh k m hm).trans hle)
  · obtain ⟨hst, _⟩ := hrun.streamed hfresh
    have hnone : e.chunksOf k = [] := by
      by_contra hne
      exact hk (hst.timed.ordered.admitted k hne)
    rw [tokensOf, hnone] at hshown
    exact hshown.trans (Nat.zero_le _)

theorem shortRequest_kept :
    ∃ turns e clock, Run (demo demoOpt none) turns e clock ∧ issued turns = [demoRequest "a" 3] ∧
      ((outputsFor 0 (coreOutputs turns)).flatMap EngineCoreOutput.newTokenIds).length ≤ 3 := by
  have hplays : ((demo demoOpt none).play 20
      [(0, .input (.request (demoRequest "a" 3))), (1, .step)]).any
        (fun played => (issued played.1).length = 1) = true := by decide +kernel
  obtain ⟨turns, e, clock, hrun, hops, hlength⟩ := Run.of_script
    (p := fun (turns : List (Turn demoEnv)) _ => (issued turns).length = 1) hplays
    (by decide +kernel)
  have hissued : issued turns = [demoRequest "a" 3] := issued_of_ops hops (of_decide_eq_true hlength)
  refine ⟨turns, e, clock, hrun, hissued, ?_⟩
  apply (ceiling_kept (demo_fresh _ _ _) hrun ?_).2 0 (demoRequest "a" 3) _ (by rw [hissued]; rfl) rfl
  intro t _ k request params hrequest hparams _ _
  rw [hissued] at hrequest
  obtain rfl := List.mem_singleton.mp (List.mem_of_getElem? hrequest)
  cases hparams
  exact Or.inl (Nat.zero_le _)

/-- The small engine over a capture whose outputs all have 50 tokens. -/
def recordedEnv : Env :=
  { demoEnv with
    traceLatency := fun opt => .ok
      { opt.latencyModel.model demoEnv with sampleOutputLen := fun rng => (some 50, rng) } }

def recordedOpt : Opt := { demoOpt with interTokenLatency := 0, latencyTrace := some "capture" }

def recordedEngine : SimEngine recordedEnv :=
  (SimEngine.new recordedEnv 0 recordedOpt (.random 1) none).toOption.get (by rfl)

/-- A request for at most three tokens, and at least five. -/
def contraryRequest : EngineCoreRequest :=
  { demoRequest "a" 3 with samplingParams := some ⟨3, 5, some 2, none⟩ }

theorem contraryRequest_exceeds :
    ¬ ∀ (env : Env) (e₀ e : SimEngine env) (turns : List (Turn env)) (clock : Instant), Fresh e₀ →
      Run e₀ turns e clock →
        (∀ id r, e.activeRequests.get? id = some r → r.generated ≤ r.maxTokens) ∧
        ∀ k request params, (issued turns)[k]? = some request →
          request.samplingParams = some params → 1 ≤ params.maxTokens →
            ((outputsFor k (coreOutputs turns)).flatMap EngineCoreOutput.newTokenIds).length ≤
              params.maxTokens := by
  intro hclaim
  have hplays : (recordedEngine.play 20 [(0, .input (.request contraryRequest)), (0, .step)]).any
      (fun played => (issued played.1).length = 1 ∧ ((outputsFor 0
        (coreOutputs played.1)).flatMap EngineCoreOutput.newTokenIds).length = 5) = true := by
    decide +kernel
  obtain ⟨turns, e, clock, hrun, hops, hshown⟩ := Run.of_script
    (p := fun (turns : List (Turn recordedEnv)) _ => (issued turns).length = 1 ∧
      ((outputsFor 0 (coreOutputs turns)).flatMap EngineCoreOutput.newTokenIds).length = 5)
    hplays (by decide +kernel)
  obtain ⟨hlength, htotal⟩ := of_decide_eq_true hshown
  have hissued : issued turns = [contraryRequest] := issued_of_ops hops hlength
  have hfresh : Fresh recordedEngine := ⟨0, recordedOpt, .random 1, none, rfl⟩
  have hle := (hclaim recordedEnv recordedEngine e turns clock hfresh hrun).2 0 contraryRequest
    ⟨3, 5, some 2, none⟩ (by rw [hissued]; rfl) rfl (by decide)
  rw [htotal] at hle
  exact absurd hle (by decide)

end VllmVcr
