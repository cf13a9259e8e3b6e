import VllmVcr.Engine.Decompose

/-!
# Live requests

The requests an engine holds, wherever they stand, as pairs of id and ticket: no id and
no ticket occurs twice, requests are filed under their own ids, and an active request's
generated tokens are those it emitted and those it queued, within its cap.
-/

namespace VllmVcr

variable {env : Env}

namespace ActiveRequest

/-- What `new` builds from a queued request. -/
structure BuiltFrom (r : ActiveRequest env) (queued : QueuedRequest) (blockIds : List ℕ) :
    Prop where
  requestId : r.requestId = queued.request.requestId
  ticket : r.ticket = queued.ticket
  blockIds : r.blockIds = blockIds
  loraName : r.loraName = queued.request.requestLoraName
  maxTokens : 0 < r.maxTokens
  generated : r.generated = 0
  emitted : r.emitted = 0
  pendingEmits : r.pendingEmits = []
  pendingEvents : r.pendingEvents ≠ []
  remaining : ∀ n, r.phase = .prefill n → 0 < n
  offset : r.phase ≠ .decode → r.emitOffset = 0
  scriptedDecode : r.scriptedDecode = none

theorem capTokens_pos (opt : Opt) (latency : LatencyModel env.Rng) (promptLen : ℕ)
    {params : EngineCoreSamplingParams} (rng : env.Rng) (h : 0 < params.maxTokens) :
    0 < (capTokens opt latency promptLen params rng).1 := by
  simp only [capTokens]
  split
  · exact h
  · split
    · exact lt_of_lt_of_le Nat.one_pos ((le_max_right _ _).trans (le_max_left _ _))
    · exact h

theorem new_ok {engineIndex ticket : ℕ} {now : Instant} {request : EngineCoreRequest} {opt : Opt}
    {latency : LatencyModel env.Rng} {admission : AdmissionCtx} {r : ActiveRequest env}
    (h : new engineIndex now request ticket opt latency admission = .ok r) :
    r.BuiltFrom ⟨request, admission.queuedAt, ticket⟩ admission.blockIds := by
  simp only [new] at h
  split at h
  · cases h
  · next params _ =>
      split at h
      · cases h
      · next hmax =>
          have hpos := capTokens_pos opt latency request.prompt.length
            (env.seedFromU64 (env.requestSeed opt.seed engineIndex request.requestId))
            (Nat.pos_of_ne_zero hmax)
          cases h
          refine ⟨rfl, rfl, rfl, rfl, hpos, rfl, rfl, rfl, by simp, ?_, ?_, rfl⟩
          · intro n hn
            simp only at hn
            split at hn
            · cases hn
            · cases hn
              exact lt_of_lt_of_le Nat.one_pos (le_max_right _ _)
          · simp only
            split
            · exact fun h => absurd rfl h
            · exact fun _ => rfl

/-- The request with the clamps that activation applies. -/
def pinned (r : ActiveRequest env) (recordedLen : Option ℕ) (schedule : Option ScriptedDecode) :
    ActiveRequest env := (r.clampTokens recordedLen).script schedule

theorem pinned_eq (r : ActiveRequest env) (recordedLen : Option ℕ)
    (schedule : Option ScriptedDecode) :
    ∃ maxTokens scripted, maxTokens ≤ r.maxTokens ∧
      r.pinned recordedLen schedule =
        { r with maxTokens := maxTokens, scriptedDecode := scripted } := by
  cases recordedLen <;> cases schedule
  · exact ⟨_, _, le_rfl, rfl⟩
  · exact ⟨_, _, min_le_left _ _, rfl⟩
  · exact ⟨_, _, min_le_left _ _, rfl⟩
  · exact ⟨_, _, (min_le_left _ _).trans (min_le_left _ _), rfl⟩

/-- The production account of an active request. -/
structure Ok (r : ActiveRequest env) : Prop where
  produced : r.generated = r.emitted + r.pendingTokens.length
  capped : r.generated ≤ r.maxTokens
  chunks : ∀ emit ∈ r.pendingEmits, emit.tokens ≠ []
  unfinished : r.emitted < r.maxTokens ∨ r.maxTokens = 0

end ActiveRequest

namespace SimEngine

/-- The ids and tickets of all requests the engine holds. -/
def live (e : SimEngine env) : List (String × ℕ) :=
  e.activeRequests.entries.map (fun a => (a.1, a.2.ticket)) ++
    (e.pendingPulls.entries.map (fun p => (p.1, p.2.queued.ticket)) ++
      e.waiting.map (fun q => (q.request.requestId, q.ticket)))

theorem length_live (e : SimEngine env) : e.live.length = e.numUnfinishedRequests := by
  simp [live, numUnfinishedRequests, numRunning, SortedMap.size, Nat.add_assoc]

theorem mem_live_active {e : SimEngine env} {id : String} {r : ActiveRequest env}
    (h : e.activeRequests.get? id = some r) : (id, r.ticket) ∈ e.live :=
  List.mem_append_left _ (List.mem_map.mpr ⟨(id, r), SortedMap.mem_entries.mpr h, rfl⟩)

theorem mem_live_pending {e : SimEngine env} {k : String} {p : PendingPull}
    (h : e.pendingPulls.get? k = some p) : (k, p.queued.ticket) ∈ e.live :=
  List.mem_append_right _
    (List.mem_append_left _ (List.mem_map.mpr ⟨(k, p), SortedMap.mem_entries.mpr h, rfl⟩))

theorem mem_live_waiting {e : SimEngine env} {q : QueuedRequest} (h : q ∈ e.waiting) :
    (q.request.requestId, q.ticket) ∈ e.live :=
  List.mem_append_right _ (List.mem_append_right _ (List.mem_map.mpr ⟨q, h, rfl⟩))

/-- An id is known exactly when a live request carries it. -/
theorem isKnown_iff {e : SimEngine env} {id : String} :
    e.isKnown id = true ↔ id ∈ e.live.map Prod.fst := by
  simp only [isKnown, Bool.or_eq_true, SortedMap.contains_iff, List.any_eq_true, decide_eq_true_eq,
    live, List.map_append, List.map_map, List.mem_append, List.mem_map, Function.comp_apply,
    Prod.exists, SortedMap.mem_entries, or_assoc]
  constructor
  · rintro (⟨r, hr⟩ | ⟨p, hp⟩ | ⟨q, hq, rfl⟩)
    · exact Or.inl ⟨id, r, hr, rfl⟩
    · exact Or.inr (Or.inl ⟨id, p, hp, rfl⟩)
    · exact Or.inr (Or.inr ⟨q, hq, rfl⟩)
  · rintro (⟨_, r, hr, rfl⟩ | ⟨_, p, hp, rfl⟩ | ⟨q, hq, rfl⟩)
    · exact Or.inl ⟨r, hr⟩
    · exact Or.inr (Or.inl ⟨p, hp⟩)
    · exact Or.inr (Or.inr ⟨q, hq, rfl⟩)

end SimEngine

/-! ## Progress -/

namespace ActiveRequest

/-- `r'` is `r` after drawing, prefilling or generating. -/
structure Progressed (r r' : ActiveRequest env) : Prop where
  kept : r' = { r with
    rng := r'.rng
    pacing := r'.pacing
    generated := r'.generated
    phase := r'.phase
    emitOffset := r'.emitOffset
    pendingEmits := r'.pendingEmits
    scriptedDecode := r'.scriptedDecode
    asked := r'.asked }
  generated : r.generated ≤ r'.generated
  ok : r.Ok → r'.Ok

namespace Progressed

theorem refl (r : ActiveRequest env) : r.Progressed r := ⟨rfl, le_rfl, id⟩

theorem trans {r r' r'' : ActiveRequest env} (h : r.Progressed r') (h' : r'.Progressed r'') :
    r.Progressed r'' := by
  refine ⟨?_, h.generated.trans h'.generated, fun hok => h'.ok (h.ok hok)⟩
  rw [h'.kept, h.kept]

variable {r r' : ActiveRequest env} (h : r.Progressed r')
include h

theorem requestId : r'.requestId = r.requestId := by rw [h.kept]
theorem ticket : r'.ticket = r.ticket := by rw [h.kept]
theorem blockIds : r'.blockIds = r.blockIds := by rw [h.kept]
theorem loraName : r'.loraName = r.loraName := by rw [h.kept]
theorem maxTokens : r'.maxTokens = r.maxTokens := by rw [h.kept]

theorem isGenerating (hgen : r'.isGenerating = true) : r.isGenerating = true := by
  simp only [ActiveRequest.isGenerating, decide_eq_true_eq] at hgen ⊢
  rw [h.maxTokens] at hgen
  exact h.generated.trans_lt hgen

end Progressed

/-- What a call of `generate` does to its request. -/
theorem generate_eq (r : ActiveRequest env) (source : TokenSource) (stepEnd : Instant)
    (outputTokenChunkSize : ℕ) (timeScale : ℚ≥0) (seq : ℕ) :
    (r.chunkLen outputTokenChunkSize = 0 ∧
      r.generate source stepEnd outputTokenChunkSize timeScale seq = (r, source, none)) ∨
    ∃ rng source' emit, 0 < emit.tokens.length ∧
      emit.tokens.length = r.chunkLen outputTokenChunkSize ∧
      emit.due = stepEnd + r.emitOffset / timeScale ∧ emit.seq = seq ∧
      r.generate source stepEnd outputTokenChunkSize timeScale seq =
        ({ r with
            rng := rng
            generated := r.generated + emit.tokens.length
            pendingEmits := r.pendingEmits ++ [emit] }, source', some emit) := by
  by_cases hlen : r.chunkLen outputTokenChunkSize = 0
  · exact Or.inl ⟨hlen, by simp [generate, hlen]⟩
  · refine Or.inr ⟨_, _, ⟨stepEnd + r.emitOffset / timeScale, seq, _⟩, ?_, ?_, rfl, rfl,
      by simp only [generate, if_neg hlen]; rfl⟩
    · rw [TokenSource.nextTokens_length]
      exact Nat.pos_of_ne_zero hlen
    · exact TokenSource.nextTokens_length env _ _ _ _

theorem generate_progressed (r : ActiveRequest env) (source : TokenSource) (stepEnd : Instant)
    (outputTokenChunkSize : ℕ) (timeScale : ℚ≥0) (seq : ℕ) :
    r.Progressed (r.generate source stepEnd outputTokenChunkSize timeScale seq).1 := by
  rcases r.generate_eq source stepEnd outputTokenChunkSize timeScale seq with
    ⟨_, h⟩ | ⟨rng, source', emit, hpos, hlen, _, _, h⟩
  · rw [h]
    exact Progressed.refl r
  · rw [h]
    refine ⟨rfl, Nat.le_add_right _ _, fun hok => ⟨?_, ?_, ?_, hok.unfinished⟩⟩
    · simp only [pendingTokens, List.flatMap_append, List.length_append, List.flatMap_singleton]
      have := hok.produced
      rw [pendingTokens] at this
      omega
    · have hle : emit.tokens.length ≤ r.maxTokens - r.generated := hlen ▸ min_le_left _ _
      have := hok.capped
      simp only
      omega
    · intro emit' hmem
      rcases List.mem_append.mp hmem with hold | hnew
      · exact hok.chunks emit' hold
      · rw [List.mem_singleton.mp hnew]
        exact List.length_pos_iff.mp hpos

theorem drawStep_progressed (latency : LatencyModel env.Rng) (numRunning : ℕ)
    (r : ActiveRequest env) : r.Progressed (r.drawStep latency numRunning).2 := by
  unfold drawStep
  split
  · exact ⟨rfl, le_rfl, fun hok => ⟨hok.produced, hok.capped, hok.chunks, hok.unfinished⟩⟩
  · exact ⟨rfl, le_rfl, fun hok => ⟨hok.produced, hok.capped, hok.chunks, hok.unfinished⟩⟩

end ActiveRequest

/-- The step clock ran: active requests progressed, and nothing else moved but the clock's
own state, the token source and the journal. -/
structure Progress (e e' : SimEngine env) : Prop where
  active : SortedMap.Rel ActiveRequest.Progressed e.activeRequests e'.activeRequests
  pool : e'.pool = e.pool
  pendingPulls : e'.pendingPulls = e.pendingPulls
  waiting : e'.waiting = e.waiting
  loras : e'.loras = e.loras
  opt : e'.opt = e.opt
  stats : e'.stats = e.stats
  pullTasks : e'.pullTasks = e.pullTasks
  nextTicket : e'.nextTicket = e.nextTicket
  stepSource : e'.stepSource = e.stepSource

namespace Progress

theorem refl (e : SimEngine env) : Progress e e :=
  ⟨SortedMap.Rel.refl .refl _, rfl, rfl, rfl, rfl, rfl, rfl, rfl, rfl, rfl⟩

theorem trans {e e' e'' : SimEngine env} (h : Progress e e') (h' : Progress e' e'') :
    Progress e e'' where
  active := h.active.trans (fun _ _ _ => .trans) h'.active
  pool := h'.pool.trans h.pool
  pendingPulls := h'.pendingPulls.trans h.pendingPulls
  waiting := h'.waiting.trans h.waiting
  loras := h'.loras.trans h.loras
  opt := h'.opt.trans h.opt
  stats := h'.stats.trans h.stats
  pullTasks := h'.pullTasks.trans h.pullTasks
  nextTicket := h'.nextTicket.trans h.nextTicket
  stepSource := h'.stepSource.trans h.stepSource

/-- Progress of one active request. -/
theorem touch {e e' : SimEngine env} {id : String} {r r' : ActiveRequest env}
    (hget : e.activeRequests.get? id = some r) (hr : r.Progressed r')
    (hactive : e'.activeRequests = e.activeRequests.insert id r')
    (hrest : Progress { e with activeRequests := e'.activeRequests } e') : Progress e e' where
  active := hactive ▸ SortedMap.Rel.insert .refl hget hr
  pool := hrest.pool
  pendingPulls := hrest.pendingPulls
  waiting := hrest.waiting
  loras := hrest.loras
  opt := hrest.opt
  stats := hrest.stats
  pullTasks := hrest.pullTasks
  nextTicket := hrest.nextTicket
  stepSource := hrest.stepSource

end Progress

namespace SimEngine

theorem log_progress (e : SimEngine env) (ev : Event) : Progress e (e.log ev) :=
  ⟨SortedMap.Rel.refl .refl _, rfl, rfl, rfl, rfl, rfl, rfl, rfl, rfl, rfl⟩

theorem noteLoad_progress (e : SimEngine env) (r : ActiveRequest env) : Progress e (e.noteLoad r) :=
  ⟨SortedMap.Rel.refl .refl _, rfl, rfl, rfl, rfl, rfl, rfl, rfl, rfl, rfl⟩

theorem generateFor_progress {e : SimEngine env} {id : String} {r r₀ : ActiveRequest env}
    (hget : e.activeRequests.get? id = some r₀) (hr : r₀.Progressed r) (stepEnd : Instant)
    (entry : ℕ) (byDecoder : Bool) (n : ℕ) :
    Progress e (e.generateFor stepEnd id entry byDecoder n r) :=
  Progress.touch hget (hr.trans (r.generate_progressed _ _ _ _ _)) rfl
    ⟨SortedMap.Rel.refl .refl _, rfl, rfl, rfl, rfl, rfl, rfl, rfl, rfl, rfl⟩

theorem completeDecoder_progress (stepEnd : Instant) (e : SimEngine env) (d : DecoderEntry) :
    Progress e (completeDecoder stepEnd e d) := by
  unfold completeDecoder
  split
  · exact Progress.refl e
  · next r hr => exact generateFor_progress hr (.refl r) _ _ _ _

theorem startDecode_progressed (e : SimEngine env) (numRunning : ℕ) (r : ActiveRequest env) :
    r.Progressed (e.startDecode numRunning r) :=
  ⟨rfl, le_rfl, fun hok => ⟨hok.produced, hok.capped, hok.chunks, hok.unfinished⟩⟩

theorem completeChunk_progress (stepEnd : Instant) (numRunning : ℕ) (e : SimEngine env)
    (c : ChunkEntry) : Progress e (completeChunk stepEnd numRunning e c) := by
  unfold completeChunk
  split
  · exact Progress.refl e
  · next r hr =>
      split
      · exact Progress.refl e
      · next remaining _ =>
        have hdrain : r.Progressed { r with phase := .prefill (remaining - c.take) } :=
          ⟨rfl, le_rfl, fun hok => ⟨hok.produced, hok.capped, hok.chunks, hok.unfinished⟩⟩
        refine (e.log_progress (.chunked c.ticket r.ticket c.take)).trans ?_
        simp only
        split
        · exact Progress.touch hr hdrain rfl
            ⟨SortedMap.Rel.refl .refl _, rfl, rfl, rfl, rfl, rfl, rfl, rfl, rfl, rfl⟩
        · exact (noteLoad_progress _ _).trans (generateFor_progress (e := (e.log _).noteLoad _) hr
            (startDecode_progressed _ _ _) _ _ _ _)

theorem executeStep_progress (step : EngineStep) (e : SimEngine env) :
    Progress e (e.executeStep step) :=
  executeStep_preserves (I := Progress e) (e.log_progress _)
    (fun _ _ h => ⟨h.active, h.pool, h.pendingPulls, h.waiting, h.loras, h.opt, h.stats,
      h.pullTasks, h.nextTicket, h.stepSource⟩)
    (fun e' d _ h => h.trans (completeDecoder_progress _ e' d))
    (fun n e' c _ h => h.trans (completeChunk_progress _ n e' c))

theorem drawDecoders_active (e : SimEngine env) :
    SortedMap.Rel ActiveRequest.Progressed e.activeRequests e.drawDecoders.1.activeRequests := by
  refine SortedMap.Rel.mapValues (fun id r _ => ?_)
  split
  · exact r.drawStep_progressed _ _
  · exact .refl r

theorem composeStep_progress (anchor : Instant) (e : SimEngine env) :
    Progress e (e.composeStep anchor) :=
  ⟨e.drawDecoders_active, rfl, rfl, rfl, rfl, rfl, rfl, rfl, rfl, rfl⟩

end SimEngine
end VllmVcr
