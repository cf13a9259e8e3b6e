import Mathlib.Data.List.TakeWhile
import VllmVcr.Engine.Emissions

/-!
# Output streams

The outputs shown for a ticket are the chunks generated for it so far, less those still
queued. The first of them carries the prefill stats and the lifecycle events, the last
the finish reason.
-/

namespace VllmVcr

variable {env : Env} {now : Instant}

namespace EngineCoreOutput

/-- The generated chunk that an output delivers. -/
def chunk (o : EngineCoreOutput) : Option PendingEmit :=
  o.emission.map (fun emission => ⟨emission.due, emission.seq, o.newTokenIds⟩)

@[simp] theorem chunk_terminal (ticket : Option ℕ) (id : String) (reason : FinishReason) :
    (terminalOutput ticket id reason).chunk = none := rfl

end EngineCoreOutput

/-- The outputs that answer one admission ticket. -/
def outputsFor (ticket : ℕ) (os : List EngineCoreOutput) : List EngineCoreOutput :=
  os.filter (fun o => o.ticket = some ticket)

@[simp] theorem outputsFor_nil (ticket : ℕ) : outputsFor ticket [] = [] := rfl

@[simp] theorem outputsFor_append (ticket : ℕ) (os os' : List EngineCoreOutput) :
    outputsFor ticket (os ++ os') = outputsFor ticket os ++ outputsFor ticket os' :=
  List.filter_append _ _

theorem outputsFor_terminal_self (ticket : ℕ) (id : String) (reason : FinishReason) :
    outputsFor ticket [terminalOutput (some ticket) id reason] =
      [terminalOutput (some ticket) id reason] := by
  simp [outputsFor, terminalOutput]

theorem outputsFor_terminal_of_ne {k : ℕ} {ticket : Option ℕ} (h : ticket ≠ some k) (id : String)
    (reason : FinishReason) : outputsFor k [terminalOutput ticket id reason] = [] := by
  simp [outputsFor, terminalOutput, h]

/-! ## The shape of a stream -/

/-- The first output opens the stream, the last alone may end it, and an output that delivers
no chunk only ends it. -/
structure Framed (os : List EngineCoreOutput) : Prop where
  first : ∀ o ∈ os.head?, o.emission.isSome → o.prefillStats.isSome ∧ o.events.isSome
  rest : ∀ o ∈ os.tail, o.prefillStats = none ∧ o.events = none
  last : ∀ o ∈ os.dropLast, o.finishReason = none
  tokens : ∀ o ∈ os, o.emission.isSome → o.newTokenIds ≠ []
  bare : ∀ o ∈ os, o.emission = none → o.newTokenIds = [] ∧ o.finishReason.isSome ∧
    o.prefillStats = none ∧ o.events = none

namespace Framed

variable {os os' : List EngineCoreOutput}

theorem nil : Framed [] := ⟨by simp, by simp, by simp, by simp, by simp⟩

theorem terminal (ticket : Option ℕ) (id : String) (reason : FinishReason) :
    Framed [terminalOutput ticket id reason] := by
  refine ⟨?_, ?_, ?_, ?_, ?_⟩ <;> simp [terminalOutput, requestOutput]

/-- A stream that nothing has ended goes on with a stream that opens only where it is empty. -/
theorem append (h : Framed os) (hopen : ∀ o ∈ os, o.finishReason = none)
    (hfirst : os = [] → ∀ o ∈ os'.head?, o.emission.isSome → o.prefillStats.isSome ∧ o.events.isSome)
    (hmore : os ≠ [] → ∀ o ∈ os', o.prefillStats = none ∧ o.events = none)
    (hrest : ∀ o ∈ os'.tail, o.prefillStats = none ∧ o.events = none)
    (hlast : ∀ o ∈ os'.dropLast, o.finishReason = none)
    (htokens : ∀ o ∈ os', o.emission.isSome → o.newTokenIds ≠ [])
    (hbare : ∀ o ∈ os', o.emission = none → o.newTokenIds = [] ∧ o.finishReason.isSome ∧
      o.prefillStats = none ∧ o.events = none) : Framed (os ++ os') := by
  by_cases hos : os = []
  · subst hos
    exact ⟨hfirst rfl, hrest, hlast, htokens, hbare⟩
  · refine ⟨fun o ho => ?_, fun o ho => ?_, fun o ho => ?_, fun o ho => ?_, fun o ho => ?_⟩
    · rw [List.head?_append_of_ne_nil _ hos] at ho
      exact h.first o ho
    · rw [List.tail_append_of_ne_nil hos, List.mem_append] at ho
      exact ho.elim (h.rest o) (hmore hos o)
    · by_cases hos' : os' = []
      · rw [hos', List.append_nil] at ho
        exact h.last o ho
      · rw [List.dropLast_append_of_ne_nil hos', List.mem_append] at ho
        exact ho.elim (hopen o) (hlast o)
    · exact (List.mem_append.mp ho).elim (h.tokens o) (htokens o)
    · exact (List.mem_append.mp ho).elim (h.bare o) (hbare o)

/-- A stream that nothing has ended may be cut by a terminal output. -/
theorem cut (h : Framed os) (hopen : ∀ o ∈ os, o.finishReason = none) (ticket : Option ℕ)
    (id : String) (reason : FinishReason) : Framed (os ++ [terminalOutput ticket id reason]) := by
  have hone := terminal ticket id reason
  apply h.append hopen (fun _ => hone.first) _ hone.rest hone.last hone.tokens hone.bare
  intro _ o ho
  cases List.mem_singleton.mp ho
  exact ⟨rfl, rfl⟩

end Framed

/-! ## What an emission queue shows -/

namespace ActiveRequest

variable (source : TokenSource) (now : Instant)

/-- The outputs of the chunks taken off an emission queue. -/
def shown (es : List PendingEmit) (r : ActiveRequest env) : List EngineCoreOutput :=
  (emitQueue source now es r).2.map DueEmit.output

theorem shown_cons {emit : PendingEmit} {es : List PendingEmit} {r : ActiveRequest env}
    (hdue : emit.due ≤ now) : shown source now (emit :: es) r =
      (r.emitOne source emit).2.output :: shown source now es (r.emitOne source emit).1 := by
  simp [shown, emitQueue, hdue]

theorem shown_later {emit : PendingEmit} {es : List PendingEmit} {r : ActiveRequest env}
    (hdue : ¬ emit.due ≤ now) : shown source now (emit :: es) r = [] := by
  simp [shown, emitQueue, hdue]

theorem shown_chunks (es : List PendingEmit) (r : ActiveRequest env) :
    (shown source now es r).map EngineCoreOutput.chunk = (due now es).map some := by
  rw [← emitQueue_emissions source now es r, shown, List.map_map, List.map_map]
  apply List.map_congr_left
  intro d hd
  have hemission := (emitQueue_shown source now es r d hd).emission
  simp only [Function.comp_apply, EngineCoreOutput.chunk, hemission, Option.map_some]

theorem shown_filterMap (es : List PendingEmit) (r : ActiveRequest env) :
    (shown source now es r).filterMap EngineCoreOutput.chunk = due now es := by
  have hchunks := congrArg (List.filterMap id) (shown_chunks source now es r)
  rwa [List.filterMap_map, List.filterMap_map, Function.id_comp, Function.id_comp,
    List.filterMap_some] at hchunks

/-- Every output shown delivers a chunk of the queue. -/
theorem shown_delivers {es : List PendingEmit} {r : ActiveRequest env} {o : EngineCoreOutput}
    (ho : o ∈ shown source now es r) : ∃ emit ∈ es, emit.due ≤ now ∧ o.chunk = some emit := by
  have hmem : o.chunk ∈ (due now es).map some := by
    rw [← shown_chunks source now es r]
    exact List.mem_map_of_mem ho
  obtain ⟨emit, hemit, heq⟩ := List.mem_map.mp hmem
  exact ⟨emit, (List.takeWhile_sublist _).subset hemit, by simpa using List.mem_takeWhile_imp hemit,
    heq.symm⟩

theorem shown_tokens (es : List PendingEmit) (r : ActiveRequest env) :
    (shown source now es r).map EngineCoreOutput.newTokenIds =
      (due now es).map PendingEmit.tokens := by
  rw [← emitQueue_emissions source now es r, shown, List.map_map, List.map_map]
  rfl

/-- A request that has shown outputs already opens nothing. -/
theorem shown_opened (es : List PendingEmit) (r : ActiveRequest env) (hemitted : r.emitted ≠ 0)
    (hevents : r.pendingEvents = []) :
    ∀ o ∈ shown source now es r, o.prefillStats = none ∧ o.events = none := by
  induction es generalizing r with
  | nil => simp [shown, emitQueue]
  | cons emit rest ih =>
      by_cases hdue : emit.due ≤ now
      · rw [shown_cons source now hdue]
        intro o ho
        rcases List.mem_cons.mp ho with rfl | hrest
        · simp [emitOne, hemitted, hevents]
        · exact ih (r.emitOne source emit).1 (by simp only [emitOne]; omega) rfl o hrest
      · rw [shown_later source now hdue]
        simp

theorem shown_head {es : List PendingEmit} {r : ActiveRequest env} (hemitted : r.emitted = 0)
    (hevents : r.pendingEvents ≠ []) :
    ∀ o ∈ (shown source now es r).head?, o.prefillStats.isSome ∧ o.events.isSome := by
  cases es with
  | nil => simp [shown, emitQueue]
  | cons emit rest =>
      by_cases hdue : emit.due ≤ now
      · rw [shown_cons source now hdue]
        intro o ho
        cases ho
        simp [emitOne, hemitted, hevents]
      · rw [shown_later source now hdue]
        simp

theorem shown_tail {es : List PendingEmit} {r : ActiveRequest env}
    (hchunks : ∀ emit ∈ es, emit.tokens ≠ []) :
    ∀ o ∈ (shown source now es r).tail, o.prefillStats = none ∧ o.events = none := by
  cases es with
  | nil => simp [shown, emitQueue]
  | cons emit rest =>
      by_cases hdue : emit.due ≤ now
      · have hpos := List.length_pos_iff.mpr (hchunks emit List.mem_cons_self)
        rw [shown_cons source now hdue]
        exact shown_opened source now rest _ (by simp only [emitOne]; omega) rfl
      · rw [shown_later source now hdue]
        simp

/-- Only the last output of a queue within its request's budget may end the request. -/
theorem shown_dropLast (es : List PendingEmit) (r : ActiveRequest env)
    (hbudget : r.emitted + (es.flatMap PendingEmit.tokens).length ≤ r.maxTokens)
    (hchunks : ∀ emit ∈ es, emit.tokens ≠ []) :
    ∀ o ∈ (shown source now es r).dropLast, o.finishReason = none := by
  induction es generalizing r with
  | nil => simp [shown, emitQueue]
  | cons emit rest ih =>
      rw [List.flatMap_cons, List.length_append] at hbudget
      have hrest := ih (r.emitOne source emit).1 (by simp only [emitOne]; omega)
        (fun emit' h => hchunks emit' (List.mem_cons_of_mem _ h))
      by_cases hdue : emit.due ≤ now
      · rw [shown_cons source now hdue]
        cases hshown : shown source now rest (r.emitOne source emit).1 with
        | nil => simp
        | cons o more =>
            rw [hshown] at hrest
            intro o' ho'
            rcases List.mem_cons.mp ho' with rfl | hmem
            · -- Another chunk follows, so this one does not reach the cap.
              obtain ⟨emit', hemit', _⟩ :=
                shown_delivers source now (hshown ▸ List.mem_cons_self :
                  o ∈ shown source now rest (r.emitOne source emit).1)
              have hpos := List.length_pos_iff.mpr (hchunks emit' (List.mem_cons_of_mem _ hemit'))
              have hle := (List.sublist_flatten_of_mem
                (List.mem_map_of_mem (f := PendingEmit.tokens) hemit')).length_le
              rw [← List.flatMap_def] at hle
              have hnot : ¬ r.maxTokens ≤ r.emitted + emit.tokens.length := by omega
              simp [emitOne, requestOutput, hnot]
            · exact hrest o' hmem
      · rw [shown_later source now hdue]
        simp

variable {source now} {r : ActiveRequest env}

/-- The finishing output comes with the last chunk of the queue, at the cap. -/
theorem Ok.finishes_all (h : r.Ok) (hfin : r.finishes source now = true) :
    due now r.pendingEmits = r.pendingEmits ∧
      r.emitted + (r.pendingEmits.flatMap PendingEmit.tokens).length = r.maxTokens := by
  have hproduced := h.produced
  have hcapped := h.capped
  rw [pendingTokens] at hproduced
  have hlen := h.finished_length source now
  rw [if_pos hfin, ActiveRequest.emitDue, emitQueue_finished source now r.pendingEmits r (by omega) h.chunks,
    emitQueue_request] at hlen
  have hreached : r.maxTokens ≤
      r.emitted + ((due now r.pendingEmits).flatMap PendingEmit.tokens).length := by
    by_contra hnot
    rw [if_neg (fun hc => hnot hc.2)] at hlen
    cases hlen
  have hsplit : due now r.pendingEmits ++
      r.pendingEmits.dropWhile (fun emit => emit.due ≤ now) = r.pendingEmits :=
    List.takeWhile_append_dropWhile
  have hlengths := congrArg (fun es => (es.flatMap PendingEmit.tokens).length) hsplit
  simp only [List.flatMap_append, List.length_append] at hlengths
  have hnone : r.pendingEmits.dropWhile (fun emit => emit.due ≤ now) = [] := by
    by_contra hne
    obtain ⟨emit, rest, hcons⟩ := List.exists_cons_of_ne_nil hne
    have hmem : emit ∈ r.pendingEmits :=
      (List.dropWhile_sublist _).subset (hcons ▸ List.mem_cons_self)
    have hpos := List.length_pos_iff.mpr (h.chunks emit hmem)
    rw [hcons, List.flatMap_cons, List.length_append] at hlengths
    omega
  rw [hnone, List.append_nil] at hsplit
  rw [hsplit] at hreached
  exact ⟨hsplit, by omega⟩

theorem unfinished_shown (hstays : r.finishes source now = false) :
    ∀ o ∈ shown source now r.pendingEmits r, o.finishReason = none := by
  intro o ho
  obtain ⟨d, hd, rfl⟩ := List.mem_map.mp ho
  have hnot : ¬ d.finished = true :=
    fun hfin => Bool.eq_false_iff.mp hstays (List.any_eq_true.mpr ⟨d, hd, hfin⟩)
  rw [(emitQueue_shown source now r.pendingEmits r d hd).finished] at hnot
  simpa using hnot

end ActiveRequest

open ActiveRequest

/-- The outputs shown for an active request, given the chunks generated for it. -/
structure Streaming (r : ActiveRequest env) (chunks : List PendingEmit)
    (os : List EngineCoreOutput) : Prop where
  framed : Framed os
  unfinished : ∀ o ∈ os, o.finishReason = none
  chunks : os.filterMap EngineCoreOutput.chunk ++ r.pendingEmits = chunks
  emitted : (os.flatMap EngineCoreOutput.newTokenIds).length = r.emitted
  events : r.pendingEvents = [] ↔ os ≠ []

namespace Streaming

variable {r r' : ActiveRequest env} {chunks new : List PendingEmit} {os : List EngineCoreOutput}

/-- The request generates `new`. -/
theorem generated (h : Streaming r chunks os) (hpending : r'.pendingEmits = r.pendingEmits ++ new)
    (hemitted : r'.emitted = r.emitted) (hevents : r'.pendingEvents = r.pendingEvents) :
    Streaming r' (chunks ++ new) os where
  framed := h.framed
  unfinished := h.unfinished
  chunks := by rw [hpending, ← List.append_assoc, h.chunks]
  emitted := hemitted ▸ h.emitted
  events := hevents ▸ h.events

theorem emitted_pos (h : Streaming r chunks os) (hos : os ≠ []) : r.emitted ≠ 0 := by
  obtain ⟨o, rest, rfl⟩ := List.exists_cons_of_ne_nil hos
  have hemission : o.emission.isSome := by
    by_contra hnone
    have hbare := h.framed.bare o List.mem_cons_self (by simpa using hnone)
    rw [h.unfinished o List.mem_cons_self] at hbare
    cases hbare.2.1
  have hpos := List.length_pos_iff.mpr (h.framed.tokens o List.mem_cons_self hemission)
  rw [← h.emitted, List.flatMap_cons, List.length_append]
  omega

variable {source : TokenSource}

theorem framed_shown (h : Streaming r chunks os) (hok : r.Ok) :
    Framed (os ++ shown source now r.pendingEmits r) := by
  have hproduced := hok.produced
  have hcapped := hok.capped
  rw [pendingTokens] at hproduced
  apply h.framed.append h.unfinished
  · intro hos o ho _
    have hemitted : r.emitted = 0 := by rw [← h.emitted, hos, List.flatMap_nil, List.length_nil]
    exact shown_head source now hemitted (fun hnone => h.events.mp hnone hos) o ho
  · exact fun hos => shown_opened source now r.pendingEmits r (h.emitted_pos hos) (h.events.mpr hos)
  · exact shown_tail source now hok.chunks
  · exact shown_dropLast source now r.pendingEmits r (by omega) hok.chunks
  · intro o ho _
    obtain ⟨emit, hemit, _, hchunk⟩ := shown_delivers source now ho
    obtain ⟨emission, _, rfl⟩ := Option.map_eq_some_iff.mp hchunk
    exact hok.chunks _ hemit
  · intro o ho hnone
    obtain ⟨emit, _, _, hchunk⟩ := shown_delivers source now ho
    rw [EngineCoreOutput.chunk, hnone] at hchunk
    cases hchunk

theorem shown_chunks (h : Streaming r chunks os) :
    (os ++ shown source now r.pendingEmits r).filterMap EngineCoreOutput.chunk ++
      r.pendingEmits.dropWhile (fun emit => emit.due ≤ now) = chunks := by
  rw [List.filterMap_append, shown_filterMap, List.append_assoc, due,
    List.takeWhile_append_dropWhile, h.chunks]

theorem shown_length (h : Streaming r chunks os) :
    ((os ++ shown source now r.pendingEmits r).flatMap EngineCoreOutput.newTokenIds).length =
      r.emitted + ((due now r.pendingEmits).flatMap PendingEmit.tokens).length := by
  rw [List.flatMap_append, List.length_append, h.emitted, List.flatMap_def,
    shown_tokens source now r.pendingEmits r, ← List.flatMap_def]

/-- The request stays in the batch after its due chunks were shown. -/
theorem stays (h : Streaming r chunks os) (hok : r.Ok) (hstays : r.finishes source now = false) :
    Streaming (r.emitDue source now).1 chunks (os ++ shown source now r.pendingEmits r) := by
  rw [emitDue, emitQueue_request]
  refine ⟨h.framed_shown hok, ?_, h.shown_chunks, h.shown_length, ?_⟩
  · intro o ho
    exact (List.mem_append.mp ho).elim (h.unfinished o) (unfinished_shown hstays o)
  · simp only
    by_cases hdue : due now r.pendingEmits = []
    · have hnone : shown source now r.pendingEmits r = [] := by
        have hlen := congrArg List.length (ActiveRequest.shown_chunks source now r.pendingEmits r)
        rw [hdue, List.length_map] at hlen
        exact List.length_eq_zero_iff.mp hlen
      rw [hdue, hnone, List.append_nil]
      exact h.events
    · have hsome : shown source now r.pendingEmits r ≠ [] := by
        intro hnone
        have hshown := ActiveRequest.shown_filterMap source now r.pendingEmits r
        rw [hnone] at hshown
        exact hdue hshown.symm
      simp [hdue, hsome]

/-- The finishing output completes the stream. -/
theorem finishes (h : Streaming r chunks os) (hok : r.Ok)
    (hfin : r.finishes source now = true) :
    (os ++ shown source now r.pendingEmits r).filterMap EngineCoreOutput.chunk = chunks ∧
      ((os ++ shown source now r.pendingEmits r).flatMap EngineCoreOutput.newTokenIds).length =
        r.maxTokens := by
  obtain ⟨hall, htotal⟩ := hok.finishes_all hfin
  refine ⟨?_, ?_⟩
  · rw [List.filterMap_append, shown_filterMap, hall, h.chunks]
  · rw [h.shown_length, hall, htotal]

end Streaming

/-! ## What a step generates -/

open SimEngine

/-- The engine generated since `base`, for requests of the batch, at step ends not before
`since`. -/
structure Generated (since : Instant) (base e : SimEngine env) : Prop where
  progress : Progress base e
  seq : base.emitSeq ≤ e.emitSeq
  active : ∀ id r', e.activeRequests.get? id = some r' →
    ∃ r new, base.activeRequests.get? id = some r ∧ r'.pendingEmits = r.pendingEmits ++ new ∧
      e.chunksOf r.ticket = base.chunksOf r.ticket ++ new ∧
      ∀ emit ∈ new, since ≤ emit.due ∧ base.emitSeq ≤ emit.seq
  others : ∀ k, (∀ id r, base.activeRequests.get? id = some r → r.ticket ≠ k) →
    e.chunksOf k = base.chunksOf k

namespace Generated

variable {base e e' : SimEngine env} {since : Instant}

theorem distinct (h : Generated since base e) (hdistinct : base.DistinctTickets) :
    e.DistinctTickets := by
  intro id id' r r' hr hr' hticket
  obtain ⟨t, ht, hprog⟩ := h.progress.active.right hr
  obtain ⟨t', ht', hprog'⟩ := h.progress.active.right hr'
  rw [hprog.ticket, hprog'.ticket] at hticket
  exact hdistinct id id' t t' ht ht' hticket

/-- Nothing was generated, and the queues are as they were. -/
theorem kept (h : Generated since base e) (hp : Progress e e') (hseq : e.emitSeq ≤ e'.emitSeq)
    (hchunks : ∀ k, e'.chunksOf k = e.chunksOf k)
    (hactive : ∀ id r', e'.activeRequests.get? id = some r' →
      ∃ r, e.activeRequests.get? id = some r ∧ r'.pendingEmits = r.pendingEmits) :
    Generated since base e' where
  progress := h.progress.trans hp
  seq := h.seq.trans hseq
  active id r' hr' := by
    obtain ⟨r₁, hr₁, hpending₁⟩ := hactive id r' hr'
    obtain ⟨r, new, hr, hpending, hnew, hlate⟩ := h.active id r₁ hr₁
    exact ⟨r, new, hr, hpending₁.trans hpending, (hchunks r.ticket).trans hnew, hlate⟩
  others k hk := (hchunks k).trans (h.others k hk)

theorem generate {id : String} {r r₁ : ActiveRequest env} (h : Generated since base e)
    (hdistinct : base.DistinctTickets) (hr : e.activeRequests.get? id = some r)
    (hstart : r₁ = r ∨ r.phase ≠ .decode ∧ ∃ numRunning, r₁ = e.startDecode numRunning r)
    (entry : ℕ) (byDecoder : Bool) (n : ℕ) :
    Generated since base (e.generateFor since id entry byDecoder n r₁) := by
  obtain ⟨hticket, hpending, hprogressed⟩ : r₁.ticket = r.ticket ∧
      r₁.pendingEmits = r.pendingEmits ∧ r.Progressed r₁ := by
    rcases hstart with rfl | ⟨_, numRunning, rfl⟩
    · exact ⟨rfl, rfl, .refl r₁⟩
    · exact ⟨rfl, rfl, startDecode_progressed e numRunning r⟩
  have hprogress := generateFor_progress hr hprogressed since entry byDecoder n
  have hchunks := generateFor_chunksOf since id entry byDecoder n r₁ e
  have hactive : (e.generateFor since id entry byDecoder n r₁).activeRequests =
      e.activeRequests.insert id
        (r₁.generate e.tokenSource since n e.opt.effectiveTimeScale e.emitSeq).1 := rfl
  rcases r₁.generate_eq e.tokenSource since n e.opt.effectiveTimeScale e.emitSeq with
    ⟨_, hgen⟩ | ⟨_, _, emit, _, _, hdue, hseq, hgen⟩
  · rw [hgen] at hactive hchunks
    apply h.kept hprogress (Nat.le_succ _) (fun k => by simpa using hchunks k)
    intro id' r' hr'
    rw [hactive, SortedMap.get?_insert] at hr'
    split at hr'
    · next hid =>
        cases hr'
        exact ⟨r, hid ▸ hr, hpending⟩
    · exact ⟨r', hr', rfl⟩
  · rw [hgen] at hactive hchunks
    obtain ⟨base₁, hbase₁, hprog₁⟩ := h.progress.active.right hr
    refine ⟨h.progress.trans hprogress, h.seq.trans (Nat.le_succ _), ?_, ?_⟩
    · intro id' r' hr'
      rw [hactive, SortedMap.get?_insert] at hr'
      split at hr'
      · next hid =>
          cases hr'
          obtain ⟨r₀, new, hr₀, hpending₀, hnew, hlate⟩ := h.active id r hr
          obtain ⟨_, hget, hprog⟩ := h.progress.active.right hr
          rw [hr₀, Option.some.injEq] at hget
          have hticket₀ : r₁.ticket = r₀.ticket := by rw [hticket, hprog.ticket, hget]
          refine ⟨r₀, new ++ [emit], hid ▸ hr₀, ?_, ?_, ?_⟩
          · change r₁.pendingEmits ++ [emit] = _
            rw [hpending, hpending₀, List.append_assoc]
          · rw [hchunks, if_pos hticket₀, hnew, List.append_assoc]
            rfl
          · intro emit' hemit'
            rcases List.mem_append.mp hemit' with hold | hlast
            · exact hlate emit' hold
            · cases List.mem_singleton.mp hlast
              rw [hdue, hseq]
              exact ⟨le_self_add, h.seq⟩
      · next hid =>
          obtain ⟨r₀, new, hr₀, hpending₀, hnew, hlate⟩ := h.active id' r' hr'
          have hother : ¬ r₁.ticket = r₀.ticket := by
            intro heq
            rw [hticket, hprog₁.ticket] at heq
            exact hid (hdistinct id' id r₀ base₁ hr₀ hbase₁ heq.symm)
          refine ⟨r₀, new, hr₀, hpending₀, ?_, hlate⟩
          rw [hchunks, if_neg hother, List.append_nil, hnew]
    · intro k hk
      have hother : ¬ r₁.ticket = k := by
        rw [hticket, hprog₁.ticket]
        exact hk id base₁ hbase₁
      rw [hchunks, if_neg hother, List.append_nil]
      exact h.others k hk

theorem execute (base : SimEngine env) (step : EngineStep) (hdistinct : base.DistinctTickets) :
    Generated step.endsAt base (base.executeStep step) := by
  apply executeStep_rule
  · refine ⟨base.log_progress _, le_rfl, ?_, fun k _ => chunksOf_log rfl⟩
    intro id r hr
    refine ⟨r, [], hr, (List.append_nil _).symm, ?_, by simp⟩
    rw [List.append_nil]
    exact chunksOf_log rfl
  · intro e spec hg
    have hprogress : Progress e { e with pendingSpec := spec } :=
      ⟨SortedMap.Rel.refl .refl _, rfl, rfl, rfl, rfl, rfl, rfl, rfl, rfl, rfl⟩
    exact hg.kept hprogress le_rfl (fun _ => rfl) (fun id r hr => ⟨r, hr, rfl⟩)
  · intro e entry ticket take hg
    exact hg.kept (e.log_progress _) le_rfl (fun _ => chunksOf_log rfl)
      (fun id r hr => ⟨r, hr, rfl⟩)
  · intro e id r m n hr _ _ hg
    have hdrain : r.Progressed { r with phase := .prefill n } :=
      ⟨rfl, le_rfl, fun hok => ⟨hok.produced, hok.capped, hok.chunks, hok.unfinished⟩⟩
    have hprogress : Progress e { e with
        activeRequests := e.activeRequests.insert id { r with phase := .prefill n } } :=
      Progress.touch hr hdrain rfl
        ⟨SortedMap.Rel.refl .refl _, rfl, rfl, rfl, rfl, rfl, rfl, rfl, rfl, rfl⟩
    apply hg.kept hprogress le_rfl (fun _ => rfl)
    intro id' r' hr'
    change (e.activeRequests.insert id _).get? id' = some r' at hr'
    rw [SortedMap.get?_insert] at hr'
    split at hr'
    · next hid =>
        cases hr'
        exact ⟨r, hid ▸ hr, rfl⟩
    · exact ⟨r', hr', rfl⟩
  · intro e r hg
    exact hg.kept (e.noteLoad_progress r) le_rfl (fun _ => rfl) (fun id r hr => ⟨r, hr, rfl⟩)
  · exact fun e id r r₁ entry byDecoder n hr hstart hg =>
      hg.generate hdistinct hr hstart entry byDecoder n

end Generated

/-! ## What a flush shows for a ticket -/

theorem flatMap_eq_of_unique {α β : Type*} {l : List α} {f : α → List β} {a : α} (ha : a ∈ l)
    (hnodup : l.Nodup) (hother : ∀ b ∈ l, b ≠ a → f b = []) : l.flatMap f = f a := by
  induction l with
  | nil => cases ha
  | cons b l ih =>
      obtain ⟨hb, hnodup⟩ := List.nodup_cons.mp hnodup
      rw [List.flatMap_cons]
      rcases List.mem_cons.mp ha with rfl | hmem
      · have hrest : l.flatMap f = [] := by
          apply List.flatMap_eq_nil_iff.mpr
          intro c hc
          exact hother c (List.mem_cons_of_mem _ hc) (fun heq => hb (heq ▸ hc))
        rw [hrest, List.append_nil]
      · rw [hother b List.mem_cons_self (fun heq => hb (heq ▸ hmem)), List.nil_append]
        exact ih hmem hnodup (fun c hc => hother c (List.mem_cons_of_mem _ hc))

namespace SimEngine

variable {e : SimEngine env}

theorem dueEmits_ticket {k : ℕ} {r : ActiveRequest env} :
    (r.emitDue e.tokenSource now).2.filter (fun d => d.output.ticket = some k) =
      if r.ticket = k then (r.emitDue e.tokenSource now).2 else [] := by
  have hshown := emitQueue_shown e.tokenSource now r.pendingEmits r
  by_cases hk : r.ticket = k
  · rw [if_pos hk, List.filter_eq_self]
    intro d hd
    simp [(hshown d hd).ticket, hk]
  · rw [if_neg hk, List.filter_eq_nil_iff]
    intro d hd
    simp [(hshown d hd).ticket, hk]

/-- A flush shows for an active request's ticket what its queue gives up. -/
theorem dueEmits_active (now : Instant) {id : String} {r : ActiveRequest env} (hdistinct : e.DistinctTickets)
    (hr : e.activeRequests.get? id = some r) :
    (e.dueEmits now).filter (fun d => d.output.ticket = some r.ticket) =
      (r.emitDue e.tokenSource now).2 := by
  have hnodup : e.activeRequests.entries.Nodup := e.activeRequests.nodup_keys.of_map
  rw [dueEmits, SortedMap.values, List.flatMap_map, List.filter_flatMap]
  refine (flatMap_eq_of_unique (SortedMap.mem_entries.mpr hr) hnodup ?_).trans ?_
  · rintro ⟨id', r'⟩ hmem hne
    rw [dueEmits_ticket, if_neg]
    intro hticket
    have hr' := SortedMap.mem_entries.mp hmem
    have hid := hdistinct id' id r' r hr' hr hticket
    subst hid
    rw [hr, Option.some.injEq] at hr'
    exact hne (by rw [hr'])
  · rw [dueEmits_ticket, if_pos rfl]

theorem dueEmits_other {k : ℕ}
    (hother : ∀ id r, e.activeRequests.get? id = some r → r.ticket ≠ k) :
    (e.dueEmits now).filter (fun d => d.output.ticket = some k) = [] := by
  rw [dueEmits, List.filter_flatMap, List.flatMap_eq_nil_iff]
  intro r hr
  obtain ⟨id, hget⟩ := SortedMap.mem_values.mp hr
  rw [dueEmits_ticket, if_neg (hother id r hget)]

theorem outputsFor_map (k : ℕ) (ds : List DueEmit) :
    outputsFor k (ds.map DueEmit.output) =
      (ds.filter (fun d => d.output.ticket = some k)).map DueEmit.output := List.filter_map

/-! ## Tickets that leave the queue -/

theorem queued_of_live {x : String × ℕ} (hx : x ∈ e.live) :
    (∃ r, e.activeRequests.get? x.1 = some r ∧ r.ticket = x.2) ∨ e.Queued x.2 := by
  rw [live, List.mem_append, List.mem_append] at hx
  rcases hx with hactive | hpending | hwaiting
  · obtain ⟨⟨id, r⟩, hmem, rfl⟩ := List.mem_map.mp hactive
    exact Or.inl ⟨r, SortedMap.mem_entries.mp hmem, rfl⟩
  · obtain ⟨⟨id, p⟩, hmem, rfl⟩ := List.mem_map.mp hpending
    exact Or.inr (Or.inl ⟨id, p, SortedMap.mem_entries.mp hmem, rfl⟩)
  · obtain ⟨q, hmem, rfl⟩ := List.mem_map.mp hwaiting
    exact Or.inr (Or.inr ⟨q, hmem, rfl⟩)

theorem live_of_queued {k : ℕ} (h : e.Queued k) : k ∈ e.live.map Prod.snd := by
  rcases h with ⟨id, p, hp, rfl⟩ | ⟨q, hq, rfl⟩
  · exact List.mem_map_of_mem (mem_live_pending hp)
  · exact List.mem_map_of_mem (mem_live_waiting hq)

end SimEngine

/-- A move that shows a terminal output and leaves the batch alone takes the ticket out of the
queue. -/
theorem Move.leaves_queue {e e' : SimEngine env} {effect : Effect} {k : ℕ} {id : String}
    {reason : FinishReason} (h : Move now e effect e') (he : Sound e)
    (hactive : e'.activeRequests = e.activeRequests)
    (hshown : effect.toOutputs = [terminalOutput (some k) id reason]) :
    e.Queued k ∧ ¬ e'.Queued k := by
  have hreset : effect ≠ .statsReset := by
    rintro rfl
    cases hshown
  have hchange := h.liveChange hreset he
  rw [hshown] at hchange
  cases hchange with
  | closes gone hlive hclosed =>
      rw [closed_terminal] at hclosed
      obtain ⟨x, hgone, hx⟩ : ∃ x, gone = [x] ∧ (x.1, some x.2) = (id, some k) := by
        match gone, hclosed with
        | [x], heq => exact ⟨x, rfl, (List.cons.inj heq).1.symm⟩
      obtain ⟨rfl, hk⟩ := Prod.mk.inj hx
      cases Option.some.inj hk
      rw [hgone] at hlive
      have hmem : x ∈ e.live := hlive.mem_iff.mpr List.mem_cons_self
      have hgoneLive : x.2 ∉ e'.live.map Prod.snd :=
        not_live_of_gone he.tickets hlive (List.mem_singleton_self x)
      refine ⟨?_, fun hqueued => hgoneLive (live_of_queued hqueued)⟩
      rcases queued_of_live hmem with ⟨r, hr, hticket⟩ | hqueued
      · have hstill := mem_live_active (hactive.symm ▸ hr : e'.activeRequests.get? x.1 = some r)
        rw [hticket] at hstill
        exact absurd (List.mem_map_of_mem hstill) hgoneLive
      · exact hqueued
  | refuses _ _ hclosed => cases hclosed
  | enqueues _ _ _ hclosed => cases hclosed

/-! ## The streams of an engine -/

def Event.cap : Event → Option (ℕ × ℕ)
  | .admitted ticket _ maxTokens _ => some (ticket, maxTokens)
  | _ => none

theorem Event.IsQuiet.cap {ev : Event} (h : ev.IsQuiet) : ev.cap = none := by
  cases ev with
  | admitted => cases h
  | _ => rfl

/-- The tickets admitted so far, with their generation caps. -/
def SimEngine.caps (e : SimEngine env) : List (ℕ × ℕ) := e.journal.filterMap Event.cap

theorem Move.caps {e e' : SimEngine env} {effect : Effect} (h : Move now e effect e')
    (he : Sound e) : e.caps ⊆ e'.caps := by
  intro c hc
  cases h.batch he with
  | still _ _ _ _ hjournal =>
      rw [SimEngine.caps, hjournal, List.filterMap_append]
      exact List.mem_append_left _ hc
  | entered _ _ _ _ _ _ _ hjournal =>
      rw [SimEngine.caps, hjournal, List.filterMap_append, List.filterMap_append]
      exact List.mem_append_left _ (List.mem_append_left _ hc)
  | withdrew _ _ _ _ hjournal =>
      rw [SimEngine.caps, hjournal]
      exact hc
  | composed => exact hc
  | @executed step =>
      rw [SimEngine.caps, executeStep_journal Event.cap step e.takeStep rfl (fun _ _ _ => rfl)
        (fun _ => rfl)]
      exact hc
  | flushed =>
      rw [SimEngine.caps, (e.flush_flushed now).journal]
      exact hc

theorem SimEngine.caps_tickets (e : SimEngine env) : e.caps.map Prod.fst = e.admissions := by
  rw [caps, admissions, List.map_filterMap]
  apply List.filterMap_congr
  intro ev _
  cases ev with
  | _ => rfl

/-- A ticket enters the batch under one cap. -/
theorem SimEngine.caps_unique {e : SimEngine env} (h : Enrolled e) {k m m' : ℕ}
    (hm : (k, m) ∈ e.caps) (hm' : (k, m') ∈ e.caps) : m = m' := by
  have hnodup := h.once
  rw [← e.caps_tickets] at hnodup
  exact congrArg Prod.snd (List.inj_on_of_nodup_map hnodup hm hm' rfl)

/-- The outputs `os` shown for a ticket, against what the engine generated for it. -/
structure Stream (k : ℕ) (os : List EngineCoreOutput) (e : SimEngine env) : Prop where
  framed : Framed os
  shown : os.filterMap EngineCoreOutput.chunk <+: e.chunksOf k
  finished : ∀ o ∈ os, o.finishReason.isSome → o.emission.isSome →
    os.filterMap EngineCoreOutput.chunk = e.chunksOf k ∧
      (k, (os.flatMap EngineCoreOutput.newTokenIds).length) ∈ e.caps

namespace Stream

variable {k : ℕ} {os : List EngineCoreOutput} {e e' : SimEngine env}

theorem of_streaming {r : ActiveRequest env} (h : Streaming r (e.chunksOf k) os) :
    Stream k os e where
  framed := h.framed
  shown := ⟨r.pendingEmits, h.chunks⟩
  finished o ho hfin _ := by
    rw [h.unfinished o ho] at hfin
    cases hfin

theorem kept (h : Stream k os e) (hchunks : e'.chunksOf k = e.chunksOf k)
    (hcaps : e.caps ⊆ e'.caps) : Stream k os e' where
  framed := h.framed
  shown := hchunks ▸ h.shown
  finished o ho hfin hemission := by
    obtain ⟨hall, hcap⟩ := h.finished o ho hfin hemission
    exact ⟨hall.trans hchunks.symm, hcaps hcap⟩

/-- A terminal output ends a stream that nothing has ended. -/
theorem cut (h : Stream k os e) (hopen : ∀ o ∈ os, o.finishReason = none) (id : String)
    (reason : FinishReason) (hchunks : e'.chunksOf k = e.chunksOf k) :
    Stream k (os ++ [terminalOutput (some k) id reason]) e' := by
  refine ⟨h.framed.cut hopen _ _ _, ?_, ?_⟩
  · rw [List.filterMap_append, hchunks, List.filterMap_cons, EngineCoreOutput.chunk_terminal,
      List.filterMap_nil, List.append_nil]
    exact h.shown
  · intro o ho hfin hemission
    rcases List.mem_append.mp ho with hold | hlast
    · rw [hopen o hold] at hfin
      cases hfin
    · cases List.mem_singleton.mp hlast
      cases hemission

end Stream

/-- The outputs `hist` shown so far, against the engine that showed them. -/
structure Streamed (hist : List EngineCoreOutput) (e : SimEngine env) : Prop where
  stream : ∀ k, Stream k (outputsFor k hist) e
  fresh : ∀ k, e.nextTicket ≤ k ∨ e.Queued k → outputsFor k hist = []
  ended : ∀ k < e.nextTicket, k ∈ e.live.map Prod.snd ∨
    ∃ o ∈ outputsFor k hist, o.finishReason.isSome
  active : ∀ id r, e.activeRequests.get? id = some r →
    Streaming r (e.chunksOf r.ticket) (outputsFor r.ticket hist)
  cap : ∀ id r, e.activeRequests.get? id = some r → (r.ticket, r.maxTokens) ∈ e.caps

theorem Fresh.streamed {e : SimEngine env} (h : Fresh e) : Streamed [] e := by
  obtain ⟨engineIndex, opt, tokenSource, stepSource, hnew⟩ := h
  obtain ⟨latency, _, rfl⟩ := except_map_eq_ok hnew
  exact ⟨fun k => ⟨Framed.nil, List.nil_prefix, by simp⟩, fun _ _ => rfl, by simp, by simp,
    by simp⟩

namespace Streamed

variable {hist os : List EngineCoreOutput} {e e' : SimEngine env}

/-- The streams of the batch go on, and so do those of the tickets outside of it. -/
theorem next (h : Streamed hist e)
    (hqueued : ∀ k, e'.nextTicket ≤ k ∨ e'.Queued k → e.nextTicket ≤ k ∨ e.Queued k)
    (hended : ∀ k < e'.nextTicket, k ∈ e'.live.map Prod.snd ∨
      ∃ o ∈ outputsFor k (hist ++ os), o.finishReason.isSome)
    (hnone : ∀ k, e'.nextTicket ≤ k ∨ e'.Queued k → outputsFor k os = [])
    (hactive : ∀ id r', e'.activeRequests.get? id = some r' →
      Streaming r' (e'.chunksOf r'.ticket) (outputsFor r'.ticket (hist ++ os)) ∧
        (r'.ticket, r'.maxTokens) ∈ e'.caps)
    (hother : ∀ k, (∀ id r', e'.activeRequests.get? id = some r' → r'.ticket ≠ k) →
      Stream k (outputsFor k (hist ++ os)) e') : Streamed (hist ++ os) e' where
  stream k := by
    by_cases hk : ∃ id r', e'.activeRequests.get? id = some r' ∧ r'.ticket = k
    · obtain ⟨id, r', hr', rfl⟩ := hk
      exact Stream.of_streaming (hactive id r' hr').1
    · exact hother k (fun id r' hr' hticket => hk ⟨id, r', hr', hticket⟩)
  fresh k hk := by rw [outputsFor_append, h.fresh k (hqueued k hk), hnone k hk, List.append_nil]
  ended := hended
  active id r' hr' := (hactive id r' hr').1
  cap id r' hr' := (hactive id r' hr').2

end Streamed

theorem Move.fresh_back {e e' : SimEngine env} {effect : Effect} (h : Move now e effect e')
    (he : Sound e) {k : ℕ} (hk : e'.nextTicket ≤ k ∨ e'.Queued k) :
    e.nextTicket ≤ k ∨ e.Queued k := by
  rcases hk with hle | hqueued
  · exact Or.inl ((h.live_back he).1.trans hle)
  · rcases h.queued_back hqueued with hold | rfl
    · exact Or.inr hold
    · exact Or.inl le_rfl

/-- A ticket that is not live any more was answered. -/
theorem Move.answers {e e' : SimEngine env} {effect : Effect} {hist : List EngineCoreOutput}
    (h : Move now e effect e') (he : Sound e) (hs : Streamed hist e) {k : ℕ}
    (hk : k < e'.nextTicket) : k ∈ e'.live.map Prod.snd ∨
      ∃ o ∈ outputsFor k (hist ++ effect.toOutputs), o.finishReason.isSome := by
  have hold : k < e.nextTicket → (k ∈ e.live.map Prod.snd → k ∈ e'.live.map Prod.snd ∨
      ∃ o ∈ outputsFor k effect.toOutputs, o.finishReason.isSome) →
      k ∈ e'.live.map Prod.snd ∨
        ∃ o ∈ outputsFor k (hist ++ effect.toOutputs), o.finishReason.isSome := by
    intro hlt hlive
    rw [outputsFor_append]
    rcases hs.ended k hlt with hmem | ⟨o, ho, hfin⟩
    · rcases hlive hmem with hstill | ⟨o, ho, hfin⟩
      · exact Or.inl hstill
      · exact Or.inr ⟨o, List.mem_append_right _ ho, hfin⟩
    · exact Or.inr ⟨o, List.mem_append_left _ ho, hfin⟩
  by_cases hreset : effect = .statsReset
  · subst hreset
    cases h
    exact hold hk (fun hmem => Or.inl hmem)
  · cases h.liveChange hreset he with
    | closes gone hlive hclosed hnext =>
        apply hold (hnext ▸ hk)
        intro hmem
        rw [(hlive.map Prod.snd).mem_iff, List.map_append, List.mem_append] at hmem
        rcases hmem with hgone | hstill
        · right
          obtain ⟨x, hx, rfl⟩ := List.mem_map.mp hgone
          have hshown : (x.1, some x.2) ∈ closed effect.toOutputs := by
            rw [hclosed]
            exact List.mem_map_of_mem (f := fun x : String × ℕ => (x.1, some x.2)) hx
          obtain ⟨o, ho, heq⟩ := List.mem_map.mp hshown
          obtain ⟨hmem, hfin⟩ := List.mem_filter.mp ho
          refine ⟨o, List.mem_filter.mpr ⟨hmem, ?_⟩, hfin⟩
          simpa using congrArg Prod.snd heq
        · exact Or.inl hstill
    | refuses id hlive _ hnext =>
        apply hold (hnext ▸ hk)
        exact fun hmem => Or.inl (hlive ▸ hmem)
    | enqueues id _ hlive _ hnext =>
        by_cases hlt : k < e.nextTicket
        · apply hold hlt
          intro hmem
          rw [(hlive.map Prod.snd).mem_iff]
          exact Or.inl (List.mem_cons_of_mem _ hmem)
        · have hnew : k = e.nextTicket := by omega
          rw [(hlive.map Prod.snd).mem_iff, hnew]
          exact Or.inl List.mem_cons_self

/-- A move shows the next outputs of the streams. -/
theorem Move.streamed {e e' : SimEngine env} {effect : Effect} {hist : List EngineCoreOutput}
    (h : Move now e effect e') (he : Sound e) (hen : Enrolled e) (ho : Ordered e)
    (hs : Streamed hist e) : Streamed (hist ++ effect.toOutputs) e' := by
  have hcaps := h.caps he
  have hback : ∀ k, e'.nextTicket ≤ k ∨ e'.Queued k → e.nextTicket ≤ k ∨ e.Queued k :=
    fun k => h.fresh_back he
  have hended : ∀ k < e'.nextTicket, k ∈ e'.live.map Prod.snd ∨
      ∃ o ∈ outputsFor k (hist ++ effect.toOutputs), o.finishReason.isSome :=
    fun k => h.answers he hs
  -- The tickets out of the batch keep their streams, and those in it keep their requests.
  have hsilent : effect.toOutputs = [] →
      (∀ k, (∀ id r', e'.activeRequests.get? id = some r' → r'.ticket ≠ k) →
        e'.chunksOf k = e.chunksOf k) →
      (∀ id r', e'.activeRequests.get? id = some r' →
        Streaming r' (e'.chunksOf r'.ticket) (outputsFor r'.ticket hist) ∧
          (r'.ticket, r'.maxTokens) ∈ e'.caps) →
      Streamed (hist ++ effect.toOutputs) e' := by
    intro hshown hchunks hactive
    rw [hshown] at hended ⊢
    apply hs.next hback hended (fun _ _ => rfl)
    · simpa using hactive
    · intro k hk
      rw [List.append_nil]
      exact (hs.stream k).kept (hchunks k hk) hcaps
  cases h.batch he with
  | still _ hactive _ _ hjournal hquiet hshown =>
      have hchunks := chunksOf_quiet hjournal hquiet
      have hsame : ∀ id r', e'.activeRequests.get? id = some r' →
          Streaming r' (e'.chunksOf r'.ticket) (outputsFor r'.ticket hist) ∧
            (r'.ticket, r'.maxTokens) ∈ e'.caps := by
        intro id r' hr'
        rw [hactive] at hr'
        rw [hchunks]
        exact ⟨hs.active id r' hr', hcaps (hs.cap id r' hr')⟩
      rcases hshown with hnone | ⟨ticket, id, reason, hterminal⟩
      · exact hsilent hnone (fun k _ => hchunks k) hsame
      · have hleft : ∀ k, ticket = some k → e.Queued k ∧ ¬ e'.Queued k := by
          rintro k rfl
          exact h.leaves_queue he hactive hterminal
        have hother : ∀ k, ticket ≠ some k →
            outputsFor k [terminalOutput ticket id reason] = [] :=
          fun k hk => outputsFor_terminal_of_ne hk id reason
        rw [hterminal] at hended ⊢
        apply hs.next hback hended
        · intro k hk
          apply hother
          rintro rfl
          obtain ⟨hqueued, hgone⟩ := hleft k rfl
          have hlt : k < e.nextTicket := by
            obtain ⟨x, hx, rfl⟩ := List.mem_map.mp (live_of_queued hqueued)
            exact he.ticket_lt x hx
          exact hk.elim (fun hle => by have := (h.live_back he).1; omega) hgone
        · intro id' r' hr'
          rw [outputsFor_append, hother, List.append_nil]
          · exact hsame id' r' hr'
          · rintro rfl
            exact he.not_queued (hactive ▸ hr') (hleft _ rfl).1
        · intro k _
          rw [outputsFor_append]
          by_cases hk : ticket = some k
          · subst hk
            rw [outputsFor_terminal_self]
            have hempty := hs.fresh k (Or.inr (hleft k rfl).1)
            apply (hs.stream k).cut _ id reason (hchunks k)
            rw [hempty]
            simp
          · rw [hother k hk, List.append_nil]
            exact (hs.stream k).kept (hchunks k) hcaps
  | @entered _ _ id r pre post _ hnone hentering hqueued hactive _ _ hjournal hquiet hshown =>
      have hchunks := chunksOf_entered hjournal hquiet
      apply hsilent hshown (fun k _ => hchunks k)
      intro id' r' hr'
      rw [hchunks]
      rw [hactive, SortedMap.get?_insert] at hr'
      split at hr'
      · cases hr'
        have hnothing : e.chunksOf r.ticket = [] := by
          by_contra hne
          exact hen.queued _ (ho.admitted _ hne) hqueued
        refine ⟨⟨?_, ?_, ?_, ?_, ?_⟩, ?_⟩
        · rw [hs.fresh _ (Or.inr hqueued)]
          exact Framed.nil
        · rw [hs.fresh _ (Or.inr hqueued)]
          simp
        · rw [hs.fresh _ (Or.inr hqueued), hentering.pendingEmits, hnothing]
          rfl
        · rw [hs.fresh _ (Or.inr hqueued), hentering.emitted]
          rfl
        · rw [hs.fresh _ (Or.inr hqueued)]
          simp [hentering.pendingEvents]
        · rw [SimEngine.caps, hjournal, List.filterMap_append, List.filterMap_cons]
          exact List.mem_append_right _ List.mem_cons_self
      · exact ⟨hs.active id' r' hr', hcaps (hs.cap id' r' hr')⟩
  | @withdrew _ id r hr hactive _ _ hjournal =>
      have hchunks : ∀ k, e'.chunksOf k = e.chunksOf k := by
        intro k
        rw [chunksOf, hjournal, chunksOf]
      have hstay : ∀ id' r', e'.activeRequests.get? id' = some r' →
          e.activeRequests.get? id' = some r' ∧ r'.ticket ≠ r.ticket := by
        intro id' r' hr'
        rw [hactive, SortedMap.get?_erase] at hr'
        split at hr'
        · cases hr'
        · next hne =>
            refine ⟨hr', fun hticket => hne ?_⟩
            exact he.distinctTickets id' id r' r hr' hr hticket
      have hother : ∀ k, r.ticket ≠ k →
          outputsFor k [terminalOutput (some r.ticket) id .abort] = [] :=
        fun k hk => outputsFor_terminal_of_ne (fun heq => hk (Option.some.inj heq)) id .abort
      rw [Effect.toOutputs] at hended ⊢
      apply hs.next hback hended
      · intro k hk
        apply hother
        rintro rfl
        rcases hback _ hk with hle | hqueued
        · have := he.ticket_lt _ (mem_live_active hr)
          omega
        · exact he.not_queued hr hqueued
      · intro id' r' hr'
        obtain ⟨hget, hne⟩ := hstay id' r' hr'
        rw [outputsFor_append, hother _ hne.symm, List.append_nil, hchunks]
        exact ⟨hs.active id' r' hget, hcaps (hs.cap id' r' hget)⟩
      · intro k _
        rw [outputsFor_append]
        by_cases hk : r.ticket = k
        · subst hk
          rw [outputsFor_terminal_self]
          exact (hs.stream r.ticket).cut (hs.active id r hr).unfinished id .abort (hchunks _)
        · rw [hother k hk, List.append_nil]
          exact (hs.stream k).kept (hchunks k) hcaps
  | composed anchor =>
      apply hsilent rfl (fun _ _ => rfl)
      intro id r' hr'
      obtain ⟨r, hr, heq⟩ := composeStep_drawn hr'
      have hstreaming := hs.active id r hr
      have hcap := hs.cap id r hr
      rw [heq]
      exact ⟨⟨hstreaming.framed, hstreaming.unfinished, hstreaming.chunks, hstreaming.emitted,
        hstreaming.events⟩, hcap⟩
  | @executed step =>
      have hg := Generated.execute e.takeStep step he.distinctTickets
      apply hsilent rfl
      · intro k hk
        apply hg.others
        intro id r hr hticket
        obtain ⟨r', hr', hprog⟩ := hg.progress.active.left hr
        exact hk id r' hr' (hprog.ticket.trans hticket)
      · intro id r' hr'
        obtain ⟨r, new, hr, hpending, hchunks, _⟩ := hg.active id r' hr'
        obtain ⟨r₁, hr₁, hprog⟩ := hg.progress.active.right hr'
        rw [hr, Option.some.injEq] at hr₁
        subst hr₁
        have hemitted : r'.emitted = r.emitted := by rw [hprog.kept]
        have hevents : r'.pendingEvents = r.pendingEvents := by rw [hprog.kept]
        rw [hprog.ticket, hprog.maxTokens, hchunks]
        exact ⟨(hs.active id r hr).generated hpending hemitted hevents, hcaps (hs.cap id r hr)⟩
  | flushed =>
      have hflushed := e.flush_flushed now
      have hchunks : ∀ k, (e.flush now).1.chunksOf k = e.chunksOf k := by
        intro k
        rw [chunksOf, hflushed.journal, chunksOf]
      have hshown : ∀ id r, e.activeRequests.get? id = some r →
          outputsFor r.ticket (hist ++ (e.dueEmits now).map DueEmit.output) =
            outputsFor r.ticket hist ++ shown e.tokenSource now r.pendingEmits r := by
        intro id r hr
        rw [outputsFor_append, outputsFor_map, dueEmits_active now he.distinctTickets hr]
        rfl
      have hother : ∀ k, (∀ id r, e.activeRequests.get? id = some r → r.ticket ≠ k) →
          outputsFor k ((e.dueEmits now).map DueEmit.output) = [] := by
        intro k hk
        rw [outputsFor_map, dueEmits_other hk, List.map_nil]
      rw [Effect.toOutputs] at hended ⊢
      apply hs.next hback hended
      · intro k hk
        apply hother
        rintro id r hr rfl
        rcases hback _ hk with hle | hqueued
        · have := he.ticket_lt _ (mem_live_active hr)
          omega
        · exact he.not_queued hr hqueued
      · intro id r' hr'
        obtain ⟨r, hr, hstays, heq⟩ := e.flush_get? he.active now hr'
        have hstream := (hs.active id r hr).stays (he.ok id r hr) hstays
        have hticket : r'.ticket = r.ticket := by
          rw [← heq, ActiveRequest.emitDue, emitQueue_request]
        have hmax : r'.maxTokens = r.maxTokens := by
          rw [← heq, ActiveRequest.emitDue, emitQueue_request]
        rw [hchunks, hticket, hmax, hshown id r hr, ← heq]
        exact ⟨hstream, hcaps (hs.cap id r hr)⟩
      · intro k hk
        by_cases hwas : ∃ id r, e.activeRequests.get? id = some r ∧ r.ticket = k
        · obtain ⟨id, r, hr, rfl⟩ := hwas
          have hfin : r.finishes e.tokenSource now = true := by
            by_contra hstays
            have hget : (e.flush now).1.activeRequests.get? id =
                some (r.emitDue e.tokenSource now).1 := by
              rw [flush_active he.active, SortedMap.get?_mapValues, SortedMap.get?_filter, hr]
              simpa using hstays
            apply hk id _ hget
            rw [ActiveRequest.emitDue, emitQueue_request]
          obtain ⟨hall, htotal⟩ := (hs.active id r hr).finishes (he.ok id r hr) hfin
          rw [hshown id r hr]
          refine ⟨(hs.active id r hr).framed_shown (he.ok id r hr), ?_, ?_⟩
          · rw [hall, hchunks]
          · intro _ _ _ _
            rw [hall, hchunks, htotal]
            exact ⟨rfl, hcaps (hs.cap id r hr)⟩
        · have hno : ∀ id r, e.activeRequests.get? id = some r → r.ticket ≠ k :=
            fun id r hr hticket => hwas ⟨id, r, hr, hticket⟩
          rw [outputsFor_append, hother k hno, List.append_nil]
          exact (hs.stream k).kept (hchunks k) hcaps

end VllmVcr
