import VllmVcr.Engine.Issued
import VllmVcr.Engine.Schedules
import VllmVcr.Engine.Delivery

/-!
# The life of a request

What happens to one request from its entry on, whatever the engine does for the others: a
composed step draws for it, the step's end makes it prefill or generate, a flush shows its
chunks. A request that entered while the in-flight step listed its id is left out.
-/

namespace VllmVcr

variable {env : Env} {now : Instant}

/-- A class of engines, by what drawing and generating read of them. -/
structure Settings (env : Env) where
  allows : ℕ → Opt → LatencyModel env.Rng → TokenSource → Prop
  serves : ∀ i opt latency source ctx n rng, allows i opt latency source →
    allows i opt latency (source.nextTokens env ctx n rng).2.2
  adds : ∀ i opt latency source id prompt, allows i opt latency source →
    allows i opt latency (source.onRequestAdded id prompt).1
  finishes : ∀ i opt latency source id, allows i opt latency source →
    allows i opt latency (source.onRequestFinished id)

namespace SimEngine

/-- The engine belongs to the class. -/
def Under (s : Settings env) (e : SimEngine env) : Prop :=
  s.allows e.engineIndex e.opt e.latency e.tokenSource

/-- Drawing leaves the request's count, cap and phase alone. -/
theorem drawFor_kept (e : SimEngine env) (r : ActiveRequest env) :
    (e.drawFor r).2.maxTokens = r.maxTokens ∧ (e.drawFor r).2.generated = r.generated ∧
      (e.drawFor r).2.phase = r.phase := by
  unfold drawFor ActiveRequest.drawStep
  split
  · exact ⟨rfl, rfl, rfl⟩
  · exact ⟨rfl, rfl, rfl⟩

/-- The chunk size of a decoder that drew `tokens`. -/
def decoderChunk (e : SimEngine env) (tokens : ℕ) : ℕ :=
  if 1 < tokens then tokens else e.opt.outputTokenChunkSize

/-- The chunk size at the end of a prefill. -/
def firstChunk (e : SimEngine env) (r : ActiveRequest env) : ℕ :=
  match r.scriptedDecode with
  | some s => s.firstChunkTokens
  | none => e.opt.outputTokenChunkSize

end SimEngine

/-- The tokens drawn for this id, among the decoders of a step. -/
def awaited (decoders : List DecoderEntry) (id : String) : Option ℕ :=
  (decoders.find? (fun d => d.requestId = id)).map DecoderEntry.tokens

/-- The tokens that the in-flight step drew for this id. -/
def SimEngine.awaits (e : SimEngine env) : String → Option ℕ :=
  awaited (e.currentStep.elim [] EngineStep.decoders)

open SimEngine

/-- A request, the chunks generated for it and what the in-flight step drew for it. -/
structure Life (env : Env) where
  request : ActiveRequest env
  chunks : List PendingEmit
  drawn : Option ℕ

namespace Life

/-- The request generates `n` tokens, which uses up the draw. -/
def generates (l : Life env) (e : SimEngine env) (stepEnd : Instant) (n : ℕ) : Life env where
  request :=
    (l.request.generate e.tokenSource stepEnd n e.opt.effectiveTimeScale e.emitSeq).1
  chunks := l.chunks ++
    (l.request.generate e.tokenSource stepEnd n e.opt.effectiveTimeScale e.emitSeq).2.2.toList
  drawn := none

/-- What an engine of the class may do to a request. -/
inductive Step (s : Settings env) : Life env → Life env → Prop
  | draws {r : ActiveRequest env} {chunks : List PendingEmit} (e : SimEngine env)
      (he : e.Under s) (hdecoding : r.isDecoding = true) :
      Step s ⟨r, chunks, none⟩ ⟨(e.drawFor r).2, chunks, some (e.drawFor r).1.tokens⟩
  | decodes {r : ActiveRequest env} {chunks : List PendingEmit} {tokens : ℕ} (e : SimEngine env)
      (he : e.Under s) (stepEnd : Instant) :
      Step s ⟨r, chunks, some tokens⟩
        (generates ⟨r, chunks, some tokens⟩ e stepEnd (e.decoderChunk tokens))
  | prefills {r : ActiveRequest env} {chunks : List PendingEmit} {m : ℕ} (n : ℕ)
      (hphase : r.phase = .prefill m) :
      Step s ⟨r, chunks, none⟩ ⟨{ r with phase := .prefill n }, chunks, none⟩
  | starts {r : ActiveRequest env} {chunks : List PendingEmit} {m : ℕ} (e : SimEngine env)
      (he : e.Under s) (numRunning : ℕ) (stepEnd : Instant) (hphase : r.phase = .prefill m) :
      Step s ⟨r, chunks, none⟩ (generates ⟨e.startDecode numRunning r, chunks, none⟩ e stepEnd
        (e.firstChunk (e.startDecode numRunning r)))
  | shows {r : ActiveRequest env} {chunks : List PendingEmit} {drawn : Option ℕ} (emitted : ℕ)
      (events : List EngineCoreEvent) (pending : List PendingEmit) :
      Step s ⟨r, chunks, drawn⟩ ⟨{ r with
        emitted := emitted, pendingEvents := events, pendingEmits := pending }, chunks, drawn⟩

end Life

/-- A request has lived from its entry as `r₀` to `l`. -/
def Lived (s : Settings env) (r₀ : ActiveRequest env) (l : Life env) : Prop :=
  Relation.ReflTransGen (Life.Step s) ⟨r₀, [], none⟩ l

/-- The chunks of ticket `k`, and its request while it is active, are those of a life from `r₀`
on; `drawn` is what the in-flight step drew for each id. -/
def Follows (s : Settings env) (r₀ : ActiveRequest env) (k : ℕ) (drawn : String → Option ℕ)
    (e : SimEngine env) : Prop :=
  ∃ l, Lived s r₀ l ∧ l.chunks = e.chunksOf k ∧
    ∀ id r, e.activeRequests.get? id = some r → r.ticket = k → l.request = r ∧ l.drawn = drawn id

namespace Follows

variable {s : Settings env} {r₀ : ActiveRequest env} {k : ℕ} {drawn drawn' : String → Option ℕ}
  {e e' : SimEngine env}

/-- The request of the ticket stays as it is, or leaves. -/
theorem kept (h : Follows s r₀ k drawn e) (hchunks : e'.chunksOf k = e.chunksOf k)
    (hactive : ∀ id r, e'.activeRequests.get? id = some r → r.ticket = k →
      e.activeRequests.get? id = some r ∧ drawn' id = drawn id) : Follows s r₀ k drawn' e' := by
  obtain ⟨l, hlived, hl, hr⟩ := h
  refine ⟨l, hlived, hl.trans hchunks.symm, ?_⟩
  intro id r hget hticket
  obtain ⟨hold, hdrawn⟩ := hactive id r hget hticket
  rw [hdrawn]
  exact hr id r hold hticket

/-- The request of the ticket takes a step of its life. -/
theorem step {id : String} {r r' : ActiveRequest env} {new : List PendingEmit} {d : Option ℕ}
    (h : Follows s r₀ k drawn e) (hr : e.activeRequests.get? id = some r) (hticket : r.ticket = k)
    (hstep : ∀ chunks, Life.Step s ⟨r, chunks, drawn id⟩ ⟨r', chunks ++ new, d⟩)
    (hchunks : e'.chunksOf k = e.chunksOf k ++ new)
    (hactive : ∀ id' s', e'.activeRequests.get? id' = some s' → s'.ticket = k →
      s' = r' ∧ drawn' id' = d) : Follows s r₀ k drawn' e' := by
  obtain ⟨⟨request, chunks, d₀⟩, hlived, hl, hcurrent⟩ := h
  obtain ⟨hrequest, hdrawn⟩ := hcurrent id r hr hticket
  subst hrequest hdrawn
  refine ⟨⟨r', chunks ++ new, d⟩, hlived.tail (hstep chunks), ?_, ?_⟩
  · rw [hchunks, ← hl]
  · intro id' s' hs' hticket'
    obtain ⟨heq, hd⟩ := hactive id' s' hs' hticket'
    exact ⟨heq.symm, hd.symm⟩

end Follows

/-! ## Executing a step -/

theorem awaited_self (d : DecoderEntry) (decoders : List DecoderEntry) :
    awaited (d :: decoders) d.requestId = some d.tokens := by
  simp [awaited]

theorem awaited_cons {d : DecoderEntry} {id : String} (h : id ≠ d.requestId)
    (decoders : List DecoderEntry) : awaited (d :: decoders) id = awaited decoders id := by
  simp [awaited, h.symm]

theorem awaited_none {decoders : List DecoderEntry} {id : String}
    (h : id ∉ decoders.map DecoderEntry.requestId) : awaited decoders id = none := by
  rw [awaited, Option.map_eq_none_iff, List.find?_eq_none]
  intro d hd
  rw [decide_eq_true_eq]
  rintro rfl
  exact h (List.mem_map_of_mem hd)

theorem ActiveRequest.generate_source (r : ActiveRequest env) (source : TokenSource)
    (stepEnd : Instant) (n : ℕ) (timeScale : ℚ≥0) (seq : ℕ) :
    (r.generate source stepEnd n timeScale seq).2.1 = source ∨
      ∃ ctx m rng, (r.generate source stepEnd n timeScale seq).2.1 =
        (source.nextTokens env ctx m rng).2.2 := by
  by_cases hlen : r.chunkLen n = 0
  · left
    simp [generate, hlen]
  · right
    refine ⟨⟨r.requestId, r.promptTokenIds, r.generated⟩, r.chunkLen n, r.rng, ?_⟩
    simp [generate, hlen]

/-- A part of a step was executed since `base`. -/
structure Midway (s : Settings env) (base e : SimEngine env) : Prop where
  progress : Progress base e
  under : e.Under s

namespace Midway

variable {s : Settings env} {base e : SimEngine env}

theorem distinct (h : Midway s base e) (hbase : base.DistinctTickets) : e.DistinctTickets := by
  intro id id' r r' hr hr' hticket
  obtain ⟨t, ht, hprog⟩ := h.progress.active.right hr
  obtain ⟨t', ht', hprog'⟩ := h.progress.active.right hr'
  rw [hprog.ticket, hprog'.ticket] at hticket
  exact hbase id id' t t' ht ht' hticket

theorem generateFor {id : String} {r r₁ : ActiveRequest env} (h : Midway s base e)
    (hr : e.activeRequests.get? id = some r) (hprogressed : r.Progressed r₁) (stepEnd : Instant)
    (entry : ℕ) (byDecoder : Bool) (n : ℕ) :
    Midway s base (e.generateFor stepEnd id entry byDecoder n r₁) := by
  refine ⟨h.progress.trans (generateFor_progress hr hprogressed _ _ _ _), ?_⟩
  have hunder := h.under
  change s.allows e.engineIndex e.opt e.latency
    (r₁.generate e.tokenSource stepEnd n e.opt.effectiveTimeScale e.emitSeq).2.1
  rcases r₁.generate_source e.tokenSource stepEnd n e.opt.effectiveTimeScale e.emitSeq with
    hsame | ⟨ctx, m, rng, hserved⟩
  · rw [hsame]
    exact hunder
  · rw [hserved]
    exact s.serves _ _ _ _ _ _ _ hunder

theorem noteLoad (h : Midway s base e) (r : ActiveRequest env) : Midway s base (e.noteLoad r) :=
  ⟨h.progress.trans (e.noteLoad_progress r), h.under⟩

theorem completeDecoder (h : Midway s base e) (stepEnd : Instant) (d : DecoderEntry) :
    Midway s base (completeDecoder stepEnd e d) := by
  unfold SimEngine.completeDecoder
  split
  · exact h
  · next r hr => exact h.generateFor hr (.refl r) _ _ _ _

theorem completeChunk (h : Midway s base e) (stepEnd : Instant) (numRunning : ℕ)
    (c : ChunkEntry) : Midway s base (completeChunk stepEnd numRunning e c) := by
  refine ⟨h.progress.trans (completeChunk_progress _ _ _ _), ?_⟩
  unfold SimEngine.completeChunk
  split
  · exact h.under
  · next r hr =>
      split
      · exact h.under
      · simp only
        split
        · exact h.under
        · have hlogged : Midway s base (e.log (.chunked c.ticket r.ticket c.take)) :=
            ⟨h.progress.trans (e.log_progress _), h.under⟩
          exact ((hlogged.noteLoad _).generateFor hr (startDecode_progressed _ _ _) stepEnd _ false
            _).under

end Midway

namespace Follows

variable {s : Settings env} {r₀ : ActiveRequest env} {k : ℕ} {drawn drawn' : String → Option ℕ}
  {e : SimEngine env}

theorem generateFor {id : String} {r r₁ : ActiveRequest env} {d : Option ℕ} {stepEnd : Instant}
    {n : ℕ} (h : Follows s r₀ k drawn e) (hdistinct : e.DistinctTickets)
    (hr : e.activeRequests.get? id = some r) (hticket : r₁.ticket = r.ticket)
    (hstep : ∀ chunks, Life.Step s ⟨r, chunks, drawn id⟩
      (Life.generates ⟨r₁, chunks, d⟩ e stepEnd n))
    (hself : drawn' id = none) (hother : ∀ id', id' ≠ id → drawn' id' = drawn id')
    (entry : ℕ) (byDecoder : Bool) :
    Follows s r₀ k drawn' (e.generateFor stepEnd id entry byDecoder n r₁) := by
  have hchunks := generateFor_chunksOf stepEnd id entry byDecoder n r₁ e k
  have hkept := (generate_stands r₁ e.tokenSource stepEnd n e.opt.effectiveTimeScale
    e.emitSeq).1.trans hticket
  have hactive : (e.generateFor stepEnd id entry byDecoder n r₁).activeRequests =
      e.activeRequests.insert id
        (r₁.generate e.tokenSource stepEnd n e.opt.effectiveTimeScale e.emitSeq).1 := rfl
  by_cases hk : r.ticket = k
  · rw [if_pos (hticket.trans hk)] at hchunks
    have hgenerates : ∀ chunks, Life.Step s ⟨r, chunks, drawn id⟩
        ⟨(r₁.generate e.tokenSource stepEnd n e.opt.effectiveTimeScale e.emitSeq).1, chunks ++
          (r₁.generate e.tokenSource stepEnd n e.opt.effectiveTimeScale e.emitSeq).2.2.toList,
          none⟩ := hstep
    apply h.step hr hk hgenerates hchunks
    intro id' r' hr' hticket'
    rw [hactive, SortedMap.get?_insert] at hr'
    split at hr'
    · next hid =>
        cases hr'
        exact ⟨rfl, hid ▸ hself⟩
    · next hid => exact absurd (hdistinct _ _ _ _ hr' hr (hticket'.trans hk.symm)) hid
  · rw [if_neg (fun heq => hk (hticket.symm.trans heq)), List.append_nil] at hchunks
    apply h.kept hchunks
    intro id' r' hr' hticket'
    rw [hactive, SortedMap.get?_insert] at hr'
    split at hr'
    · cases hr'
      exact absurd (hkept.symm.trans hticket') hk
    · next hid => exact ⟨hr', hother id' hid⟩

theorem completeDecoder {d : DecoderEntry} {ds : List DecoderEntry}
    (h : Follows s r₀ k (awaited (d :: ds)) e) (hdistinct : e.DistinctTickets) (he : e.Under s)
    (hnodup : ((d :: ds).map DecoderEntry.requestId).Nodup) (stepEnd : Instant) :
    Follows s r₀ k (awaited ds) (completeDecoder stepEnd e d) := by
  have hother : ∀ id', id' ≠ d.requestId → awaited ds id' = awaited (d :: ds) id' :=
    fun id' hid => (awaited_cons hid ds).symm
  unfold SimEngine.completeDecoder
  split
  · next hnone =>
      apply h.kept rfl
      intro id r hr _
      refine ⟨hr, hother id ?_⟩
      rintro rfl
      rw [hnone] at hr
      cases hr
  · next r hr =>
      apply h.generateFor hdistinct hr rfl
      · intro chunks
        rw [awaited_self]
        exact Life.Step.decodes e he stepEnd
      · exact awaited_none (List.nodup_cons.mp hnodup).1
      · exact hother

theorem completeChunk (h : Follows s r₀ k (fun _ => none) e) (hdistinct : e.DistinctTickets)
    (he : e.Under s) (stepEnd : Instant) (numRunning : ℕ) (c : ChunkEntry) :
    Follows s r₀ k (fun _ => none) (completeChunk stepEnd numRunning e c) := by
  unfold SimEngine.completeChunk
  split
  · exact h
  · next r hr =>
      split
      · exact h
      · next remaining hphase =>
          have hlogged : Follows s r₀ k (fun _ => none)
              (e.log (.chunked c.ticket r.ticket c.take)) :=
            h.kept (chunksOf_log rfl) (fun id r hr _ => ⟨hr, rfl⟩)
          simp only
          split
          · by_cases hk : r.ticket = k
            · apply hlogged.step hr hk
              · intro chunks
                rw [List.append_nil]
                exact Life.Step.prefills (remaining - c.take) hphase
              · exact (List.append_nil _).symm
              · intro id' r' hr' hticket'
                change (e.activeRequests.insert c.requestId _).get? id' = some r' at hr'
                rw [SortedMap.get?_insert] at hr'
                split at hr'
                · cases hr'
                  exact ⟨rfl, rfl⟩
                · next hid => exact absurd (hdistinct _ _ _ _ hr' hr (hticket'.trans hk.symm)) hid
            · apply hlogged.kept
              · rfl
              · intro id' r' hr' hticket'
                change (e.activeRequests.insert c.requestId _).get? id' = some r' at hr'
                rw [SortedMap.get?_insert] at hr'
                split at hr'
                · cases hr'
                  exact absurd hticket' hk
                · exact ⟨hr', rfl⟩
          · apply hlogged.generateFor hdistinct hr
            · rfl
            · exact fun _ => Life.Step.starts (e.log _) he numRunning stepEnd hphase
            · rfl
            · exact fun _ _ => rfl

/-- Executing a step uses up its draws. -/
theorem executeStep {step : EngineStep} (h : Follows s r₀ k (awaited step.decoders) e)
    (hdistinct : e.DistinctTickets) (he : e.Under s)
    (hnodup : (step.decoders.map DecoderEntry.requestId).Nodup) :
    Follows s r₀ k (fun _ => none) (e.executeStep step) := by
  have hdecoders : ∀ (ds : List DecoderEntry) (e' : SimEngine env),
      (ds.map DecoderEntry.requestId).Nodup → Midway s e e' → Follows s r₀ k (awaited ds) e' →
        Midway s e (ds.foldl (SimEngine.completeDecoder step.endsAt) e') ∧
        Follows s r₀ k (fun _ => none) (ds.foldl (SimEngine.completeDecoder step.endsAt) e') := by
    intro ds
    induction ds with
    | nil => exact fun e' _ hmid hfollows => ⟨hmid, hfollows⟩
    | cons d ds ih =>
        intro e' hnodup hmid hfollows
        exact ih _ (List.nodup_cons.mp hnodup).2 (hmid.completeDecoder _ d)
          (hfollows.completeDecoder (hmid.distinct hdistinct) hmid.under hnodup _)
  have hchunks : ∀ (cs : List ChunkEntry) (e' : SimEngine env), Midway s e e' →
      Follows s r₀ k (fun _ => none) e' → Follows s r₀ k (fun _ => none)
        (cs.foldl (SimEngine.completeChunk step.endsAt e.numRunning) e') := by
    intro cs
    induction cs with
    | nil => exact fun e' _ hfollows => hfollows
    | cons c cs ih =>
        intro e' hmid hfollows
        exact ih _ (hmid.completeChunk _ _ c)
          (hfollows.completeChunk (hmid.distinct hdistinct) hmid.under _ _ c)
  have hlogged : Follows s r₀ k (awaited step.decoders) (e.log (.completed step)) :=
    h.kept (chunksOf_log rfl) (fun id r hr _ => ⟨hr, rfl⟩)
  obtain ⟨hmid, hdone⟩ := hdecoders step.decoders (e.log (.completed step)) hnodup
    ⟨e.log_progress _, he⟩ hlogged
  unfold SimEngine.executeStep
  obtain ⟨spec, hspec⟩ := SimEngine.foldSpecStats_eq
    (step.decoders.foldl (SimEngine.completeDecoder step.endsAt) (e.log (.completed step)))
    step.decoders
  simp only
  rw [hspec]
  apply hchunks
  · have hprogress := hmid.progress
    exact ⟨⟨hprogress.active, hprogress.pool, hprogress.pendingPulls, hprogress.waiting,
      hprogress.loras, hprogress.opt, hprogress.stats, hprogress.pullTasks, hprogress.nextTicket,
      hprogress.stepSource⟩, hmid.under⟩
  · exact hdone.kept rfl (fun id r hr _ => ⟨hr, rfl⟩)

end Follows

/-! ## Composing a step -/

theorem awaited_of_mem {d : DecoderEntry} {decoders : List DecoderEntry} (h : d ∈ decoders)
    (hnodup : (decoders.map DecoderEntry.requestId).Nodup) :
    awaited decoders d.requestId = some d.tokens := by
  induction decoders with
  | nil => cases h
  | cons d' decoders ih =>
      obtain ⟨hd', hnodup⟩ := List.nodup_cons.mp hnodup
      rcases List.mem_cons.mp h with rfl | hrest
      · exact awaited_self d decoders
      · rw [awaited_cons]
        · exact ih hrest hnodup
        · intro hid
          exact hd' (hid ▸ List.mem_map_of_mem hrest)

namespace SimEngine

variable {e : SimEngine env}

theorem nodup_drawDecoders (hfiled : e.ActiveFiled) :
    (e.drawDecoders.2.map DecoderEntry.requestId).Nodup := by
  have hids : e.drawDecoders.2.map DecoderEntry.requestId =
      e.decoding.map ActiveRequest.requestId := by
    rw [drawDecoders, List.map_map]
    rfl
  rw [hids]
  exact nodup_decoding hfiled

/-- A composed step draws for exactly the requests that decode. -/
theorem awaited_drawDecoders (hfiled : e.ActiveFiled) {id : String} {r : ActiveRequest env}
    (hr : e.activeRequests.get? id = some r) : awaited e.drawDecoders.2 id =
      if r.isDecoding then some (e.drawFor r).1.tokens else none := by
  have hid := hfiled id r hr
  by_cases hdecoding : r.isDecoding = true
  · have hmem : (⟨r.requestId, (e.drawFor r).1.tokens, r.ticket⟩ : DecoderEntry) ∈
        e.drawDecoders.2 := by
      apply List.mem_map_of_mem (f := fun r => DecoderEntry.mk r.requestId
        (e.drawFor r).1.tokens r.ticket)
      exact List.mem_filter.mpr ⟨SortedMap.mem_values.mpr ⟨id, hr⟩, hdecoding⟩
    have hawaited := awaited_of_mem hmem (nodup_drawDecoders hfiled)
    rw [if_pos hdecoding, ← hid]
    exact hawaited
  · rw [if_neg hdecoding]
    apply awaited_none
    intro hmem
    obtain ⟨d, hd, hdid⟩ := List.mem_map.mp hmem
    obtain ⟨r', hr', rfl⟩ := List.mem_map.mp hd
    obtain ⟨hvalue, hdecodes⟩ := List.mem_filter.mp hr'
    obtain ⟨id', hget⟩ := SortedMap.mem_values.mp hvalue
    have hsame : r' = r := by
      have hid' : r'.requestId = id := hdid
      rw [← hfiled id' r' hget, hid', hr] at hget
      exact (Option.some.inj hget).symm
    exact hdecoding (hsame ▸ hdecodes)

theorem composeStep_awaits {anchor : Instant} (hidle : e.currentStep = none) :
    (e.composeStep anchor).awaits = awaited e.drawDecoders.2 := by
  rw [awaits]
  cases hstep : (e.composeStep anchor).currentStep with
  | some step => exact congrArg awaited (composeStep_step hidle hstep).1
  | none =>
      simp only [composeStep] at hstep
      split at hstep
      · next hempty =>
          rw [Bool.and_eq_true] at hempty
          exact congrArg awaited (List.isEmpty_iff.mp hempty.1).symm
      · cases hstep

theorem composeStep_active {anchor : Instant} {id : String} {r' : ActiveRequest env}
    (h : (e.composeStep anchor).activeRequests.get? id = some r') :
    ∃ r, e.activeRequests.get? id = some r ∧
      r' = if r.isDecoding then (e.drawFor r).2 else r := by
  change e.drawDecoders.1.activeRequests.get? id = some r' at h
  simp only [drawDecoders, SortedMap.get?_mapValues] at h
  obtain ⟨r, hr, heq⟩ := Option.map_eq_some_iff.mp h
  exact ⟨r, hr, heq.symm⟩

end SimEngine

namespace Follows

variable {s : Settings env} {r₀ : ActiveRequest env} {k : ℕ} {e : SimEngine env}

theorem composeStep (h : Follows s r₀ k e.awaits e) (he : Sound e) (hunder : e.Under s)
    (hidle : e.currentStep = none) (anchor : Instant) :
    Follows s r₀ k (e.composeStep anchor).awaits (e.composeStep anchor) := by
  have hnone : e.awaits = fun _ => none := by
    rw [awaits, hidle]
    rfl
  rw [hnone] at h
  rw [composeStep_awaits hidle]
  have hdistinct := he.distinctTickets
  by_cases hactive : ∃ id r, e.activeRequests.get? id = some r ∧ r.ticket = k
  · obtain ⟨id, r, hr, hk⟩ := hactive
    -- Only the request of the ticket is at stake.
    have hunique : ∀ id' r', (e.composeStep anchor).activeRequests.get? id' = some r' →
        r'.ticket = k → id' = id ∧ r' = if r.isDecoding then (e.drawFor r).2 else r := by
      intro id' r' hr' hticket'
      obtain ⟨r₁, hr₁, rfl⟩ := composeStep_active hr'
      have hticket₁ : r₁.ticket = k := by
        rw [← hticket']
        split
        · exact (drawStep_stands e.latency e.numRunning r₁).2.1.symm
        · rfl
      have hid := hdistinct id' id r₁ r hr₁ hr (hticket₁.trans hk.symm)
      subst hid
      rw [hr, Option.some.injEq] at hr₁
      exact ⟨rfl, by rw [hr₁]⟩
    have hawaited := awaited_drawDecoders he.active hr
    by_cases hdecoding : r.isDecoding = true
    · rw [if_pos hdecoding] at hawaited
      simp only [if_pos hdecoding] at hunique
      apply h.step hr hk
      · intro chunks
        rw [List.append_nil]
        exact Life.Step.draws e hunder hdecoding
      · exact (List.append_nil _).symm
      · intro id' r' hr' hticket'
        obtain ⟨rfl, hr'⟩ := hunique id' r' hr' hticket'
        exact ⟨hr', hawaited⟩
    · rw [if_neg hdecoding] at hawaited
      simp only [if_neg hdecoding] at hunique
      apply h.kept
      · rfl
      · intro id' r' hr' hticket'
        obtain ⟨rfl, rfl⟩ := hunique id' r' hr' hticket'
        exact ⟨hr, hawaited⟩
  · apply h.kept
    · rfl
    · intro id' r' hr' hticket'
      obtain ⟨r, hr, hticket, _⟩ := composeStep_stands anchor e id' r' hr'
      exact absurd ⟨id', r, hr, hticket.symm.trans hticket'⟩ hactive

theorem flush (h : Follows s r₀ k e.awaits e) (he : Sound e) (now : Instant) :
    Follows s r₀ k (e.flush now).1.awaits (e.flush now).1 := by
  have hflushed := e.flush_flushed now
  have hawaits : (e.flush now).1.awaits = e.awaits := by
    rw [awaits, hflushed.currentStep, awaits]
  have hchunks : (e.flush now).1.chunksOf k = e.chunksOf k := by
    rw [chunksOf, hflushed.journal, chunksOf]
  rw [hawaits]
  by_cases hactive : ∃ id r, e.activeRequests.get? id = some r ∧ r.ticket = k
  · obtain ⟨id, r, hr, hk⟩ := hactive
    have hshows : ∀ chunks, Life.Step s ⟨r, chunks, e.awaits id⟩
        ⟨(r.emitDue e.tokenSource now).1, chunks ++ [], e.awaits id⟩ := by
      intro chunks
      rw [List.append_nil, ActiveRequest.emitDue, ActiveRequest.emitQueue_request]
      exact Life.Step.shows _ _ _
    apply h.step hr hk hshows
    · rw [hchunks, List.append_nil]
    · intro id' r' hr' hticket'
      obtain ⟨r₁, hr₁, _, heq⟩ := e.flush_get? he.active now hr'
      have hticket₁ : r₁.ticket = r.ticket := by
        rw [hk, ← hticket', ← heq, ActiveRequest.emitDue, ActiveRequest.emitQueue_request]
      have hid := he.distinctTickets id' id r₁ r hr₁ hr hticket₁
      subst hid
      rw [hr, Option.some.injEq] at hr₁
      subst hr₁
      exact ⟨heq.symm, rfl⟩
  · apply h.kept hchunks
    intro id' r' hr' hticket'
    obtain ⟨r₁, hr₁, _, heq⟩ := e.flush_get? he.active now hr'
    rw [ActiveRequest.emitDue, ActiveRequest.emitQueue_request] at heq
    exact absurd ⟨id', r₁, hr₁, by rw [← hticket', ← heq]⟩ hactive

end Follows

/-! ## Engines that stay in a class -/

theorem SimEngine.Under.congr {s : Settings env} {e e' : SimEngine env} (h : e.Under s)
    (hindex : e'.engineIndex = e.engineIndex) (hopt : e'.opt = e.opt)
    (hlatency : e'.latency = e.latency) (hsource : e'.tokenSource = e.tokenSource) :
    e'.Under s := by
  rwa [Under, hindex, hopt, hlatency, hsource]

theorem SimEngine.Under.retire {s : Settings env} {e : SimEngine env} (h : e.Under s)
    (id : String) : (e.retire id).Under s := by
  unfold SimEngine.retire
  split
  · exact h
  · exact s.finishes _ _ _ _ _ h

theorem SimEngine.Under.activate {s : Settings env} {e : SimEngine env} (h : e.Under s)
    (now : Instant) (id : String) (r : ActiveRequest env) : (e.activate now id r).Under s :=
  s.adds _ _ _ _ _ _ h

/-- Only a patch takes an engine out of its class. -/
theorem Move.under {s : Settings env} {e e' : SimEngine env} {effect : Effect}
    (h : Move now e effect e') (hpatch : ∀ patch, effect ≠ .configured patch) (he : e.Under s) :
    e'.Under s := by
  cases h with
  | arrivalFailed | arrivalRejected | enqueued | adaptersChanged | specCleared | statsReset
  | orphaned | drained | pullRefused | parked | refused =>
      apply he.congr <;> simp [SimEngine.schedulerStats]
  | configured patch => exact absurd rfl (hpatch patch)
  | cacheReset =>
      unfold SimEngine.resetPrefixCache
      split
      · exact he.congr rfl rfl rfl rfl
      · exact he
  | @admitted i queued hadm active hbuild =>
      apply SimEngine.Under.activate
      apply he.congr <;> simp
  | @promoted task htask pending hpending active hbuild =>
      have hready : ((e.receivePull task).unpark now task.requestId).Under s := by
        apply he.congr <;> simp
      exact (hready.activate now task.requestId active).congr rfl rfl rfl rfl
  | @withdrawn id e₁ client ticket hwithdraw =>
      rcases SimEngine.withdraw_some hwithdraw with ⟨r, _, _, _, rfl⟩ | ⟨p, _, _, _, rfl⟩ |
        ⟨i, q, _, _, _, _, rfl⟩
      · exact (he.retire id).congr rfl rfl rfl rfl
      · exact he.congr rfl rfl rfl rfl
      · exact he.congr rfl rfl rfl rfl
  | composed anchor => exact he.congr rfl rfl rfl rfl
  | @executed step =>
      have htaken : Midway s e.takeStep e.takeStep := ⟨.refl _, he⟩
      have hdone : Midway s e.takeStep (e.takeStep.executeStep step) := by
        apply executeStep_preserves (I := Midway s e.takeStep)
        · exact ⟨e.takeStep.log_progress _, he⟩
        · intro e' spec h
          have hp := h.progress
          exact ⟨⟨hp.active, hp.pool, hp.pendingPulls, hp.waiting, hp.loras, hp.opt, hp.stats,
            hp.pullTasks, hp.nextTicket, hp.stepSource⟩, h.under⟩
        · exact fun e' d _ h => h.completeDecoder _ d
        · exact fun numRunning e' c _ h => h.completeChunk _ _ c
      exact hdone.under
  | flushed =>
      apply flush_preserves (I := Under s)
      · exact he.congr rfl rfl rfl rfl
      · exact fun e' id h => h.retire id

/-! ## Moves -/

theorem Move.intruded_back {e e' : SimEngine env} {effect : Effect} (h : Move now e effect e')
    (he : Sound e) {k : ℕ} (hk : e'.intruded k = false) : e.intruded k = false := by
  cases h.batch he with
  | still _ _ _ _ hjournal hquiet => rwa [intruded_append k hjournal hquiet] at hk
  | entered _ _ _ _ _ _ _ hjournal hquiet =>
      rw [Bool.eq_false_iff] at hk ⊢
      exact fun hold => hk ((intruded_entered k hjournal hquiet).mpr (Or.inl hold))
  | withdrew _ _ _ _ hjournal => rwa [intruded, hjournal] at hk
  | composed => exact hk
  | executed => rwa [executeStep_intruded] at hk
  | flushed => rwa [intruded, (e.flush_flushed now).journal] at hk

/-- No id is drawn for twice in the in-flight step. -/
def SimEngine.DrawsOnce (e : SimEngine env) : Prop :=
  ∀ step, e.currentStep = some step → (step.decoders.map DecoderEntry.requestId).Nodup

theorem Move.drawsOnce {e e' : SimEngine env} {effect : Effect} (h : Move now e effect e')
    (he : Sound e) (hd : e.DrawsOnce) : e'.DrawsOnce := by
  intro step hstep
  cases h.batch he with
  | still _ _ hkept => exact hd step (hkept ▸ hstep)
  | entered _ _ _ _ _ hkept => exact hd step (hkept ▸ hstep)
  | withdrew _ _ hkept => exact hd step (hkept ▸ hstep)
  | composed anchor hidle =>
      rw [(composeStep_step hidle hstep).1]
      exact nodup_drawDecoders he.active
  | executed =>
      rw [executeStep_currentStep] at hstep
      cases hstep
  | flushed => exact hd step ((e.flush_flushed now).currentStep ▸ hstep)

/-- A move goes on with the life of an admitted ticket. -/
theorem Move.follows {s : Settings env} {r₀ : ActiveRequest env} {k : ℕ} {e e' : SimEngine env}
    {effect : Effect} (h : Move now e effect e') (he : Sound e) (hen : Enrolled e)
    (hunder : e.Under s) (hd : e.DrawsOnce) (hk : k ∈ e.admissions)
    (hf : Follows s r₀ k e.awaits e) : Follows s r₀ k e'.awaits e' := by
  have hawaits : e'.currentStep = e.currentStep → e'.awaits = e.awaits := by
    intro hstep
    rw [awaits, hstep, awaits]
  cases h.batch he with
  | still _ hactive hstep _ hjournal hquiet =>
      rw [hawaits hstep]
      exact hf.kept (chunksOf_quiet hjournal hquiet k) (fun id r hr _ => ⟨hactive ▸ hr, rfl⟩)
  | @entered _ _ id r _ _ _ _ _ hqueued hactive hstep _ hjournal hquiet =>
      rw [hawaits hstep]
      apply hf.kept (chunksOf_entered hjournal hquiet k)
      intro id' r' hr' hticket'
      rw [hactive, SortedMap.get?_insert] at hr'
      split at hr'
      · cases hr'
        exact absurd hqueued (hen.queued _ (hticket' ▸ hk))
      · exact ⟨hr', rfl⟩
  | withdrew _ hactive hstep _ hjournal =>
      rw [hawaits hstep]
      apply hf.kept
      · rw [chunksOf, hjournal, chunksOf]
      · intro id' r' hr' _
        rw [hactive, SortedMap.get?_erase] at hr'
        split at hr'
        · cases hr'
        · exact ⟨hr', rfl⟩
  | composed anchor hidle => exact hf.composeStep he hunder hidle anchor
  | @executed step hstep =>
      have hnone : (e.takeStep.executeStep step).awaits = fun _ => none := by
        rw [awaits, executeStep_currentStep]
        rfl
      have htaken : Follows s r₀ k (awaited step.decoders) e.takeStep := by
        rw [awaits, hstep] at hf
        exact hf
      rw [hnone]
      exact htaken.executeStep he.distinctTickets hunder (hd step hstep)
  | flushed => exact hf.flush he now

/-- Whether the request's prompt was prefilled elsewhere. -/
def EngineCoreRequest.prefilledRemotely (request : EngineCoreRequest) : Bool :=
  request.extractKvParams.any (fun kv => kvFlag kv "do_remote_prefill")

/-- How the request of ticket `k` may enter the batch under an engine of the class. -/
def Entered (s : Settings env) (requests : List EngineCoreRequest)
    (handed : List (ℕ × Option ScriptedDecode)) (k : ℕ) (r₀ : ActiveRequest env) : Prop :=
  ∃ (e : SimEngine env) (now : Instant) (request : EngineCoreRequest) (admission : AdmissionCtx)
    (active : ActiveRequest env) (schedule : Option ScriptedDecode),
    e.Under s ∧ requests[k]? = some request ∧ (k, schedule) ∈ handed ∧
      ActiveRequest.new e.engineIndex now request k e.opt e.latency admission = .ok active ∧
      r₀ = active.pinned (e.tokenSource.onRequestAdded request.requestId request.prompt).2 schedule

theorem Entered.mono {s : Settings env} {requests more : List EngineCoreRequest}
    {handed handed' : List (ℕ × Option ScriptedDecode)} {k : ℕ} {r₀ : ActiveRequest env}
    (h : Entered s requests handed k r₀) (hhanded : handed ⊆ handed') :
    Entered s (requests ++ more) handed' k r₀ := by
  obtain ⟨e, now, request, admission, active, schedule, hunder, hrequest, hmem, hbuild, rfl⟩ := h
  refine ⟨e, now, request, admission, active, schedule, hunder, ?_, hhanded hmem, hbuild, rfl⟩
  rw [List.getElem?_append_left (List.getElem?_eq_some_iff.mp hrequest).1, hrequest]

/-- The requests in the batch live as the engines of the class let them. -/
structure Alive (s : Settings env) (source : Option StepSource)
    (requests : List EngineCoreRequest) (e : SimEngine env) : Prop where
  under : e.Under s
  draws : e.DrawsOnce
  lives : ∀ k ∈ e.admissions, e.intruded k = false → ∃ r₀,
    Entered s requests (handOut requests source e.admissions).2 k r₀ ∧ (k, r₀.maxTokens) ∈ e.caps ∧
      Follows s r₀ k e.awaits e

theorem Fresh.alive {s : Settings env} {e : SimEngine env} (h : Fresh e) (hunder : e.Under s) :
    Alive s e.stepSource [] e := by
  obtain ⟨engineIndex, opt, tokenSource, stepSource, hnew⟩ := h
  obtain ⟨latency, _, rfl⟩ := except_map_eq_ok hnew
  refine ⟨hunder, ?_, ?_⟩
  · intro step hstep
    cases hstep
  · intro k hk
    cases hk

theorem Move.alive {s : Settings env} {source : Option StepSource}
    {requests : List EngineCoreRequest} {e e' : SimEngine env} {effect : Effect}
    (h : Move now e effect e') (hst : Standing now e) (hi : Issued source requests e)
    (hunder : e'.Under s) (ha : Alive s source requests e) :
    Alive s source (requests ++ effect.issued) e' := by
  have he := hst.sound
  have hen := hst.enrolled
  have hcaps := h.caps he
  have hhanded : handOut (requests ++ effect.issued) source e.admissions =
      handOut requests source e.admissions :=
    handOut_append (fun k hk => hi.length ▸ hen.issued k hk) _
  refine ⟨hunder, h.drawsOnce he ha.draws, ?_⟩
  have hold : ∀ k ∈ e.admissions, e'.intruded k = false →
      (handOut requests source e.admissions).2 ⊆
        (handOut (requests ++ effect.issued) source e'.admissions).2 →
      ∃ r₀, Entered s (requests ++ effect.issued)
        (handOut (requests ++ effect.issued) source e'.admissions).2 k r₀ ∧
          (k, r₀.maxTokens) ∈ e'.caps ∧ Follows s r₀ k e'.awaits e' := by
    intro k hk hintruded hsub
    obtain ⟨r₀, hentered, hcap, hf⟩ := ha.lives k hk (h.intruded_back he hintruded)
    exact ⟨r₀, hentered.mono hsub, hcaps hcap, h.follows he hen ha.under ha.draws hk hf⟩
  rcases h.entry he with ⟨hkept, _⟩ | ⟨q, r, hentry⟩
  · intro k hk hintruded
    rw [hkept] at hk
    apply hold k hk hintruded
    rw [hkept, hhanded]
    exact fun _ hx => hx
  · have hrequest : (requests ++ effect.issued)[q.ticket]? = some q.request := by
      have hwas := hi.waits q hentry.waits
      rw [List.getElem?_append_left (List.getElem?_eq_some_iff.mp hwas).1, hwas]
    have hnext : handOut (requests ++ effect.issued) source (e.admissions ++ [q.ticket]) = _ :=
      handOut_snoc hrequest
    rw [hhanded, ← hi.source, ← hentry.admissions] at hnext
    intro k hk hintruded
    by_cases hwas : k ∈ e.admissions
    · apply hold k hwas hintruded
      rw [hnext]
      exact List.subset_append_left _ _
    · have hnew : k = q.ticket := by
        rw [hentry.admissions, List.mem_append, List.mem_singleton] at hk
        exact hk.resolve_left hwas
      subst hnew
      obtain ⟨pre, post, hquiet, hjournal⟩ := hentry.journal
      obtain ⟨admission, active, hbuild, heq⟩ := hentry.built
      refine ⟨r, ⟨e, now, q.request, admission, active, _, ha.under, hrequest, ?_, hbuild, heq⟩,
        ?_, ⟨r, [], none⟩, Relation.ReflTransGen.refl, ?_, ?_⟩
      · rw [hnext]
        exact List.mem_append_right _ (List.mem_singleton_self _)
      · rw [SimEngine.caps, hjournal, List.filterMap_append, List.filterMap_cons, ← hentry.ticket]
        exact List.mem_append_right _ List.mem_cons_self
      · rw [chunksOf_entered hjournal hquiet]
        by_contra hne
        exact hwas (hst.timed.ordered.admitted _ (fun hnil => hne hnil.symm))
      · intro id r' hr' hticket
        rw [hentry.active, SortedMap.get?_insert] at hr'
        split at hr'
        · next hid =>
            cases hr'
            refine ⟨rfl, ?_⟩
            have hunlisted : ¬ e.currentStep.any (EngineStep.lists · q.request.requestId) =
                true := by
              intro hlisted
              have hin := (intruded_entered q.ticket hjournal hquiet).mpr
                (Or.inr ⟨hentry.ticket.symm, hlisted⟩)
              rw [hintruded] at hin
              cases hin
            rw [awaits, hentry.currentStep]
            symm
            apply awaited_none
            cases hstep : e.currentStep with
            | none => simp
            | some step =>
                rw [hstep] at hunlisted
                intro hmem
                apply hunlisted
                obtain ⟨d, hd, hdid⟩ := List.mem_map.mp hmem
                rw [Option.any_some, EngineStep.lists, Bool.or_eq_true, List.any_eq_true]
                exact Or.inl ⟨d, hd, by simpa using hdid.trans hid⟩
        · exact absurd (hticket ▸ hen.active id r' hr') hwas

/-! ## Runs -/

/-- In a run whose moves stay in a class of engines, the requests admitted live as it lets them. -/
theorem Run.alive {s : Settings env} {Q : Effect → Prop} {e₀ e : SimEngine env}
    {turns : List (Turn env)} {clock : Instant} (hrun : Run e₀ turns e clock) (hfresh : Fresh e₀)
    (hunder : e₀.Under s) (hops : ∀ t ∈ turns, ∀ effect, t.op.Allows effect → Q effect)
    (hmove : ∀ now e effect e', Q effect → e.Under s → Move now e effect e' → e'.Under s) :
    Standing clock e ∧ Issued e₀.stepSource (VllmVcr.issued turns) e ∧
      Alive s e₀.stepSource (VllmVcr.issued turns) e := by
  apply hrun.issuing (P := fun requests e now => Standing now e ∧
    Issued e₀.stepSource requests e ∧ Alive s e₀.stepSource requests e) hops
  · exact ⟨hfresh.standing, hfresh.issued, hfresh.alive hunder⟩
  · exact fun requests e now later hle h => ⟨h.1.later hle, h.2⟩
  · intro requests now e effect e' hq ⟨hst, hi, ha⟩ hone
    exact ⟨hone.standing hst, hone.issued hst.sound hst.enrolled hi,
      hone.alive hst hi (hmove _ _ _ _ hq ha.under hone) ha⟩

end VllmVcr
