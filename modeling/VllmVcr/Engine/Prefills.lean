import VllmVcr.Engine.Batch
import VllmVcr.Engine.StepClock

/-!
# Prefill before tokens

A step is frozen by request id. As long as no due step finds a request that entered the
batch while the step was in flight under one of its ids, every entry acts on the request
it was composed for, and a request generates only after chunks composed for it have
covered its uncached prompt.
-/

namespace VllmVcr

variable {env : Env} {now : Instant}

/-- The prompt tokens that a ticket's chunks took. -/
def chunkedFor (ticket : ℕ) (journal : List Event) : ℕ :=
  (journal.map fun
    | .chunked _ t take => if t = ticket then take else 0
    | _ => 0).sum

/-- What an event may do after the events `before`: an entry acts on the request it was composed
for, a decoder's on a decoding one, and the chunks before a generation cover the prompt. -/
def Event.Justified (before : List Event) : Event → Prop
  | .chunked entry ticket _ => entry = ticket
  | .generated g => g.entry = g.ticket ∧ (g.byDecoder = true → g.phase = .decode) ∧
      ∃ uncached maxTokens listed, .admitted g.ticket uncached maxTokens listed ∈ before ∧
        uncached ≤ chunkedFor g.ticket before
  | _ => True

/-- Every event is justified by those before it. -/
def PrefillFirst (journal : List Event) : Prop :=
  ∀ i (ev : Event), journal[i]? = some ev → ev.Justified (journal.take i)

theorem chunkedFor_append (ticket : ℕ) (journal evs : List Event) :
    chunkedFor ticket (journal ++ evs) = chunkedFor ticket journal + chunkedFor ticket evs := by
  simp [chunkedFor]

theorem PrefillFirst.snoc {journal : List Event} {ev : Event} (h : PrefillFirst journal)
    (hev : ev.Justified journal) : PrefillFirst (journal ++ [ev]) := by
  intro i ev' hi
  by_cases hlt : i < journal.length
  · rw [List.getElem?_append_left hlt] at hi
    rw [List.take_append_of_le_length hlt.le]
    exact h i ev' hi
  · obtain ⟨hbound, heq⟩ := List.getElem?_eq_some_iff.mp hi
    rw [List.length_append, List.length_singleton] at hbound
    have hlast : i = journal.length := by omega
    subst hlast
    rw [List.getElem_append_right le_rfl] at heq
    simp only [Nat.sub_self, List.getElem_cons_zero] at heq
    rw [List.take_append_of_le_length le_rfl, List.take_length, ← heq]
    exact hev

/-- Events that generate and chunk nothing need no justification. -/
def Event.IsFree : Event → Prop
  | .chunked .. | .generated _ => False
  | _ => True

theorem PrefillFirst.free {journal evs : List Event} (h : PrefillFirst journal)
    (hfree : ∀ ev ∈ evs, ev.IsFree) : PrefillFirst (journal ++ evs) := by
  induction evs generalizing journal with
  | nil => rwa [List.append_nil]
  | cons ev evs ih =>
      rw [← List.singleton_append, ← List.append_assoc]
      apply ih
      · apply h.snoc
        have hev := hfree ev List.mem_cons_self
        cases ev with
        | chunked => cases hev
        | generated => cases hev
        | _ => trivial
      · exact fun ev' hev' => hfree ev' (List.mem_cons_of_mem _ hev')

theorem Event.IsQuiet.isFree {ev : Event} (h : ev.IsQuiet) : ev.IsFree := by
  cases ev with
  | admitted => cases h
  | chunked => cases h
  | generated => cases h
  | _ => trivial

/-- The ticket of an admission whose id the in-flight step listed. -/
def Event.intruder : Event → Option ℕ
  | .admitted ticket _ _ true => some ticket
  | _ => none

theorem Event.intruder_admission {ev : Event} {ticket : ℕ} (h : ev.intruder = some ticket) :
    ev.admission = some ticket := by
  cases ev with
  | admitted t uncached maxTokens listed =>
      cases listed with
      | false => cases h
      | true => exact h
  | _ => cases h

theorem Event.IsQuiet.intruder {ev : Event} (h : ev.IsQuiet) : ev.intruder = none := by
  cases ev with
  | admitted => cases h
  | _ => rfl

namespace SimEngine

/-- Whether the ticket entered the batch while the in-flight step listed its id. -/
def intruded (e : SimEngine env) (ticket : ℕ) : Bool :=
  ticket ∈ e.journal.filterMap Event.intruder

theorem intruded_admitted {e : SimEngine env} {ticket : ℕ} (h : e.intruded ticket = true) :
    ticket ∈ e.admissions := by
  obtain ⟨ev, hev, hticket⟩ := List.mem_filterMap.mp (of_decide_eq_true h)
  exact List.mem_filterMap.mpr ⟨ev, hev, ev.intruder_admission hticket⟩

theorem intruded_append {e e' : SimEngine env} {evs : List Event} (ticket : ℕ)
    (hjournal : e'.journal = e.journal ++ evs) (hquiet : ∀ ev ∈ evs, ev.IsQuiet) :
    e'.intruded ticket = e.intruded ticket := by
  rw [intruded, hjournal, List.filterMap_append, filterMap_quiet (fun _ => Event.IsQuiet.intruder)
    hquiet, List.append_nil, intruded]

/-- An entering request is an intruder exactly when the in-flight step lists its id. -/
theorem intruded_entered {e e' : SimEngine env} {id : String} {r : ActiveRequest env}
    {pre post : List Event} (ticket : ℕ)
    (hjournal : e'.journal = (e.journal ++ pre) ++ .admitted r.ticket r.uncached r.maxTokens
      (e.currentStep.any (EngineStep.lists · id)) :: post)
    (hquiet : ∀ ev ∈ pre ++ post, ev.IsQuiet) :
    e'.intruded ticket = true ↔ e.intruded ticket = true ∨
      ticket = r.ticket ∧ e.currentStep.any (EngineStep.lists · id) = true := by
  have hpre := filterMap_quiet (fun _ => Event.IsQuiet.intruder)
    (fun ev hev => hquiet ev (List.mem_append_left post hev))
  have hpost := filterMap_quiet (fun _ => Event.IsQuiet.intruder)
    (fun ev hev => hquiet ev (List.mem_append_right pre hev))
  rw [intruded, intruded, hjournal, List.filterMap_append, List.filterMap_append, hpre,
    List.append_nil, List.filterMap_cons, hpost]
  cases e.currentStep.any (EngineStep.lists · id) with
  | false => simp [Event.intruder]
  | true => simp [Event.intruder]

/-- The chunks of every active request, and what it has left to prefill, cover its prompt. -/
def Covered (e : SimEngine env) : Prop :=
  ∀ id r, e.activeRequests.get? id = some r →
    ∃ uncached maxTokens listed, .admitted r.ticket uncached maxTokens listed ∈ e.journal ∧
      uncached ≤ chunkedFor r.ticket e.journal + r.uncached

/-- Every request left in the batch stands where it stood. -/
def Stands (e e' : SimEngine env) : Prop :=
  ∀ id r', e'.activeRequests.get? id = some r' →
    ∃ r, e.activeRequests.get? id = some r ∧ r'.ticket = r.ticket ∧ r'.phase = r.phase

theorem Covered.stands {e e' : SimEngine env} {evs : List Event} (h : e.Covered)
    (hstands : e.Stands e') (hjournal : e'.journal = e.journal ++ evs) : e'.Covered := by
  intro id r' hr'
  obtain ⟨r, hr, hticket, hphase⟩ := hstands id r' hr'
  obtain ⟨uncached, maxTokens, listed, hadmitted, hle⟩ := h id r hr
  refine ⟨uncached, maxTokens, listed, ?_, ?_⟩
  · rw [hjournal, hticket]
    exact List.mem_append_left _ hadmitted
  · have huncached : r'.uncached = r.uncached := by
      rw [ActiveRequest.uncached, hphase, ActiveRequest.uncached]
    rw [hjournal, chunkedFor_append, hticket, huncached]
    omega

/-! ## Composing -/

theorem drawStep_stands (latency : LatencyModel env.Rng) (numRunning : ℕ) (r : ActiveRequest env) :
    (r.drawStep latency numRunning).2.requestId = r.requestId ∧
      (r.drawStep latency numRunning).2.ticket = r.ticket ∧
      (r.drawStep latency numRunning).2.phase = r.phase := by
  unfold ActiveRequest.drawStep
  split
  · exact ⟨rfl, rfl, rfl⟩
  · exact ⟨rfl, rfl, rfl⟩

theorem composeStep_stands (anchor : Instant) (e : SimEngine env) :
    e.Stands (e.composeStep anchor) := by
  intro id r' hr'
  have hget : (e.drawDecoders.1.activeRequests).get? id = some r' := hr'
  simp only [drawDecoders, SortedMap.get?_mapValues] at hget
  obtain ⟨r, hr, heq⟩ := Option.map_eq_some_iff.mp hget
  refine ⟨r, hr, ?_⟩
  split at heq
  · subst heq
    exact (drawStep_stands _ _ r).2
  · subst heq
    exact ⟨rfl, rfl⟩

/-- A planned chunk takes some of what its prefilling request has left. -/
theorem mem_planChunks {active : SortedMap String (ActiveRequest env)} {threshold : ℕ}
    {cost : ℕ → ℕ → Duration} {order : List String} {left : ℕ} {c : ChunkEntry}
    (h : c ∈ (planChunks active threshold cost order left).1) :
    ∃ r remaining, active.get? c.requestId = some r ∧ r.phase = .prefill remaining ∧
      c.ticket = r.ticket ∧ c.take ≤ remaining ∧ (0 < threshold → c.take ≤ threshold) ∧
      (0 < remaining → 0 < c.take) := by
  induction order generalizing left with
  | nil => cases h
  | cons id rest ih =>
      unfold planChunks at h
      split at h
      · cases h
      · next hleft =>
          split at h
          · exact ih h
          · next r hr =>
              split at h
              · exact ih h
              · next remaining hphase =>
                  rcases List.mem_cons.mp h with rfl | hrest
                  · refine ⟨r, remaining, hr, hphase, rfl, ?_⟩
                    by_cases hthreshold : 0 < threshold
                    · simp only [hthreshold, if_true]
                      omega
                    · simp only [hthreshold, if_false, false_implies, true_and]
                      omega
                  · exact ih hrest

/-- Where the composed step came from. -/
theorem composeStep_step {anchor : Instant} {e : SimEngine env} {step : EngineStep}
    (hidle : e.currentStep = none) (h : (e.composeStep anchor).currentStep = some step) :
    step.decoders = e.drawDecoders.2 ∧
      step.chunks = (e.drawDecoders.1.prunePrefills.chunkPlan e.drawDecoders.2).1 := by
  simp only [composeStep] at h
  split at h
  · exact absurd (h.symm.trans hidle) (by simp)
  · cases h
    exact ⟨rfl, rfl⟩

theorem flush_stands {e : SimEngine env} (hfiled : e.ActiveFiled) (now : Instant) :
    e.Stands (e.flush now).1 := by
  intro id r' hr'
  obtain ⟨r, hr, _, heq⟩ := e.flush_get? hfiled now hr'
  rw [ActiveRequest.emitDue, ActiveRequest.emitQueue_request] at heq
  exact ⟨r, hr, by rw [← heq], by rw [← heq]⟩

theorem stands_of_erase {e e' : SimEngine env} {id : String}
    (hactive : e'.activeRequests = e.activeRequests.erase id) : e.Stands e' := by
  intro id' r' hr'
  rw [hactive, SortedMap.get?_erase] at hr'
  split at hr'
  · cases hr'
  · exact ⟨r', hr', rfl, rfl⟩

/-! ## Executing -/

theorem executeStep_intruded (step : EngineStep) (e : SimEngine env) (ticket : ℕ) :
    (e.executeStep step).intruded ticket = e.intruded ticket := by
  rw [intruded, intruded, executeStep_journal Event.intruder step e rfl (fun _ _ _ => rfl)
    (fun _ => rfl)]

/-- Every entry of the step names the request it was composed for, a decoder's a decoding one. -/
structure Matched (step : EngineStep) (e : SimEngine env) : Prop where
  decoders : ∀ d ∈ step.decoders, ∀ r, e.activeRequests.get? d.requestId = some r →
    d.ticket = r.ticket ∧ r.phase = .decode
  chunks : ∀ c ∈ step.chunks, ∀ r, e.activeRequests.get? c.requestId = some r →
    c.ticket = r.ticket

theorem Matched.insert {step : EngineStep} {e e' : SimEngine env} {id : String}
    {r r' : ActiveRequest env} (h : Matched step e) (hr : e.activeRequests.get? id = some r)
    (hactive : e'.activeRequests = e.activeRequests.insert id r') (hticket : r'.ticket = r.ticket)
    (hphase : r.phase = .decode → r'.phase = .decode) : Matched step e' := by
  constructor
  · intro d hd s hs
    rw [hactive, SortedMap.get?_insert] at hs
    split at hs
    · next heq =>
        cases hs
        obtain ⟨hentry, hdecode⟩ := h.decoders d hd r (heq ▸ hr)
        exact ⟨hentry.trans hticket.symm, hphase hdecode⟩
    · exact h.decoders d hd s hs
  · intro c hc s hs
    rw [hactive, SortedMap.get?_insert] at hs
    split at hs
    · next heq =>
        cases hs
        exact (h.chunks c hc r (heq ▸ hr)).trans hticket.symm
    · exact h.chunks c hc s hs

/-- The state between two entries of a step. -/
structure Executing (step : EngineStep) (e : SimEngine env) : Prop where
  matched : Matched step e
  covered : e.Covered
  justified : PrefillFirst e.journal

theorem Covered.insert {e e' : SimEngine env} {id : String} {r r' : ActiveRequest env}
    {evs : List Event} (h : e.Covered) (hr : e.activeRequests.get? id = some r)
    (hactive : e'.activeRequests = e.activeRequests.insert id r') (hticket : r'.ticket = r.ticket)
    (hjournal : e'.journal = e.journal ++ evs)
    (hdrained : r.uncached ≤ chunkedFor r.ticket evs + r'.uncached) : e'.Covered := by
  intro id' s hs
  rw [hactive, SortedMap.get?_insert] at hs
  split at hs
  · cases hs
    obtain ⟨uncached, maxTokens, listed, hadmitted, hle⟩ := h id r hr
    refine ⟨uncached, maxTokens, listed, ?_, ?_⟩
    · rw [hjournal, hticket]
      exact List.mem_append_left _ hadmitted
    · rw [hjournal, chunkedFor_append, hticket]
      omega
  · obtain ⟨uncached, maxTokens, listed, hadmitted, hle⟩ := h id' s hs
    refine ⟨uncached, maxTokens, listed, ?_, ?_⟩
    · rw [hjournal]
      exact List.mem_append_left _ hadmitted
    · rw [hjournal, chunkedFor_append]
      omega

theorem generate_stands (r : ActiveRequest env) (source : TokenSource) (stepEnd : Instant)
    (outputTokenChunkSize : ℕ) (timeScale : ℚ≥0) (seq : ℕ) :
    (r.generate source stepEnd outputTokenChunkSize timeScale seq).1.ticket = r.ticket ∧
      (r.generate source stepEnd outputTokenChunkSize timeScale seq).1.phase = r.phase := by
  rcases r.generate_eq source stepEnd outputTokenChunkSize timeScale seq with
    ⟨_, h⟩ | ⟨rng, source', emit, _, _, _, _, h⟩
  · rw [h]
    exact ⟨rfl, rfl⟩
  · rw [h]
    exact ⟨rfl, rfl⟩

/-- The request at `id` generates, `evs` having covered what it had left to prefill. -/
theorem Executing.generates {step : EngineStep} {e e' : SimEngine env} {id : String}
    {r r' : ActiveRequest env} {evs : List Event} {g : Generation} (h : Executing step e)
    (hr : e.activeRequests.get? id = some r)
    (hactive : e'.activeRequests = e.activeRequests.insert id r') (hticket : r'.ticket = r.ticket)
    (hphase : r'.phase = .decode) (hjournal : e'.journal = (e.journal ++ evs) ++ [.generated g])
    (hevs : PrefillFirst (e.journal ++ evs)) (hdrained : r.uncached ≤ chunkedFor r.ticket evs)
    (hentry : g.entry = r.ticket) (hfound : g.ticket = r.ticket)
    (hdecoder : g.byDecoder = true → g.phase = .decode) : Executing step e' := by
  refine ⟨h.matched.insert hr hactive hticket (fun _ => hphase), ?_, ?_⟩
  · rw [List.append_assoc] at hjournal
    apply h.covered.insert hr hactive hticket hjournal
    rw [chunkedFor_append]
    omega
  · rw [hjournal]
    apply hevs.snoc
    obtain ⟨uncached, maxTokens, listed, hadmitted, hle⟩ := h.covered id r hr
    refine ⟨hentry.trans hfound.symm, hdecoder, uncached, maxTokens, listed, ?_, ?_⟩
    · rw [hfound]
      exact List.mem_append_left _ hadmitted
    · rw [hfound, chunkedFor_append]
      omega

theorem Executing.completeDecoder {step : EngineStep} {e : SimEngine env} {d : DecoderEntry}
    (h : Executing step e) (hd : d ∈ step.decoders) (stepEnd : Instant) :
    Executing step (completeDecoder stepEnd e d) := by
  unfold SimEngine.completeDecoder
  split
  · exact h
  · next r hr =>
      obtain ⟨hentry, hphase⟩ := h.matched.decoders d hd r hr
      have hstands := generate_stands r e.tokenSource stepEnd
        (if 1 < d.tokens then d.tokens else e.opt.outputTokenChunkSize) e.opt.effectiveTimeScale
        e.emitSeq
      have hfree : PrefillFirst (e.journal ++ []) := by
        rw [List.append_nil]
        exact h.justified
      have huncached : r.uncached = 0 := by rw [ActiveRequest.uncached, hphase]
      have hjournal : (e.generateFor stepEnd d.requestId d.ticket true
          (if 1 < d.tokens then d.tokens else e.opt.outputTokenChunkSize) r).journal =
            (e.journal ++ []) ++ [.generated ⟨d.ticket, r.ticket, true, r.phase,
              (r.generate e.tokenSource stepEnd
                (if 1 < d.tokens then d.tokens else e.opt.outputTokenChunkSize)
                e.opt.effectiveTimeScale e.emitSeq).2.2⟩] := by
        rw [List.append_nil]
        rfl
      apply h.generates hr rfl hstands.1 (hstands.2.trans hphase) hjournal hfree
      · rw [huncached]
        exact Nat.zero_le _
      · exact hentry
      · rfl
      · exact fun _ => hphase

theorem Executing.completeChunk {step : EngineStep} {e : SimEngine env} {c : ChunkEntry}
    (h : Executing step e) (hc : c ∈ step.chunks) (stepEnd : Instant) (numRunning : ℕ) :
    Executing step (completeChunk stepEnd numRunning e c) := by
  unfold SimEngine.completeChunk
  split
  · exact h
  · next r hr =>
      split
      · exact h
      · next remaining hphase =>
          have hentry := h.matched.chunks c hc r hr
          have hchunk : PrefillFirst (e.journal ++ [.chunked c.ticket r.ticket c.take]) :=
            h.justified.snoc hentry
          have huncached : r.uncached = remaining := by rw [ActiveRequest.uncached, hphase]
          have htake : chunkedFor r.ticket [.chunked c.ticket r.ticket c.take] = c.take := by
            simp [chunkedFor]
          simp only
          split
          · -- The chunk leaves prompt tokens for a later step.
            have hactive : (e.log (.chunked c.ticket r.ticket c.take)).activeRequests.insert
                c.requestId { r with phase := .prefill (remaining - c.take) } =
              e.activeRequests.insert c.requestId
                { r with phase := .prefill (remaining - c.take) } := rfl
            refine ⟨h.matched.insert hr hactive rfl ?_, h.covered.insert hr hactive rfl rfl ?_,
              hchunk⟩
            · intro hdecode
              rw [hdecode] at hphase
              cases hphase
            · rw [huncached, htake]
              change remaining ≤ c.take + (remaining - c.take)
              omega
          · -- The chunk computes the last prompt token, and the first output comes with it.
            refine h.generates hr rfl (generate_stands _ _ _ _ _ _).1
              (generate_stands _ _ _ _ _ _).2 rfl hchunk ?_ hentry rfl (by simp)
            rw [huncached, htake]
            omega

theorem Executing.executeStep {step : EngineStep} {e : SimEngine env}
    (h : Executing step e) : Executing step (e.executeStep step) := by
  apply executeStep_preserves (I := Executing step)
  · exact ⟨⟨h.matched.decoders, h.matched.chunks⟩,
      h.covered.stands (fun id r' hr' => ⟨r', hr', rfl, rfl⟩) rfl,
      h.justified.snoc trivial⟩
  · exact fun e' spec he' => ⟨⟨he'.matched.decoders, he'.matched.chunks⟩, he'.covered,
      he'.justified⟩
  · exact fun e' d hd he' => he'.completeDecoder hd _
  · exact fun numRunning e' c hc he' => he'.completeChunk hc _ numRunning

end SimEngine

open SimEngine

/-! ## The invariant -/

/-- An entry of the in-flight step names the request it was composed for, unless that request
entered the batch while the step listed its id. -/
structure Tracked (e : SimEngine env) : Prop where
  decoders : ∀ step, e.currentStep = some step → ∀ d ∈ step.decoders, ∀ r,
    e.activeRequests.get? d.requestId = some r →
      e.intruded r.ticket = true ∨ d.ticket = r.ticket ∧ r.phase = .decode
  chunks : ∀ step, e.currentStep = some step → ∀ c ∈ step.chunks, ∀ r,
    e.activeRequests.get? c.requestId = some r → e.intruded r.ticket = true ∨ c.ticket = r.ticket
  intruders : ∀ id r, e.activeRequests.get? id = some r → e.intruded r.ticket = true →
    ∃ step, e.currentStep = some step ∧ step.lists id = true
  covered : e.Covered
  justified : PrefillFirst e.journal

theorem Fresh.tracked {e : SimEngine env} (h : Fresh e) : Tracked e := by
  obtain ⟨engineIndex, opt, tokenSource, stepSource, hnew⟩ := h
  obtain ⟨latency, _, rfl⟩ := except_map_eq_ok hnew
  exact ⟨by simp, by simp, by simp, by simp [SimEngine.Covered], by simp [PrefillFirst]⟩

namespace Tracked

variable {e e' : SimEngine env}

/-- No request in an idle engine entered under a listed id. -/
theorem idle (h : Tracked e) (hidle : e.currentStep = none) {id : String} {r : ActiveRequest env}
    (hr : e.activeRequests.get? id = some r) : e.intruded r.ticket = false := by
  rw [← Bool.not_eq_true]
  intro hintruded
  obtain ⟨step, hstep, _⟩ := h.intruders id r hr hintruded
  rw [hidle] at hstep
  cases hstep

theorem stands {evs : List Event} (h : Tracked e) (hstands : e.Stands e')
    (hstep : e'.currentStep = e.currentStep) (hjournal : e'.journal = e.journal ++ evs)
    (hquiet : ∀ ev ∈ evs, ev.IsQuiet) : Tracked e' := by
  have hintruded : ∀ ticket, e'.intruded ticket = e.intruded ticket :=
    fun ticket => intruded_append ticket hjournal hquiet
  refine ⟨?_, ?_, ?_, h.covered.stands hstands hjournal,
    hjournal ▸ h.justified.free (fun ev hev => (hquiet ev hev).isFree)⟩
  · intro step hs d hd r' hr'
    obtain ⟨r, hr, hticket, hphase⟩ := hstands _ r' hr'
    rw [hintruded, hticket, hphase]
    exact h.decoders step (hstep ▸ hs) d hd r hr
  · intro step hs c hc r' hr'
    obtain ⟨r, hr, hticket, _⟩ := hstands _ r' hr'
    rw [hintruded, hticket]
    exact h.chunks step (hstep ▸ hs) c hc r hr
  · intro id r' hr' hin
    obtain ⟨r, hr, hticket, _⟩ := hstands id r' hr'
    rw [hintruded, hticket] at hin
    rw [hstep]
    exact h.intruders id r hr hin

/-- A composed step names the requests it was composed for. -/
theorem compose (h : Tracked e) (hfiled : e.ActiveFiled) (hidle : e.currentStep = none)
    (anchor : Instant) : Tracked (e.composeStep anchor) := by
  have hstands := composeStep_stands anchor e
  have hfree : ∀ id r', (e.composeStep anchor).activeRequests.get? id = some r' →
      (e.composeStep anchor).intruded r'.ticket = false := by
    intro id r' hr'
    obtain ⟨r, hr, hticket, _⟩ := hstands id r' hr'
    rw [hticket]
    exact h.idle hidle hr
  refine ⟨?_, ?_, ?_, h.covered.stands hstands (List.append_nil _).symm, h.justified⟩
  · intro step hs d hd r' hr'
    right
    obtain ⟨r, hr, hticket, hphase⟩ := hstands _ r' hr'
    rw [(composeStep_step hidle hs).1] at hd
    obtain ⟨s, hdecoding, rfl⟩ := List.mem_map.mp hd
    obtain ⟨hs, hdec⟩ := List.mem_filter.mp hdecoding
    obtain ⟨id, hget⟩ := SortedMap.mem_values.mp hs
    have hsame : s = r := by
      rw [← hfiled id s hget] at hget
      exact Option.some.inj (hget.symm.trans hr)
    subst hsame
    rw [ActiveRequest.isDecoding, Bool.and_eq_true, decide_eq_true_eq] at hdec
    exact ⟨hticket.symm, hphase.trans hdec.1⟩
  · intro step hs c hc r' hr'
    right
    obtain ⟨r, hr, hticket, _⟩ := hstands _ r' hr'
    rw [(composeStep_step hidle hs).2] at hc
    obtain ⟨s, remaining, hget, _, hentry, _⟩ := mem_planChunks hc
    have hsame : s = r' := Option.some.inj (hget.symm.trans hr')
    rw [hentry, hsame]
  · intro id r' hr' hin
    rw [hfree id r' hr'] at hin
    cases hin

/-- A due step's entries are those of the requests they were composed for, when none of the requests
it lists entered while it was in flight. -/
theorem executing {step : EngineStep} (h : Tracked e) (hstep : e.currentStep = some step)
    (hown : ∀ id r, e.activeRequests.get? id = some r → step.lists id = true →
      e.intruded r.ticket = false) : Executing step e.takeStep := by
  have hlisted : ∀ id, (∃ d ∈ step.decoders, d.requestId = id) ∨
      (∃ c ∈ step.chunks, c.requestId = id) → step.lists id = true := by
    intro id hentry
    rw [EngineStep.lists, Bool.or_eq_true, List.any_eq_true, List.any_eq_true]
    simpa using hentry
  refine ⟨⟨?_, ?_⟩, h.covered, h.justified⟩
  · intro d hd r hr
    rcases h.decoders step hstep d hd r hr with hintruded | hmatched
    · rw [hown _ r hr (hlisted _ (Or.inl ⟨d, hd, rfl⟩))] at hintruded
      cases hintruded
    · exact hmatched
  · intro c hc r hr
    rcases h.chunks step hstep c hc r hr with hintruded | hmatched
    · rw [hown _ r hr (hlisted _ (Or.inr ⟨c, hc, rfl⟩))] at hintruded
      cases hintruded
    · exact hmatched

/-- Executing a step whose listed requests did not enter while it was in flight. -/
theorem execute {step : EngineStep} (h : Tracked e) (hstep : e.currentStep = some step)
    (hown : ∀ id r, e.activeRequests.get? id = some r → step.lists id = true →
      e.intruded r.ticket = false) : Tracked (e.takeStep.executeStep step) := by
  have hdone := (h.executing hstep hown).executeStep
  have hidle : (e.takeStep.executeStep step).currentStep = none := executeStep_currentStep step _
  refine ⟨?_, ?_, ?_, hdone.covered, hdone.justified⟩
  · intro step' hs
    rw [hidle] at hs
    cases hs
  · intro step' hs
    rw [hidle] at hs
    cases hs
  · intro id r' hr' hin
    obtain ⟨r, hr, hprog⟩ := (e.takeStep.executeStep_progress step).active.right hr'
    have htake : e.takeStep.intruded r.ticket = e.intruded r.ticket := rfl
    rw [executeStep_intruded, hprog.ticket, htake] at hin
    obtain ⟨step', hs, hlists⟩ := h.intruders id r hr hin
    rw [hstep, Option.some.injEq] at hs
    subst hs
    rw [hown id r hr hlists] at hin
    cases hin

/-- A request entering the batch is no stranger to the in-flight step, or is marked. -/
theorem enter {id : String} {r : ActiveRequest env} {pre post : List Event} (h : Tracked e)
    (hen : Enrolled e) (hqueued : e.Queued r.ticket)
    (hactive : e'.activeRequests = e.activeRequests.insert id r)
    (hstep : e'.currentStep = e.currentStep)
    (hjournal : e'.journal = (e.journal ++ pre) ++ .admitted r.ticket r.uncached r.maxTokens
      (e.currentStep.any (EngineStep.lists · id)) :: post)
    (hquiet : ∀ ev ∈ pre ++ post, ev.IsQuiet) : Tracked e' := by
  have hfresh : ∀ ticket, e.intruded ticket = true ∨ ticket ∈ e.admissions →
      ticket ≠ r.ticket := by
    rintro ticket hold rfl
    exact hen.queued _ (hold.elim intruded_admitted (fun h => h)) hqueued
  have hintruded := fun ticket => intruded_entered ticket hjournal hquiet
  -- A request that was in the batch keeps its mark; the one at `id` has it if the step lists it.
  have hcases : ∀ id' r', e'.activeRequests.get? id' = some r' →
      (id' = id ∧ r' = r) ∨ e.activeRequests.get? id' = some r' ∧
        (e'.intruded r'.ticket = true ↔ e.intruded r'.ticket = true) := by
    intro id' r' hr'
    rw [hactive, SortedMap.get?_insert] at hr'
    split at hr'
    · next heq =>
        cases hr'
        exact Or.inl ⟨heq, rfl⟩
    · refine Or.inr ⟨hr', ?_⟩
      have hne := hfresh r'.ticket (Or.inr (hen.active id' r' hr'))
      rw [hintruded]
      simp [hne]
  have hmarked : ∀ step, e.currentStep = some step → step.lists id = true →
      e'.intruded r.ticket = true := by
    intro step hs hlists
    rw [hintruded, hs]
    exact Or.inr ⟨rfl, hlists⟩
  have hlists : ∀ step : EngineStep, (∃ d ∈ step.decoders, d.requestId = id) ∨
      (∃ c ∈ step.chunks, c.requestId = id) → step.lists id = true := by
    intro step hentry
    rw [EngineStep.lists, Bool.or_eq_true, List.any_eq_true, List.any_eq_true]
    simpa using hentry
  refine ⟨?_, ?_, ?_, ?_, ?_⟩
  · intro step hs d hd r' hr'
    rw [hstep] at hs
    rcases hcases _ r' hr' with ⟨heq, rfl⟩ | ⟨hold, hsame⟩
    · exact Or.inl (hmarked step hs (hlists step (Or.inl ⟨d, hd, heq⟩)))
    · exact (h.decoders step hs d hd r' hold).imp_left hsame.mpr
  · intro step hs c hc r' hr'
    rw [hstep] at hs
    rcases hcases _ r' hr' with ⟨heq, rfl⟩ | ⟨hold, hsame⟩
    · exact Or.inl (hmarked step hs (hlists step (Or.inr ⟨c, hc, heq⟩)))
    · exact (h.chunks step hs c hc r' hold).imp_left hsame.mpr
  · intro id' r' hr' hin
    rw [hstep]
    rcases hcases id' r' hr' with ⟨rfl, rfl⟩ | ⟨hold, hsame⟩
    · rcases (hintruded _).mp hin with hearlier | ⟨_, hany⟩
      · exact absurd rfl (hfresh _ (Or.inl hearlier))
      · exact (Option.any_eq_true _ _).mp hany
    · exact h.intruders id' r' hold (hsame.mp hin)
  · intro id' r' hr'
    rw [hjournal, List.append_assoc]
    rcases hcases id' r' hr' with ⟨_, rfl⟩ | ⟨hold, _⟩
    · exact ⟨_, _, _, List.mem_append_right _ (List.mem_append_right _ List.mem_cons_self),
        Nat.le_add_left _ _⟩
    · obtain ⟨uncached, maxTokens, listed, hadmitted, hle⟩ := h.covered id' r' hold
      refine ⟨uncached, maxTokens, listed, List.mem_append_left _ hadmitted, ?_⟩
      rw [chunkedFor_append]
      omega
  · rw [hjournal, List.append_assoc]
    apply h.justified.free
    intro ev hev
    rcases List.mem_append.mp hev with hpre | hpost
    · exact (hquiet ev (List.mem_append_left _ hpre)).isFree
    · rcases List.mem_cons.mp hpost with rfl | hpost
      · trivial
      · exact (hquiet ev (List.mem_append_right _ hpost)).isFree

end Tracked

theorem Move.tracked {e e' : SimEngine env} {effect : Effect} (h : Move now e effect e')
    (he : Sound e) (hen : Enrolled e) (ht : Tracked e)
    (hcompleted : ∀ step, effect ≠ .completed step) : Tracked e' := by
  cases h.batch he with
  | still _ hactive hstep _ hjournal hquiet =>
      exact ht.stands (fun id r' hr' => ⟨r', hactive ▸ hr', rfl, rfl⟩) hstep hjournal hquiet
  | entered _ _ _ hqueued hactive hstep _ hjournal hquiet =>
      exact ht.enter hen hqueued hactive hstep hjournal hquiet
  | withdrew hr hactive hstep _ hjournal =>
      have hsame : e'.journal = e.journal ++ [] := by rw [hjournal, List.append_nil]
      exact ht.stands (stands_of_erase hactive) hstep hsame (by simp)
  | composed anchor hidle => exact ht.compose he.active hidle anchor
  | @executed step => exact absurd rfl (hcompleted step)
  | flushed =>
      have hkept := e.flush_flushed now
      have hsame : (e.flush now).1.journal = e.journal ++ [] := by
        rw [hkept.journal, List.append_nil]
      exact ht.stands (flush_stands he.active now) hkept.currentStep hsame (by simp)

/-! ## Runs -/

/-- A step that is due finds no request that entered the batch under one of its ids while it was
in flight. -/
def Op.FindsOwn (now : Instant) (op : Op) (e : SimEngine env) : Prop :=
  match op with
  | .step => ∀ a ∈ e.activeRequests.entries,
      (e.dueStep now).any (EngineStep.lists · a.1) = true → e.intruded a.2.ticket = false
  | _ => True

instance (now : Instant) (op : Op) (e : SimEngine env) : Decidable (op.FindsOwn now e) := by
  unfold Op.FindsOwn
  split <;> infer_instance

/-- The invariants that the step clock rests on. -/
structure Clocked (e : SimEngine env) : Prop where
  sound : Sound e
  enrolled : Enrolled e
  tracked : Tracked e

theorem Move.clocked {e e' : SimEngine env} {effect : Effect} (h : Move now e effect e')
    (he : Clocked e) (hcompleted : ∀ step, effect ≠ .completed step) : Clocked e' :=
  ⟨h.sound he.sound, h.enrolled he.sound he.enrolled,
    h.tracked he.sound he.enrolled he.tracked hcompleted⟩

theorem Emits.clocked {P : Effect → Prop} {e e' : SimEngine env} {os : List EngineCoreOutput}
    (h : Emits P now e os e') (hallow : ∀ step, ¬ P (.completed step)) (he : Clocked e) :
    Clocked e' := by
  apply h.invariant he
  intro e effect e' hok he hmove
  apply hmove.clocked he
  rintro step rfl
  rcases hok with ⟨os, hos⟩ | hallowed
  · cases hos
  · exact hallow step hallowed

/-- Catching up, with entries that act on their own requests only. -/
theorem catchUp_clocked {fuel : ℕ} {e : SimEngine env} {res : SimEngine env × List EngineOutput}
    (h : catchUp now fuel e = some res) (he : Clocked e)
    (hown : ∀ step, e.dueStep now = some step → ∀ id r, e.activeRequests.get? id = some r →
      step.lists id = true → e.intruded r.ticket = false) : Clocked res.1 := by
  have hrule := catchUp_preserves (M := fun _ e => Clocked e) (I := fun e => Clocked e ∧
    ∀ step, e.dueStep now = some step → ∀ id r, e.activeRequests.get? id = some r →
      step.lists id = true → e.intruded r.ticket = false) h ⟨he, hown⟩ ?_ ?_ ?_
  · exact hrule.1.1
  · intro e step hmove hdue ⟨he, hown⟩
    exact ⟨hmove.sound he.sound, hmove.enrolled he.sound he.enrolled,
      he.tracked.execute (dueStep_some hdue).1 (hown step hdue)⟩
  · exact fun step e os e' hmove _ he => hmove.clocked he (by simp)
  · intro step e hmove hidle he
    refine ⟨hmove.clocked he (by simp), fun step' _ id r' hr' _ => ?_⟩
    obtain ⟨r, hr, hticket, _⟩ := composeStep_stands step.endsAt e id r' hr'
    rw [hticket]
    exact he.tracked.idle hidle hr

theorem perform_clocked {fuel : ℕ} {op : Op} {e e' : SimEngine env} {outs : List EngineOutput}
    (h : e.perform fuel now op = some (e', outs)) (hown : op.FindsOwn now e) (he : Clocked e) :
    Clocked e' := by
  by_cases hstep : op = .step
  · subst hstep
    obtain ⟨caughtUp, hcatch, hrest⟩ := Option.map_eq_some_iff.mp h
    have hcleared : Move now e _ e.clearSpec := Move.specCleared e
    have hspec : Clocked e.clearSpec := hcleared.clocked he (by simp)
    have hcaught : Clocked caughtUp.1 := by
      apply catchUp_clocked hcatch hspec
      intro step hdue id r hr hlists
      have hsame : e.dueStep now = some step := hdue
      apply hown (id, r) (SortedMap.mem_entries.mpr hr)
      rw [hsame]
      exact hlists
    obtain ⟨os, hemits⟩ := emitAndRefill_emits hrest
    exact hemits.clocked (by simp) hcaught
  · obtain ⟨os, hemits, _⟩ := perform_emits h
    exact hemits.clocked (fun _ => hstep) he

/-- In a run whose due steps find their own requests, every entry of a step acts on the request
it was composed for, and tokens come after the chunks that cover the uncached prompt. -/
theorem prefill_before_tokens {e₀ e : SimEngine env} {turns : List (Turn env)} {clock : Instant}
    (hfresh : Fresh e₀) (hrun : Run e₀ turns e clock)
    (hturns : ∀ t ∈ turns, t.op.FindsOwn t.now t.before) : PrefillFirst e.journal := by
  have hclocked : (∀ t ∈ turns, t.op.FindsOwn t.now t.before) → Clocked e := by
    apply hrun.turnwise (P := fun turns e _ =>
      (∀ t ∈ turns, t.op.FindsOwn t.now t.before) → Clocked e)
    · exact fun _ => ⟨hfresh.sound, hfresh.enrolled, hfresh.tracked⟩
    · intro turns _ fuel t ih _ hperform hturns
      apply perform_clocked hperform
      · exact hturns t (List.mem_append_right _ (List.mem_singleton_self t))
      · exact ih (fun t' ht' => hturns t' (List.mem_append_left _ ht'))
  exact (hclocked hturns).tracked.justified

/-- A request id aborted while a step lists it, and added again once that step is over. -/
def ownScript : List (Instant × Op) :=
  [(0, .input (.request (demoRequest "a" 2))), (0, .step), (10, .input (.abort ["a"])),
    (100, .step), (100, .input (.request (demoRequest "a" 2))), (100, .step), (200, .step)]

theorem ownScript_prefills :
    ∃ turns e clock, Run (demo demoOpt none) turns e clock ∧ turns.length = 7 ∧
      PrefillFirst e.journal := by
  have hplays : ((demo demoOpt none).play 20 ownScript).any (fun played =>
      played.1.length = 7 ∧ ∀ t ∈ played.1, t.op.FindsOwn t.now t.before) = true := by
    decide +kernel
  obtain ⟨turns, e, clock, hrun, _, hfound⟩ := Run.of_script
    (p := fun (turns : List (Turn demoEnv)) _ =>
      turns.length = 7 ∧ ∀ t ∈ turns, t.op.FindsOwn t.now t.before) hplays (by decide +kernel)
  obtain ⟨hlength, hown⟩ := of_decide_eq_true hfound
  exact ⟨turns, e, clock, hrun, hlength, prefill_before_tokens (demo_fresh _ _ _) hrun hown⟩

/-- A request id aborted and added again while the step that lists it is in flight. -/
def intruderScript : List (Instant × Op) :=
  [(0, .input (.request (demoRequest "a" 2))), (0, .step), (10, .input (.abort ["a"])),
    (20, .input (.request (demoRequest "a" 2))), (100, .step)]

/-- Whether a decoder's entry made a prefilling request generate. -/
def Event.isEarly : Event → Bool
  | .generated g => g.byDecoder && g.phase ≠ .decode
  | _ => false

theorem stale_entry_generates :
    ¬ ∀ turns (e : SimEngine demoEnv) clock, Run (demo demoOpt none) turns e clock →
      PrefillFirst e.journal := by
  intro hclaim
  have hplays : ((demo demoOpt none).play 20 intruderScript).any
      (fun played => played.2.journal.any Event.isEarly) = true := by decide +kernel
  obtain ⟨turns, e, clock, hrun, _, hearly⟩ :=
    Run.of_script (p := fun _ e => e.journal.any Event.isEarly) hplays (by decide +kernel)
  obtain ⟨ev, hev, hfound⟩ := List.any_eq_true.mp hearly
  obtain ⟨i, hi⟩ := List.getElem?_of_mem hev
  have hjustified := hclaim turns e clock hrun i ev hi
  cases ev with
  | generated g =>
      rw [Event.isEarly, Bool.and_eq_true, decide_eq_true_eq] at hfound
      exact hfound.2 (hjustified.2.1 hfound.1)
  | _ => cases hfound

end VllmVcr
