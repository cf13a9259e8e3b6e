import Mathlib.Algebra.Order.Field.Basic
import Mathlib.Algebra.Order.Ring.NNRat
import VllmVcr.Engine.Batch
import VllmVcr.Engine.Caps
import VllmVcr.Engine.StepClock

/-!
# The order of emissions

The chunks generated for a ticket fall due in the order in which they were generated.
Steps end in order, and a request's emission offset only grows.
-/

namespace VllmVcr

variable {env : Env} {now : Instant}

def Event.chunkOf (ticket : ℕ) : Event → Option PendingEmit
  | .generated g => if g.ticket = ticket then g.emit else none
  | _ => none

theorem Event.IsQuiet.chunkOf {ev : Event} (h : ev.IsQuiet) (ticket : ℕ) :
    ev.chunkOf ticket = none := by
  cases ev with
  | generated => cases h
  | _ => rfl

/-- `a` is emitted before `b`. -/
def PendingEmit.Before (a b : PendingEmit) : Prop := a.due ≤ b.due ∧ a.seq < b.seq

namespace SimEngine

/-- The chunks generated for a ticket, in the order of their generation. -/
def chunksOf (ticket : ℕ) (e : SimEngine env) : List PendingEmit :=
  e.journal.filterMap (Event.chunkOf ticket)

/-- The end of the last completed step. -/
def lastEnd (e : SimEngine env) : Instant := e.lastCompleted.elim 0 EngineStep.endsAt

theorem chunksOf_quiet {e e' : SimEngine env} {evs : List Event}
    (hjournal : e'.journal = e.journal ++ evs) (hquiet : ∀ ev ∈ evs, ev.IsQuiet) (ticket : ℕ) :
    e'.chunksOf ticket = e.chunksOf ticket := by
  rw [chunksOf, hjournal, List.filterMap_append,
    filterMap_quiet (fun _ hev => hev.chunkOf ticket) hquiet, List.append_nil, chunksOf]

theorem chunksOf_entered {e e' : SimEngine env} {pre post : List Event}
    {admitted uncached maxTokens : ℕ} {listed : Bool}
    (hjournal : e'.journal = (e.journal ++ pre) ++
      .admitted admitted uncached maxTokens listed :: post)
    (hquiet : ∀ ev ∈ pre ++ post, ev.IsQuiet) (ticket : ℕ) :
    e'.chunksOf ticket = e.chunksOf ticket := by
  rw [chunksOf, hjournal, List.filterMap_append, List.filterMap_append,
    filterMap_quiet (fun _ hev => hev.chunkOf ticket)
      (fun ev hev => hquiet ev (List.mem_append_left _ hev)), List.append_nil,
    List.filterMap_cons]
  change _ ++ post.filterMap (Event.chunkOf ticket) = _
  rw [filterMap_quiet (fun _ hev => hev.chunkOf ticket)
    (fun ev hev => hquiet ev (List.mem_append_right _ hev)), List.append_nil, chunksOf]

theorem chunksOf_log {e : SimEngine env} {ev : Event} {ticket : ℕ}
    (h : ev.chunkOf ticket = none) : (e.log ev).chunksOf ticket = e.chunksOf ticket := by
  rw [chunksOf, log_journal, List.filterMap_append, List.filterMap_cons, h, List.filterMap_nil,
    List.append_nil, chunksOf]

/-- A generation adds its chunk to those of the ticket it found. -/
theorem generateFor_chunksOf (stepEnd : Instant) (id : String) (entry : ℕ) (byDecoder : Bool)
    (n : ℕ) (r : ActiveRequest env) (e : SimEngine env) (ticket : ℕ) :
    (e.generateFor stepEnd id entry byDecoder n r).chunksOf ticket = e.chunksOf ticket ++
      if r.ticket = ticket then
        (r.generate e.tokenSource stepEnd n e.opt.effectiveTimeScale e.emitSeq).2.2.toList
      else [] := by
  have hjournal : (e.generateFor stepEnd id entry byDecoder n r).journal = e.journal ++
      [.generated ⟨entry, r.ticket, byDecoder, r.phase,
        (r.generate e.tokenSource stepEnd n e.opt.effectiveTimeScale e.emitSeq).2.2⟩] := rfl
  rw [chunksOf, hjournal, List.filterMap_append, chunksOf]
  congr 1
  by_cases hticket : r.ticket = ticket
  · simp only [List.filterMap_cons, List.filterMap_nil, Event.chunkOf, if_pos hticket]
    cases (r.generate e.tokenSource stepEnd n e.opt.effectiveTimeScale e.emitSeq).2.2 <;> rfl
  · simp only [List.filterMap_cons, List.filterMap_nil, Event.chunkOf, if_neg hticket]

/-- No two requests of the batch carry one ticket. -/
def DistinctTickets (e : SimEngine env) : Prop :=
  ∀ id id' r r', e.activeRequests.get? id = some r → e.activeRequests.get? id' = some r' →
    r.ticket = r'.ticket → id = id'

end SimEngine

open SimEngine

theorem Sound.distinctTickets {e : SimEngine env} (he : Sound e) : e.DistinctTickets := by
  intro id id' r r' hr hr' hticket
  have hmem := mem_live_active hr
  have hmem' := mem_live_active hr'
  rw [hticket] at hmem
  have heq := List.inj_on_of_nodup_map he.tickets hmem hmem' rfl
  exact congrArg Prod.fst heq

/-- The generated chunks are in order, and those of an active request fall due no later than what
it would generate at the last completed step's end. -/
structure Ordered (e : SimEngine env) : Prop where
  admitted : ∀ k, e.chunksOf k ≠ [] → k ∈ e.admissions
  ordered : ∀ k, (e.chunksOf k).Pairwise PendingEmit.Before
  seq : ∀ k, ∀ emit ∈ e.chunksOf k, emit.seq < e.emitSeq
  due : ∀ id r, e.activeRequests.get? id = some r → ∀ emit ∈ e.chunksOf r.ticket,
    emit.due ≤ e.lastEnd + r.emitOffset / e.opt.effectiveTimeScale
  offset : ∀ id r, e.activeRequests.get? id = some r → r.phase ≠ .decode → r.emitOffset = 0

namespace Ordered

variable {e e' : SimEngine env}

/-- No chunk is generated, and the offsets of the batch only grow. -/
theorem kept (h : Ordered e) (hchunks : ∀ k, e'.chunksOf k = e.chunksOf k)
    (hadmissions : ∀ k ∈ e.admissions, k ∈ e'.admissions) (hseq : e.emitSeq ≤ e'.emitSeq)
    (hend : e.lastEnd ≤ e'.lastEnd)
    (hscale : e'.opt.effectiveTimeScale = e.opt.effectiveTimeScale)
    (hactive : ∀ id r', e'.activeRequests.get? id = some r' →
      (r'.phase ≠ .decode → r'.emitOffset = 0) ∧
      ((∃ r, e.activeRequests.get? id = some r ∧ r'.ticket = r.ticket ∧
        r.emitOffset ≤ r'.emitOffset) ∨ e.chunksOf r'.ticket = [])) : Ordered e' where
  admitted k hk := hadmissions k (h.admitted k (hchunks k ▸ hk))
  ordered k := hchunks k ▸ h.ordered k
  seq k emit hemit := (h.seq k emit (hchunks k ▸ hemit)).trans_le hseq
  due id r' hr' emit hemit := by
    rw [hchunks] at hemit
    rcases (hactive id r' hr').2 with ⟨r, hr, hticket, hoffset⟩ | hnone
    · rw [hticket] at hemit
      rw [hscale]
      exact (h.due id r hr emit hemit).trans
        (add_le_add hend (div_le_div_of_nonneg_right hoffset zero_le))
    · rw [hnone] at hemit
      cases hemit
  offset id r' hr' := (hactive id r' hr').1

/-- The request at `id` generates at the end of the step completed last. -/
theorem generateFor {id : String} {r r₁ : ActiveRequest env} (h : Ordered e)
    (hdistinct : e.DistinctTickets) (hr : e.activeRequests.get? id = some r)
    (hadmitted : r.ticket ∈ e.admissions)
    (hstart : r₁ = r ∨ r.phase ≠ .decode ∧ ∃ numRunning, r₁ = e.startDecode numRunning r)
    (entry : ℕ) (byDecoder : Bool) (n : ℕ) :
    Ordered (e.generateFor e.lastEnd id entry byDecoder n r₁) := by
  obtain ⟨hticket, hoffset, hphase⟩ : r₁.ticket = r.ticket ∧ r.emitOffset ≤ r₁.emitOffset ∧
      (r₁.phase ≠ .decode → r₁.emitOffset = 0) := by
    rcases hstart with rfl | ⟨hprefills, numRunning, rfl⟩
    · exact ⟨rfl, le_rfl, h.offset id r₁ hr⟩
    · rw [h.offset id r hr hprefills]
      exact ⟨rfl, zero_le, fun hdecode => absurd rfl hdecode⟩
  have hlast : (e.generateFor e.lastEnd id entry byDecoder n r₁).lastEnd = e.lastEnd :=
    congrArg (fun step => Option.elim step 0 EngineStep.endsAt) (lastCompleted_log (by simp))
  have hadmissions : (e.generateFor e.lastEnd id entry byDecoder n r₁).admissions =
      e.admissions := by
    simp [admissions, SimEngine.generateFor, Event.admission]
  have hchunks := generateFor_chunksOf e.lastEnd id entry byDecoder n r₁ e
  have hactive : (e.generateFor e.lastEnd id entry byDecoder n r₁).activeRequests =
      e.activeRequests.insert id
        (r₁.generate e.tokenSource e.lastEnd n e.opt.effectiveTimeScale e.emitSeq).1 := rfl
  rcases r₁.generate_eq e.tokenSource e.lastEnd n e.opt.effectiveTimeScale e.emitSeq with
    ⟨_, hgen⟩ | ⟨_, _, emit, _, _, hdue, hseq, hgen⟩
  · rw [hgen] at hactive hchunks
    apply h.kept (fun k => by simpa using hchunks k) (fun k hk => hadmissions ▸ hk)
      (Nat.le_succ _) hlast.ge rfl
    intro id' r' hr'
    rw [hactive, SortedMap.get?_insert] at hr'
    split at hr'
    · next hid =>
        cases hr'
        exact ⟨hphase, Or.inl ⟨r, hid ▸ hr, hticket, hoffset⟩⟩
    · exact ⟨h.offset id' r' hr', Or.inl ⟨r', hr', rfl, le_rfl⟩⟩
  · rw [hgen] at hactive hchunks
    have hold : ∀ emit' ∈ e.chunksOf r.ticket,
        emit'.due ≤ e.lastEnd + r₁.emitOffset / e.opt.effectiveTimeScale := by
      intro emit' hemit'
      exact (h.due id r hr emit' hemit').trans
        (add_le_add_right (div_le_div_of_nonneg_right hoffset zero_le) _)
    refine ⟨fun k hk => ?_, fun k => ?_, fun k emit' hemit' => ?_, fun id' r' hr' emit' hemit' => ?_,
      fun id' r' hr' hprefills => ?_⟩
    · rw [hadmissions]
      rw [hchunks] at hk
      by_cases hk' : r₁.ticket = k
      · rw [← hk', hticket]
        exact hadmitted
      · rw [if_neg hk', List.append_nil] at hk
        exact h.admitted k hk
    · rw [hchunks]
      by_cases hk : r₁.ticket = k
      · rw [if_pos hk]
        apply List.pairwise_append.mpr ⟨h.ordered k, List.pairwise_singleton _ _, ?_⟩
        intro a ha b hb
        cases List.mem_singleton.mp hb
        rw [PendingEmit.Before, hdue, hseq]
        rw [← hk, hticket] at ha
        exact ⟨hold a ha, h.seq _ a ha⟩
      · rw [if_neg hk, List.append_nil]
        exact h.ordered k
    · change emit'.seq < e.emitSeq + 1
      rw [hchunks, List.mem_append] at hemit'
      rcases hemit' with hemit' | hemit'
      · exact (h.seq k emit' hemit').trans (Nat.lt_succ_self _)
      · split at hemit'
        · cases List.mem_singleton.mp hemit'
          rw [hseq]
          exact Nat.lt_succ_self _
        · cases hemit'
    · rw [hlast]
      rw [hchunks, List.mem_append] at hemit'
      rw [hactive, SortedMap.get?_insert] at hr'
      split at hr'
      · cases hr'
        rcases hemit' with hemit' | hemit'
        · exact hold emit' (hticket ▸ hemit')
        · rw [if_pos rfl] at hemit'
          cases List.mem_singleton.mp hemit'
          exact hdue.le
      · next hid =>
          have hother : ¬ r₁.ticket = r'.ticket :=
            fun heq => hid (hdistinct id' id r' r hr' hr (heq.symm.trans hticket))
          rw [if_neg hother] at hemit'
          rcases hemit' with hemit' | hemit'
          · exact h.due id' r' hr' emit' hemit'
          · cases hemit'
    · rw [hactive, SortedMap.get?_insert] at hr'
      split at hr'
      · cases hr'
        exact hphase hprefills
      · exact h.offset id' r' hr' hprefills

end Ordered

/-! ## The clock -/

/-- An event of a request's way into the batch. -/
def Event.IsEntry : Event → Prop
  | .cached _ | .admitted _ _ _ _ | .promoted _ _ => True
  | _ => False

/-- Only a step's end journals anything but entries. -/
theorem Move.entries {e e' : SimEngine env} {effect : Effect} (h : Move now e effect e')
    (hcompleted : ∀ step, effect ≠ .completed step) :
    ∃ evs, e'.journal = e.journal ++ evs ∧ ∀ ev ∈ evs, ev.IsEntry := by
  have hsame : e'.journal = e.journal → ∃ evs, e'.journal = e.journal ++ evs ∧
      ∀ ev ∈ evs, ev.IsEntry :=
    fun hjournal => ⟨[], by rw [hjournal, List.append_nil], by simp⟩
  cases h with
  | arrivalFailed | arrivalRejected | enqueued | orphaned | pullRefused | drained | configured
  | adaptersChanged | specCleared | statsReset => exact hsame (by simp [SimEngine.schedulerStats])
  | cacheReset =>
      apply hsame
      unfold SimEngine.resetPrefixCache
      split <;> simp
  | @parked i queued | @refused i queued =>
      exact ⟨_, SimEngine.dequeue_journal i queued e, by simp [Event.IsEntry]⟩
  | @admitted i queued hadm active hbuild =>
      obtain ⟨r, _, _, _, hjournal⟩ := SimEngine.activate_entered
        (e := (e.dequeue i queued).1.pruneBigAdmissions now) now
        (SimEngine.buildRequest_ok hbuild) rfl
      rw [SimEngine.pruneBigAdmissions_journal, SimEngine.dequeue_journal, List.append_assoc]
        at hjournal
      exact ⟨_, hjournal, by simp [Event.IsEntry]⟩
  | @promoted task htask pending hpending active hbuild =>
      refine ⟨[_, _], List.append_assoc e.journal [_] [_], ?_⟩
      simp [Event.IsEntry]
  | @withdrawn id e₁ client ticket hwithdraw =>
      apply hsame
      rcases SimEngine.withdraw_some hwithdraw with ⟨r, _, _, _, rfl⟩ | ⟨p, _, _, _, rfl⟩ |
        ⟨i, q, _, _, _, _, rfl⟩
      · exact (SimEngine.retire_flushed (.refl e) id).journal
      · rfl
      · rfl
  | composed anchor => exact hsame rfl
  | executed => exact absurd rfl (hcompleted _)
  | flushed => exact hsame (e.flush_flushed now).journal

theorem Move.lastCompleted {e e' : SimEngine env} {effect : Effect} (h : Move now e effect e')
    (hcompleted : ∀ step, effect ≠ .completed step) : e'.lastCompleted = e.lastCompleted := by
  obtain ⟨evs, hjournal, hentries⟩ := h.entries hcompleted
  rw [SimEngine.lastCompleted, hjournal, List.filterMap_append,
    (List.filterMap_eq_nil_iff (l := evs)).mpr, List.append_nil, SimEngine.lastCompleted]
  intro ev hev
  have hentry := hentries ev hev
  cases ev with
  | completed | chunked | generated => cases hentry
  | cached | admitted | promoted => rfl

theorem Move.timeScale {e e' : SimEngine env} {effect : Effect} (h : Move now e effect e') :
    e'.opt.effectiveTimeScale = e.opt.effectiveTimeScale := by
  rcases h.settings.1 with hopt | ⟨patch, _, hopt⟩
  · rw [hopt]
  · rw [hopt]
    rfl

theorem composeStep_ends {anchor : Instant} {e : SimEngine env} {step : EngineStep}
    (hidle : e.currentStep = none) (h : (e.composeStep anchor).currentStep = some step) :
    anchor ≤ step.endsAt := by
  simp only [composeStep] at h
  split at h
  · exact absurd (h.symm.trans hidle) (by simp)
  · cases h
    exact le_self_add

/-- Composing a step draws for the requests of the batch, and changes nothing else of them. -/
theorem composeStep_drawn {anchor : Instant} {e : SimEngine env} {id : String}
    {r' : ActiveRequest env} (h : (e.composeStep anchor).activeRequests.get? id = some r') :
    ∃ r, e.activeRequests.get? id = some r ∧ r' = { r with
      rng := r'.rng
      pacing := r'.pacing
      scriptedDecode := r'.scriptedDecode
      asked := r'.asked } := by
  change e.drawDecoders.1.activeRequests.get? id = some r' at h
  simp only [drawDecoders, SortedMap.get?_mapValues] at h
  obtain ⟨r, hr, heq⟩ := Option.map_eq_some_iff.mp h
  refine ⟨r, hr, ?_⟩
  split at heq
  · subst heq
    unfold drawFor ActiveRequest.drawStep
    split <;> rfl
  · subst heq
    rfl

/-- The steps end in order, none of them after `now`, and the chunks are in order. -/
structure Timed (now : Instant) (e : SimEngine env) : Prop where
  ends : e.lastEnd ≤ now
  step : ∀ step, e.currentStep = some step → e.lastEnd ≤ step.endsAt
  ordered : Ordered e

namespace Timed

variable {e e' : SimEngine env}

theorem later {later : Instant} (h : Timed now e) (hlater : now ≤ later) : Timed later e :=
  ⟨h.ends.trans hlater, h.step, h.ordered⟩

theorem of_fresh (h : Fresh e) : Timed now e := by
  obtain ⟨engineIndex, opt, tokenSource, stepSource, hnew⟩ := h
  obtain ⟨latency, _, rfl⟩ := except_map_eq_ok hnew
  exact ⟨zero_le, by simp, by simp [chunksOf], by simp [chunksOf], by simp [chunksOf], by simp,
    by simp⟩

/-- The state of an engine that executes `step`, from `base` on. -/
structure During (base : SimEngine env) (step : EngineStep) (e : SimEngine env) : Prop where
  progress : Progress base e
  admissions : e.admissions = base.admissions
  lastCompleted : e.lastCompleted = some step
  ordered : Ordered e

namespace During

variable {base : SimEngine env} {step : EngineStep}

theorem lastEnd (h : During base step e) : e.lastEnd = step.endsAt :=
  congrArg (fun step => Option.elim step 0 EngineStep.endsAt) h.lastCompleted

/-- An entry of the batch changes without generating. -/
theorem touched (h : During base step e) (hp : Progress e e')
    (hjournal : ∃ evs, e'.journal = e.journal ++ evs ∧ (∀ k, ∀ ev ∈ evs, ev.chunkOf k = none) ∧
      (∀ ev ∈ evs, ev.admission = none) ∧ ∀ ev ∈ evs, ∀ step, ev ≠ .completed step)
    (hseq : e'.emitSeq = e.emitSeq)
    (hactive : ∀ id r', e'.activeRequests.get? id = some r' →
      ∃ r, e.activeRequests.get? id = some r ∧ r'.emitOffset = r.emitOffset ∧
        r'.ticket = r.ticket ∧ (r'.phase ≠ .decode → r.phase ≠ .decode)) :
    During base step e' := by
  obtain ⟨evs, hjournal, hchunk, hadmission, hcompleted⟩ := hjournal
  have hlast : e'.lastCompleted = e.lastCompleted := by
    rw [SimEngine.lastCompleted, hjournal, List.filterMap_append,
      List.filterMap_eq_nil_iff (l := evs) |>.mpr, List.append_nil, SimEngine.lastCompleted]
    intro ev hev
    cases ev with
    | completed step => exact absurd rfl (hcompleted _ hev step)
    | _ => rfl
  have hadmissions : e'.admissions = e.admissions := by
    rw [SimEngine.admissions, hjournal, List.filterMap_append,
      List.filterMap_eq_nil_iff.mpr hadmission, List.append_nil, SimEngine.admissions]
  have hchunks : ∀ k, e'.chunksOf k = e.chunksOf k := by
    intro k
    rw [chunksOf, hjournal, List.filterMap_append, List.filterMap_eq_nil_iff.mpr (hchunk k),
      List.append_nil, chunksOf]
  refine ⟨h.progress.trans hp, hadmissions.trans h.admissions, hlast.trans h.lastCompleted, ?_⟩
  apply h.ordered.kept hchunks (fun k hk => hadmissions ▸ hk) hseq.ge
  · rw [SimEngine.lastEnd, SimEngine.lastEnd, hlast]
  · rw [hp.opt]
  · intro id r' hr'
    obtain ⟨r, hr, hoffset, hticket, hphase⟩ := hactive id r' hr'
    refine ⟨fun hprefills => ?_, Or.inl ⟨r, hr, hticket, hoffset.ge⟩⟩
    rw [hoffset]
    exact h.ordered.offset id r hr (hphase hprefills)

theorem generate {id : String} {r r₁ : ActiveRequest env} (h : During base step e)
    (he : Sound base) (hen : Enrolled base) (hr : e.activeRequests.get? id = some r)
    (hstart : r₁ = r ∨ r.phase ≠ .decode ∧ ∃ numRunning, r₁ = e.startDecode numRunning r)
    (entry : ℕ) (byDecoder : Bool) (n : ℕ) :
    During base step (e.generateFor step.endsAt id entry byDecoder n r₁) := by
  have hdistinct : e.DistinctTickets := by
    intro id' id'' s s' hs hs' hticket
    obtain ⟨t, ht, hprog⟩ := h.progress.active.right hs
    obtain ⟨t', ht', hprog'⟩ := h.progress.active.right hs'
    rw [hprog.ticket, hprog'.ticket] at hticket
    exact he.distinctTickets id' id'' t t' ht ht' hticket
  have hadmitted : r.ticket ∈ e.admissions := by
    obtain ⟨t, ht, hprog⟩ := h.progress.active.right hr
    rw [h.admissions, hprog.ticket]
    exact hen.active id t ht
  have hprogressed : r.Progressed r₁ := by
    rcases hstart with rfl | ⟨_, numRunning, rfl⟩
    · exact .refl r₁
    · exact startDecode_progressed e numRunning r
  have hordered := h.ordered.generateFor hdistinct hr hadmitted hstart entry byDecoder n
  rw [h.lastEnd] at hordered
  refine ⟨h.progress.trans (generateFor_progress hr hprogressed _ _ _ _), ?_, ?_, hordered⟩
  · rw [← h.admissions]
    simp [SimEngine.admissions, SimEngine.generateFor, Event.admission]
  · exact (lastCompleted_log (by simp)).trans h.lastCompleted

theorem execute (h : Ordered base) (he : Sound base) (hen : Enrolled base)
    (hend : base.lastEnd ≤ step.endsAt) : During base step (base.executeStep step) := by
  apply executeStep_rule
  · have hlast := lastCompleted_completed base step
    have hadmissions : (base.log (.completed step)).admissions = base.admissions := by
      simp [SimEngine.admissions, Event.admission]
    refine ⟨base.log_progress _, hadmissions, hlast, ?_⟩
    apply h.kept (fun k => chunksOf_log rfl) (fun k hk => hadmissions ▸ hk) le_rfl _ rfl
    · exact fun id r hr => ⟨h.offset id r hr, Or.inl ⟨r, hr, rfl, le_rfl⟩⟩
    · change base.lastEnd ≤ (base.log (.completed step)).lastCompleted.elim 0 EngineStep.endsAt
      rw [hlast]
      exact hend
  · intro e spec hd
    have hprogress : Progress e { e with pendingSpec := spec } :=
      ⟨SortedMap.Rel.refl .refl _, rfl, rfl, rfl, rfl, rfl, rfl, rfl, rfl, rfl⟩
    exact hd.touched hprogress ⟨[], by simp, by simp, by simp, by simp⟩ rfl
      (fun id r hr => ⟨r, hr, rfl, rfl, fun h => h⟩)
  · intro e entry ticket take hd
    apply hd.touched (e.log_progress _)
      ⟨[.chunked entry ticket take], rfl, by simp [Event.chunkOf], by simp [Event.admission],
        by simp⟩ rfl
    exact fun id r hr => ⟨r, hr, rfl, rfl, fun h => h⟩
  · intro e id r m n hr hphase _ hd
    have hdrain : r.Progressed { r with phase := .prefill n } :=
      ⟨rfl, le_rfl, fun hok => ⟨hok.produced, hok.capped, hok.chunks, hok.unfinished⟩⟩
    have hprogress : Progress e { e with
        activeRequests := e.activeRequests.insert id { r with phase := .prefill n } } :=
      Progress.touch hr hdrain rfl
        ⟨SortedMap.Rel.refl .refl _, rfl, rfl, rfl, rfl, rfl, rfl, rfl, rfl, rfl⟩
    apply hd.touched hprogress ⟨[], by simp, by simp, by simp, by simp⟩ rfl
    intro id' r' hr'
    change (e.activeRequests.insert id _).get? id' = some r' at hr'
    rw [SortedMap.get?_insert] at hr'
    split at hr'
    · next hid =>
        cases hr'
        exact ⟨r, hid ▸ hr, rfl, rfl, fun _ => by simp [hphase]⟩
    · exact ⟨r', hr', rfl, rfl, fun h => h⟩
  · intro e r hd
    apply hd.touched (e.noteLoad_progress r) ⟨[], by simp, by simp, by simp, by simp⟩ rfl
    exact fun id r hr => ⟨r, hr, rfl, rfl, fun h => h⟩
  · exact fun e id r r₁ entry byDecoder n hr hstart hd =>
      hd.generate he hen hr hstart entry byDecoder n

end During

end Timed

theorem Move.timed {e e' : SimEngine env} {effect : Effect} (h : Move now e effect e')
    (he : Sound e) (hen : Enrolled e) (ht : Timed now e) : Timed now e' := by
  have hscale := h.timeScale
  have hlast : (∀ step, effect ≠ .completed step) → e'.lastEnd = e.lastEnd := by
    intro hcompleted
    rw [SimEngine.lastEnd, h.lastCompleted hcompleted, SimEngine.lastEnd]
  -- The batch loses requests or keeps them with their offsets, and the same step is in flight.
  have hkept : (∀ step, effect ≠ .completed step) → (∀ k, e'.chunksOf k = e.chunksOf k) →
      (∀ k ∈ e.admissions, k ∈ e'.admissions) → e.emitSeq ≤ e'.emitSeq →
      (∀ step, e'.currentStep = some step → e.lastEnd ≤ step.endsAt) →
      (∀ id r', e'.activeRequests.get? id = some r' →
        (r'.phase ≠ .decode → r'.emitOffset = 0) ∧
        ((∃ r, e.activeRequests.get? id = some r ∧ r'.ticket = r.ticket ∧
          r.emitOffset ≤ r'.emitOffset) ∨ e.chunksOf r'.ticket = [])) → Timed now e' := by
    intro hcompleted hchunks hadmissions hseq hstep hactive
    have hend := hlast hcompleted
    refine ⟨hend ▸ ht.ends, fun step hs => ?_, ?_⟩
    · rw [hend]
      exact hstep step hs
    · exact ht.ordered.kept hchunks hadmissions hseq hend.ge hscale hactive
  cases h.batch he with
  | still hcompleted hactive hstep hseq hjournal hquiet =>
      apply hkept hcompleted (chunksOf_quiet hjournal hquiet)
      · intro k hk
        rw [admissions, hjournal, List.filterMap_append]
        exact List.mem_append_left _ hk
      · exact hseq.ge
      · exact fun step hs => ht.step step (hstep ▸ hs)
      · intro id r hr
        rw [hactive] at hr
        exact ⟨ht.ordered.offset id r hr, Or.inl ⟨r, hr, rfl, le_rfl⟩⟩
  | @entered _ _ id r pre post hcompleted hnone hentering hqueued hactive hstep hseq hjournal
      hquiet =>
      apply hkept hcompleted (chunksOf_entered hjournal hquiet)
      · intro k hk
        rw [admissions, hjournal, List.filterMap_append, List.filterMap_append]
        exact List.mem_append_left _ (List.mem_append_left _ hk)
      · exact hseq.ge
      · exact fun step hs => ht.step step (hstep ▸ hs)
      · intro id' r' hr'
        rw [hactive, SortedMap.get?_insert] at hr'
        split at hr'
        · cases hr'
          refine ⟨hentering.offset, Or.inr ?_⟩
          by_contra hne
          exact hen.queued _ (ht.ordered.admitted _ hne) hqueued
        · exact ⟨ht.ordered.offset id' r' hr', Or.inl ⟨r', hr', rfl, le_rfl⟩⟩
  | @withdrew _ id r hr hactive hstep hseq hjournal =>
      have hevs : e'.journal = e.journal ++ [] := by rw [hjournal, List.append_nil]
      apply hkept (by simp) (chunksOf_quiet hevs (by simp))
      · rw [admissions, admissions, hjournal]
        exact fun k hk => hk
      · exact hseq.ge
      · exact fun step hs => ht.step step (hstep ▸ hs)
      · intro id' r' hr'
        rw [hactive, SortedMap.get?_erase] at hr'
        split at hr'
        · cases hr'
        · exact ⟨ht.ordered.offset id' r' hr', Or.inl ⟨r', hr', rfl, le_rfl⟩⟩
  | composed anchor hidle hanchor =>
      have hlastEnd : e.lastEnd ≤ anchor := by
        rcases hanchor with rfl | ⟨step, hstep, rfl⟩
        · exact ht.ends
        · rw [SimEngine.lastEnd, hstep]
          rfl
      apply hkept (by simp) (fun _ => rfl) (fun _ hk => hk) le_rfl
      · exact fun step hs => hlastEnd.trans (composeStep_ends hidle hs)
      · intro id r' hr'
        obtain ⟨r, hr, heq⟩ := composeStep_drawn hr'
        rw [heq]
        exact ⟨ht.ordered.offset id r hr, Or.inl ⟨r, hr, rfl, le_rfl⟩⟩
  | @executed step hstep hdue =>
      have hduring : Timed.During e.takeStep step _ := Timed.During.execute
        ⟨ht.ordered.admitted, ht.ordered.ordered, ht.ordered.seq, ht.ordered.due,
          ht.ordered.offset⟩ ⟨⟨he.active, he.pending, he.ok⟩, he.ids, he.tickets, he.ticket_lt⟩
        ⟨hen.issued, hen.queued, hen.active, hen.once⟩ (ht.step step hstep)
      refine ⟨?_, fun step' hs => ?_, hduring.ordered⟩
      · rw [hduring.lastEnd]
        exact hdue
      · rw [executeStep_currentStep] at hs
        cases hs
  | flushed =>
      have hflushed := e.flush_flushed now
      have hevs : (e.flush now).1.journal = e.journal ++ [] := by
        rw [hflushed.journal, List.append_nil]
      apply hkept (by simp) (chunksOf_quiet hevs (by simp))
      · rw [admissions, admissions, hflushed.journal]
        exact fun k hk => hk
      · exact hflushed.emitSeq.ge
      · exact fun step hs => ht.step step (hflushed.currentStep ▸ hs)
      · intro id r' hr'
        obtain ⟨r, hr, _, heq⟩ := e.flush_get? he.active now hr'
        rw [ActiveRequest.emitDue, ActiveRequest.emitQueue_request] at heq
        rw [← heq]
        exact ⟨ht.ordered.offset id r hr, Or.inl ⟨r, hr, rfl, le_rfl⟩⟩

end VllmVcr
