import VllmVcr.Engine.Prefills

/-!
# Composed schedules

What a step composed in any state the engine passes through looks like: decoders and
chunks within their requests and within the budget. Its chunks name each request once as
long as the prefill order, up to where the budget ends, does.
-/

namespace VllmVcr

variable {env : Env} {now : Instant}

/-- The tokens that the prefill of this id would take of an unlimited budget. -/
def chunkDemand (active : SortedMap String (ActiveRequest env)) (threshold : ℕ) (id : String) : ℕ :=
  match (active.get? id).map ActiveRequest.uncached with
  | none => 0
  | some remaining => if 0 < threshold then min remaining threshold else remaining

/-- The entries of a prefill order that a budget of `left` tokens reaches. -/
def budgetReaches (demand : String → ℕ) : ℕ → List String → List String
  | _, [] => []
  | left, id :: rest => if left = 0 then [] else id :: budgetReaches demand (left - demand id) rest

section Reach

variable {demand : String → ℕ}

theorem budgetReaches_prefix (left : ℕ) (order : List String) :
    budgetReaches demand left order <+: order := by
  induction order generalizing left with
  | nil => exact List.prefix_rfl
  | cons id rest ih =>
      unfold budgetReaches
      split
      · exact List.nil_prefix
      · exact List.cons_prefix_cons.mpr ⟨rfl, ih _⟩

/-- An entry is reached when the demand before it is below the budget. -/
theorem lt_length_budgetReaches {left j : ℕ} {order : List String} (hj : j < order.length) :
    j < (budgetReaches demand left order).length ↔ ((order.take j).map demand).sum < left := by
  induction order generalizing left j with
  | nil => cases hj
  | cons id rest ih =>
      unfold budgetReaches
      cases j with
      | zero =>
          by_cases hleft : left = 0
          · simp [hleft]
          · simp [hleft]
            omega
      | succ j =>
          have hrest : j < rest.length := by simpa using hj
          by_cases hleft : left = 0
          · simp [hleft]
          · simp only [hleft, if_false, List.length_cons, Nat.add_lt_add_iff_right,
              List.take_succ_cons, List.map_cons, List.sum_cons]
            rw [ih hrest]
            omega

/-- The reached part of an order repeats no entry exactly when the demand before every repeated
entry claims the budget. -/
theorem nodup_budgetReaches {left : ℕ} {order : List String} :
    (budgetReaches demand left order).Nodup ↔ ∀ i j, i < j → j < order.length →
      order[i]? = order[j]? → left ≤ ((order.take j).map demand).sum := by
  have hprefix : budgetReaches demand left order <+: order := budgetReaches_prefix left order
  have hget : ∀ i, i < (budgetReaches demand left order).length →
      (budgetReaches demand left order)[i]? = order[i]? :=
    fun i hi => by
      rw [List.getElem?_eq_getElem hi, List.getElem?_eq_getElem (hi.trans_le hprefix.length_le),
        hprefix.getElem hi]
  rw [List.nodup_iff_getElem?_ne_getElem?]
  constructor
  · intro hnodup i j hij hj heq
    by_contra hlt
    have hreached := (lt_length_budgetReaches hj).mpr (Nat.lt_of_not_le hlt)
    exact hnodup i j hij hreached (by rw [hget i (by omega), hget j hreached, heq])
  · intro hclaim i j hij hreached heq
    have hj : j < order.length := hreached.trans_le hprefix.length_le
    have hlt := (lt_length_budgetReaches hj).mp hreached
    have hle := hclaim i j hij hj (by rw [← hget i (by omega), ← hget j hreached, heq])
    omega

end Reach

section Plan

variable {active : SortedMap String (ActiveRequest env)} {threshold : ℕ}
  {cost : ℕ → ℕ → Duration}

/-- The chunks of an order of prefilling requests are the entries that the budget reaches. -/
theorem planChunks_ids {left : ℕ} {order : List String}
    (hprefilling : ∀ id ∈ order, isPrefilling active id = true) :
    (planChunks active threshold cost order left).1.map ChunkEntry.requestId =
      budgetReaches (chunkDemand active threshold) left order := by
  induction order generalizing left with
  | nil => rfl
  | cons id rest ih =>
      have hrest := fun left => @ih left
        (fun id' hid' => hprefilling id' (List.mem_cons_of_mem _ hid'))
      obtain ⟨r, hr, hphase⟩ := (Option.any_eq_true _ _).mp
        (hprefilling id List.mem_cons_self)
      unfold planChunks budgetReaches
      by_cases hleft : left = 0
      · simp [hleft]
      · cases hph : r.phase with
        | decode => simp [hph] at hphase
        | prefill remaining =>
            have hdemand : left - (if 0 < threshold then min (min remaining left) threshold
                else min remaining left) = left - chunkDemand active threshold id := by
              simp only [chunkDemand, hr, Option.map_some, ActiveRequest.uncached, hph]
              by_cases hthreshold : 0 < threshold
              · simp only [hthreshold, if_true]
                omega
              · simp only [hthreshold, if_false]
                omega
            simp only [if_neg hleft, hr, hph, hdemand, List.map_cons]
            rw [hrest]

theorem planChunks_budget (left : ℕ) (order : List String) :
    ((planChunks active threshold cost order left).1.map ChunkEntry.take).sum ≤ left := by
  induction order generalizing left with
  | nil => exact Nat.zero_le _
  | cons id rest ih =>
      unfold planChunks
      split
      · exact Nat.zero_le _
      · split
        · exact ih left
        · split
          · exact ih left
          · next remaining _ =>
              have hrest := ih (left - (if 0 < threshold then min (min remaining left) threshold
                else min remaining left))
              have htake : (if 0 < threshold then min (min remaining left) threshold
                  else min remaining left) ≤ left := by
                split <;> omega
              simp only [List.map_cons, List.sum_cons]
              omega

end Plan

namespace SimEngine

/-- The prompt tokens that this state's decoders leave to a step's chunks. -/
def chunkBudget (e : SimEngine env) : ℕ :=
  max e.opt.maxNumBatchedTokens 1 - (e.drawDecoders.2.map (fun d => max d.tokens 1)).sum

/-- The prefill order without the requests that no longer prefill. -/
def prunedOrder (e : SimEngine env) : List String :=
  e.prefillOrder.filter (isPrefilling e.activeRequests)

/-- No request stands twice in the prefill order, up to where the budget ends. -/
def ListsOnce (e : SimEngine env) : Prop :=
  ∀ i j, i < j → j < e.prunedOrder.length → e.prunedOrder[i]? = e.prunedOrder[j]? →
    e.chunkBudget ≤ ((e.prunedOrder.take j).map
      (chunkDemand e.activeRequests e.opt.longPrefillTokenThreshold)).sum

end SimEngine

/-- A well-formed schedule for the requests of `e`. -/
structure EngineStep.WellFormed (e : SimEngine env) (step : EngineStep) : Prop where
  decoders : (step.decoders.map DecoderEntry.requestId).Nodup
  chunks : (step.chunks.map ChunkEntry.requestId).Nodup
  disjoint : ∀ d ∈ step.decoders, ∀ c ∈ step.chunks, d.requestId ≠ c.requestId
  takes : ∀ c ∈ step.chunks, ∃ r remaining, e.activeRequests.get? c.requestId = some r ∧
    r.phase = .prefill remaining ∧ 1 ≤ c.take ∧ c.take ≤ remaining ∧
    (0 < e.opt.longPrefillTokenThreshold → c.take ≤ e.opt.longPrefillTokenThreshold)
  budget : (step.chunks.map ChunkEntry.take).sum ≤
    max e.opt.maxNumBatchedTokens 1 - (step.decoders.map (fun d => max d.tokens 1)).sum

/-! ## The states that compose -/

namespace SimEngine

/-- Every request that prefills has prompt tokens left. -/
def PrefillsRemain (e : SimEngine env) : Prop :=
  ∀ id r remaining, e.activeRequests.get? id = some r → r.phase = .prefill remaining →
    0 < remaining

theorem PrefillsRemain.insert {e e' : SimEngine env} {id : String} {r : ActiveRequest env}
    (h : e.PrefillsRemain) (hactive : e'.activeRequests = e.activeRequests.insert id r)
    (hr : ∀ remaining, r.phase = .prefill remaining → 0 < remaining) : e'.PrefillsRemain := by
  intro id' r' remaining hr' hphase
  rw [hactive, SortedMap.get?_insert] at hr'
  split at hr'
  · cases hr'
    exact hr remaining hphase
  · exact h id' r' remaining hr' hphase

theorem PrefillsRemain.stands {e e' : SimEngine env} (h : e.PrefillsRemain)
    (hstands : ∀ id r', e'.activeRequests.get? id = some r' →
      ∃ r, e.activeRequests.get? id = some r ∧ r'.phase = r.phase) : e'.PrefillsRemain := by
  intro id r' remaining hr' hphase
  obtain ⟨r, hr, hsame⟩ := hstands id r' hr'
  exact h id r remaining hr (hsame ▸ hphase)

theorem generateFor_active (stepEnd : Instant) (id : String) (entry : ℕ) (byDecoder : Bool)
    (chunkTokens : ℕ) (r : ActiveRequest env) (e : SimEngine env) :
    ∃ r', (e.generateFor stepEnd id entry byDecoder chunkTokens r).activeRequests =
      e.activeRequests.insert id r' ∧ r'.ticket = r.ticket ∧ r'.phase = r.phase := by
  refine ⟨_, rfl, ?_⟩
  exact generate_stands r e.tokenSource stepEnd chunkTokens e.opt.effectiveTimeScale e.emitSeq

theorem PrefillsRemain.executeStep {e : SimEngine env} (h : e.PrefillsRemain) (step : EngineStep) :
    (e.executeStep step).PrefillsRemain := by
  apply executeStep_preserves (I := PrefillsRemain)
  · exact h
  · exact fun _ _ h => h
  · intro e d _ h
    unfold completeDecoder
    split
    · exact h
    · next r hr =>
        obtain ⟨r', hactive, _, hphase⟩ := e.generateFor_active step.endsAt d.requestId d.ticket true
          (if 1 < d.tokens then d.tokens else e.opt.outputTokenChunkSize) r
        exact h.insert hactive (fun remaining hr' => h _ r remaining hr (hphase ▸ hr'))
  · intro numRunning e c _ h
    unfold completeChunk
    split
    · exact h
    · next r hr =>
        split
        · exact h
        · next remaining hphase =>
            simp only
            split
            · next hleft =>
                apply h.insert rfl
                intro remaining' hphase'
                cases hphase'
                exact hleft
            · obtain ⟨r', hactive, _, hphase'⟩ := generateFor_active step.endsAt c.requestId c.ticket
                false _ (SimEngine.startDecode _ numRunning r)
                (e.log (.chunked c.ticket r.ticket c.take))
              apply h.insert hactive
              intro remaining' hr'
              rw [hphase'] at hr'
              cases hr'

end SimEngine

open SimEngine

theorem Move.prefillsRemain {e e' : SimEngine env} {effect : Effect} (h : Move now e effect e')
    (he : Sound e) (hremain : e.PrefillsRemain) : e'.PrefillsRemain := by
  cases h.batch he with
  | still _ hactive =>
      exact hremain.stands (fun id r' hr' => ⟨r', hactive ▸ hr', rfl⟩)
  | entered _ _ hentering _ hactive => exact hremain.insert hactive hentering.remaining
  | withdrew hr hactive =>
      apply hremain.stands
      intro id r' hr'
      rw [hactive, SortedMap.get?_erase] at hr'
      split at hr'
      · cases hr'
      · exact ⟨r', hr', rfl⟩
  | composed anchor hidle =>
      apply hremain.stands
      intro id r' hr'
      obtain ⟨r, hr, _, hphase⟩ := composeStep_stands anchor e id r' hr'
      exact ⟨r, hr, hphase⟩
  | executed hstep hdue =>
      have htaken : e.takeStep.PrefillsRemain := hremain
      exact htaken.executeStep _
  | flushed =>
      apply hremain.stands
      intro id r' hr'
      obtain ⟨r, hr, _, heq⟩ := e.flush_get? he.active now hr'
      rw [ActiveRequest.emitDue, ActiveRequest.emitQueue_request] at heq
      exact ⟨r, hr, by rw [← heq]⟩

/-- The engine passes through `e` in an operation at `now`, after a run from `e₀`. -/
def Passes (e₀ : SimEngine env) (now : Instant) (e : SimEngine env) : Prop :=
  ∃ turns e₁ clock effects, Run e₀ turns e₁ clock ∧ clock ≤ now ∧ Path (Move now) e₁ effects e

namespace Passes

variable {e₀ e : SimEngine env}

theorem invariant {I : SimEngine env → Prop} (h : Passes e₀ now e) (hinit : I e₀)
    (hmove : ∀ now e effect e', I e → Move now e effect e' → I e') : I e := by
  obtain ⟨turns, e₁, clock, effects, hrun, _, hpath⟩ := h
  exact hpath.invariant (hrun.invariant hinit hmove) (hmove now)

theorem prefillsRemain (h : Passes e₀ now e) (hfresh : Fresh e₀) :
    Sound e ∧ e.PrefillsRemain := by
  apply h.invariant (I := fun e => Sound e ∧ e.PrefillsRemain)
  · refine ⟨hfresh.sound, ?_⟩
    obtain ⟨engineIndex, opt, tokenSource, stepSource, hnew⟩ := hfresh
    obtain ⟨latency, _, rfl⟩ := except_map_eq_ok hnew
    intro id r remaining hr
    cases hr
  · exact fun now e effect e' he hmove =>
      ⟨hmove.sound he.1, hmove.prefillsRemain he.1 he.2⟩

end Passes

namespace SimEngine

section Compose

variable (e : SimEngine env)

theorem drawDecoders_phase (id : String) :
    (e.drawDecoders.1.activeRequests.get? id).map ActiveRequest.phase =
      (e.activeRequests.get? id).map ActiveRequest.phase := by
  simp only [drawDecoders, SortedMap.get?_mapValues, Option.map_map]
  congr 1
  funext r
  rw [Function.comp_apply]
  split
  · exact (drawStep_stands _ _ r).2.2
  · rfl

theorem drawDecoders_isPrefilling (id : String) :
    isPrefilling e.drawDecoders.1.activeRequests id = isPrefilling e.activeRequests id := by
  have hphase := e.drawDecoders_phase id
  unfold isPrefilling
  cases hget : e.drawDecoders.1.activeRequests.get? id with
  | none =>
      rw [hget] at hphase
      cases hget' : e.activeRequests.get? id with
      | none => rfl
      | some r => simp [hget'] at hphase
  | some r =>
      rw [hget] at hphase
      cases hget' : e.activeRequests.get? id with
      | none => simp [hget'] at hphase
      | some r' =>
          rw [hget', Option.map_some, Option.map_some, Option.some.injEq] at hphase
          simp only [Option.any_some, hphase]

theorem drawDecoders_chunkDemand (threshold : ℕ) :
    chunkDemand e.drawDecoders.1.activeRequests threshold =
      chunkDemand e.activeRequests threshold := by
  funext id
  have hphase := e.drawDecoders_phase id
  rw [chunkDemand, chunkDemand]
  cases hdrawn : e.drawDecoders.1.activeRequests.get? id with
  | none =>
      cases hr : e.activeRequests.get? id with
      | none => rfl
      | some r =>
          rw [hdrawn, hr] at hphase
          cases hphase
  | some drawn =>
      cases hr : e.activeRequests.get? id with
      | none =>
          rw [hdrawn, hr] at hphase
          cases hphase
      | some r =>
          rw [hdrawn, hr, Option.map_some, Option.map_some, Option.some.injEq] at hphase
          rw [Option.map_some, Option.map_some, ActiveRequest.uncached, hphase,
            ← ActiveRequest.uncached]

theorem prunePrefills_order :
    e.drawDecoders.1.prunePrefills.prefillOrder = e.prunedOrder := by
  rw [prunePrefills_prefillOrder, prunedOrder]
  exact List.filter_congr (fun id _ => e.drawDecoders_isPrefilling id)

end Compose

theorem nodup_decoding {e : SimEngine env} (hfiled : e.ActiveFiled) :
    (e.decoding.map ActiveRequest.requestId).Nodup := by
  have hkeys : e.activeRequests.values.map ActiveRequest.requestId = e.activeRequests.keys := by
    rw [SortedMap.values, SortedMap.keys, List.map_map]
    exact List.map_congr_left (fun a ha => hfiled a.1 a.2 (SortedMap.mem_entries.mp ha))
  have hnodup := e.activeRequests.nodup_keys
  rw [← hkeys] at hnodup
  exact hnodup.sublist (List.filter_sublist.map _)

/-- The ids of a composed step's chunks are the entries of the pruned order within the budget. -/
theorem composeStep_chunkIds {anchor : Instant} {e : SimEngine env} {step : EngineStep}
    (hidle : e.currentStep = none) (h : (e.composeStep anchor).currentStep = some step) :
    step.chunks.map ChunkEntry.requestId =
      budgetReaches (chunkDemand e.activeRequests e.opt.longPrefillTokenThreshold) e.chunkBudget
        e.prunedOrder := by
  rw [(composeStep_step hidle h).2, chunkPlan, planChunks_ids]
  · rw [prunePrefills_activeRequests, drawDecoders_chunkDemand, prunePrefills_order]
    rfl
  · intro id hid
    exact (List.mem_filter.mp hid).2

/-- A chunk takes at most what its request has left, and something of it. -/
theorem composeStep_chunk {anchor : Instant} {e : SimEngine env} {step : EngineStep}
    (hremain : e.PrefillsRemain) (hidle : e.currentStep = none)
    (h : (e.composeStep anchor).currentStep = some step) {c : ChunkEntry} (hc : c ∈ step.chunks) :
    ∃ r remaining, e.activeRequests.get? c.requestId = some r ∧ r.phase = .prefill remaining ∧
      1 ≤ c.take ∧ c.take ≤ remaining ∧
      (0 < e.opt.longPrefillTokenThreshold → c.take ≤ e.opt.longPrefillTokenThreshold) := by
  rw [(composeStep_step hidle h).2] at hc
  obtain ⟨r', remaining, hr', hphase', _, hle, hthreshold, htake⟩ := mem_planChunks hc
  obtain ⟨r, hr, _, hphase⟩ := composeStep_stands anchor e c.requestId r' hr'
  have hprefill : r.phase = .prefill remaining := hphase.symm.trans hphase'
  exact ⟨r, remaining, hr, hprefill, htake (hremain _ r remaining hr hprefill), hle, hthreshold⟩

end SimEngine

/-- The step was composed in a state that the engine passed through. -/
def Composed (e₀ : SimEngine env) (step : EngineStep) : Prop :=
  ∃ now e anchor, Passes e₀ now e ∧ e.currentStep = none ∧
    (e.composeStep anchor).currentStep = some step

theorem Move.composed_of {e₀ e e' : SimEngine env} {effect : Effect} {step : EngineStep}
    (h : Move now e effect e') (hfresh : Fresh e₀) (hpass : Passes e₀ now e)
    (he : ∀ step, e.currentStep = some step → Composed e₀ step)
    (hstep : e'.currentStep = some step) : Composed e₀ step := by
  cases h.batch (hpass.prefillsRemain hfresh).1 with
  | still _ _ hkept => exact he step (hkept ▸ hstep)
  | entered _ _ _ _ _ hkept => exact he step (hkept ▸ hstep)
  | withdrew _ _ hkept => exact he step (hkept ▸ hstep)
  | composed anchor hidle => exact ⟨now, e, anchor, hpass, hidle, hstep⟩
  | executed =>
      rw [executeStep_currentStep] at hstep
      cases hstep
  | flushed => exact he step ((e.flush_flushed now).currentStep ▸ hstep)

/-- Every step in flight was composed in a state that the engine passed through. -/
theorem Passes.inFlight {e₀ e : SimEngine env} {step : EngineStep} (hfresh : Fresh e₀)
    (hpass : Passes e₀ now e) (hstep : e.currentStep = some step) : Composed e₀ step := by
  have hpath : ∀ {turns e₁ clock now effects e}, Run e₀ turns e₁ clock → clock ≤ now →
      (∀ step, e₁.currentStep = some step → Composed e₀ step) → Path (Move now) e₁ effects e →
        ∀ step, e.currentStep = some step → Composed e₀ step := by
    intro turns e₁ clock now effects e hrun hclock hinit hpath
    induction hpath with
    | nil => exact hinit
    | snoc hpre hmove ih =>
        exact fun step => hmove.composed_of hfresh ⟨turns, e₁, clock, _, hrun, hclock, hpre⟩ ih
  obtain ⟨turns, e₁, clock, effects, hrun, hclock, hmoves⟩ := hpass
  have hreached : Run e₀ turns e₁ clock ∧
      ∀ step, e₁.currentStep = some step → Composed e₀ step := by
    apply hrun.turnwise (P := fun turns e clock => Run e₀ turns e clock ∧
      ∀ step, e.currentStep = some step → Composed e₀ step)
    · refine ⟨Path.nil _, ?_⟩
      obtain ⟨engineIndex, opt, tokenSource, stepSource, hnew⟩ := hfresh
      obtain ⟨latency, _, rfl⟩ := except_map_eq_ok hnew
      intro step hnone
      cases hnone
    · intro turns clock fuel t ⟨hbefore, hsteps⟩ hle hperform
      obtain ⟨os, ⟨effects, hturn, _⟩, _⟩ := perform_emits hperform
      exact ⟨hbefore.snoc ⟨rfl, rfl, hle, rfl, fuel, hperform⟩, hpath hbefore hle hsteps hturn⟩
  exact hpath hrun hclock hreached.2 hmoves step hstep

theorem composeStep_listsOnce_iff {e : SimEngine env} {anchor : Instant} {step : EngineStep}
    (hidle : e.currentStep = none) (hstep : (e.composeStep anchor).currentStep = some step) :
    (step.chunks.map ChunkEntry.requestId).Nodup ↔ e.ListsOnce := by
  rw [composeStep_chunkIds hidle hstep, nodup_budgetReaches, ListsOnce]

/-- A step composed in any state that the engine passes through is a well-formed schedule exactly
when the prefill order there lists no request twice within the budget's reach. -/
theorem composed_wellFormed_iff {e₀ e : SimEngine env} {anchor : Instant} {step : EngineStep}
    (hfresh : Fresh e₀) (hpass : Passes e₀ now e) (hidle : e.currentStep = none)
    (hstep : (e.composeStep anchor).currentStep = some step) :
    step.WellFormed e ↔ e.ListsOnce := by
  obtain ⟨hsound, hremain⟩ := hpass.prefillsRemain hfresh
  have hdecoders := (composeStep_step hidle hstep).1
  have honce := composeStep_listsOnce_iff hidle hstep
  have hchunk := fun c => composeStep_chunk (c := c) hremain hidle hstep
  constructor
  · exact fun h => honce.mp h.chunks
  · intro hlists
    refine ⟨?_, honce.mpr hlists, ?_, fun c => hchunk c, ?_⟩
    · have hids : step.decoders.map DecoderEntry.requestId =
          e.decoding.map ActiveRequest.requestId := by
        rw [hdecoders, drawDecoders, List.map_map]
        rfl
      rw [hids]
      exact nodup_decoding hsound.active
    · intro d hd c hc heq
      rw [hdecoders] at hd
      obtain ⟨s, hdecoding, rfl⟩ := List.mem_map.mp hd
      obtain ⟨hs, hdecodes⟩ := List.mem_filter.mp hdecoding
      obtain ⟨id, hget⟩ := SortedMap.mem_values.mp hs
      obtain ⟨r, remaining, hr, hphase, _⟩ := hchunk c hc
      have hsame : s = r := by
        rw [← hsound.active id s hget] at hget
        rw [← heq] at hr
        exact Option.some.inj (hget.symm.trans hr)
      rw [ActiveRequest.isDecoding, Bool.and_eq_true, decide_eq_true_eq, hsame, hphase] at hdecodes
      cases hdecodes.1
    · rw [(composeStep_step hidle hstep).2, hdecoders]
      exact planChunks_budget _ _

def fourSeqsOpt : Opt := { demoOpt with maxNumSeqs := 4 }

/-- Two requests arrive while two others prefill. -/
def crowdedArrivals : List (Instant × Op) :=
  [(0, .input (.request (demoRequest "a" 3))), (0, .input (.request (demoRequest "b" 3))),
    (0, .step),
    (1 / 50, .input (.request { demoRequest "c" 2 with promptTokenIds := some [0, 0, 0] })),
    (1 / 50, .input (.request (demoRequest "d" 2))), (1 / 10, .step)]

/-- Two decoders and two chunks in one step. -/
theorem crowdedArrivals_compose : ∃ (e : SimEngine demoEnv) (step : EngineStep),
    step.decoders.map DecoderEntry.requestId = ["a", "b"] ∧
      step.chunks.map ChunkEntry.requestId = ["c", "d"] ∧ step.WellFormed e := by
  have hplays : ((demo fourSeqsOpt none).play 20 crowdedArrivals).any (fun played =>
      played.2.currentStep.any (fun step =>
        step.decoders.map DecoderEntry.requestId = ["a", "b"] ∧
          step.chunks.map ChunkEntry.requestId = ["c", "d"])) = true := by
    decide +kernel
  obtain ⟨turns, e, clock, hrun, _, hfound⟩ := Run.of_script (p := fun _ e =>
    e.currentStep.any (fun step => step.decoders.map DecoderEntry.requestId = ["a", "b"] ∧
      step.chunks.map ChunkEntry.requestId = ["c", "d"])) hplays (by decide +kernel)
  obtain ⟨step, hflight, hids⟩ := (Option.any_eq_true _ _).mp hfound
  obtain ⟨hdecoders, hchunks⟩ := of_decide_eq_true hids
  have hfresh := demo_fresh fourSeqsOpt none rfl
  have hpass : Passes (demo fourSeqsOpt none) clock e :=
    ⟨turns, e, clock, [], hrun, le_rfl, Path.nil e⟩
  obtain ⟨now, e', anchor, hpass', hidle, hstep⟩ := hpass.inFlight hfresh hflight
  have honce : (step.chunks.map ChunkEntry.requestId).Nodup := by
    rw [hchunks]
    decide
  refine ⟨e', step, hdecoders, hchunks, ?_⟩
  exact (composed_wellFormed_iff hfresh hpass' hidle hstep).mpr
    ((composeStep_listsOnce_iff hidle hstep).mp honce)

/-- A request aborted while it prefills and added again: its stale entry is listed as well. -/
def relistedScript : List (Instant × Op) :=
  [(0, .input (.request (demoRequest "b" 3))), (0, .step),
    (1 / 50, .input (.request (demoRequest "a" 2))), (1 / 50, .input (.abort ["a"])),
    (1 / 50, .input (.request (demoRequest "a" 2))), (1 / 10, .step)]

theorem relisted_chunks :
    ¬ ∀ turns (e : SimEngine demoEnv) clock step, Run (demo demoOpt none) turns e clock →
      e.currentStep = some step → (step.chunks.map ChunkEntry.requestId).Nodup := by
  intro hclaim
  have hplays : ((demo demoOpt none).play 20 relistedScript).any (fun played =>
      played.2.currentStep.any (fun step =>
        ¬ (step.chunks.map ChunkEntry.requestId).Nodup)) = true := by
    decide +kernel
  obtain ⟨turns, e, clock, hrun, _, hfound⟩ := Run.of_script (p := fun _ e =>
    e.currentStep.any (fun step => ¬ (step.chunks.map ChunkEntry.requestId).Nodup)) hplays
    (by decide +kernel)
  obtain ⟨step, hstep, hrepeats⟩ := (Option.any_eq_true _ _).mp hfound
  exact of_decide_eq_true hrepeats (hclaim turns e clock step hrun hstep)

end VllmVcr
