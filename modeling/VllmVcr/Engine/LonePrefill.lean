import Mathlib.Algebra.Order.Ring.NNRat
import VllmVcr.LatencyRange
import VllmVcr.Engine.CatchUp
import VllmVcr.Engine.FirstCome

/-!
# A prefill on its own

The step stream of a request that runs alone, under a model fitted from a trace: what its chunk
steps are charged, and when its first token is due. A charge at which the model panics is none.
-/

namespace VllmVcr

/-! ## Charges -/

namespace TraceLatency

variable (t : TraceLatency)

/-- What the engine charges a step that only prefills, with this much of the prompt left. -/
def stepCharge (promptLen left : ℕ) : Option Duration :=
  let take := min left t.budgetTokens
  (t.prefillChunkCost take (promptLen - left)).bind (fun cost =>
    if take = t.budgetTokens then t.budgetFullChunkFloor.map (max cost) else some cost)

/-- The charges of `n` steps of the whole budget and the one for the last `last` tokens. -/
def stepCharges (promptLen last : ℕ) : ℕ → Option Duration
  | 0 => t.stepCharge promptLen last
  | n + 1 => (t.stepCharge promptLen ((n + 1) * t.budgetTokens + last)).bind (fun charge =>
      (stepCharges promptLen last n).map (charge + ·))

/-- The prompt tokens to be computed; a fully cached prompt still computes one. -/
def uncachedTokens (promptLen cached : ℕ) : ℕ := max (promptLen - cached) 1

def lastTokens (promptLen cached : ℕ) : ℕ :=
  (uncachedTokens promptLen cached - 1) % t.budgetTokens + 1

def fullSteps (promptLen cached : ℕ) : ℕ := (uncachedTokens promptLen cached - 1) / t.budgetTokens

/-- The charges of the chunk steps of a request that runs alone. -/
def aloneCharges (promptLen cached : ℕ) : Option Duration :=
  t.stepCharges promptLen (t.lastTokens promptLen cached) (t.fullSteps promptLen cached)

/-- What the overhead takes the chunk steps to be charged. -/
def aloneCharged (promptLen cached : ℕ) : Option Duration :=
  t.charged (uncachedTokens promptLen cached + 1) (uncachedTokens promptLen cached) cached

variable {t}

theorem uncachedTokens_eq (t : TraceLatency) (promptLen cached : ℕ) :
    uncachedTokens promptLen cached =
      t.fullSteps promptLen cached * t.budgetTokens + t.lastTokens promptLen cached := by
  have hpos : 1 ≤ uncachedTokens promptLen cached := le_max_right _ _
  have hdiv := Nat.div_add_mod (uncachedTokens promptLen cached - 1) t.budgetTokens
  unfold fullSteps lastTokens
  rw [Nat.mul_comm]
  omega

theorem lastTokens_le (hbudget : 0 < t.budgetTokens) (promptLen cached : ℕ) :
    t.lastTokens promptLen cached ≤ t.budgetTokens :=
  Nat.mod_lt _ hbudget

/-- A step is charged its chunk, and the floor at least if the chunk takes the whole budget. -/
theorem stepCharge_some {promptLen left : ℕ} {charge : Duration}
    (h : t.stepCharge promptLen left = some charge) :
    ∃ cost, t.prefillChunkCost (min left t.budgetTokens) (promptLen - left) = some cost ∧
      (min left t.budgetTokens = t.budgetTokens →
        ∃ floor, t.budgetFullChunkFloor = some floor ∧ charge = max cost floor) ∧
      (min left t.budgetTokens ≠ t.budgetTokens → charge = cost) := by
  obtain ⟨cost, hcost, hcharge⟩ := Option.bind_eq_some_iff.mp h
  refine ⟨cost, hcost, fun hfull => ?_, fun hpart => ?_⟩
  · rw [if_pos hfull] at hcharge
    obtain ⟨floor, hfloor, rfl⟩ := Option.map_eq_some_iff.mp hcharge
    exact ⟨floor, hfloor, rfl⟩
  · rw [if_neg hpart] at hcharge
    exact (Option.some.inj hcharge).symm

/-- The first of the steps is charged no more than all of them. -/
theorem stepCharges_head {promptLen last n : ℕ} {charges : Duration}
    (h : t.stepCharges promptLen last n = some charges) :
    ∃ charge, t.stepCharge promptLen (n * t.budgetTokens + last) = some charge ∧
      charge ≤ charges := by
  cases n with
  | zero =>
      rw [Nat.zero_mul, Nat.zero_add]
      exact ⟨charges, h, le_rfl⟩
  | succ n =>
      obtain ⟨charge, hcharge, hmore⟩ := Option.bind_eq_some_iff.mp h
      obtain ⟨rest, _, rfl⟩ := Option.map_eq_some_iff.mp hmore
      exact ⟨charge, hcharge, le_self_add⟩

/-- The charges of the chunks before the last, and both charges of the last one. -/
structure ChargeSplit (t : TraceLatency) (promptLen last depth : ℕ)
    (charges charged : Duration) where
  full : Duration
  charge : Duration
  cost : Duration
  charges_eq : charges = full + charge
  charged_eq : charged = full + cost
  last_charge : t.stepCharge promptLen last = some charge
  last_cost : t.prefillChunkCost last depth = some cost

/-- The engine and the overhead charge a chunk before the last alike, and the last one each in its
own way. -/
theorem charged_split {promptLen last n fuel depth : ℕ} (hle : last ≤ t.budgetTokens)
    (hlast : 0 < last) (hprompt : promptLen = depth + (n * t.budgetTokens + last))
    (hfuel : n < fuel) {charges : Duration}
    (hcharges : t.stepCharges promptLen last n = some charges) (hlimit : charges < durationLimit) :
    ∃ charged, t.charged fuel (n * t.budgetTokens + last) depth = some charged ∧
      charged ≤ charges ∧
      Nonempty (t.ChargeSplit promptLen last (promptLen - last) charges charged) := by
  induction n generalizing fuel depth charges with
  | zero =>
      obtain ⟨fuel, rfl⟩ := Nat.exists_eq_succ_of_ne_zero (by omega : fuel ≠ 0)
      have hcharge : t.stepCharge promptLen last = some charges := hcharges
      obtain ⟨cost, hcost, hfull, hpart⟩ := stepCharge_some hcharge
      rw [Nat.min_eq_left hle] at hcost hfull hpart
      have hdepth : promptLen - last = depth := by omega
      refine ⟨cost, ?_, ?_,
        ⟨0, charges, cost, (zero_add _).symm, (zero_add _).symm, hcharge, hcost⟩⟩
      · rw [charged, Nat.zero_mul, Nat.zero_add, if_neg (by omega), ← hdepth, hcost]
      · by_cases hbudget : last = t.budgetTokens
        · obtain ⟨floor, -, rfl⟩ := hfull hbudget
          exact le_max_left _ _
        · exact (hpart hbudget).ge
  | succ n ih =>
      obtain ⟨fuel, rfl⟩ := Nat.exists_eq_succ_of_ne_zero (by omega : fuel ≠ 0)
      obtain ⟨charge, hcharge, hmore⟩ := Option.bind_eq_some_iff.mp hcharges
      obtain ⟨rest, hrest, rfl⟩ := Option.map_eq_some_iff.mp hmore
      have hsplit : (n + 1) * t.budgetTokens + last =
          t.budgetTokens + (n * t.budgetTokens + last) := by ring
      have hdepth : promptLen - ((n + 1) * t.budgetTokens + last) = depth := by omega
      obtain ⟨cost, hcost, hfull, -⟩ := stepCharge_some hcharge
      have htake : min ((n + 1) * t.budgetTokens + last) t.budgetTokens = t.budgetTokens :=
        Nat.min_eq_right (by omega)
      rw [htake, hdepth] at hcost
      obtain ⟨floor, hfloor, rfl⟩ := hfull htake
      have hrest_prompt : promptLen =
          depth + t.budgetTokens + (n * t.budgetTokens + last) := by omega
      obtain ⟨charged, hcharged, hbound, ⟨split⟩⟩ := ih hrest_prompt (Nat.lt_of_succ_lt_succ hfuel)
        hrest (lt_of_le_of_lt le_add_self hlimit)
      have hsum : max cost floor + charged ≤ max cost floor + rest := add_le_add_right hbound _
      have hleft : (n + 1) * t.budgetTokens + last - t.budgetTokens =
          n * t.budgetTokens + last := by omega
      refine ⟨max cost floor + charged, ?_, hsum, ⟨max cost floor + split.full, split.charge,
        split.cost, ?_, ?_, split.last_charge, split.last_cost⟩⟩
      · rw [TraceLatency.charged, if_pos (by omega), hcost, hfloor, hleft, Option.bind_some,
          Option.bind_some, hcharged, Option.bind_some, addDuration,
          if_pos (lt_of_le_of_lt hsum hlimit)]
      · rw [add_assoc, ← split.charges_eq]
      · rw [add_assoc, ← split.charged_eq]

theorem uncached_of_lt {promptLen cached : ℕ} (hcached : cached < promptLen) :
    uncachedTokens promptLen cached = promptLen - cached := by
  rw [uncachedTokens]
  omega

/-- A prompt with tokens to compute. -/
theorem aloneCharged_split (hbudget : 0 < t.budgetTokens) {promptLen cached : ℕ}
    (hcached : cached < promptLen) {charges : Duration}
    (hcharges : t.aloneCharges promptLen cached = some charges) (hlimit : charges < durationLimit) :
    ∃ charged, t.aloneCharged promptLen cached = some charged ∧
      Nonempty (t.ChargeSplit promptLen (t.lastTokens promptLen cached)
        (promptLen - t.lastTokens promptLen cached) charges charged) := by
  have hsplit := uncachedTokens_eq t promptLen cached
  have huncached := uncached_of_lt hcached
  have hsteps : t.fullSteps promptLen cached ≤ uncachedTokens promptLen cached := by
    have hdiv := Nat.div_le_self (uncachedTokens promptLen cached - 1) t.budgetTokens
    unfold fullSteps
    omega
  have hprompt : promptLen = cached + (t.fullSteps promptLen cached * t.budgetTokens +
      t.lastTokens promptLen cached) := by omega
  obtain ⟨charged, hcharged, -, split⟩ := charged_split (lastTokens_le hbudget promptLen cached)
    (Nat.succ_pos _) hprompt (Nat.lt_succ_of_le hsteps) hcharges hlimit
  rw [← hsplit] at hcharged
  exact ⟨charged, hcharged, split⟩

/-- A fully cached prompt is computed in one step of one token, at the depth of its last token; the
overhead takes it to be at the depth of the whole. -/
theorem alone_of_cached (t : TraceLatency) {promptLen cached : ℕ} (hcached : promptLen ≤ cached) :
    t.aloneCharges promptLen cached = t.stepCharge promptLen 1 ∧
      (0 < t.budgetTokens → t.aloneCharged promptLen cached = t.prefillChunkCost 1 cached) := by
  have hone : uncachedTokens promptLen cached = 1 := by
    rw [uncachedTokens, Nat.sub_eq_zero_of_le hcached]
    rfl
  have hzero : t.fullSteps promptLen cached = 0 := by simp [fullSteps, hone]
  have htoken : t.lastTokens promptLen cached = 1 := by simp [lastTokens, hone]
  constructor
  · rw [aloneCharges, hzero, htoken, stepCharges]
  · intro hbudget
    rw [aloneCharged, hone, charged, if_neg (by omega)]

/-- When the last chunk of a request alone is charged what the overhead takes it to be. -/
def ChargesAgree (t : TraceLatency) (promptLen cached : ℕ) (total : Duration) : Prop :=
  if cached < promptLen then
    t.budgetTokens ∣ promptLen - cached → ∀ floor ∈ t.budgetFullChunkFloor,
      ∀ cost ∈ t.prefillChunkCost t.budgetTokens (promptLen - t.budgetTokens), floor ≤ cost
  else
    ∃ cost ∈ t.prefillChunkCost 1 cached, t.stepCharge promptLen 1 = some cost ∨
      t.stepCharge promptLen 1 = some total ∧ total ≤ cost

theorem lastTokens_eq_budget_iff (hbudget : 0 < t.budgetTokens) {promptLen cached : ℕ}
    (hcached : cached < promptLen) :
    t.lastTokens promptLen cached = t.budgetTokens ↔ t.budgetTokens ∣ promptLen - cached := by
  have hle := lastTokens_le hbudget promptLen cached
  rw [← uncached_of_lt hcached, uncachedTokens_eq t, Nat.dvd_add_right (Nat.dvd_mul_left _ _)]
  constructor
  · exact fun h => h ▸ Nat.dvd_refl _
  · exact fun h => Nat.le_antisymm hle (Nat.le_of_dvd (Nat.succ_pos _) h)

/-- Of a chunk of the whole budget, the engine charges at least the floor. -/
theorem lastCharge_eq_iff (total : Duration) (hbudget : 0 < t.budgetTokens) {promptLen cached : ℕ}
    (hcached : cached < promptLen) {charge cost : Duration}
    (hcharge : t.stepCharge promptLen (t.lastTokens promptLen cached) = some charge)
    (hcost : t.prefillChunkCost (t.lastTokens promptLen cached)
      (promptLen - t.lastTokens promptLen cached) = some cost) :
    cost ≤ charge ∧ (charge = cost ↔ t.ChargesAgree promptLen cached total) := by
  have hle := lastTokens_le hbudget promptLen cached
  obtain ⟨cost', hcost', hfull, hpart⟩ := stepCharge_some hcharge
  rw [Nat.min_eq_left hle] at hcost' hfull hpart
  obtain rfl := Option.some.inj (hcost'.symm.trans hcost)
  rw [ChargesAgree, if_pos hcached, ← lastTokens_eq_budget_iff hbudget hcached]
  by_cases hlast : t.lastTokens promptLen cached = t.budgetTokens
  · obtain ⟨floor, hfloor, rfl⟩ := hfull hlast
    rw [hlast] at hcost
    refine ⟨le_max_left _ _, ?_⟩
    simp only [hlast, hfloor, hcost, Option.mem_some_iff, forall_eq', forall_const,
      max_eq_left_iff]
  · obtain rfl := hpart hlast
    exact ⟨le_rfl, fun _ h => absurd h hlast, fun _ => rfl⟩

theorem add_rest_eq_iff {full charge cost total : Duration} (hcost : cost ≤ charge)
    (hcover : full + charge ≤ total) :
    full + charge + (total - (full + cost)) = total ↔ charge = cost := by
  obtain ⟨rest, rfl⟩ := exists_add_of_le hcover
  obtain ⟨extra, rfl⟩ := exists_add_of_le hcost
  have hleft : full + (cost + extra) + rest - (full + cost) = extra + rest := by
    rw [← add_assoc, add_assoc, add_tsub_cancel_left]
  rw [hleft, add_right_inj, add_eq_right, add_eq_left]

theorem add_tsub_eq_iff {charge cost total : Duration} (hcover : charge ≤ total) :
    charge + (total - cost) = total ↔ charge = cost ∨ total = charge ∧ total ≤ cost := by
  rcases le_total cost total with hle | hle
  · obtain ⟨rest, rfl⟩ := exists_add_of_le hle
    rw [add_tsub_cancel_left, add_left_inj]
    constructor
    · exact Or.inl
    · rintro (h | ⟨htotal, hbound⟩)
      · exact h
      · exact htotal ▸ le_antisymm hbound hle
  · rw [tsub_eq_zero_of_le hle, add_zero]
    constructor
    · exact fun h => Or.inr ⟨h.symm, hle⟩
    · rintro (h | ⟨htotal, _⟩)
      · exact le_antisymm hcover (h ▸ hle)
      · exact htotal.symm

/-- The charges and what the overhead leaves of the delay make up the delay. -/
theorem due_eq_iff (hbudget : 0 < t.budgetTokens) {promptLen cached : ℕ}
    {charges total : Duration} (hcharges : t.aloneCharges promptLen cached = some charges)
    (hcover : charges ≤ total) (hlimit : total < durationLimit) :
    (∃ charged, t.aloneCharged promptLen cached = some charged ∧
      charges + (total - charged) = total) ↔ t.ChargesAgree promptLen cached total := by
  by_cases hcached : cached < promptLen
  · obtain ⟨charged, hcharged, ⟨split⟩⟩ := aloneCharged_split hbudget hcached hcharges
      (lt_of_le_of_lt hcover hlimit)
    obtain ⟨hcost, hagree⟩ :=
      lastCharge_eq_iff total hbudget hcached split.last_charge split.last_cost
    rw [← hagree, ← add_rest_eq_iff hcost (split.charges_eq ▸ hcover), ← split.charges_eq,
      ← split.charged_eq, hcharged]
    simp
  · obtain ⟨hstep, hcharged⟩ := t.alone_of_cached (Nat.le_of_not_lt hcached)
    rw [hstep] at hcharges
    rw [ChargesAgree, if_neg hcached, hcharged hbudget, hcharges]
    simp only [add_tsub_eq_iff hcover, Option.mem_def, Option.some.injEq, eq_comm]

end TraceLatency

/-! ## One request in the batch -/

variable {env : Env} {t : TraceLatency} {id : String} {r : ActiveRequest env} {left : ℕ}
  {e : SimEngine env}

/-- The engine runs one request, with this much of its prompt left, under the model. -/
structure SimEngine.Alone (t : TraceLatency) (id : String) (r : ActiveRequest env) (left : ℕ)
    (e : SimEngine env) : Prop where
  active : ∀ k, e.activeRequests.get? k =
    if k = id then some { r with phase := .prefill left } else none
  waiting : e.waiting = []
  order : e.prefillOrder.filter (· = id) = [id]
  latency : t.Answers env e.latency
  timeScale : e.opt.effectiveTimeScale = 1
  threshold : e.opt.longPrefillTokenThreshold = 0
  budget : e.opt.stepBudget = t.budgetTokens
  opens : 0 < r.chunkLen (e.firstChunk r)
  pendingEmits : r.pendingEmits = []

/-- The step that computes the next chunk of the request's prompt. -/
def prefillStep (t : TraceLatency) (id : String) (r : ActiveRequest env) (left : ℕ)
    (endsAt : Instant) : EngineStep where
  endsAt := endsAt
  decoders := []
  chunks := [⟨id, min left t.budgetTokens, r.ticket⟩]

namespace SimEngine.Alone

theorem decoding (h : e.Alone t id r left) : e.decoding = [] := by
  refine List.filter_eq_nil_iff.mpr (fun r' hr' => ?_)
  obtain ⟨k, hk⟩ := SortedMap.mem_values.mp hr'
  rw [h.active] at hk
  split_ifs at hk
  cases hk
  simp [ActiveRequest.isDecoding]

theorem drawDecoders (h : e.Alone t id r left) : e.drawDecoders = (e, []) := by
  have hactive : e.activeRequests.mapValues
      (fun _ r => if r.isDecoding then (e.drawFor r).2 else r) = e.activeRequests := by
    ext1 k
    rw [SortedMap.get?_mapValues, h.active]
    split_ifs
    · simp [ActiveRequest.isDecoding]
    · rfl
  rw [SimEngine.drawDecoders, h.decoding, hactive]
  simp

theorem isPrefilling (h : e.Alone t id r left) (k : String) :
    isPrefilling e.activeRequests k = decide (k = id) := by
  rw [VllmVcr.isPrefilling, h.active]
  by_cases hk : k = id
  · simp [hk]
  · simp [hk]

theorem chunkPlan (h : e.Alone t id r left) (hbudget : 0 < t.budgetTokens) {cost : Duration}
    (hcost : t.prefillChunkCost (min left t.budgetTokens) (r.promptLen - left) = some cost) :
    e.prunePrefills.chunkPlan [] = ([⟨id, min left t.budgetTokens, r.ticket⟩],
      t.budgetTokens - min left t.budgetTokens, cost) := by
  have horder : e.prunePrefills.prefillOrder = [id] := by
    rw [prunePrefills_prefillOrder, ← h.order]
    exact List.filter_congr (fun k _ => h.isPrefilling k)
  have hget : e.activeRequests.get? id = some { r with phase := .prefill left } := by
    rw [h.active, if_pos rfl]
  have hplan : e.prunePrefills.chunkPlan [] = planChunks e.activeRequests
      e.opt.longPrefillTokenThreshold e.latency.prefillChunkCost [id] e.opt.stepBudget := by
    rw [SimEngine.chunkPlan, horder]
    rfl
  have hasked := h.latency.prefillChunkCost _ _ cost hcost
  rw [hplan, h.threshold, h.budget]
  simp only [planChunks, hget, hbudget.ne', if_false, lt_irrefl, add_zero]
  rw [hasked]

/-- With the batch to itself, the request is given as much of a step as the budget allows. -/
theorem composeStep (h : e.Alone t id r left) (hbudget : 0 < t.budgetTokens) {charge : Duration}
    (hcharge : t.stepCharge r.promptLen left = some charge) (anchor : Instant) :
    (e.composeStep anchor).Alone t id r left ∧
      (e.composeStep anchor).currentStep = some (prefillStep t id r left (anchor + charge)) := by
  have hbase : e.decodeBase = 0 := by
    rw [decodeBase, h.decoding]
    rfl
  constructor
  · have hprefills : (e.composeStep anchor).prefillOrder = [id] := by
      have hpruned : (e.composeStep anchor).prefillOrder =
          e.drawDecoders.1.prunePrefills.prefillOrder := rfl
      rw [hpruned, h.drawDecoders, prunePrefills_prefillOrder, ← h.order]
      exact List.filter_congr (fun k _ => h.isPrefilling k)
    have hactive : (e.composeStep anchor).activeRequests = e.drawDecoders.1.activeRequests := rfl
    refine ⟨?_, h.waiting, ?_, h.latency, h.timeScale, h.threshold, h.budget,
      h.opens, h.pendingEmits⟩
    · rw [hactive, h.drawDecoders]
      exact h.active
    · rw [hprefills]
      simp
  · obtain ⟨cost, hcost, hfull, hpart⟩ := TraceLatency.stepCharge_some hcharge
    have hcharged : (if t.budgetTokens - min left t.budgetTokens = 0 then
        max cost e.latency.budgetFullChunkFloor else cost) = charge := by
      by_cases htake : min left t.budgetTokens = t.budgetTokens
      · obtain ⟨floor, hfloor, rfl⟩ := hfull htake
        rw [if_pos (by omega), h.latency.budgetFullChunkFloor floor hfloor]
      · rw [if_neg (by omega), hpart htake]
    simp only [SimEngine.composeStep, hbase, h.drawDecoders, h.chunkPlan hbudget hcost,
      prunePrefills_latency, prunePrefills_opt, h.timeScale, ne_eq, reduceCtorEq,
      not_false_eq_true, and_true, List.isEmpty_nil, List.isEmpty_cons, Bool.and_false, if_false,
      div_one, zero_le, sup_of_le_right, hcharged]
    rfl

/-- A chunk that holds a token is queued for emission. -/
theorem generateFor_emits {r : ActiveRequest env} {n : ℕ} (hopens : 0 < r.chunkLen n)
    (hscale : e.opt.effectiveTimeScale = 1) (stepEnd : Instant) (id : String) (entry : ℕ) :
    ∃ g emit, (e.generateFor stepEnd id entry false n r).journal =
        e.journal ++ [.generated g] ∧ g.emit = some emit ∧ emit.due = stepEnd + r.emitOffset := by
  simp only [generateFor, ActiveRequest.generate, if_neg hopens.ne', hscale, div_one, log_journal]
  exact ⟨_, _, rfl, rfl, rfl⟩

theorem executeStep_prefill (t : TraceLatency) (id : String) (r : ActiveRequest env) (left : ℕ)
    (e : SimEngine env) (endsAt : Instant) :
    e.executeStep (prefillStep t id r left endsAt) =
      completeChunk endsAt e.numRunning (e.log (.completed (prefillStep t id r left endsAt)))
        ⟨id, min left t.budgetTokens, r.ticket⟩ := by
  have hspec : ∀ e : SimEngine env, e.foldSpecStats [] = e := by
    intro e
    unfold foldSpecStats
    split
    · rfl
    · rfl
  simp only [SimEngine.executeStep, prefillStep, List.foldl_nil, hspec, List.foldl_cons]

/-- A step that does not end the prefill takes the whole budget off it. -/
theorem executeStep_more (h : e.Alone t id r left) (hmore : t.budgetTokens < left)
    (endsAt : Instant) :
    (e.executeStep (prefillStep t id r left endsAt)).Alone t id r (left - t.budgetTokens) ∧
      (e.executeStep (prefillStep t id r left endsAt)).journal = e.journal ++
        [.completed (prefillStep t id r left endsAt),
          .chunked r.ticket r.ticket t.budgetTokens] := by
  have hget : e.activeRequests.get? id = some { r with phase := .prefill left } := by
    rw [h.active, if_pos rfl]
  have hleft : 0 < left - t.budgetTokens := by omega
  rw [executeStep_prefill]
  simp only [completeChunk, log_activeRequests, hget, Nat.min_eq_right hmore.le, hleft, if_true]
  constructor
  · refine ⟨fun k => ?_, h.waiting, h.order, h.latency, h.timeScale, h.threshold, h.budget,
      h.opens, h.pendingEmits⟩
    simp only [SortedMap.get?_insert, h.active]
    split_ifs
    · rfl
    · rfl
  · simp

/-- The step that ends the prefill generates the first chunk, due after the overhead. -/
theorem executeStep_last (h : e.Alone t id r left) (hlast : left ≤ t.budgetTokens)
    (endsAt : Instant) {offset : Duration} {rng' : env.Rng}
    (hoffset : t.firstTokenOverhead env r.rng
      ⟨r.promptLen, r.numLocalCachedTokens, false, e.numRunning⟩ = some (offset, rng')) :
    ∃ g emit, (e.executeStep (prefillStep t id r left endsAt)).journal = e.journal ++
        [.completed (prefillStep t id r left endsAt), .chunked r.ticket r.ticket left,
          .generated g] ∧ g.emit = some emit ∧ emit.due = endsAt + offset := by
  have hget : e.activeRequests.get? id = some { r with phase := .prefill left } := by
    rw [h.active, if_pos rfl]
  have hasked := h.latency.firstTokenOverhead _ _ _ hoffset
  rw [executeStep_prefill]
  simp only [completeChunk, log_activeRequests, hget, Nat.min_eq_left hlast, Nat.sub_self,
    lt_irrefl, if_false]
  obtain ⟨g, emit, hjournal, hg, hdue⟩ := generateFor_emits
    (e := noteLoad (startDecode ((e.log (.completed (prefillStep t id r left endsAt))).log
      (.chunked r.ticket r.ticket left)) e.numRunning { r with phase := .prefill left })
        ((e.log (.completed (prefillStep t id r left endsAt))).log
          (.chunked r.ticket r.ticket left)))
    (r := startDecode ((e.log (.completed (prefillStep t id r left endsAt))).log
      (.chunked r.ticket r.ticket left)) e.numRunning { r with phase := .prefill left })
    (n := e.firstChunk r) h.opens h.timeScale endsAt id r.ticket
  refine ⟨g, emit, ?_, hg, ?_⟩
  · refine hjournal.trans ?_
    simp
  · rw [hdue]
    change endsAt + (e.latency.firstTokenOverhead r.rng
      ⟨r.promptLen, r.numLocalCachedTokens, false, e.numRunning⟩).1 = endsAt + offset
    rw [hasked]

end SimEngine.Alone

/-! ## The first chunk queued -/

theorem Move.journal_extends {now : Instant} {e' : SimEngine env} {effect : Effect}
    (h : Move now e effect e') : e.journal <+: e'.journal := by
  have hsame : e'.journal = e.journal → e.journal <+: e'.journal :=
    fun h => h ▸ List.prefix_refl _
  cases h with
  | arrivalFailed | arrivalRejected | enqueued | configured | adaptersChanged | specCleared
  | statsReset | orphaned | drained | pullRefused | composed =>
      apply hsame
      simp [SimEngine.schedulerStats, SimEngine.composeStep, SimEngine.drawDecoders]
  | cacheReset =>
      apply hsame
      unfold SimEngine.resetPrefixCache
      split
      · rfl
      · rfl
  | flushed => exact hsame (e.flush_flushed now).journal
  | parked | admitted | refused | promoted => simp [SimEngine.activate]
  | @withdrawn id e₁ client ticket hwithdraw =>
      apply hsame
      rcases SimEngine.withdraw_some hwithdraw with ⟨r, _, _, _, rfl⟩ | ⟨p, _, _, _, rfl⟩ |
        ⟨i, q, _, _, _, _, rfl⟩
      · rw [SimEngine.countAborted_journal, (SimEngine.retire_flushed (.refl e) id).journal]
      · rfl
      · rfl
  | @executed step =>
      apply SimEngine.executeStep_rule (I := fun e' => e.journal <+: e'.journal)
      · exact List.prefix_append _ _
      · exact fun _ _ h => h
      · exact fun _ _ _ _ h => h.trans (List.prefix_append _ _)
      · exact fun _ _ _ _ _ _ _ _ h => h
      · exact fun _ _ h => h
      · exact fun _ _ _ _ _ _ _ _ _ h => h.trans (List.prefix_append _ _)

/-- The first chunk queued since the journal was `before`. -/
def openingEmit (before after : List Event) : Option PendingEmit :=
  ((after.drop before.length).filterMap Event.emitted).head?

/-- The first chunk queued since then is due at this time. -/
def SimEngine.Opened (before : List Event) (due : Instant) (e : SimEngine env) : Prop :=
  before <+: e.journal ∧ ∃ emit, openingEmit before e.journal = some emit ∧ emit.due = due

theorem SimEngine.Opened.extends {before : List Event} {due : Instant} {e' : SimEngine env}
    (h : e.Opened before due) (hjournal : e.journal <+: e'.journal) : e'.Opened before due := by
  obtain ⟨⟨evs, hevs⟩, emit, hopening, hdue⟩ := h
  obtain ⟨more, hmore⟩ := hjournal
  refine ⟨⟨evs ++ more, by rw [← List.append_assoc, hevs, hmore]⟩, emit, ?_, hdue⟩
  rw [openingEmit, ← hevs, List.drop_left] at hopening
  rw [openingEmit, ← hmore, ← hevs, List.append_assoc, List.drop_left, List.filterMap_append,
    List.head?_append, hopening]
  rfl

/-- What moves do, they do to the journal's end. -/
theorem SimEngine.Opened.emits {P : Effect → Prop} {now : Instant} {os : List EngineCoreOutput}
    {before : List Event} {due : Instant} {e' : SimEngine env} (h : e.Opened before due)
    (hemits : Emits P now e os e') : e'.Opened before due :=
  hemits.invariant h (fun _ _ _ _ he hmove => he.extends hmove.journal_extends)

namespace SimEngine.Alone

theorem schedule (h : e.Alone t id r left) (now : Instant) : e.schedule now = (e, []) := by
  rw [SimEngine.schedule, h.waiting]
  rfl

theorem takeStep (h : e.Alone t id r left) : e.takeStep.Alone t id r left :=
  ⟨h.active, h.waiting, h.order, h.latency, h.timeScale, h.threshold, h.budget, h.opens,
    h.pendingEmits⟩

/-- A request that prefills has nothing to emit. -/
theorem flush (h : e.Alone t id r left) (now : Instant) : (e.flush now).1 = e.popEmits now := by
  have hnone : e.dueEmits now = [] := by
    refine List.flatMap_eq_nil_iff.mpr (fun r' hr' => ?_)
    obtain ⟨k, hk⟩ := SortedMap.mem_values.mp hr'
    rw [h.active] at hk
    split_ifs at hk
    cases hk
    simp [ActiveRequest.emitDue, ActiveRequest.emitQueue, h.pendingEmits]
  simp only [SimEngine.flush, hnone]
  rfl

theorem popEmits (h : e.Alone t id r left) (now : Instant) :
    (e.popEmits now).Alone t id r left := by
  refine ⟨fun k => ?_, h.waiting, h.order, h.latency, h.timeScale, h.threshold, h.budget, h.opens,
    h.pendingEmits⟩
  rw [popEmits_activeRequests, SortedMap.get?_mapValues, h.active]
  split_ifs
  · simp [ActiveRequest.emitDue, ActiveRequest.emitQueue, h.pendingEmits]
  · rfl

end SimEngine.Alone

/-- The request's prefill goes on, and its charges end at `finish`. -/
def SimEngine.Prefilling (t : TraceLatency) (id : String) (r : ActiveRequest env)
    (before : List Event) (finish : Instant) (e : SimEngine env) : Prop :=
  ∃ n start left charge charges,
    left = n * t.budgetTokens + t.lastTokens r.promptLen r.numLocalCachedTokens ∧
    e.Alone t id r left ∧ t.stepCharge r.promptLen left = some charge ∧
    e.currentStep = some (prefillStep t id r left (start + charge)) ∧
    t.stepCharges r.promptLen (t.lastTokens r.promptLen r.numLocalCachedTokens) n = some charges ∧
    start + charges = finish ∧
    ∃ evs, e.journal = before ++ evs ∧ evs.filterMap Event.emitted = []

theorem SimEngine.composeStep_journal (anchor : Instant) (e : SimEngine env) :
    (e.composeStep anchor).journal = e.journal := rfl

theorem SimEngine.ensureStep_journal (anchor : Instant) (e : SimEngine env) :
    (e.ensureStep anchor).journal = e.journal := by
  unfold ensureStep
  split
  · rfl
  · rfl

section Clock

variable {before : List Event} {finish now : Instant} {offset : Duration} {rng' : env.Rng}

open SimEngine

/-- Executing the step in flight, then composing the next one. -/
theorem SimEngine.Prefilling.completeStep (h : e.Prefilling t id r before finish)
    (hbudget : 0 < t.budgetTokens)
    (hoffset : ∀ numRunning, t.firstTokenOverhead env r.rng
      ⟨r.promptLen, r.numLocalCachedTokens, false, numRunning⟩ = some (offset, rng'))
    {step : EngineStep} (hdue : e.dueStep now = some step) :
    (e.takeStep.completeStep now step).1.Prefilling t id r before finish ∨
      (e.takeStep.completeStep now step).1.Opened before (finish + offset) := by
  obtain ⟨n, start, left, charge, charges, hleft, halone, hcharge, hstep, hcharges, hfinish, evs,
    hjournal, hevs⟩ := h
  obtain ⟨hcurrent, hend⟩ := dueStep_some hdue
  obtain rfl := Option.some.inj (hstep.symm.trans hcurrent)
  have hlast := TraceLatency.lastTokens_le hbudget r.promptLen r.numLocalCachedTokens
  have hpos : 0 < t.lastTokens r.promptLen r.numLocalCachedTokens := Nat.succ_pos _
  rw [completeStep_eq]
  cases n with
  | zero =>
      right
      rw [Nat.zero_mul, Nat.zero_add] at hleft
      have hall : t.stepCharge r.promptLen left = some charges := hleft ▸ hcharges
      obtain rfl := Option.some.inj (hcharge.symm.trans hall)
      obtain ⟨g, emit, hexecuted, hg, hemit⟩ := halone.takeStep.executeStep_last (hleft ▸ hlast)
        (start + charge) (hoffset _)
      have hopened : (e.takeStep.executeStep (prefillStep t id r left (start + charge))).Opened
          before (finish + offset) := by
        rw [takeStep_journal, hjournal, List.append_assoc] at hexecuted
        refine ⟨⟨_, hexecuted.symm⟩, emit, ?_, ?_⟩
        · rw [hexecuted, openingEmit, List.drop_left, List.filterMap_append, hevs]
          rw [List.nil_append]
          change (List.filterMap Event.emitted [Event.generated g]).head? = some emit
          rw [List.filterMap_cons_some (show Event.emitted (.generated g) = some emit from hg)]
          rfl
        · rw [hemit, hfinish]
      have hscheduled := hopened.emits (schedule_emits (P := fun _ => False) now _)
      exact hscheduled.extends (ensureStep_journal _ _ ▸ List.prefix_refl _)
  | succ n =>
      left
      have hmore : t.budgetTokens < left := by
        rw [hleft, Nat.succ_mul]
        omega
      obtain ⟨halone', hexecuted⟩ := halone.takeStep.executeStep_more hmore (start + charge)
      have hidle : (e.takeStep.executeStep
          (prefillStep t id r left (start + charge))).currentStep = none :=
        executeStep_currentStep _ _
      have hleft' : left - t.budgetTokens =
          n * t.budgetTokens + t.lastTokens r.promptLen r.numLocalCachedTokens := by
        rw [hleft, Nat.succ_mul]
        omega
      obtain ⟨charge₁, hcharge₁, hrest⟩ := Option.bind_eq_some_iff.mp hcharges
      obtain ⟨rest, hcharges', rfl⟩ := Option.map_eq_some_iff.mp hrest
      obtain rfl := Option.some.inj (hcharge.symm.trans (hleft ▸ hcharge₁))
      obtain ⟨charge', hcharge', _⟩ := TraceLatency.stepCharges_head hcharges'
      rw [← hleft'] at hcharge'
      obtain ⟨hcomposed, hnext⟩ := halone'.composeStep hbudget hcharge'
        (prefillStep t id r left (start + charge)).endsAt
      rw [halone'.schedule, ensureStep_of_idle hidle]
      refine ⟨n, start + charge, left - t.budgetTokens, charge', rest, hleft', hcomposed, hcharge',
        hnext, hcharges', ?_, evs ++ [.completed (prefillStep t id r left (start + charge)),
          .chunked r.ticket r.ticket t.budgetTokens], ?_, ?_⟩
      · rw [← hfinish, add_assoc]
      · rw [composeStep_journal, hexecuted, takeStep_journal, hjournal, List.append_assoc]
      · rw [List.filterMap_append, hevs]
        rfl

theorem SimEngine.Prefilling.catchUp (h : e.Prefilling t id r before finish)
    (hbudget : 0 < t.budgetTokens)
    (hoffset : ∀ numRunning, t.firstTokenOverhead env r.rng
      ⟨r.promptLen, r.numLocalCachedTokens, false, numRunning⟩ = some (offset, rng')) {fuel : ℕ}
    {res : SimEngine env × List EngineOutput} (hcatch : catchUp now fuel e = some res) :
    res.1.Prefilling t id r before finish ∧ now < finish ∨
      res.1.Opened before (finish + offset) := by
  induction fuel generalizing e res with
  | zero => cases hcatch
  | succ fuel ih =>
      cases hdue : e.dueStep now with
      | none =>
          rw [catchUp_none hdue] at hcatch
          cases hcatch
          have hkept := h
          obtain ⟨n, start, left, charge, charges, hleft, halone, hcharge, hstep, hcharges,
            hfinish, hevs⟩ := hkept
          obtain ⟨charge₁, hcharge₁, hle⟩ := TraceLatency.stepCharges_head hcharges
          obtain rfl := Option.some.inj (hcharge.symm.trans (hleft ▸ hcharge₁))
          have hlater : now < (prefillStep t id r left (start + charge)).endsAt := by
            rw [dueStep, hstep, Option.filter_some] at hdue
            split_ifs at hdue with hend
            exact lt_of_not_ge (fun hle => hend (decide_eq_true hle))
          exact Or.inl ⟨h, hlater.trans_le (hfinish ▸ add_le_add_right hle start)⟩
      | some step =>
          rw [catchUp_some hdue] at hcatch
          obtain ⟨⟨rest, outs⟩, hrest, rfl⟩ := Option.map_eq_some_iff.mp hcatch
          rcases h.completeStep hbudget hoffset hdue with hnext | hopened
          · have hrec := ih hnext hrest
            exact hrec
          · have hemits := catchUp_emits (P := fun _ => True) (fun _ => trivial) hrest
            exact Or.inr (hopened.emits hemits)

/-- What `step()` does after catching up leaves a prefill alone. -/
theorem SimEngine.Prefilling.emitAndRefill (h : e.Prefilling t id r before finish)
    (caughtUp : List EngineOutput) :
    (e.emitAndRefill now caughtUp).1.Prefilling t id r before finish := by
  obtain ⟨n, start, left, charge, charges, hleft, halone, hcharge, hstep, hcharges, hfinish, evs,
    hjournal, hevs⟩ := h
  have hpopped := halone.popEmits now
  have hcurrent : (e.popEmits now).currentStep =
      some (prefillStep t id r left (start + charge)) := hstep
  have hresult : (e.emitAndRefill now caughtUp).1 = (e.popEmits now).schedulerStats.1 := by
    simp only [SimEngine.emitAndRefill, halone.flush, hpopped.schedule, ensureStep, hcurrent]
    rfl
  rw [hresult]
  exact ⟨n, start, left, charge, charges, hleft, ⟨hpopped.active, hpopped.waiting, hpopped.order,
    hpopped.latency, hpopped.timeScale, hpopped.threshold, hpopped.budget, hpopped.opens,
    hpopped.pendingEmits⟩, hcharge, hcurrent, hcharges, hfinish, evs, hjournal, hevs⟩

theorem SimEngine.Prefilling.step (h : e.Prefilling t id r before finish)
    (hbudget : 0 < t.budgetTokens)
    (hoffset : ∀ numRunning, t.firstTokenOverhead env r.rng
      ⟨r.promptLen, r.numLocalCachedTokens, false, numRunning⟩ = some (offset, rng')) {fuel : ℕ}
    {res : SimEngine env × List EngineOutput} (hstep : e.step fuel now = some res) :
    res.1.Prefilling t id r before finish ∧ now < finish ∨
      res.1.Opened before (finish + offset) := by
  obtain ⟨⟨e₁, caughtUp⟩, hcatch, rfl⟩ := Option.map_eq_some_iff.mp hstep
  have hclear : e.clearSpec.Prefilling t id r before finish := by
    obtain ⟨n, start, left, charge, charges, hleft, halone, hcharge, hcurrent, hcharges, hfinish,
      hevs⟩ := h
    exact ⟨n, start, left, charge, charges, hleft, ⟨halone.active, halone.waiting, halone.order,
      halone.latency, halone.timeScale, halone.threshold, halone.budget, halone.opens,
      halone.pendingEmits⟩, hcharge, hcurrent, hcharges, hfinish, hevs⟩
  rcases hclear.catchUp hbudget hoffset hcatch with ⟨hprefilling, hearly⟩ | hopened
  · exact Or.inl ⟨hprefilling.emitAndRefill caughtUp, hearly⟩
  · obtain ⟨os, hemits⟩ := emitAndRefill_emits
      (rfl : e₁.emitAndRefill now caughtUp = e₁.emitAndRefill now caughtUp)
    exact Or.inr (hopened.emits hemits)

end Clock

/-! ## Runs -/

/-- An operation that touches neither the batch, nor the queue, nor the step clock. -/
structure SimEngine.Untouched (e e' : SimEngine env) : Prop where
  active : e'.activeRequests = e.activeRequests
  waiting : e'.waiting = e.waiting
  prefillOrder : e'.prefillOrder = e.prefillOrder
  currentStep : e'.currentStep = e.currentStep
  latency : e'.latency = e.latency
  opt : e'.opt = e.opt
  journal : e'.journal = e.journal

theorem SimEngine.Prefilling.untouched {before : List Event} {finish : Instant}
    {e' : SimEngine env} (h : e.Prefilling t id r before finish) (hsame : e.Untouched e') :
    e'.Prefilling t id r before finish := by
  obtain ⟨n, start, left, charge, charges, hleft, halone, hcharge, hcurrent, hcharges, hfinish,
    evs, hjournal, hevs⟩ := h
  refine ⟨n, start, left, charge, charges, hleft,
    ⟨?_, ?_, ?_, ?_, ?_, ?_, ?_, ?_, halone.pendingEmits⟩, hcharge, ?_, hcharges, hfinish,
    evs, ?_, hevs⟩
  · rw [hsame.active]
    exact halone.active
  · rw [hsame.waiting, halone.waiting]
  · rw [hsame.prefillOrder, halone.order]
  · rw [hsame.latency]
    exact halone.latency
  · rw [hsame.opt, halone.timeScale]
  · rw [hsame.opt, halone.threshold]
  · rw [hsame.opt, halone.budget]
  · rw [SimEngine.firstChunk, hsame.opt]
    exact halone.opens
  · rw [hsame.currentStep, hcurrent]
  · rw [hsame.journal, hjournal]

/-- The turn calls `step()`, or does nothing that the batch notices. -/
def Turn.LeavesAlone (turn : Turn env) : Prop :=
  turn.op ≠ .step → turn.before.Untouched turn.after

/-- A run that leaves the request alone prefills until `finish` and then opens. -/
theorem Run.opens {before : List Event} {finish clock : Instant} {offset : Duration}
    {rng' : env.Rng} {turns : List (Turn env)} {e' : SimEngine env} (hrun : Run e turns e' clock)
    (hstart : e.Prefilling t id r before finish) (hbudget : 0 < t.budgetTokens)
    (hoffset : ∀ numRunning, t.firstTokenOverhead env r.rng
      ⟨r.promptLen, r.numLocalCachedTokens, false, numRunning⟩ = some (offset, rng'))
    (hturns : ∀ turn ∈ turns, turn.LeavesAlone) :
    e'.Prefilling t id r before finish ∧
        (∀ turn ∈ turns, turn.op = .step → turn.now < finish) ∨
      e'.Opened before (finish + offset) := by
  refine hrun.turnwise (P := fun turns e' _ => (∀ turn ∈ turns, turn.LeavesAlone) →
    e'.Prefilling t id r before finish ∧
      (∀ turn ∈ turns, turn.op = .step → turn.now < finish) ∨
      e'.Opened before (finish + offset)) ?_ ?_ hturns
  · exact fun _ => Or.inl ⟨hstart, by simp⟩
  · intro turns clock fuel turn hbefore _ hperform hturns
    have hearlier : ∀ turn ∈ turns, turn.LeavesAlone :=
      fun turn hturn => hturns turn (List.mem_append_left _ hturn)
    rcases hbefore hearlier with ⟨hprefilling, hall⟩ | hopened
    · by_cases hop : turn.op = .step
      · rw [hop] at hperform
        rcases hprefilling.step hbudget hoffset hperform with ⟨hnext, hearly⟩ | hopened
        · refine Or.inl ⟨hnext, fun turn' hturn' hop' => ?_⟩
          rcases List.mem_append.mp hturn' with hold | hnew
          · exact hall turn' hold hop'
          · rw [List.mem_singleton.mp hnew]
            exact hearly
        · exact Or.inr hopened
      · have hleaves := hturns turn (List.mem_append_right _ (List.mem_singleton_self turn))
        refine Or.inl ⟨hprefilling.untouched (hleaves hop), fun turn' hturn' hop' => ?_⟩
        rcases List.mem_append.mp hturn' with hold | hnew
        · exact hall turn' hold hop'
        · rw [List.mem_singleton.mp hnew] at hop'
          exact absurd hop' hop
    · obtain ⟨os, hemits, _⟩ := perform_emits hperform
      exact Or.inr (hopened.emits hemits)

theorem firstTokenDelay_lt {rng rng' : env.Rng} {ctx : FirstTokenCtx} {total : Duration}
    (hlocal : ctx.doRemotePrefill = false)
    (h : t.firstTokenDelay env rng ctx = some (total, rng')) : total < durationLimit := by
  rw [TraceLatency.firstTokenDelay, hlocal, if_neg Bool.false_ne_true] at h
  split at h
  · obtain ⟨d, hd, hpair⟩ := Option.map_eq_some_iff.mp h
    cases hpair
    exact fromSecsF64_lt hd
  · dsimp only at h
    split at h
    · cases h
      norm_num [durationLimit]
    · obtain ⟨d, hd, hpair⟩ := Option.map_eq_some_iff.mp h
      cases hpair
      exact fromSecsF64_lt hd

/-- The overhead of a request that runs alone. -/
theorem firstTokenOverhead_eq {total : Duration} {rng' : env.Rng}
    (htotal : t.firstTokenDelay env r.rng
      ⟨r.promptLen, r.numLocalCachedTokens, false, 1⟩ = some (total, rng')) (numRunning : ℕ) :
    t.firstTokenOverhead env r.rng ⟨r.promptLen, r.numLocalCachedTokens, false, numRunning⟩ =
      (t.aloneCharged r.promptLen r.numLocalCachedTokens).map
        (fun charged => (total - charged, rng')) := by
  have hdelay : t.firstTokenDelay env r.rng
      ⟨r.promptLen, r.numLocalCachedTokens, false, numRunning⟩ = some (total, rng') := htotal
  rw [TraceLatency.firstTokenOverhead, hdelay, Option.bind_some, if_neg Bool.false_ne_true]
  rfl

/-- The first token is due after the charges of the chunk steps and the overhead. -/
theorem SimEngine.Alone.first_due
    (halone : e.Alone t id r (max (r.promptLen - r.numLocalCachedTokens) 1))
    (hbudget : 0 < t.budgetTokens) {total charges charged : Duration} {rng' : env.Rng}
    (htotal : t.firstTokenDelay env r.rng ⟨r.promptLen, r.numLocalCachedTokens, false, 1⟩ =
      some (total, rng'))
    (hcharges : t.aloneCharges r.promptLen r.numLocalCachedTokens = some charges)
    (hcharged : t.aloneCharged r.promptLen r.numLocalCachedTokens = some charged)
    {anchor clock : Instant} {turns : List (Turn env)} {e' : SimEngine env}
    (hrun : Run (e.composeStep anchor) turns e' clock) (hturns : ∀ turn ∈ turns, turn.LeavesAlone)
    (hlong : ∃ turn ∈ turns, turn.op = .step ∧ anchor + charges ≤ turn.now) :
    ∃ emit, openingEmit e.journal e'.journal = some emit ∧
      emit.due = anchor + (charges + (total - charged)) := by
  obtain ⟨charge, hcharge, _⟩ := TraceLatency.stepCharges_head hcharges
  rw [← TraceLatency.uncachedTokens_eq] at hcharge
  obtain ⟨hcomposed, hcurrent⟩ := halone.composeStep hbudget hcharge anchor
  have hstart : (e.composeStep anchor).Prefilling t id r e.journal (anchor + charges) :=
    ⟨_, anchor, _, charge, charges, TraceLatency.uncachedTokens_eq t _ _, hcomposed, hcharge,
      hcurrent, hcharges, rfl, [], (List.append_nil _).symm, rfl⟩
  have hoffset : ∀ numRunning, t.firstTokenOverhead env r.rng
      ⟨r.promptLen, r.numLocalCachedTokens, false, numRunning⟩ = some (total - charged, rng') := by
    intro numRunning
    rw [firstTokenOverhead_eq htotal, hcharged, Option.map_some]
  rcases hrun.opens hstart hbudget hoffset hturns with ⟨_, hearly⟩ | ⟨_, emit, hopening, hdue⟩
  · obtain ⟨turn, hturn, hop, hnow⟩ := hlong
    exact absurd hnow (not_le_of_gt (hearly turn hturn hop))
  · exact ⟨emit, hopening, hdue.trans (add_assoc _ _ _)⟩

theorem budgetTokens_pos {sqrt : ℕ → ℚ} {records : List TraceRecord} {kv : KnobLatency}
    {budget : ℕ} (hfit : TraceLatency.fromRecords sqrt records kv budget = .ok t) :
    0 < t.budgetTokens := by
  rw [TraceLatency.fromRecords_eq_ok hfit, TraceLatency.ofRecords_budgetTokens]
  omega

/-- The first token of a request that runs alone is due its first-token delay after the anchor of
its first step, when the last chunk is charged what the overhead takes it to be. -/
theorem isolated_ttft_iff {sqrt : ℕ → ℚ} {records : List TraceRecord} {kv : KnobLatency}
    {budget : ℕ} (hfit : TraceLatency.fromRecords sqrt records kv budget = .ok t)
    (halone : e.Alone t id r (max (r.promptLen - r.numLocalCachedTokens) 1))
    {total charges : Duration} {rng' : env.Rng} (htotal : t.firstTokenDelay env r.rng
      ⟨r.promptLen, r.numLocalCachedTokens, false, 1⟩ = some (total, rng'))
    (hcharges : t.aloneCharges r.promptLen r.numLocalCachedTokens = some charges)
    (hcover : charges ≤ total) {anchor clock : Instant} {turns : List (Turn env)}
    {e' : SimEngine env} (hrun : Run (e.composeStep anchor) turns e' clock)
    (hturns : ∀ turn ∈ turns, turn.LeavesAlone)
    (hlong : ∃ turn ∈ turns, turn.op = .step ∧ anchor + charges ≤ turn.now) :
    ((t.firstTokenOverhead env r.rng
        ⟨r.promptLen, r.numLocalCachedTokens, false, 1⟩).isSome ∧
      ∃ emit, openingEmit e.journal e'.journal = some emit ∧ emit.due = anchor + total) ↔
      t.ChargesAgree r.promptLen r.numLocalCachedTokens total := by
  have hbudget := budgetTokens_pos hfit
  rw [firstTokenOverhead_eq htotal, Option.isSome_map, Option.isSome_iff_exists,
    ← TraceLatency.due_eq_iff hbudget hcharges hcover (firstTokenDelay_lt rfl htotal)]
  constructor
  · rintro ⟨⟨charged, hcharged⟩, emit, hopening, hdue⟩
    obtain ⟨emit', hopening', hdue'⟩ :=
      halone.first_due hbudget htotal hcharges hcharged hrun hturns hlong
    obtain rfl := Option.some.inj (hopening.symm.trans hopening')
    exact ⟨charged, hcharged, add_left_cancel (hdue'.symm.trans hdue)⟩
  · rintro ⟨charged, hcharged, hsum⟩
    obtain ⟨emit, hopening, hdue⟩ :=
      halone.first_due hbudget htotal hcharges hcharged hrun hturns hlong
    exact ⟨⟨charged, hcharged⟩, emit, hopening, hdue.trans (by rw [hsum])⟩

/-- Answers as `t` does, for an engine that is never asked where `t` panics. -/
def TraceLatency.answering (env : Env) (t : TraceLatency) : LatencyModel env.Rng where
  pacedStep rng numRunning pacing :=
    (t.pacedStep env rng numRunning pacing).getD (⟨0, 1⟩, rng, pacing)
  prefillChunkCost chunkTokens kvDepth := (t.prefillChunkCost chunkTokens kvDepth).getD 0
  budgetFullChunkFloor := t.budgetFullChunkFloor.getD 0
  firstTokenOverhead rng ctx := (t.firstTokenOverhead env rng ctx).getD (0, rng)
  specTokens := t.specTokens
  sampleOutputLen := t.sampleOutputLen env

theorem TraceLatency.answering_answers (env : Env) (t : TraceLatency) :
    t.Answers env (t.answering env) := by
  refine ⟨fun _ _ _ drawn h => ?_, fun _ _ cost h => ?_, fun floor h => ?_,
    fun _ _ offset h => ?_, rfl, rfl⟩
  · simp [answering, Option.mem_def.mp h]
  · simp [answering, Option.mem_def.mp h]
  · simp [answering, Option.mem_def.mp h]
  · simp [answering, Option.mem_def.mp h]

/-- A chunk of 256 tokens takes 2.5 ms, and an unmarked gap is 5 ms longer than the others. -/
def floorRecord (promptTokens : ℕ) : TraceRecord where
  promptTokens := 256
  outputTokens := 11
  ttftMs := 100
  itlMs := some [10, 10, 10, 125 / 10, 10, 10, 10, 10, 10, 15]
  itlCtx := some ⟨List.replicate 10 1, [0, 0, 0, promptTokens, 0, 0, 0, 0, 0, 0]⟩

def floorTrace : List TraceRecord :=
  (List.replicate 30 [floorRecord 256, floorRecord 512]).flatten

theorem floorTrace_valid : ∀ r ∈ floorTrace, r.Valid := by
  have hvalid : ∀ promptTokens, (floorRecord promptTokens).Valid := by
    refine fun promptTokens => ⟨Or.inr (Or.inl rfl), fun ctx hctx => ?_, fun _ h => ?_,
      fun _ h => ?_⟩
    · cases hctx
      exact ⟨rfl, rfl⟩
    · cases h
    · cases h
  intro r hr
  obtain ⟨pair, hpair, hmem⟩ := List.mem_flatten.mp hr
  rw [List.eq_of_mem_replicate hpair] at hmem
  rcases List.mem_pair.mp hmem with rfl | rfl
  · exact hvalid 256
  · exact hvalid 512

def floorModel : TraceLatency :=
  .ofRecords (fun n => (Nat.sqrt n : ℚ)) floorTrace demoOpt.latencyModel 256

theorem floorTrace_fits : TraceLatency.fromRecords (fun n => (Nat.sqrt n : ℚ)) floorTrace
    demoOpt.latencyModel 256 = .ok floorModel := by
  unfold TraceLatency.fromRecords
  rw [if_neg (by simp [floorTrace]), if_neg (by decide +kernel)]
  rfl

def floorRequest (promptLen : ℕ) : ActiveRequest demoEnv where
  requestId := "a"
  clientIndex := 0
  promptLen := promptLen
  promptTokenIds := List.replicate promptLen 0
  maxTokens := 1
  generated := 0
  rng := ()
  pacing := .forPrompt promptLen .calm
  prefillAdvertise := false
  remotePrefill := false
  numLocalCachedTokens := 0
  blockIds := []
  loraName := none
  phase := .prefill (max promptLen 1)
  emitted := 0
  emitOffset := 0
  pendingEmits := []
  pendingEvents := []
  scriptedDecode := none
  ticket := 0
  asked := none

/-- An engine under the model, about to prefill a request. -/
def floorEngine (promptLen : ℕ) : SimEngine demoEnv :=
  { demo { demoOpt with maxNumBatchedTokens := 256 } none with
    latency := floorModel.answering demoEnv
    activeRequests := SortedMap.empty.insert "a" (floorRequest promptLen)
    prefillOrder := ["a"] }

theorem floorEngine_alone (promptLen : ℕ) : (floorEngine promptLen).Alone floorModel "a"
    (floorRequest promptLen) (max (promptLen - 0) 1) := by
  refine ⟨fun k => ?_, rfl, ?_, floorModel.answering_answers demoEnv, ?_, rfl, rfl, ?_, rfl⟩
  · exact SortedMap.get?_insert _ _ _ _
  · simp [floorEngine]
  · change Opt.effectiveTimeScale demoOpt = 1
    decide +kernel
  · exact Nat.one_pos

theorem floorEngine_runs (promptLen : ℕ) : ∃ turns e' clock,
    Run ((floorEngine promptLen).composeStep 0) turns e' clock ∧
      (∀ turn ∈ turns, turn.LeavesAlone) ∧ ∃ turn ∈ turns, turn.op = .step ∧ 1 ≤ turn.now := by
  have hfiled : Filed (floorEngine promptLen) := by
    have hget : ∀ k r, (floorEngine promptLen).activeRequests.get? k = some r →
        k = "a" ∧ r = floorRequest promptLen := by
      intro k r hk
      change (SortedMap.empty.insert "a" (floorRequest promptLen)).get? k = some r at hk
      rw [SortedMap.get?_insert] at hk
      split_ifs at hk with hkey
      · exact ⟨hkey, (Option.some.inj hk).symm⟩
      · cases hk
    refine ⟨fun k r hk => ?_, fun k p hk => ?_, fun k r hk => ?_⟩
    · obtain ⟨rfl, rfl⟩ := hget k r hk
      rfl
    · cases hk
    · obtain ⟨_, rfl⟩ := hget k r hk
      exact ⟨rfl, Nat.zero_le _, by simp [floorRequest], Or.inl Nat.one_pos⟩
  have hcomposed : Filed ((floorEngine promptLen).composeStep 0).clearSpec :=
    (hfiled.progress (SimEngine.composeStep_progress 0 _)).congr rfl rfl
  obtain ⟨fuel, res, hcatch, _⟩ := SimEngine.catchesUp hcomposed
    (show 0 < ((floorEngine promptLen).composeStep 0).clearSpec.opt.outputTokenChunkSize from
      Nat.one_pos) 1
  have hstep : ((floorEngine promptLen).composeStep 0).perform fuel 1 .step =
      some (res.1.emitAndRefill 1 res.2) := by
    rw [SimEngine.perform, SimEngine.step, hcatch]
    rfl
  refine ⟨[⟨.step, 1, (floorEngine promptLen).composeStep 0, (res.1.emitAndRefill 1 res.2).2,
    (res.1.emitAndRefill 1 res.2).1⟩], _, 1, Path.single ⟨rfl, rfl, zero_le, rfl, fuel, hstep⟩, ?_,
    _, List.mem_singleton_self _, rfl, le_rfl⟩
  · intro turn hturn hop
    rw [List.mem_singleton.mp hturn] at hop
    exact absurd rfl hop

theorem floorEngine_delays :
    (floorModel.firstTokenDelay demoEnv () ⟨256, 0, false, 1⟩).map Prod.fst = some (1 / 10) ∧
      (floorModel.firstTokenDelay demoEnv () ⟨100, 0, false, 1⟩).map Prod.fst =
        some (5 / 128) := by
  decide +kernel

theorem floorModel_charges : floorModel.aloneCharges 256 0 = some (5 / 1000) ∧
    floorModel.aloneCharges 100 0 = some (1 / 1024) := by
  decide +kernel

theorem floorModel_law : floorModel.budgetTokens = 256 ∧
    floorModel.budgetFullChunkFloor = some (5 / 1000) ∧
      floorModel.prefillChunkCost 256 0 = some (25 / 10000) ∧
        floorModel.aloneCharged 256 0 = some (25 / 10000) := by
  decide +kernel

/-- A prompt of one budget: the floor is charged to its only chunk, and not taken off. -/
theorem floor_late : ¬ ∀ (env : Env) (sqrt : ℕ → ℚ) (lines : List TraceLine)
    (records : List TraceRecord) (kv : KnobLatency) (budget : ℕ) (t : TraceLatency) (id : String)
    (r : ActiveRequest env) (e e' : SimEngine env) (total charges : Duration) (rng' : env.Rng)
    (anchor clock : Instant) (turns : List (Turn env)), readTrace 1 lines = .ok records →
    TraceLatency.fromRecords sqrt records kv budget = .ok t →
    e.Alone t id r (max (r.promptLen - r.numLocalCachedTokens) 1) →
    t.firstTokenDelay env r.rng ⟨r.promptLen, r.numLocalCachedTokens, false, 1⟩ =
      some (total, rng') →
    t.aloneCharges r.promptLen r.numLocalCachedTokens = some charges → charges ≤ total →
    Run (e.composeStep anchor) turns e' clock → (∀ turn ∈ turns, turn.LeavesAlone) →
    (∃ turn ∈ turns, turn.op = .step ∧ anchor + charges ≤ turn.now) →
    ∃ emit, openingEmit e.journal e'.journal = some emit ∧ emit.due = anchor + total := by
  intro hclaim
  obtain ⟨turns, e', clock, hrun, hturns, turn, hturn, hop, hnow⟩ := floorEngine_runs 256
  obtain ⟨⟨total, rng'⟩, hdelay, htotal⟩ := Option.map_eq_some_iff.mp floorEngine_delays.1
  obtain rfl : total = 1 / 10 := htotal
  have hcover : (5 / 1000 : Duration) ≤ 1 / 10 := by decide +kernel
  have hlong : ∃ turn ∈ turns, turn.op = .step ∧ 0 + 5 / 1000 ≤ turn.now :=
    ⟨turn, hturn, hop, le_trans (by decide +kernel) hnow⟩
  obtain ⟨emit, hopening, hdue⟩ := (floorEngine_alone 256).first_due
    (by rw [floorModel_law.1]; omega) hdelay floorModel_charges.1 floorModel_law.2.2.2 hrun hturns
    hlong
  obtain ⟨emit', hopening', hdue'⟩ := hclaim _ _ _ _ _ _ _ _ _ _ _ _ _ _ _ _ _
    (readTrace_eq_ok_iff.mpr floorTrace_valid) floorTrace_fits (floorEngine_alone 256) hdelay
    floorModel_charges.1 hcover hrun hturns hlong
  obtain rfl := Option.some.inj (hopening.symm.trans hopening')
  rw [hdue] at hdue'
  exact absurd hdue' (by decide +kernel)

/-- A prompt shorter than the budget. -/
theorem floor_in_time : ∃ turns e' clock, Run ((floorEngine 100).composeStep 0) turns e' clock ∧
    ∃ emit, openingEmit (floorEngine 100).journal e'.journal = some emit ∧ emit.due = 5 / 128 := by
  obtain ⟨turns, e', clock, hrun, hturns, turn, hturn, hop, hnow⟩ := floorEngine_runs 100
  obtain ⟨⟨total, rng'⟩, hdelay, htotal⟩ := Option.map_eq_some_iff.mp floorEngine_delays.2
  obtain rfl : total = 5 / 128 := htotal
  have hcover : (1 / 1024 : Duration) ≤ 5 / 128 := by decide +kernel
  have hlong : ∃ turn ∈ turns, turn.op = .step ∧ 0 + 1 / 1024 ≤ turn.now :=
    ⟨turn, hturn, hop, le_trans (by decide +kernel) hnow⟩
  have hagree : floorModel.ChargesAgree 100 0 (5 / 128) := by
    rw [TraceLatency.ChargesAgree, if_pos (by omega), floorModel_law.1]
    exact fun hdvd => absurd hdvd (by decide)
  obtain ⟨_, emit, hopening, hdue⟩ := (isolated_ttft_iff floorTrace_fits (floorEngine_alone 100)
    hdelay floorModel_charges.2 hcover hrun hturns hlong).mpr hagree
  exact ⟨turns, e', clock, hrun, emit, hopening, hdue.trans (zero_add _)⟩

end VllmVcr
