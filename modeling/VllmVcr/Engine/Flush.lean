import VllmVcr.Engine.Requests

/-!
# What a flush takes

A flush pops the due front of every emission queue. A request whose account is in order
finishes on its last chunk and on no other, so each finished request shows exactly one
finishing output; it leaves the batch, and the others keep their account.
-/

namespace VllmVcr

variable {env : Env}

namespace ActiveRequest

variable (source : TokenSource) (now : Instant)

def due (es : List PendingEmit) : List PendingEmit := es.takeWhile (fun emit => emit.due ≤ now)

theorem emitQueue_request (es : List PendingEmit) (r : ActiveRequest env) :
    (emitQueue source now es r).1 = { r with
      emitted := r.emitted + ((due now es).flatMap PendingEmit.tokens).length
      pendingEvents := if (due now es).isEmpty then r.pendingEvents else []
      pendingEmits := es.dropWhile (fun emit => emit.due ≤ now) } := by
  induction es generalizing r with
  | nil => rfl
  | cons emit rest ih =>
      simp only [emitQueue, due, List.takeWhile_cons, List.dropWhile_cons]
      by_cases hdue : emit.due ≤ now
      · simp [hdue, ih, emitOne, due, Nat.add_assoc]
      · simp [hdue]

/-- The emissions shown are the due chunks, in queue order. -/
theorem emitQueue_emissions (es : List PendingEmit) (r : ActiveRequest env) :
    (emitQueue source now es r).2.map (fun d => ⟨d.due, d.seq, d.output.newTokenIds⟩) =
      due now es := by
  induction es generalizing r with
  | nil => rfl
  | cons emit rest ih =>
      simp only [emitQueue, due, List.takeWhile_cons]
      by_cases hdue : emit.due ≤ now
      · simpa [hdue, emitOne, requestOutput, due] using ih (r.emitOne source emit).1
      · simp [hdue]

/-- How a shown output names its request. -/
structure ShownBy (r : ActiveRequest env) (d : DueEmit) : Prop where
  requestId : d.output.requestId = r.requestId
  clientIndex : d.clientIndex = r.clientIndex
  ticket : d.output.ticket = some r.ticket
  emission : d.output.emission = some ⟨d.due, d.seq⟩
  finished : d.finished = d.output.finishReason.isSome
  bare : d.output.kvTransferParams = none

theorem emitQueue_shown (es : List PendingEmit) (r : ActiveRequest env) :
    ∀ d ∈ (emitQueue source now es r).2, r.ShownBy d := by
  induction es generalizing r with
  | nil =>
      intro d hd
      cases hd
  | cons emit rest ih =>
      intro d hd
      simp only [emitQueue] at hd
      split at hd
      · rcases List.mem_cons.mp hd with rfl | hrest
        · refine ⟨rfl, rfl, rfl, rfl, ?_, rfl⟩
          simp only [emitOne, requestOutput]
          split <;> simp_all
        · obtain ⟨hid, hclient, hticket, hemit, hfin, hbare⟩ := ih _ d hrest
          exact ⟨hid, hclient, hticket, hemit, hfin, hbare⟩
      · cases hd

/-- A queue within its request's budget finishes the request once, when it empties it. -/
theorem emitQueue_finished (es : List PendingEmit) (r : ActiveRequest env)
    (hbudget : r.emitted + (es.flatMap PendingEmit.tokens).length ≤ r.maxTokens)
    (hchunks : ∀ emit ∈ es, emit.tokens ≠ []) :
    ((emitQueue source now es r).2.filter DueEmit.finished).length =
      if r.emitted < r.maxTokens ∧ r.maxTokens ≤ (emitQueue source now es r).1.emitted
      then 1 else 0 := by
  induction es generalizing r with
  | nil =>
      have hnot : ¬ (r.emitted < r.maxTokens ∧
          r.maxTokens ≤ (emitQueue source now [] r).1.emitted) :=
        fun h => absurd h.1 (not_lt.mpr h.2)
      rw [if_neg hnot]
      rfl
  | cons emit rest ih =>
      rw [List.flatMap_cons, List.length_append] at hbudget
      have hpos : 0 < emit.tokens.length :=
        List.length_pos_iff.mpr (hchunks emit List.mem_cons_self)
      have hih := ih (r.emitOne source emit).1 (by simp only [emitOne]; omega)
        (fun emit' h => hchunks emit' (List.mem_cons_of_mem _ h))
      simp only [emitQueue]
      by_cases hdue : emit.due ≤ now
      · simp only [if_pos hdue, List.filter_cons]
        have hmax : (r.emitOne source emit).1.maxTokens = r.maxTokens := rfl
        have hfin : (r.emitOne source emit).2.finished =
            decide (r.maxTokens ≤ r.emitted + emit.tokens.length) := rfl
        have hone : (r.emitOne source emit).1.emitted = r.emitted + emit.tokens.length := rfl
        rw [hmax, hone] at hih
        by_cases hlast : r.maxTokens ≤ r.emitted + emit.tokens.length
        · have hkeep : r.emitted + emit.tokens.length ≤
              (emitQueue source now rest (r.emitOne source emit).1).1.emitted := by
            rw [emitQueue_request, ← hone]
            exact Nat.le_add_right _ _
          rw [if_neg (by omega)] at hih
          rw [hfin, decide_eq_true hlast, if_pos rfl, List.length_cons, hih, if_pos (by omega)]
        · have hnot : ¬ decide (r.maxTokens ≤ r.emitted + emit.tokens.length) = true := by
            simpa using hlast
          rw [hfin, if_neg hnot, hih]
          refine if_congr ?_ rfl rfl
          constructor <;> rintro ⟨_, h⟩ <;> exact ⟨by omega, h⟩
      · simp only [if_neg hdue, List.filter_nil, List.length_nil]
        rw [if_neg (by omega)]

/-- Whether this flush shows the request's finishing output. -/
def finishes (r : ActiveRequest env) : Bool := (r.emitDue source now).2.any DueEmit.finished

variable {r : ActiveRequest env}

theorem Ok.finished_length (h : r.Ok) :
    ((r.emitDue source now).2.filter DueEmit.finished).length =
      if r.finishes source now then 1 else 0 := by
  have hproduced := h.produced
  have hcapped := h.capped
  rw [pendingTokens] at hproduced
  have hlen := emitQueue_finished source now r.pendingEmits r (by omega) h.chunks
  rw [emitDue, hlen, finishes]
  have hiff : (r.emitDue source now).2.any DueEmit.finished = true ↔
      0 < ((r.emitDue source now).2.filter DueEmit.finished).length := by
    rw [List.length_pos_iff_exists_mem, List.any_eq_true]
    simp [List.mem_filter]
  rw [emitDue, hlen] at hiff
  refine if_congr ?_ rfl rfl
  rw [emitDue, hiff]
  split_ifs with hc
  · exact iff_of_true hc Nat.one_pos
  · exact iff_of_false hc (lt_irrefl 0)

/-- A request that shows no finishing output keeps its account in order. -/
theorem Ok.emitDue (h : r.Ok) (hstays : r.finishes source now = false) :
    (r.emitDue source now).1.Ok := by
  have hproduced := h.produced
  have hcapped := h.capped
  rw [pendingTokens] at hproduced
  have hlen := h.finished_length source now
  rw [hstays, if_neg Bool.false_ne_true, ActiveRequest.emitDue,
    emitQueue_finished source now r.pendingEmits r (by omega) h.chunks] at hlen
  have hsplit : r.pendingEmits = ActiveRequest.due now r.pendingEmits ++
      r.pendingEmits.dropWhile (fun emit => emit.due ≤ now) := (List.takeWhile_append_dropWhile).symm
  have hlengths : (r.pendingEmits.flatMap PendingEmit.tokens).length =
      ((ActiveRequest.due now r.pendingEmits).flatMap PendingEmit.tokens).length +
      ((r.pendingEmits.dropWhile (fun emit => emit.due ≤ now)).flatMap PendingEmit.tokens).length := by
    conv_lhs => rw [hsplit, List.flatMap_append, List.length_append]
  have hkeep : r.emitted < r.maxTokens →
      (emitQueue source now r.pendingEmits r).1.emitted < r.maxTokens := by
    intro hlt
    by_contra hge
    rw [if_pos ⟨hlt, not_lt.mp hge⟩] at hlen
    cases hlen
  rw [emitQueue_request] at hkeep
  rw [ActiveRequest.emitDue, emitQueue_request]
  refine ⟨?_, hcapped, ?_, h.unfinished.imp_left hkeep⟩
  · simp only [pendingTokens]
    omega
  · exact fun emit hmem => h.chunks emit ((List.dropWhile_sublist _).subset hmem)

end ActiveRequest

namespace SimEngine

theorem retire_active (e : SimEngine env) (id : String) :
    (e.retire id).activeRequests = e.activeRequests.erase id := by
  unfold retire
  split
  · next hnone => exact (SortedMap.erase_of_none hnone).symm
  · rfl

theorem foldl_retire_active (ids : List String) (e : SimEngine env) (id : String) :
    (ids.foldl retire e).activeRequests.get? id =
      if id ∈ ids then none else e.activeRequests.get? id := by
  induction ids generalizing e with
  | nil => simp
  | cons a ids ih =>
      rw [List.foldl_cons, ih, retire_active, SortedMap.get?_erase]
      by_cases hid : id = a
      · simp [hid]
      · simp [hid]

theorem mem_finishedIds {emits : List DueEmit} {id : String} :
    id ∈ finishedIds emits ↔ ∃ d ∈ emits, d.finished = true ∧ d.output.requestId = id := by
  rw [finishedIds, SortedMap.mem_keys_foldl_insert]
  simp [SortedMap.mem_keys, and_assoc]

/-- What popping and every retirement preserve, a flush preserves. -/
theorem flush_preserves {I : SimEngine env → Prop} {now : Instant} {e : SimEngine env}
    (hpop : I (e.popEmits now)) (hretire : ∀ e id, I e → I (e.retire id)) :
    I (e.flush now).1 :=
  List.foldlRecOn _ _ hpop (fun e he id _ => hretire e id he)

/-- Every active request is filed under its own id. -/
def ActiveFiled (e : SimEngine env) : Prop :=
  ∀ id r, e.activeRequests.get? id = some r → r.requestId = id

/-- The batch after a flush: what finished is gone, the rest lost its due chunks. -/
theorem flush_active {e : SimEngine env} (hfiled : e.ActiveFiled) (now : Instant) :
    (e.flush now).1.activeRequests =
      (e.activeRequests.filter (fun _ r => !r.finishes e.tokenSource now)).mapValues
        (fun _ r => (r.emitDue e.tokenSource now).1) := by
  refine SortedMap.ext (fun id => ?_)
  rw [SortedMap.get?_mapValues, SortedMap.get?_filter, flush, foldl_retire_active]
  change (if _ then none else SortedMap.get? (SortedMap.mapValues _ _) id) = _
  rw [SortedMap.get?_mapValues]
  cases hget : e.activeRequests.get? id with
  | none => simp
  | some r =>
      have hmem : id ∈ finishedIds (e.dueEmits now) ↔ r.finishes e.tokenSource now = true := by
        rw [mem_finishedIds, ActiveRequest.finishes, List.any_eq_true]
        constructor
        · rintro ⟨d, hd, hfin, hid⟩
          obtain ⟨r', hr', hd'⟩ := List.mem_flatMap.mp hd
          obtain ⟨id', hget'⟩ := SortedMap.mem_values.mp hr'
          have hshown := r'.emitQueue_shown e.tokenSource now r'.pendingEmits d hd'
          have hsame : id' = id := by rw [← hfiled id' r' hget', ← hshown.requestId, hid]
          subst hsame
          rw [hget, Option.some.injEq] at hget'
          exact ⟨d, hget' ▸ hd', hfin⟩
        · rintro ⟨d, hd, hfin⟩
          have hshown := r.emitQueue_shown e.tokenSource now r.pendingEmits d hd
          exact ⟨d, List.mem_flatMap.mpr ⟨r, SortedMap.mem_values.mpr ⟨id, hget⟩, hd⟩, hfin,
            hshown.requestId.trans (hfiled id r hget)⟩
      by_cases hfin : r.finishes e.tokenSource now = true
      · simp [hmem.mpr hfin, hfin]
      · have hnot : id ∉ finishedIds (e.dueEmits now) := fun h => hfin (hmem.mp h)
        simp [hnot, hfin]

/-- What is left of the batch after a flush. -/
theorem flush_get? (e : SimEngine env) (hfiled : e.ActiveFiled) (now : Instant) {k : String}
    {r' : ActiveRequest env} (h : (e.flush now).1.activeRequests.get? k = some r') :
    ∃ r, e.activeRequests.get? k = some r ∧ r.finishes e.tokenSource now = false ∧
      (r.emitDue e.tokenSource now).1 = r' := by
  rw [flush_active hfiled, SortedMap.get?_mapValues, SortedMap.get?_filter] at h
  obtain ⟨r, hfilter, heq⟩ := Option.map_eq_some_iff.mp h
  obtain ⟨hr, hstays⟩ := Option.filter_eq_some_iff.mp hfilter
  exact ⟨r, hr, by simpa using hstays, heq⟩

/-- A flush touches the batch, the pins, the token source and the completion count only. -/
structure Flushed (e e' : SimEngine env) : Prop where
  pendingPulls : e'.pendingPulls = e.pendingPulls
  waiting : e'.waiting = e.waiting
  loras : e'.loras = e.loras
  opt : e'.opt = e.opt
  stepSource : e'.stepSource = e.stepSource
  currentStep : e'.currentStep = e.currentStep
  prefillOrder : e'.prefillOrder = e.prefillOrder
  pullTasks : e'.pullTasks = e.pullTasks
  nextTicket : e'.nextTicket = e.nextTicket
  journal : e'.journal = e.journal
  emitSeq : e'.emitSeq = e.emitSeq

theorem Flushed.refl (e : SimEngine env) : Flushed e e :=
  ⟨rfl, rfl, rfl, rfl, rfl, rfl, rfl, rfl, rfl, rfl, rfl⟩

theorem retire_flushed {e₀ e : SimEngine env} (h : Flushed e₀ e) (id : String) :
    Flushed e₀ (e.retire id) := by
  unfold retire
  split
  · exact h
  · exact ⟨h.1, h.2, h.3, h.4, h.5, h.6, h.7, h.8, h.9, h.10, h.11⟩

theorem flush_flushed (now : Instant) (e : SimEngine env) : Flushed e (e.flush now).1 :=
  flush_preserves ⟨rfl, rfl, rfl, rfl, rfl, rfl, rfl, rfl, rfl, rfl, rfl⟩
    (fun _ id h => retire_flushed h id)

theorem flush_stats (now : Instant) (e : SimEngine env) :
    (e.flush now).1.stats = (e.popEmits now).stats :=
  flush_preserves (I := fun e' => e'.stats = (e.popEmits now).stats) rfl (by
    intro e' id h
    unfold retire
    split <;> exact h)

/-- A flush shows one finishing output for each request it retires. -/
theorem finished_dueEmits {e : SimEngine env}
    (hok : ∀ id r, e.activeRequests.get? id = some r → r.Ok) (now : Instant) :
    ((e.dueEmits now).filter DueEmit.finished).length =
      (e.activeRequests.filter (fun _ r => r.finishes e.tokenSource now)).size := by
  rw [dueEmits, List.filter_flatMap, List.length_flatMap, SortedMap.size_filter,
    SortedMap.weight, SortedMap.values, List.map_map]
  refine congrArg List.sum (List.map_congr_left (fun a ha => ?_))
  exact (hok a.1 a.2 (SortedMap.mem_entries.mp ha)).finished_length e.tokenSource now

end SimEngine
end VllmVcr
