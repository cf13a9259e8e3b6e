import VllmVcr.BlockPoolPins
import VllmVcr.Engine.Sound

/-!
# Prefix-cache counters

The counters of the pool are per-report deltas. A snapshot drains them, and the call that
takes it hands it to any number of envelopes: none, one, or one for each client.
-/

namespace VllmVcr

variable {env : Env}

namespace PrefixStatsSnapshot

instance : Add PrefixStatsSnapshot :=
  ⟨fun a b => ⟨a.requests + b.requests, a.queries + b.queries, a.hits + b.hits⟩⟩

instance : Zero PrefixStatsSnapshot := ⟨⟨0, 0, 0⟩⟩

@[simp] theorem add_def (a b : PrefixStatsSnapshot) :
    a + b = ⟨a.requests + b.requests, a.queries + b.queries, a.hits + b.hits⟩ := rfl

@[simp] theorem zero_def : (0 : PrefixStatsSnapshot) = ⟨0, 0, 0⟩ := rfl

instance : AddCommMonoid PrefixStatsSnapshot where
  add_assoc a b c := by simp [Nat.add_assoc]
  zero_add a := by simp
  add_zero a := by simp
  add_comm a b := by simp [Nat.add_comm]
  nsmul := nsmulRec

theorem eq_of_add_left {a b c : PrefixStatsSnapshot} (h : a + b = a + c) : b = c := by
  simp only [add_def, mk.injEq, Nat.add_left_cancel_iff] at h
  exact PrefixStatsSnapshot.ext h.1 h.2.1 h.2.2

theorem nsmul_eq (n : ℕ) (a : PrefixStatsSnapshot) :
    n • a = ⟨n * a.requests, n * a.queries, n * a.hits⟩ := by
  induction n with
  | zero => simp
  | succ n ih => rw [succ_nsmul, ih, add_def]; simp [Nat.succ_mul]

/-- Handing out `n` copies hands out one exactly when `n` is one or there is nothing to hand out. -/
theorem nsmul_eq_self {n : ℕ} {a : PrefixStatsSnapshot} : n • a = a ↔ n = 1 ∨ a = 0 := by
  constructor
  · intro h
    by_contra hn
    rw [not_or] at hn
    refine hn.2 ?_
    have hzero : ∀ k, n * k = k → k = 0 := fun k hk => by
      by_contra hk0
      exact hn.1 (Nat.eq_of_mul_eq_mul_right (Nat.pos_of_ne_zero hk0) (hk.trans (Nat.one_mul k).symm))
    rw [nsmul_eq] at h
    exact PrefixStatsSnapshot.ext (hzero _ (congrArg requests h)) (hzero _ (congrArg queries h))
      (hzero _ (congrArg hits h))
  · rintro (rfl | rfl)
    · exact one_nsmul a
    · exact nsmul_zero n

end PrefixStatsSnapshot

namespace BlockPool

def counters (p : BlockPool) : PrefixStatsSnapshot := p.takeStats.2

theorem cachePrompt_counters (p : BlockPool) (tokens : List Token)
    (loraName cacheSalt : Option String) :
    (p.cachePrompt tokens loraName cacheSalt).1.counters =
      p.counters + SimEngine.contribution p (p.cachePrompt tokens loraName cacheSalt).1 := by
  obtain ⟨_, _, _, _, heq⟩ := p.cachePrompt_pool tokens loraName cacheSalt
  rw [heq]
  simp [counters, takeStats, SimEngine.contribution]

end BlockPool

@[simp] theorem BlockPool.counters_unpin (p : BlockPool) (blockIds : List ℕ) :
    (p.unpin blockIds).counters = p.counters := rfl

theorem BlockPool.counters_reset (p : BlockPool) : p.reset.1.counters = p.counters := by
  unfold reset
  split <;> rfl

namespace SimEngine

/-- What each `cache_prompt` call so far added to the counters. -/
def contributions (e : SimEngine env) : List PrefixStatsSnapshot :=
  e.journal.filterMap fun
    | .cached c => some c
    | _ => none

/-- The counters not reported yet. -/
def held (e : SimEngine env) : PrefixStatsSnapshot := e.pool.counters

end SimEngine

/-- What a move that drains nothing adds to the counters, it adds to what was contributed. -/
theorem Move.contributes {now : Instant} {e e' : SimEngine env} {effect : Effect}
    (h : Move now e effect e') (hdrained : ∀ s, effect ≠ .drained s) :
    ∃ d, e'.held = e.held + d ∧ e'.contributions.sum = e.contributions.sum + d := by
  have hsame : e'.held = e.held → e'.contributions = e.contributions →
      ∃ d, e'.held = e.held + d ∧ e'.contributions.sum = e.contributions.sum + d :=
    fun hheld hcon => ⟨0, by rw [hheld, add_zero], by rw [hcon, add_zero]⟩
  have hcache : ∀ i queued, ∃ d, (e.dequeue i queued).1.held = e.held + d ∧
      (e.dequeue i queued).1.contributions.sum = e.contributions.sum + d := by
    intro i queued
    refine ⟨_, e.pool.cachePrompt_counters queued.request.prompt queued.request.requestLoraName
      queued.request.cacheSalt, ?_⟩
    simp [SimEngine.contributions, SimEngine.dequeue, SimEngine.cacheRequest]
  cases h with
  | drained => exact absurd rfl (hdrained _)
  | arrivalFailed | arrivalRejected | enqueued | configured | adaptersChanged | specCleared
  | statsReset | orphaned | pullRefused =>
      exact hsame (by simp [SimEngine.held]) (by simp [SimEngine.contributions])
  | @parked i queued => exact hcache i queued
  | @admitted i queued hadm active =>
      obtain ⟨d, hheld, hsum⟩ := hcache i queued
      refine ⟨d, hheld, Eq.trans ?_ hsum⟩
      simp [SimEngine.contributions, SimEngine.activate]
  | @refused i queued =>
      obtain ⟨d, hheld, hsum⟩ := hcache i queued
      exact ⟨d, by simpa [SimEngine.held] using hheld, by simpa [SimEngine.contributions] using hsum⟩
  | @promoted task htask pending hpending active hbuild =>
      refine hsame (by simp [SimEngine.held]) ?_
      simp [SimEngine.contributions, SimEngine.activate]
  | @withdrawn id e₁ client ticket hwithdraw =>
      rcases SimEngine.withdraw_some hwithdraw with ⟨r, _, _, _, rfl⟩ | ⟨p, _, _, _, rfl⟩ |
        ⟨i, q, _, _, _, _, rfl⟩
      · refine hsame ?_ ?_ <;> (unfold SimEngine.retire; split <;> rfl)
      · exact hsame rfl rfl
      · exact hsame rfl rfl
  | composed => exact hsame rfl rfl
  | @executed step =>
      refine hsame ?_ ?_
      · rw [SimEngine.held, (e.takeStep.executeStep_progress step).pool]
        rfl
      · exact SimEngine.executeStep_journal _ step e.takeStep rfl (fun _ _ _ => rfl) (fun _ => rfl)
  | flushed =>
      refine hsame ?_ ?_
      · refine SimEngine.flush_preserves (I := fun e' => e'.held = e.held) rfl (fun e' id h => ?_)
        unfold SimEngine.retire
        split <;> exact h
      · rw [SimEngine.contributions, (e.flush_flushed now).journal]
        rfl
  | cacheReset =>
      refine hsame ?_ ?_
      · unfold SimEngine.resetPrefixCache
        split
        · exact e.pool.counters_reset
        · rfl
      · unfold SimEngine.resetPrefixCache
        split <;> rfl

/-- What was reported and what is held make up what was contributed. -/
def Conserved (reported : PrefixStatsSnapshot) (e : SimEngine env) : Prop :=
  reported + e.held = e.contributions.sum

theorem Emits.conserved {P : Effect → Prop} {now : Instant} {e e' : SimEngine env}
    {os : List EngineCoreOutput} {r : PrefixStatsSnapshot} (h : Emits P now e os e')
    (hallow : ∀ s, ¬ P (.drained s)) (hr : Conserved r e) : Conserved r e' := by
  refine h.invariant hr (fun u effect v hok hu hmove => ?_)
  have hdrained : ∀ s, effect ≠ .drained s := by
    rintro s rfl
    rcases hok with ⟨os, hos⟩ | hallowed
    · cases hos
    · exact hallow s hallowed
  obtain ⟨d, hheld, hsum⟩ := hmove.contributes hdrained
  rw [Conserved, hheld, hsum, ← add_assoc, hu]

/-- The snapshots that a batch of envelopes carries. -/
def snapshots (outs : List EngineOutput) : List PrefixStatsSnapshot :=
  outs.filterMap (fun out => out.outputs.schedulerStats.map SchedulerStats.prefixCacheStats)

/-- The scheduler stats that a batch of envelopes carries. -/
def statsOf (outs : List EngineOutput) : List SchedulerStats :=
  outs.filterMap (fun out => out.outputs.schedulerStats)

@[simp] theorem statsOf_append (outs outs' : List EngineOutput) :
    statsOf (outs ++ outs') = statsOf outs ++ statsOf outs' := List.filterMap_append

theorem snapshots_eq (outs : List EngineOutput) :
    snapshots outs = (statsOf outs).map SchedulerStats.prefixCacheStats := by
  rw [snapshots, statsOf, List.map_filterMap]

@[simp] theorem snapshots_append (outs outs' : List EngineOutput) :
    snapshots (outs ++ outs') = snapshots outs ++ snapshots outs' := List.filterMap_append

namespace SimEngine

theorem admitRequest_statsOf (now : Instant) (queued : QueuedRequest) (e : SimEngine env) :
    statsOf (e.admitRequest now queued).2.toList = [] := by
  rw [admitRequest_eq]
  split
  · rfl
  · rcases admitDirect_cases now queued.request.requestId queued.request.clientIndex queued
      (e.cacheRequest queued.request).2.blockIds (e.cacheRequest queued.request).2.numCachedTokens
      (e.cacheRequest queued.request).1 with ⟨active, _, hadmits⟩ | ⟨reason, hadmits⟩ <;>
      (rw [hadmits]; rfl)

theorem scheduleLoop_statsOf (now : Instant) (rounds : ℕ) (e : SimEngine env) :
    statsOf (scheduleLoop now rounds e).2 = [] := by
  induction rounds generalizing e with
  | zero => rfl
  | succ rounds ih =>
      unfold scheduleLoop
      split
      · split
        · rfl
        · next i queued _ =>
            change statsOf (_ ++ (scheduleLoop now rounds _).2) = []
            rw [statsOf_append, admitRequest_statsOf, ih, List.append_nil]
      · rfl

theorem schedule_statsOf (now : Instant) (e : SimEngine env) :
    statsOf (e.schedule now).2 = [] := scheduleLoop_statsOf now _ e

theorem catchUp_statsOf {now : Instant} {fuel : ℕ} {e e' : SimEngine env}
    {outs : List EngineOutput} (h : catchUp now fuel e = some (e', outs)) :
    statsOf outs = [] := by
  induction fuel generalizing e outs with
  | zero => cases h
  | succ fuel ih =>
      cases hdue : e.dueStep now with
      | none =>
          rw [catchUp_none hdue] at h
          cases h
          rfl
      | some step =>
          rw [catchUp_some hdue] at h
          obtain ⟨⟨e'', more⟩, hrest, heq⟩ := Option.map_eq_some_iff.mp h
          obtain ⟨rfl, rfl⟩ := Prod.mk.inj heq
          have hstep : statsOf (e.takeStep.completeStep now step).2 = [] :=
            schedule_statsOf now (e.takeStep.executeStep step)
          rw [statsOf_append, hstep, ih hrest, List.append_nil]

end SimEngine

namespace ByClient

theorem mem_keys_add {byClient : ByClient} {client k : ℕ} {o : EngineCoreOutput} {finished : Bool} :
    k ∈ (byClient.add client o finished).keys ↔ k ∈ byClient.keys ∨ client = k := by
  rw [SortedMap.mem_keys, SortedMap.mem_keys, add]
  by_cases hk : k = client
  · subst hk
    simp
  · simp [SortedMap.get?_insert, hk, Ne.symm hk]

theorem add_entries {byClient : ByClient} {client : ℕ} {o : EngineCoreOutput} {finished : Bool} :
    (byClient.add client o finished).entries ≠ [] := by
  intro h
  have hclient : client ∈ (byClient.add client o finished).keys := mem_keys_add.mpr (Or.inr rfl)
  rw [SortedMap.keys, h] at hclient
  cases hclient

/-- No batch is empty. -/
def Filled (byClient : ByClient) : Prop :=
  ∀ client b, byClient.get? client = some b → b.outputs ≠ []

theorem Filled.add {byClient : ByClient} (h : byClient.Filled) (client : ℕ) (o : EngineCoreOutput)
    (finished : Bool) : (byClient.add client o finished).Filled := by
  intro k b hb
  rw [ByClient.add, SortedMap.get?_insert] at hb
  split at hb
  · cases hb
    simp
  · exact h k b hb

theorem mem_keys_advertise {byClient : ByClient} {a : Advert} {k : ℕ} :
    k ∈ (advertise env byClient a).keys ↔ k ∈ byClient.keys := by
  unfold advertise
  split
  · rfl
  · split
    · rfl
    · next b hb =>
        rw [SortedMap.mem_keys, SortedMap.mem_keys]
        by_cases hk : k = a.clientIndex
        · subst hk
          simp [hb]
        · simp [SortedMap.get?_insert, hk]

theorem stampKvParams_ne_nil {requestId : String} {kv : JsonValue} {os : List EngineCoreOutput}
    (h : os ≠ []) : stampKvParams requestId kv os ≠ [] := by
  cases os with
  | nil => exact absurd rfl h
  | cons o os =>
      unfold stampKvParams
      split <;> simp

theorem Filled.advertise {byClient : ByClient} (h : byClient.Filled) (a : Advert) :
    Filled (advertise env byClient a) := by
  unfold VllmVcr.advertise
  split
  · exact h
  · split
    · exact h
    · next b hb =>
        intro k b' hb'
        rw [SortedMap.get?_insert] at hb'
        split at hb'
        · cases hb'
          exact stampKvParams_ne_nil (h _ b hb)
        · exact h k b' hb'

end ByClient

namespace SimEngine

/-- The clients with a chunk due. -/
def dueClients (now : Instant) (e : SimEngine env) : Finset ℕ :=
  ((e.dueEmits now).map DueEmit.clientIndex).toFinset

theorem flush_filled (now : Instant) (e : SimEngine env) : (e.flush now).2.Filled := by
  refine List.foldlRecOn (motive := ByClient.Filled) _ _ ?_ (fun m hm a _ => hm.advertise a)
  refine List.foldlRecOn (motive := ByClient.Filled) _ _ ?_ (fun m hm d _ => hm.add _ _ _)
  intro k b hb
  cases hb

theorem flush_size (now : Instant) (e : SimEngine env) :
    (e.flush now).2.size = (e.dueClients now).card := by
  have hkeys : ∀ k, k ∈ (e.flush now).2.keys ↔
      k ∈ (e.dueEmits now).map DueEmit.clientIndex := by
    intro k
    have hadverts : ∀ (adverts : List Advert) (m : ByClient),
        k ∈ (adverts.foldl (advertise env) m).keys ↔ k ∈ m.keys := by
      intro adverts m
      exact List.foldlRecOn (motive := fun m' : ByClient => k ∈ m'.keys ↔ k ∈ m.keys) _ _ Iff.rfl
        (fun m' hm' a _ => ByClient.mem_keys_advertise.trans hm')
    have hadd : ∀ (l : List DueEmit) (m : ByClient), k ∈ (l.foldl (fun byClient d =>
        ByClient.add byClient d.clientIndex d.output d.finished) m).keys ↔
          k ∈ m.keys ∨ k ∈ l.map DueEmit.clientIndex := by
      intro l
      induction l with
      | nil => simp
      | cons d l ih =>
          intro m
          rw [List.foldl_cons, ih, ByClient.mem_keys_add, or_assoc, List.map_cons, List.mem_cons]
          simp [eq_comm]
    rw [flush, hadverts, hadd]
    simp [SortedMap.mem_keys, List.mem_map, List.mem_insertionSort]
  have hlen : (e.flush now).2.size = (e.flush now).2.keys.length := by
    rw [SortedMap.keys, List.length_map, SortedMap.size]
  rw [hlen, dueClients, ← List.toFinset_card_of_nodup (SortedMap.nodup_keys _)]
  refine congrArg Finset.card (Finset.ext (fun k => ?_))
  rw [List.mem_toFinset, List.mem_toFinset, hkeys]

theorem statsOf_stepOutputs (engineIndex : ℕ) (now : Instant) (stats : SchedulerStats)
    (batches : List (ℕ × ClientBatch)) (h : ∀ b ∈ batches, b.2.outputs ≠ []) :
    statsOf (batches.filterMap (stepOutput engineIndex now stats)) =
      List.replicate batches.length stats := by
  induction batches with
  | nil => rfl
  | cons b batches ih =>
      have hstep : stepOutput engineIndex now stats b = some ⟨b.1, .requestBatch engineIndex
          b.2.outputs (some stats) now
          (if b.2.finished.isEmpty then none else some b.2.finished.keys)⟩ := by
        rw [stepOutput, if_neg]
        simpa using h b List.mem_cons_self
      rw [List.filterMap_cons_some hstep, List.length_cons, List.replicate_succ,
        ← ih (fun b' hb' => h b' (List.mem_cons_of_mem _ hb'))]
      rfl

theorem statsOf_abortOutputs (engineIndex : ℕ) (now : Instant) (stats : Option SchedulerStats)
    (batches : List (ℕ × ClientBatch)) :
    statsOf (abortOutputs engineIndex now stats batches) =
      if batches = [] then [] else stats.toList := by
  have hnone : ∀ batches, statsOf (abortOutputs engineIndex now none batches) = [] := by
    intro batches
    induction batches with
    | nil => rfl
    | cons b batches ih => exact ih
  cases batches with
  | nil => rfl
  | cons b batches =>
      rw [if_neg (List.cons_ne_nil _ _), abortOutputs, ← List.singleton_append, statsOf_append,
        hnone, List.append_nil]
      cases stats <;> rfl

theorem withdraw_isSome {e : SimEngine env} {id : String} :
    (e.withdraw id).2.isSome = e.isKnown id := by
  unfold withdraw isKnown SortedMap.contains
  split
  · next r hr => simp [hr]
  · next hr =>
      split
      · next p hp => simp [hp]
      · next hp =>
          split
          · next i hi =>
              obtain ⟨hlt, hid, _⟩ := List.findIdx?_eq_some_iff_getElem.mp hi
              have hany : e.waiting.any (fun q => q.request.requestId = id) = true :=
                List.any_eq_true.mpr ⟨_, List.getElem_mem hlt, hid⟩
              simp [hr, hp, hany, List.getElem?_eq_getElem hlt]
          · next hi =>
              have hany : e.waiting.any (fun q => q.request.requestId = id) = false := by
                rw [List.any_eq_false]
                exact fun q hq => by simpa using List.findIdx?_eq_none_iff.mp hi q hq
              simp [hr, hp, hany]

/-- An abort has an envelope to send exactly when it names a known request. -/
theorem abort_entries (ids : List String) (e : SimEngine env) :
    (ids.foldl abortOne (e, (SortedMap.empty : ByClient))).2.entries = [] ↔
      ∀ id ∈ ids, e.isKnown id = false := by
  have hgrow : ∀ (ids : List String) (e : SimEngine env) (m : ByClient), m.entries ≠ [] →
      (ids.foldl abortOne (e, m)).2.entries ≠ [] := by
    intro ids e m hm
    refine List.foldlRecOn (motive := fun acc : SimEngine env × ByClient => acc.2.entries ≠ [])
      ids abortOne hm ?_
    intro acc hacc id _
    unfold abortOne
    split
    · exact hacc
    · exact ByClient.add_entries
  induction ids generalizing e with
  | nil => simp [SortedMap.empty]
  | cons id ids ih =>
      have hknown : (e.withdraw id).2.isSome = e.isKnown id := withdraw_isSome
      rcases hw : e.withdraw id with ⟨e', _ | ⟨client, ticket⟩⟩
      · cases withdraw_none hw
        have hone : abortOne (e, SortedMap.empty) id = (e, SortedMap.empty) := by
          unfold abortOne
          rw [hw]
        have hunknown : e.isKnown id = false := by rw [← hknown, hw]; rfl
        rw [List.foldl_cons, hone]
        exact (ih _).trans (by simp [hunknown])
      · have hone : abortOne (e, SortedMap.empty) id = (e'.countAborted,
            ByClient.add SortedMap.empty client (terminalOutput (some ticket) id .abort) true) := by
          unfold abortOne
          rw [hw]
        have hfound : e.isKnown id = true := by rw [← hknown, hw]; rfl
        rw [List.foldl_cons, hone]
        refine iff_of_false (hgrow _ _ _ ByClient.add_entries) (fun hall => ?_)
        have hnone := hall id List.mem_cons_self
        rw [hfound] at hnone
        cases hnone

/-! ## One report -/

/-- A snapshot sent in `n` envelopes conserves the counters when `n` is one, or it is empty. -/
theorem conserved_report {e e' : SimEngine env} {r sent : PrefixStatsSnapshot} {n : ℕ}
    (hr : Conserved r e) (hheld : e'.held = 0) (hsame : e'.contributions = e.contributions)
    (hsent : sent = n • e.held) : Conserved (r + sent) e' ↔ n = 1 ∨ e.held = 0 := by
  rw [Conserved, hheld, hsame, ← hr, hsent, add_zero, ← PrefixStatsSnapshot.nsmul_eq_self]
  exact ⟨PrefixStatsSnapshot.eq_of_add_left, congrArg (r + ·)⟩

theorem held_drained (e : SimEngine env) : e.schedulerStats.1.held = 0 := rfl

theorem ensureStep_held (anchor : Instant) (e : SimEngine env) :
    (e.ensureStep anchor).held = e.held := by
  unfold ensureStep
  split <;> rfl

theorem ensureStep_contributions (anchor : Instant) (e : SimEngine env) :
    (e.ensureStep anchor).contributions = e.contributions := by
  unfold ensureStep
  split <;> rfl

/-- The state in which an abort of these ids takes its snapshot. -/
def afterAbort (now : Instant) (ids : List String) (e : SimEngine env) : SimEngine env :=
  ((ids.foldl abortOne (e, (SortedMap.empty : ByClient))).1.schedule now).1

/-- The state in which `step()` takes its snapshot, once caught up. -/
def afterRefill (now : Instant) (e : SimEngine env) : SimEngine env :=
  ((e.flush now).1.schedule now).1

theorem abortRequests_eq (now : Instant) (ids : List String) (e : SimEngine env) :
    e.abortRequests now ids =
      ((e.afterAbort now ids).schedulerStats.1.ensureStep now,
        ((ids.foldl abortOne (e, (SortedMap.empty : ByClient))).1.schedule now).2 ++
          abortOutputs (e.afterAbort now ids).engineIndex now
            (some (e.afterAbort now ids).schedulerStats.2)
            (ids.foldl abortOne (e, (SortedMap.empty : ByClient))).2.entries) := rfl

theorem emitAndRefill_eq (now : Instant) (e : SimEngine env) (caughtUp : List EngineOutput) :
    e.emitAndRefill now caughtUp =
      (((e.afterRefill now).ensureStep now).schedulerStats.1,
        (e.flush now).2.entries.filterMap
            (stepOutput ((e.afterRefill now).ensureStep now).schedulerStats.1.engineIndex now
              ((e.afterRefill now).ensureStep now).schedulerStats.2) ++
          (caughtUp ++ ((e.flush now).1.schedule now).2)) := rfl

/-- An abort reports once if it names a known request, and else not. -/
theorem abortRequests_statsOf (now : Instant) (ids : List String) (e : SimEngine env) :
    statsOf (e.abortRequests now ids).2 =
      List.replicate (if ∃ id ∈ ids, e.isKnown id then 1 else 0)
        (e.afterAbort now ids).schedulerStats.2 := by
  rw [abortRequests_eq, statsOf_append, schedule_statsOf, List.nil_append, statsOf_abortOutputs]
  have hnone := abort_entries ids e
  by_cases hknown : ∃ id ∈ ids, e.isKnown id
  · rw [if_pos hknown, if_neg]
    · rfl
    · intro hentries
      obtain ⟨id, hid, hknown⟩ := hknown
      rw [hnone.mp hentries id hid] at hknown
      cases hknown
  · rw [if_neg hknown, if_pos]
    · rfl
    · exact hnone.mpr (fun id hid => Bool.eq_false_iff.mpr (fun hk => hknown ⟨id, hid, hk⟩))

/-- A call of `step()` reports once for each client with a chunk due. -/
theorem emitAndRefill_statsOf (now : Instant) (e : SimEngine env) {caughtUp : List EngineOutput}
    (hcaught : statsOf caughtUp = []) :
    statsOf (e.emitAndRefill now caughtUp).2 =
      List.replicate (e.dueClients now).card
        ((e.afterRefill now).ensureStep now).schedulerStats.2 := by
  rw [emitAndRefill_eq, statsOf_append, statsOf_append, hcaught, schedule_statsOf,
    List.append_nil, List.append_nil, statsOf_stepOutputs, ← flush_size]
  · rfl
  · rintro ⟨client, b⟩ hb
    exact flush_filled now _ client b (SortedMap.mem_entries.mp hb)

theorem abortRequests_conserved {now : Instant} {ids : List String} {e : SimEngine env}
    {r : PrefixStatsSnapshot} (hr : Conserved r e) :
    Conserved (r + (snapshots (e.abortRequests now ids).2).sum) (e.abortRequests now ids).1 ↔
      (∃ id ∈ ids, e.isKnown id) ∨ (e.afterAbort now ids).held = 0 := by
  obtain ⟨os, habort, _⟩ :=
    abortMany_emits (P := fun _ => False) now ids e SortedMap.empty
  have hafter : Conserved r (e.afterAbort now ids) :=
    (habort.trans (schedule_emits now _)).conserved (fun _ h => h) hr
  have hsent : (snapshots (e.abortRequests now ids).2).sum =
      (if ∃ id ∈ ids, e.isKnown id then 1 else 0) • (e.afterAbort now ids).held := by
    rw [snapshots_eq, abortRequests_statsOf, List.map_replicate, List.sum_replicate]
    rfl
  have hheld : (e.abortRequests now ids).1.held = 0 := by
    rw [abortRequests_eq]
    exact (ensureStep_held now _).trans (held_drained _)
  have hsame : (e.abortRequests now ids).1.contributions =
      (e.afterAbort now ids).contributions := by
    rw [abortRequests_eq]
    exact (ensureStep_contributions now _).trans rfl
  refine (conserved_report hafter hheld hsame hsent).trans (or_congr ?_ Iff.rfl)
  by_cases hknown : ∃ id ∈ ids, e.isKnown id
  · rw [if_pos hknown]
    exact iff_of_true rfl hknown
  · rw [if_neg hknown]
    exact iff_of_false Nat.zero_ne_one hknown

theorem step_conserved {now : Instant} {fuel : ℕ} {e e' : SimEngine env} {outs : List EngineOutput}
    {caughtUp : SimEngine env × List EngineOutput} {r : PrefixStatsSnapshot}
    (hcatch : catchUp now fuel e.clearSpec = some caughtUp)
    (hstep : caughtUp.1.emitAndRefill now caughtUp.2 = (e', outs)) (hr : Conserved r e) :
    Conserved (r + (snapshots outs).sum) e' ↔
      (caughtUp.1.dueClients now).card = 1 ∨ (caughtUp.1.afterRefill now).held = 0 := by
  have hpath : Emits (fun effect => ∃ step, effect = .completed step) now e _
      (caughtUp.1.afterRefill now) :=
    ((Emits.move (Move.specCleared e)).trans (catchUp_emits (fun step => ⟨step, rfl⟩) hcatch)).trans
      ((Emits.move (Move.flushed caughtUp.1)).trans (schedule_emits now _))
  have hafter := hpath.conserved (by simp) hr
  have hheld : ((caughtUp.1.afterRefill now).ensureStep now).held =
      (caughtUp.1.afterRefill now).held := ensureStep_held now _
  have hsame : (caughtUp.1.emitAndRefill now caughtUp.2).1.contributions =
      (caughtUp.1.afterRefill now).contributions := by
    rw [emitAndRefill_eq]
    exact ensureStep_contributions now _
  have hdrained : (caughtUp.1.emitAndRefill now caughtUp.2).1.held = 0 := by
    rw [emitAndRefill_eq]
    exact held_drained _
  have hsent : (snapshots (caughtUp.1.emitAndRefill now caughtUp.2).2).sum =
      (caughtUp.1.dueClients now).card • (caughtUp.1.afterRefill now).held := by
    rw [snapshots_eq, emitAndRefill_statsOf now _ (catchUp_statsOf hcatch), List.map_replicate,
      List.sum_replicate, ← hheld]
    rfl
  rw [hstep] at hsame hdrained hsent
  exact conserved_report hafter hdrained hsame hsent

end SimEngine

/-- Where the operation takes a snapshot, one envelope carries it, or it is empty. -/
def Op.ReportsOnce (fuel : ℕ) (now : Instant) (op : Op) (e : SimEngine env) : Prop :=
  match op with
  | .step => ∃ caughtUp ∈ SimEngine.catchUp now fuel e.clearSpec,
      (caughtUp.1.dueClients now).card = 1 ∨ (caughtUp.1.afterRefill now).held = 0
  | .input (.abort ids) => (∃ id ∈ ids, e.isKnown id) ∨ (e.afterAbort now ids).held = 0
  | .abortAllRequests => (∃ id ∈ e.unfinishedIds, e.isKnown id) ∨
      (e.afterAbort now e.unfinishedIds).held = 0
  | _ => True

instance (fuel : ℕ) (now : Instant) (op : Op) (e : SimEngine env) :
    Decidable (op.ReportsOnce fuel now e) := by
  unfold Op.ReportsOnce
  split <;> infer_instance

namespace SimEngine

theorem refill_statsOf (now : Instant) (e : SimEngine env) :
    statsOf (e.refill now).2 = [] := schedule_statsOf now e

theorem handleRequest_statsOf (now : Instant) (request : EngineCoreRequest) (e : SimEngine env) :
    statsOf (e.handleRequest now request).2 = [] := by
  unfold handleRequest
  simp only
  split
  · rfl
  · split
    · rfl
    · exact refill_statsOf now _

theorem finishPull_statsOf (now : Instant) (task : PullTask) (e : SimEngine env) :
    statsOf (e.finishPull now task).2 = [] := by
  unfold finishPull
  split
  · rfl
  · next pending _ =>
      have hpromote : statsOf (e.promote now task pending).2.toList = [] := by
        unfold promote
        split
        · rfl
        · next e' output hadmits =>
            rcases admitDirect_cases now task.requestId pending.clientIndex pending.queued
              pending.blockIds pending.numLocalCachedTokens
              { e with pendingPulls := e.pendingPulls.erase task.requestId }
              with ⟨active, _, heq⟩ | ⟨reason, heq⟩ <;> (rw [heq] at hadmits; cases hadmits)
            rfl
      change statsOf (_ ++ _) = []
      rw [statsOf_append, hpromote, List.nil_append]
      exact refill_statsOf now _

theorem handleControl_statsOf (now : Instant) (request : ControlRequest) (e : SimEngine env) :
    statsOf (e.handleControl now request).2.2 = [] := by
  cases request with
  | patchConfig patch =>
      simp only [handleControl]
      split
      · next e' outs hp =>
          obtain ⟨latency, _, heq⟩ := applyPatch_ok hp
          exact (congrArg (fun res => statsOf res.2) heq).trans (refill_statsOf now _)
      · rfl
  | _ => rfl

/-- Only `step()` and aborts report. -/
theorem perform_statsOf {fuel : ℕ} {now : Instant} {op : Op} {e e' : SimEngine env}
    {outs : List EngineOutput} (h : e.perform fuel now op = some (e', outs))
    (hop : ∀ s, ¬ op.Allows (.drained s)) : statsOf outs = [] := by
  cases op with
  | input input =>
      cases input with
      | abort ids => exact absurd (Or.inr (Or.inr ⟨ids, rfl⟩)) (hop 0)
      | request request =>
          have hres : e.handleRequest now request = (e', outs) := Option.some.inj h
          have hnone := e.handleRequest_statsOf now request
          rwa [hres] at hnone
      | utility request =>
          obtain ⟨res, _, heq⟩ := except_map_eq_ok (except_toOption_eq_some h)
          cases heq
          rfl
      | startDpWave =>
          cases h
          rfl
      | control request =>
          have hres : (e.handleControl now request).2 = (e', outs) := Option.some.inj h
          have hnone := e.handleControl_statsOf now request
          rwa [hres] at hnone
  | pullCompletion task =>
      simp only [perform] at h
      split at h
      · have hres : (e.receivePull task).finishPull now task = (e', outs) := Option.some.inj h
        have hnone := (e.receivePull task).finishPull_statsOf now task
        rwa [hres] at hnone
      · cases h
  | step => exact absurd (Or.inl rfl) (hop 0)
  | rejectRequest request =>
      cases h
      rfl
  | abortAllRequests => exact absurd (Or.inr (Or.inl rfl)) (hop 0)

end SimEngine

/-- An operation conserves the counters exactly when it reports them once. -/
theorem perform_conserved {fuel : ℕ} {now : Instant} {op : Op} {e e' : SimEngine env}
    {outs : List EngineOutput} {r : PrefixStatsSnapshot}
    (h : e.perform fuel now op = some (e', outs)) (hr : Conserved r e) :
    Conserved (r + (snapshots outs).sum) e' ↔ op.ReportsOnce fuel now e := by
  have hquiet : (∀ s, ¬ op.Allows (.drained s)) → Conserved (r + (snapshots outs).sum) e' := by
    intro hop
    obtain ⟨os, hemits, _⟩ := perform_emits h
    rw [snapshots_eq, SimEngine.perform_statsOf h hop, List.map_nil, List.sum_nil, add_zero]
    exact hemits.conserved hop hr
  cases op with
  | input input =>
      cases input with
      | abort ids =>
          cases h
          exact SimEngine.abortRequests_conserved hr
      | request | utility | startDpWave | control =>
          exact iff_of_true (hquiet (fun s hs => by simp [Op.Allows] at hs)) trivial
  | pullCompletion | rejectRequest =>
      exact iff_of_true (hquiet (fun s hs => by simp [Op.Allows] at hs)) trivial
  | step =>
      obtain ⟨caughtUp, hcatch, heq⟩ := Option.map_eq_some_iff.mp h
      refine (SimEngine.step_conserved hcatch heq hr).trans ?_
      simp [Op.ReportsOnce, hcatch]
  | abortAllRequests =>
      cases h
      exact SimEngine.abortRequests_conserved hr

/-! ## Runs -/

/-- The sum of the snapshots that the envelopes of a run carry. -/
def reported (turns : List (Turn env)) : PrefixStatsSnapshot :=
  (snapshots (turns.flatMap Turn.outputs)).sum

theorem Op.ReportsOnce.unique {fuel fuel' : ℕ} {now : Instant} {op : Op} {e e' : SimEngine env}
    {outs : List EngineOutput} (h : op.ReportsOnce fuel now e)
    (hperform : e.perform fuel' now op = some (e', outs)) : op.ReportsOnce fuel' now e := by
  cases op with
  | input input => cases input <;> exact h
  | step =>
      obtain ⟨caughtUp, hcatch, honce⟩ := h
      obtain ⟨caughtUp', hcatch', _⟩ := Option.map_eq_some_iff.mp hperform
      cases SimEngine.catchUp_unique hcatch hcatch'
      exact ⟨caughtUp, hcatch', honce⟩
  | _ => exact h

/-- In a run whose snapshots are each sent once or empty, no counter is lost or sent twice. -/
theorem prefix_counters_conserved {e₀ e : SimEngine env} {turns : List (Turn env)}
    {clock : Instant} (hfresh : Fresh e₀) (hrun : Run e₀ turns e clock)
    (hturns : ∀ t ∈ turns, ∃ fuel, t.op.ReportsOnce fuel t.now t.before) :
    reported turns + e.held = e.contributions.sum := by
  refine hrun.turnwise (P := fun turns e _ =>
    (∀ t ∈ turns, ∃ fuel, t.op.ReportsOnce fuel t.now t.before) → Conserved (reported turns) e)
    ?_ ?_ hturns
  · intro _
    obtain ⟨engineIndex, opt, tokenSource, stepSource, hnew⟩ := hfresh
    obtain ⟨latency, _, rfl⟩ := except_map_eq_ok hnew
    rfl
  · intro turns _ fuel t ih _ hperform hturns
    obtain ⟨fuel', honce⟩ := hturns t (List.mem_append_right _ (List.mem_singleton_self t))
    have hbefore := ih (fun t' ht' => hturns t' (List.mem_append_left _ ht'))
    have hafter := (perform_conserved hperform hbefore).mpr (honce.unique hperform)
    have hsplit : reported (turns ++ [t]) = reported turns + (snapshots t.outputs).sum := by
      rw [reported, List.flatMap_append, snapshots_append, List.sum_append, List.flatMap_singleton]
      rfl
    rwa [hsplit]

/-- A request served and reported, then one more that is still held. -/
def countedScript : List (Instant × Op) :=
  [(0, .input (.request (demoRequest "a" 1))), (0, .step),
    (1, .input (.request (demoRequest "b" 1)))]

theorem countedScript_conserved :
    ∃ turns e clock, Run (demo demoOpt none) turns e clock ∧ reported turns ≠ 0 ∧ e.held ≠ 0 ∧
      reported turns + e.held = e.contributions.sum := by
  have hplays : ((demo demoOpt none).play 20 countedScript).any (fun played =>
      reported played.1 ≠ 0 ∧ played.2.held ≠ 0 ∧
        ∀ t ∈ played.1, t.op.ReportsOnce 20 t.now t.before) = true := by
    decide +kernel
  obtain ⟨turns, e, clock, hrun, _, hfound⟩ := Run.of_script
    (p := fun (turns : List (Turn demoEnv)) e =>
      reported turns ≠ 0 ∧ e.held ≠ 0 ∧ ∀ t ∈ turns, t.op.ReportsOnce 20 t.now t.before)
    hplays (by decide +kernel)
  obtain ⟨hreported, hheld, honce⟩ := of_decide_eq_true hfound
  exact ⟨turns, e, clock, hrun, hreported, hheld,
    prefix_counters_conserved (demo_fresh _ _ _) hrun (fun t ht => ⟨20, honce t ht⟩)⟩

/-- The step that ends a prefill, while the first token's overhead holds its chunk back. -/
def silentScript : List (Instant × Op) :=
  [(0, .input (.request (demoRequest "a" 1))), (0, .step)]

theorem silent_step_loses_counters :
    ¬ ∀ turns (e : SimEngine demoEnv) clock,
      Run (demo { demoOpt with timeToFirstToken := 50 } none) turns e clock →
        reported turns + e.held = e.contributions.sum := by
  intro hclaim
  have hplays : ((demo { demoOpt with timeToFirstToken := 50 } none).play 20 silentScript).any
      (fun played => reported played.1 + played.2.held ≠ played.2.contributions.sum) = true := by
    decide +kernel
  obtain ⟨turns, e, clock, hrun, _, hlost⟩ := Run.of_script
    (p := fun turns e => reported turns + e.held ≠ e.contributions.sum) hplays (by decide +kernel)
  exact of_decide_eq_true hlost (hclaim turns e clock hrun)

end VllmVcr
