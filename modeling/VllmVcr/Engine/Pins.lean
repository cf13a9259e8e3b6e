import VllmVcr.BlockPoolPins
import VllmVcr.Engine.Sound

/-!
# Pins and the requests that hold them

Every cached slot is pinned once for each active request and each pending pull that lists
it, as long as the block hashes of each accepted prompt are distinct.
-/

namespace VllmVcr

variable {env : Env}

namespace SimEngine

/-- The requests of the batch and the pending pulls that list this slot. -/
def holders (e : SimEngine env) (id : ℕ) : ℕ :=
  e.activeRequests.weight (fun _ r => if id ∈ r.blockIds then 1 else 0) +
    e.pendingPulls.weight (fun _ p => if id ∈ p.blockIds then 1 else 0)

theorem holders_idle {e : SimEngine env}
    (hidle : (e.activeRequests.isEmpty && e.pendingPulls.isEmpty) = true) (id : ℕ) :
    e.holders id = 0 := by
  obtain ⟨hactive, hpending⟩ := Bool.and_eq_true_iff.mp hidle
  rw [holders, SortedMap.weight_eq_zero, SortedMap.weight_eq_zero]
  · intro k p hget
    simp [SortedMap.isEmpty_iff.mp hpending k] at hget
  · intro k r hget
    simp [SortedMap.isEmpty_iff.mp hactive k] at hget

theorem dequeue_pool (i : ℕ) (queued : QueuedRequest) (e : SimEngine env) :
    (e.dequeue i queued).1.pool = (e.pool.cachePrompt queued.request.prompt
      queued.request.requestLoraName queued.request.cacheSalt).1 := rfl

theorem dequeue_outcome (i : ℕ) (queued : QueuedRequest) (e : SimEngine env) :
    (e.dequeue i queued).2 = (e.pool.cachePrompt queued.request.prompt
      queued.request.requestLoraName queued.request.cacheSalt).2 := rfl

end SimEngine

/-- The chained hashes that a pool like `p` computes for this request's blocks are distinct. -/
def EngineCoreRequest.DistinctBlocks (p : BlockPool) (request : EngineCoreRequest) : Prop :=
  (p.promptHashes request.prompt request.requestLoraName request.cacheSalt).Nodup

instance (p : BlockPool) (request : EngineCoreRequest) : Decidable (request.DistinctBlocks p) :=
  inferInstanceAs (Decidable (List.Nodup _))

/-- The pins of `e`, whose pool hashes prompts like `p₀`, are those of its requests. -/
structure Pinned (p₀ : BlockPool) (e : SimEngine env) : Prop where
  slotted : e.pool.Slotted
  pins : ∀ id, e.pool.pins id = e.holders id
  alike : p₀.HashesAlike e.pool
  distinct : ∀ q ∈ e.waiting, q.request.DistinctBlocks p₀

theorem Fresh.pinned {e : SimEngine env} (h : Fresh e) : Pinned e.pool e := by
  obtain ⟨engineIndex, opt, tokenSource, stepSource, hnew⟩ := h
  obtain ⟨latency, _, rfl⟩ := except_map_eq_ok hnew
  exact ⟨BlockPool.slotted_new _ _ _, BlockPool.pins_new _ _ _, ⟨rfl, rfl⟩, by simp⟩

namespace Pinned

variable {p₀ : BlockPool} {e e' : SimEngine env}

theorem congr (h : Pinned p₀ e) (hpool : e'.pool = e.pool) (hholders : e'.holders = e.holders)
    (hwaiting : e'.waiting.Sublist e.waiting) : Pinned p₀ e' :=
  ⟨hpool ▸ h.slotted, by rw [hpool, hholders]; exact h.pins, hpool ▸ h.alike,
    fun q hq => h.distinct q (hwaiting.subset hq)⟩

theorem holders_eq (hactive : e'.activeRequests = e.activeRequests)
    (hpending : e'.pendingPulls = e.pendingPulls) : e'.holders = e.holders := by
  funext id
  rw [SimEngine.holders, SimEngine.holders, hactive, hpending]

theorem progress (h : Pinned p₀ e) (hp : Progress e e') : Pinned p₀ e' := by
  refine h.congr hp.pool ?_ (hp.waiting ▸ List.Sublist.refl _)
  funext id
  rw [SimEngine.holders, SimEngine.holders, hp.pendingPulls,
    ← hp.active.weight_eq (fun _ r r' hr => by rw [hr.blockIds])]

/-- Caching the prompt of a waiting request pins the slots it returns, once each. -/
theorem dequeue (h : Pinned p₀ e) {i : ℕ} {queued : QueuedRequest}
    (hget : e.waiting[i]? = some queued) :
    (e.dequeue i queued).1.pool.Slotted ∧ p₀.HashesAlike (e.dequeue i queued).1.pool ∧
      ∀ id, (e.dequeue i queued).1.pool.pins id =
        e.holders id + if id ∈ (e.dequeue i queued).2.blockIds then 1 else 0 := by
  have hdistinct := h.distinct queued (List.mem_of_getElem? hget)
  rw [EngineCoreRequest.DistinctBlocks, ← h.alike.promptHashes] at hdistinct
  obtain ⟨hslotted, hpins⟩ := BlockPool.cachePrompt_pins h.slotted queued.request.prompt
    queued.request.requestLoraName queued.request.cacheSalt hdistinct
  refine ⟨hslotted, h.alike.trans (BlockPool.cachePrompt_hashesAlike _ _ _ _), fun id => ?_⟩
  rw [SimEngine.dequeue_pool, SimEngine.dequeue_outcome, hpins, h.pins]

/-- Releasing the slots of a request that left takes its pins with it. -/
theorem unpin (h : Pinned p₀ e) (blockIds : List ℕ)
    (hpool : e'.pool = e.pool.unpin blockIds)
    (hholders : ∀ id, e.holders id = e'.holders id + if id ∈ blockIds then 1 else 0)
    (hwaiting : e'.waiting.Sublist e.waiting) : Pinned p₀ e' := by
  refine ⟨hpool ▸ BlockPool.unpin_slotted h.slotted _, fun id => ?_, ?_,
    fun q hq => h.distinct q (hwaiting.subset hq)⟩
  · rw [hpool, BlockPool.unpin_pins h.slotted, h.pins, hholders, Nat.add_sub_cancel]
  · rw [hpool]
    exact h.alike

theorem holders_eraseActive {id : String} {r : ActiveRequest env}
    (hget : e.activeRequests.get? id = some r)
    (hactive : e'.activeRequests = e.activeRequests.erase id)
    (hpending : e'.pendingPulls = e.pendingPulls) (slot : ℕ) :
    e.holders slot = e'.holders slot + if slot ∈ r.blockIds then 1 else 0 := by
  rw [SimEngine.holders, SimEngine.holders, hactive, hpending, SortedMap.weight_erase _ hget]
  omega

theorem holders_erasePending {id : String} {p : PendingPull}
    (hget : e.pendingPulls.get? id = some p) (hactive : e'.activeRequests = e.activeRequests)
    (hpending : e'.pendingPulls = e.pendingPulls.erase id) (slot : ℕ) :
    e.holders slot = e'.holders slot + if slot ∈ p.blockIds then 1 else 0 := by
  rw [SimEngine.holders, SimEngine.holders, hactive, hpending, SortedMap.weight_erase _ hget]
  omega

theorem holders_activate {now : Instant} {id : String} {r : ActiveRequest env}
    (hnone : e.activeRequests.get? id = none) (slot : ℕ) :
    (e.activate now id r).holders slot =
      e.holders slot + if slot ∈ r.blockIds then 1 else 0 := by
  obtain ⟨maxTokens, scripted, _, hactive⟩ := e.activate_active now id r
  rw [SimEngine.holders, SimEngine.holders, hactive, SimEngine.activate_pendingPulls,
    SortedMap.weight_insert_of_none _ hnone]
  simp only
  omega

theorem holders_park {queued : QueuedRequest} {outcome : CacheOutcome}
    (hnone : e.pendingPulls.get? queued.request.requestId = none) (slot : ℕ) :
    (e.park queued outcome).holders slot =
      e.holders slot + if slot ∈ outcome.blockIds then 1 else 0 := by
  rw [SimEngine.holders, SimEngine.holders, SimEngine.park_activeRequests,
    SimEngine.park_pendingPulls, SortedMap.weight_insert_of_none _ hnone]
  simp only
  omega

theorem retire (h : Pinned p₀ e) (id : String) : Pinned p₀ (e.retire id) := by
  unfold SimEngine.retire
  split
  · exact h
  · next r hr =>
      exact h.unpin r.blockIds rfl (holders_eraseActive hr rfl rfl) (List.Sublist.refl _)

theorem activate (h : e.pool.Slotted) (halike : p₀.HashesAlike e.pool)
    (hdistinct : ∀ q ∈ e.waiting, q.request.DistinctBlocks p₀) {now : Instant} {id : String}
    {r : ActiveRequest env} (hnone : e.activeRequests.get? id = none)
    (hpins : ∀ slot, e.pool.pins slot = e.holders slot + if slot ∈ r.blockIds then 1 else 0) :
    Pinned p₀ (e.activate now id r) where
  slotted := h
  pins := fun slot => by rw [SimEngine.activate_pool, hpins, holders_activate hnone]
  alike := halike
  distinct := hdistinct

end Pinned

theorem Move.pinned {now : Instant} {e e' : SimEngine env} {effect : Effect} {p₀ : BlockPool}
    (h : Move now e effect e') (he : Sound e)
    (hdistinct : ∀ request, effect = .accepted request → request.DistinctBlocks p₀)
    (hp : Pinned p₀ e) : Pinned p₀ e' := by
  cases h with
  | arrivalFailed | arrivalRejected | orphaned | configured | adaptersChanged | specCleared
  | statsReset =>
      exact hp.congr (by simp) (Pinned.holders_eq (by simp) (by simp)) (by simp)
  | enqueued rng request hnew =>
      refine ⟨hp.slotted, ?_, hp.alike, fun q hq => ?_⟩
      · rw [Pinned.holders_eq (e := e) (by simp) (by simp)]
        exact hp.pins
      · rcases List.mem_append.mp hq with hold | hone
        · exact hp.distinct q hold
        · rw [List.mem_singleton.mp hone]
          exact hdistinct request rfl
  | @parked i queued hadm =>
      obtain ⟨hslotted, halike, hpins⟩ := hp.dequeue hadm.waiting
      have hnone := (SimEngine.free_of_perm he.ids (SimEngine.live_dequeue hadm.waiting)).2
      refine ⟨hslotted, fun slot => ?_, halike,
        fun q hq => hp.distinct q ((List.eraseIdx_sublist _ _).subset hq)⟩
      rw [SimEngine.park_pool, Pinned.holders_park hnone, hpins]
      rfl
  | @admitted i queued hadm active hbuild =>
      obtain ⟨hslotted, halike, hpins⟩ := hp.dequeue hadm.waiting
      have hnone := (SimEngine.free_of_perm he.ids (SimEngine.live_dequeue hadm.waiting)).1
      have hsame : ((e.dequeue i queued).1.pruneBigAdmissions now).holders = e.holders :=
        Pinned.holders_eq (by simp) (by simp)
      refine Pinned.activate (by simpa using hslotted) (by simpa using halike) ?_
        (by simpa using hnone) (fun slot => ?_)
      · intro q hq
        exact hp.distinct q ((List.eraseIdx_sublist _ _).subset (by simpa using hq))
      · rw [(SimEngine.buildRequest_ok hbuild).blockIds, SimEngine.pruneBigAdmissions_pool, hpins,
          hsame]
  | @refused i queued hadm reason =>
      obtain ⟨hslotted, halike, hpins⟩ := hp.dequeue hadm.waiting
      have hsame : (((e.dequeue i queued).1.pruneBigAdmissions now).failAdmission
          (e.dequeue i queued).2.blockIds).holders = e.holders :=
        Pinned.holders_eq (by simp) (by simp)
      refine ⟨?_, fun slot => ?_, ?_, fun q hq => ?_⟩
      · rw [SimEngine.failAdmission_pool, SimEngine.pruneBigAdmissions_pool]
        exact BlockPool.unpin_slotted hslotted _
      · rw [SimEngine.failAdmission_pool, SimEngine.pruneBigAdmissions_pool,
          BlockPool.unpin_pins hslotted, hpins, Nat.add_sub_cancel, hsame]
      · rw [SimEngine.failAdmission_pool, SimEngine.pruneBigAdmissions_pool]
        exact halike
      · exact hp.distinct q ((List.eraseIdx_sublist _ _).subset (by simpa using hq))
  | @promoted task htask pending hpending active hbuild =>
      have hlive : e.live.Perm ((task.requestId, pending.queued.ticket) ::
          ((e.receivePull task).unpark now task.requestId).live) :=
        SimEngine.live_erase_pending hpending (by simp) (by simp) (by simp)
      have hheld : ∀ slot, e.holders slot =
          ((e.receivePull task).unpark now task.requestId).holders slot +
            if slot ∈ pending.blockIds then 1 else 0 :=
        Pinned.holders_erasePending hpending (by simp) (by simp)
      have hactive : Pinned p₀ (((e.receivePull task).unpark now task.requestId).activate now
          task.requestId active) := by
        refine Pinned.activate (by simpa using hp.slotted) (by simpa using hp.alike)
          (by simpa using hp.distinct) (SimEngine.free_of_perm he.ids hlive).1 (fun slot => ?_)
        rw [(SimEngine.buildRequest_ok hbuild).blockIds, SimEngine.unpark_pool,
          SimEngine.pruneBigAdmissions_pool, SimEngine.receivePull_pool, hp.pins, hheld]
      exact hactive.congr (by simp) (Pinned.holders_eq (by simp) (by simp)) (by simp)
  | @pullRefused task htask pending hpending reason =>
      exact hp.unpin pending.blockIds (by simp)
        (Pinned.holders_erasePending hpending (by simp) (by simp)) (by simp)
  | @withdrawn id e₁ client ticket hwithdraw =>
      have hgone : Pinned p₀ e₁ := by
        rcases SimEngine.withdraw_some hwithdraw with ⟨r, _, _, _, rfl⟩ | ⟨p, hget, _, _, rfl⟩ |
          ⟨i, q, _, _, _, _, rfl⟩
        · exact hp.retire id
        · exact hp.unpin p.blockIds rfl (Pinned.holders_erasePending hget rfl rfl)
            (List.Sublist.refl _)
        · exact hp.congr rfl (Pinned.holders_eq rfl rfl) (List.eraseIdx_sublist _ _)
      exact hgone.congr (by simp) (Pinned.holders_eq (by simp) (by simp)) (by simp)
  | composed anchor => exact hp.progress (e.composeStep_progress anchor)
  | @executed step =>
      have htake : Pinned p₀ e.takeStep := hp.congr rfl (Pinned.holders_eq rfl rfl) (by simp)
      exact htake.progress (e.takeStep.executeStep_progress step)
  | flushed =>
      refine SimEngine.flush_preserves ?_ (fun _ id h => h.retire id)
      refine hp.congr rfl ?_ (List.Sublist.refl _)
      funext slot
      rw [SimEngine.holders, SimEngine.holders, SimEngine.popEmits_activeRequests,
        SimEngine.popEmits_pendingPulls, SortedMap.weight_mapValues]
      simp only [ActiveRequest.emitDue, ActiveRequest.emitQueue_request]
  | drained => exact ⟨hp.slotted, hp.pins, hp.alike, hp.distinct⟩
  | cacheReset =>
      unfold SimEngine.resetPrefixCache
      split
      · next hidle =>
          refine ⟨?_, fun slot => ?_, ?_, ?_⟩
          · simpa using BlockPool.reset_slotted hp.slotted
          · rw [Pinned.holders_eq (e := e) (by simp) (by simp), SimEngine.holders_idle hidle]
            simpa using e.pool.reset_pins slot
          · simpa using hp.alike.trans e.pool.reset_hashesAlike
          · simpa using hp.distinct
      · exact hp

theorem Run.pinned {e₀ e : SimEngine env} {turns : List (Turn env)} {clock : Instant}
    (hrun : Run e₀ turns e clock) (hfresh : Fresh e₀)
    (hdistinct : ∀ t ∈ turns, ∀ request, t.op = .input (.request request) →
      request.DistinctBlocks e₀.pool) : Sound e ∧ Pinned e₀.pool e := by
  refine hrun.invariant_of (I := fun e => Sound e ∧ Pinned e₀.pool e)
    (Q := fun effect => ∀ request, effect = .accepted request → request.DistinctBlocks e₀.pool)
    ⟨hfresh.sound, hfresh.pinned⟩ ?_ (fun _ _ _ _ hok hi hmove =>
      ⟨hmove.sound hi.1, hmove.pinned hi.1 hok hi.2⟩)
  rintro t ht effect hallow request rfl
  exact hdistinct t ht request hallow

/-! ## Blocks stay where their requests left them -/

/-- The request admitted under `ticket` is in the batch or pending, and lists this slot. -/
def SimEngine.Holds (e : SimEngine env) (ticket id : ℕ) : Prop :=
  (∃ k r, e.activeRequests.get? k = some r ∧ r.ticket = ticket ∧ id ∈ r.blockIds) ∨
    ∃ k p, e.pendingPulls.get? k = some p ∧ p.queued.ticket = ticket ∧ id ∈ p.blockIds

namespace Pinned

variable {p₀ : BlockPool} {e e' : SimEngine env}

theorem holders_pos {ticket id : ℕ} (h : e.Holds ticket id) : 0 < e.holders id := by
  rcases h with ⟨k, r, hr, _, hid⟩ | ⟨k, p, hp, _, hid⟩
  · exact Nat.lt_of_lt_of_le (SortedMap.weight_pos _ hr (by simp [hid])) (Nat.le_add_right _ _)
  · exact Nat.lt_of_lt_of_le (SortedMap.weight_pos _ hp (by simp [hid])) (Nat.le_add_left _ _)

/-- A held block is pinned. -/
theorem refcnt_pos (h : Pinned p₀ e) {ticket : ℕ} {hash : BlockHash} {slot : Slot}
    (hs : e.pool.cached.get? hash = some slot) (hheld : e.Holds ticket slot.blockId) :
    0 < slot.refcnt := by
  rw [← h.slotted.pins_eq_refcnt hs, h.pins]
  exact holders_pos hheld

end Pinned

/-- A move leaves the block of a pinned slot in its slot. -/
theorem Move.keeps {now : Instant} {e e' : SimEngine env} {effect : Effect} {p₀ : BlockPool}
    (h : Move now e effect e') (hp : Pinned p₀ e) {hash : BlockHash} {slot : Slot}
    (hs : e.pool.cached.get? hash = some slot) (hpos : 0 < slot.refcnt) :
    ∃ slot', e'.pool.cached.get? hash = some slot' ∧ slot'.blockId = slot.blockId := by
  have hsame : ∀ {pool : BlockPool}, pool = e.pool →
      ∃ slot', pool.cached.get? hash = some slot' ∧ slot'.blockId = slot.blockId := by
    rintro _ rfl
    exact ⟨slot, hs, rfl⟩
  have hcache : ∀ i queued, ∃ slot', (e.dequeue i queued).1.pool.cached.get? hash = some slot' ∧
      slot'.blockId = slot.blockId := by
    intro i queued
    obtain ⟨slot', hs', hid, _⟩ := BlockPool.Keeps.cachePrompt e.pool queued.request.prompt
      queued.request.requestLoraName queued.request.cacheSalt hash slot hs hpos
    exact ⟨slot', hs', hid⟩
  have hretire : ∀ (e' : SimEngine env) id, (∃ slot', e'.pool.cached.get? hash = some slot' ∧
      slot'.blockId = slot.blockId) → ∃ slot', (e'.retire id).pool.cached.get? hash = some slot' ∧
        slot'.blockId = slot.blockId := by
    rintro e' id ⟨slot', hs', hid⟩
    unfold SimEngine.retire
    split
    · exact ⟨slot', hs', hid⟩
    · next r _ =>
        obtain ⟨slot'', hs'', hid'⟩ := BlockPool.unpin_cached r.blockIds hs'
        exact ⟨slot'', hs'', hid'.trans hid⟩
  cases h with
  | arrivalFailed | arrivalRejected | enqueued | orphaned | configured | adaptersChanged
  | specCleared | statsReset => exact hsame (by simp)
  | promoted => exact hsame (by simp)
  | @parked i queued => simpa using hcache i queued
  | @admitted i queued => simpa using hcache i queued
  | @refused i queued =>
      obtain ⟨slot', hs', hid⟩ := hcache i queued
      obtain ⟨slot'', hs'', hid'⟩ := BlockPool.unpin_cached (e.dequeue i queued).2.blockIds hs'
      exact ⟨slot'', by simpa using hs'', hid'.trans hid⟩
  | @pullRefused task _ pending =>
      obtain ⟨slot', hs', hid⟩ := BlockPool.unpin_cached pending.blockIds hs
      exact ⟨slot', by simpa using hs', hid⟩
  | @withdrawn id e₁ client ticket hwithdraw =>
      rw [SimEngine.countAborted_pool]
      rcases SimEngine.withdraw_some hwithdraw with ⟨r, _, _, _, rfl⟩ | ⟨p, _, _, _, rfl⟩ |
        ⟨i, q, _, _, _, _, rfl⟩
      · exact hretire e id ⟨slot, hs, rfl⟩
      · exact BlockPool.unpin_cached p.blockIds hs
      · exact ⟨slot, hs, rfl⟩
  | composed anchor => exact hsame (e.composeStep_progress anchor).pool
  | @executed step => exact hsame (e.takeStep.executeStep_progress step).pool
  | flushed => exact SimEngine.flush_preserves ⟨slot, hs, rfl⟩ hretire
  | drained => exact ⟨slot, hs, rfl⟩
  | cacheReset =>
      unfold SimEngine.resetPrefixCache
      split
      · next hidle =>
          rw [← hp.slotted.pins_eq_refcnt hs, hp.pins, SimEngine.holders_idle hidle] at hpos
          exact absurd hpos (lt_irrefl 0)
      · exact hsame rfl

namespace SimEngine.Holds

variable {e e' : SimEngine env} {ticket id : ℕ}

theorem congr (h : e.Holds ticket id) (hactive : e'.activeRequests = e.activeRequests)
    (hpending : e'.pendingPulls = e.pendingPulls) : e'.Holds ticket id := by
  rw [Holds, hactive, hpending]
  exact h

theorem progress (h : e.Holds ticket id) (hp : Progress e e') : e'.Holds ticket id := by
  rcases h with ⟨k, r, hr, hticket, hid⟩ | ⟨k, p, hget, hticket, hid⟩
  · obtain ⟨r', hr', hprog⟩ := hp.active.left hr
    exact Or.inl ⟨k, r', hr', hprog.ticket.trans hticket, hprog.blockIds ▸ hid⟩
  · exact Or.inr ⟨k, p, hp.pendingPulls ▸ hget, hticket, hid⟩

theorem activate (h : e.Holds ticket id) {now : Instant} {k : String} {r : ActiveRequest env}
    (hnone : e.activeRequests.get? k = none) : (e.activate now k r).Holds ticket id := by
  obtain ⟨maxTokens, scripted, _, hactive⟩ := e.activate_active now k r
  rcases h with ⟨k', r', hr', hticket, hid⟩ | hpending
  · refine Or.inl ⟨k', r', ?_, hticket, hid⟩
    rw [hactive, SortedMap.get?_insert_of_ne _ _ _ _ (by rintro rfl; simp [hnone] at hr')]
    exact hr'
  · exact Or.inr hpending

theorem activated {now : Instant} {k : String} {r : ActiveRequest env} (hticket : r.ticket = ticket)
    (hid : id ∈ r.blockIds) : (e.activate now k r).Holds ticket id := by
  obtain ⟨maxTokens, scripted, _, hactive⟩ := e.activate_active now k r
  exact Or.inl ⟨k, _, (congrArg (SortedMap.get? · k) hactive).trans
    (SortedMap.get?_insert_self _ _ _), hticket, hid⟩

/-- Erasing a pending pull leaves the holders whose ticket stays live. -/
theorem erasePending (h : e.Holds ticket id) {k : String} {p : PendingPull}
    (hget : e.pendingPulls.get? k = some p) (hactive : e'.activeRequests = e.activeRequests)
    (hpending : e'.pendingPulls = e.pendingPulls.erase k) :
    e'.Holds ticket id ∨ p.queued.ticket = ticket ∧ id ∈ p.blockIds := by
  rcases h with hone | ⟨k', p', hget', hticket, hid⟩
  · exact Or.inl (Or.inl (hactive ▸ hone))
  · by_cases hk : k' = k
    · subst hk
      rw [hget, Option.some.injEq] at hget'
      exact Or.inr ⟨hget' ▸ hticket, hget' ▸ hid⟩
    · exact Or.inl (Or.inr ⟨k', p', by rw [hpending, SortedMap.get?_erase_of_ne _ _ _ hk]; exact hget',
        hticket, hid⟩)

theorem eraseActive (h : e.Holds ticket id) {k : String} {r : ActiveRequest env}
    (hget : e.activeRequests.get? k = some r) (hactive : e'.activeRequests = e.activeRequests.erase k)
    (hpending : e'.pendingPulls = e.pendingPulls) :
    e'.Holds ticket id ∨ r.ticket = ticket := by
  rcases h with ⟨k', r', hget', hticket, hid⟩ | hone
  · by_cases hk : k' = k
    · subst hk
      rw [hget, Option.some.injEq] at hget'
      exact Or.inr (hget' ▸ hticket)
    · exact Or.inl (Or.inl ⟨k', r', by rw [hactive, SortedMap.get?_erase_of_ne _ _ _ hk]; exact hget',
        hticket, hid⟩)
  · exact Or.inl (Or.inr (hpending ▸ hone))

theorem flush (h : e.Holds ticket id) (he : Sound e) (now : Instant)
    (hlive : ticket ∈ (e.flush now).1.live.map Prod.snd) : (e.flush now).1.Holds ticket id := by
  rcases h with ⟨k, r, hr, hticket, hid⟩ | hone
  · by_cases hfin : r.finishes e.tokenSource now = true
    · have hgone : (k, r.ticket) ∈ e.flushed now := by
        refine List.mem_map.mpr ⟨(k, r), List.mem_filter.mpr ⟨SortedMap.mem_entries.mpr hr, hfin⟩, rfl⟩
      exact absurd (hticket ▸ hlive)
        (not_live_of_gone he.tickets (flush_live he.active now) hgone)
    · refine Or.inl ⟨k, (r.emitDue e.tokenSource now).1, ?_, ?_, ?_⟩
      · rw [flush_active he.active, SortedMap.get?_mapValues, SortedMap.get?_filter, hr]
        simp [hfin]
      · rw [ActiveRequest.emitDue, ActiveRequest.emitQueue_request]
        exact hticket
      · rw [ActiveRequest.emitDue, ActiveRequest.emitQueue_request]
        exact hid
  · exact Or.inr ((e.flush_flushed now).pendingPulls ▸ hone)

end SimEngine.Holds

/-- A request that holds a slot holds it for as long as it is live. -/
theorem Move.holds {now : Instant} {e e' : SimEngine env} {effect : Effect}
    (h : Move now e effect e') (he : Sound e) {ticket id : ℕ} (hh : e.Holds ticket id)
    (hlive : ticket ∈ e'.live.map Prod.snd) : e'.Holds ticket id := by
  have hone : ∀ {e' : SimEngine env} {k : String} {t : ℕ}, e.live.Perm ((k, t) :: e'.live) →
      ticket ∈ e'.live.map Prod.snd → t ≠ ticket := by
    rintro e' k t hperm hlive rfl
    have hgone : e.live.Perm ([(k, t)] ++ e'.live) := hperm
    exact SimEngine.not_live_of_gone he.tickets hgone (List.mem_singleton_self _) hlive
  cases h with
  | arrivalFailed | arrivalRejected | enqueued | refused | orphaned | drained | configured
  | adaptersChanged | specCleared | statsReset =>
      exact hh.congr (by simp [SimEngine.schedulerStats]) (by simp [SimEngine.schedulerStats])
  | @parked i queued hadm =>
      have hfree := (SimEngine.free_of_perm he.ids (SimEngine.live_dequeue hadm.waiting)).2
      rcases hh with hactive | ⟨k, p, hget, hticket, hid⟩
      · exact Or.inl hactive
      · refine Or.inr ⟨k, p, ?_, hticket, hid⟩
        rw [SimEngine.park_pendingPulls, SortedMap.get?_insert_of_ne]
        · simpa using hget
        · rintro rfl
          simp [hget] at hfree
  | @admitted i queued hadm active hbuild =>
      have hfree := (SimEngine.free_of_perm he.ids (SimEngine.live_dequeue hadm.waiting)).1
      exact SimEngine.Holds.activate (hh.congr (by simp) (by simp)) (by simpa using hfree)
  | @promoted task htask pending hpending active hbuild =>
      have hbuilt := SimEngine.buildRequest_ok hbuild
      have hperm : e.live.Perm ((task.requestId, pending.queued.ticket) ::
          ((e.receivePull task).unpark now task.requestId).live) :=
        SimEngine.live_erase_pending hpending (by simp) (by simp) (by simp)
      refine SimEngine.Holds.congr ?_ (SimEngine.log_activeRequests _ _)
        (SimEngine.log_pendingPulls _ _)
      have hunparked : ((e.receivePull task).unpark now task.requestId).Holds ticket id ∨ _ :=
        hh.erasePending hpending (by simp) (by simp)
      rcases hunparked with hstay | ⟨hticket, hid⟩
      · exact hstay.activate (SimEngine.free_of_perm he.ids hperm).1
      · exact SimEngine.Holds.activated (hbuilt.ticket.trans hticket) (hbuilt.blockIds ▸ hid)
  | @pullRefused task htask pending hpending reason =>
      have hfailed : (((e.receivePull task).unpark now task.requestId).failAdmission
          pending.blockIds).Holds ticket id ∨ _ := hh.erasePending hpending (by simp) (by simp)
      rcases hfailed with hstay | ⟨hticket, _⟩
      · exact hstay
      · exact absurd hticket
          (hone (SimEngine.live_erase_pending hpending (by simp) (by simp) (by simp)) hlive)
  | @withdrawn k e₁ client t hwithdraw =>
      rw [SimEngine.live_countAborted] at hlive
      refine SimEngine.Holds.congr (e := e₁) ?_ (by simp) (by simp)
      rcases SimEngine.withdraw_some hwithdraw with ⟨r, hr, _, _, rfl⟩ | ⟨p, hp, _, _, rfl⟩ |
        ⟨i, q, _, _, _, _, rfl⟩
      · have hpending : (e.retire k).pendingPulls = e.pendingPulls := by
          unfold SimEngine.retire
          split <;> rfl
        rcases hh.eraseActive hr (e.retire_active k) hpending with hstay | hticket
        · exact hstay
        · exact absurd hticket (hone (SimEngine.live_retire hr) hlive)
      · have herased : { e with
            pendingPulls := e.pendingPulls.erase k
            pool := e.pool.unpin p.blockIds }.Holds ticket id ∨ _ := hh.erasePending hp rfl rfl
        rcases herased with hstay | ⟨hticket, _⟩
        · exact hstay
        · refine absurd hticket (hone (k := k) ?_ hlive)
          exact SimEngine.live_erase_pending hp rfl rfl rfl
      · exact hh.congr rfl rfl
  | composed anchor => exact hh.progress (e.composeStep_progress anchor)
  | @executed step =>
      have htake : e.takeStep.Holds ticket id := hh.congr rfl rfl
      exact htake.progress (e.takeStep.executeStep_progress step)
  | flushed => exact hh.flush he now hlive
  | cacheReset =>
      refine hh.congr ?_ ?_ <;> (unfold SimEngine.resetPrefixCache; split <;> rfl)

/-- Along a path, the block in a held slot stays while its request is live. -/
theorem Emits.keeps_held {op : Op} {now : Instant} {e e' : SimEngine env}
    {os : List EngineCoreOutput} {p₀ : BlockPool} (h : Emits op.Allows now e os e') (he : Sound e)
    (hp : Pinned p₀ e)
    (hdistinct : ∀ request, op.Allows (.accepted request) → request.DistinctBlocks p₀)
    {ticket : ℕ} {hash : BlockHash} {slot : Slot} (hs : e.pool.cached.get? hash = some slot)
    (hheld : e.Holds ticket slot.blockId) (hlive : ticket ∈ e'.live.map Prod.snd) :
    ∃ slot', e'.pool.cached.get? hash = some slot' ∧ slot'.blockId = slot.blockId := by
  have hticket : ticket < e.nextTicket := by
    rcases hheld with ⟨k, r, hr, rfl, _⟩ | ⟨k, p, hget, rfl, _⟩
    · exact he.ticket_lt _ (SimEngine.mem_live_active hr)
    · exact he.ticket_lt _ (SimEngine.mem_live_pending hget)
  obtain ⟨effects, hpath, hallow, _⟩ := h.allows
  have hrun := hpath.invariant_of (P := op.Allows) (I := fun e' =>
    Sound e' ∧ Pinned p₀ e' ∧ ticket < e'.nextTicket ∧ (ticket ∈ e'.live.map Prod.snd →
      e'.Holds ticket slot.blockId ∧
        ∃ slot', e'.pool.cached.get? hash = some slot' ∧ slot'.blockId = slot.blockId))
    ⟨he, hp, hticket, fun _ => ⟨hheld, slot, hs, rfl⟩⟩ hallow ?_
  · exact (hrun.2.2.2 hlive).2
  · rintro u effect v hallow ⟨hu, hpu, hlt, hkeep⟩ hmove
    have hpv := hmove.pinned hu (fun request heq => hdistinct request (heq ▸ hallow)) hpu
    obtain ⟨hnext, hissued⟩ := hmove.live_back hu
    refine ⟨hmove.sound hu, hpv, hlt.trans_le hnext, fun hmem => ?_⟩
    -- A ticket that is live after the move and was issued before it was live before it.
    have hback : ticket ∈ u.live.map Prod.snd := by
      obtain ⟨x, hx, rfl⟩ := List.mem_map.mp hmem
      rcases hissued x hx with hold | hnew
      · exact List.mem_map_of_mem hold
      · omega
    obtain ⟨hholds, slot', hs', hid⟩ := hkeep hback
    obtain ⟨slot'', hs'', hid'⟩ :=
      hmove.keeps hpu hs' (hpu.refcnt_pos hs' (hid.symm ▸ hholds))
    exact ⟨hmove.holds hu hholds hmem, slot'', hs'', hid'.trans hid⟩

/-- Every cached slot is pinned once for each request that lists it, every listed slot is
cached, a reset succeeds only without pins, and a listed block stays cached where it is. -/
theorem pins_accounted {e₀ e : SimEngine env} {turns : List (Turn env)} {clock : Instant}
    (hfresh : Fresh e₀) (hrun : Run e₀ turns e clock)
    (hdistinct : ∀ t ∈ turns, ∀ request, t.op = .input (.request request) →
      request.DistinctBlocks e₀.pool) :
    (∀ hash slot, e.pool.cached.get? hash = some slot → slot.refcnt = e.holders slot.blockId) ∧
    (∀ ticket id, e.Holds ticket id →
      ∃ hash slot, e.pool.cached.get? hash = some slot ∧ slot.blockId = id) ∧
    (e.resetPrefixCache.2 = true →
      ∀ hash slot, e.pool.cached.get? hash = some slot → slot.refcnt = 0) ∧
    ∀ t ∈ turns, ∀ ticket hash slot, t.before.pool.cached.get? hash = some slot →
      t.before.Holds ticket slot.blockId → ticket ∈ t.after.live.map Prod.snd →
      ∃ slot', t.after.pool.cached.get? hash = some slot' ∧ slot'.blockId = slot.blockId := by
  obtain ⟨_, hp⟩ := hrun.pinned hfresh hdistinct
  have hrefcnt : ∀ hash slot, e.pool.cached.get? hash = some slot →
      slot.refcnt = e.holders slot.blockId := by
    intro hash slot hs
    rw [← hp.slotted.pins_eq_refcnt hs, hp.pins]
  refine ⟨hrefcnt, fun ticket id hheld => ?_, fun hreset hash slot hs => ?_, ?_⟩
  · have hpos := Pinned.holders_pos hheld
    rw [← hp.pins] at hpos
    obtain ⟨hash, slot, hs, hid, _⟩ := BlockPool.cached_of_pins hpos
    exact ⟨hash, slot, hs, hid⟩
  · rw [hrefcnt hash slot hs]
    refine SimEngine.holders_idle ?_ _
    unfold SimEngine.resetPrefixCache at hreset
    split at hreset
    · assumption
    · cases hreset
  · intro t ht ticket hash slot hs hheld hlive
    obtain ⟨pre, clock', os, hsub, hpre, _, hemits⟩ := hrun.turn_emits ht
    obtain ⟨hsound, hpinned⟩ := hpre.pinned hfresh (fun t' ht' => hdistinct t' (hsub ht'))
    exact hemits.keeps_held hsound hpinned (fun request hop => hdistinct t ht request hop) hs hheld
      hlive

/-- Two requests over the same two blocks, one of them aborted. -/
def sharedScript : List (Instant × Op) :=
  let shared (id : String) : EngineCoreRequest :=
    { demoRequest id 2 with promptTokenIds := some (List.replicate 32 0) }
  [(0, .input (.request (shared "a"))), (0, .input (.request (shared "b"))),
    (0, .input (.abort ["b"])), (1, .step)]

theorem sharedScript_pins :
    ∃ turns e clock, Run (demo demoOpt none) turns e clock ∧ turns.length = 4 ∧
      (∀ hash slot, e.pool.cached.get? hash = some slot → slot.refcnt = e.holders slot.blockId) ∧
      ∀ ticket id, e.Holds ticket id →
        ∃ hash slot, e.pool.cached.get? hash = some slot ∧ slot.blockId = id := by
  have hplays : ((demo demoOpt none).play 20 sharedScript).any
      (fun played => played.1.length = 4) = true := by decide +kernel
  obtain ⟨turns, e, clock, hrun, hops, hlen⟩ :=
    Run.of_script (p := fun turns _ => turns.length = 4) hplays (by decide +kernel)
  have hdistinct : ∀ t ∈ turns, ∀ request, t.op = .input (.request request) →
      request.DistinctBlocks (demo demoOpt none).pool := by
    intro t ht request hop
    have hmem : Op.input (.request request) ∈ sharedScript.map Prod.snd := by
      rw [← hops, ← hop]
      exact List.mem_map_of_mem ht
    simp only [sharedScript, List.map_cons, List.map_nil, List.mem_cons, List.not_mem_nil] at hmem
    rcases hmem with h | h | h | h | h <;> cases h <;> decide +kernel
  obtain ⟨hrefcnt, hcached, _, _⟩ := pins_accounted (demo_fresh _ _ _) hrun hdistinct
  exact ⟨turns, e, clock, hrun, of_decide_eq_true hlen, hrefcnt, hcached⟩

end VllmVcr
