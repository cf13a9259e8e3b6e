import VllmVcr.Engine.Sound

/-!
# Admission caps

The requests that hold a batch slot, generating or pending, never outnumber
`running_capacity`, and the adapters of the batch never outnumber `max_loras`.
-/

namespace VllmVcr

variable {env : Env}

namespace SimEngine

variable {e e' : SimEngine env}

theorem numGenerating_eq (e : SimEngine env) :
    e.numGenerating = e.activeRequests.weight (fun _ r => if r.isGenerating then 1 else 0) := by
  rw [← SortedMap.size_filter (fun _ (r : ActiveRequest env) => r.isGenerating), numGenerating,
    SortedMap.values, List.filter_map, List.length_map]
  rfl

theorem mem_runningAdapters {name : String} : name ∈ e.runningAdapters ↔
    (∃ id r, e.activeRequests.get? id = some r ∧ r.loraName = some name) ∨
      ∃ id p, e.pendingPulls.get? id = some p ∧ p.loraName = some name := by
  simp only [runningAdapters, List.mem_append, List.mem_filterMap, SortedMap.mem_values]
  constructor
  · rintro (⟨r, ⟨id, hr⟩, hname⟩ | ⟨p, ⟨id, hp⟩, hname⟩)
    · exact Or.inl ⟨id, r, hr, hname⟩
    · exact Or.inr ⟨id, p, hp, hname⟩
  · rintro (⟨id, r, hr, hname⟩ | ⟨id, p, hp, hname⟩)
    · exact Or.inl ⟨r, ⟨id, hr⟩, hname⟩
    · exact Or.inr ⟨p, ⟨id, hp⟩, hname⟩

/-- Adapters only come from requests that hold a batch slot. -/
theorem adapters_le (h : ∀ name ∈ e'.runningAdapters, name ∈ e.runningAdapters) :
    e'.runningAdapters.toFinset.card ≤ e.runningAdapters.toFinset.card :=
  Finset.card_le_card (fun name hname => by
    rw [List.mem_toFinset] at hname ⊢
    exact h name hname)

/-- One request more brings at most its own adapter. -/
theorem adapters_admit {loraName : Option String}
    (hcap : 0 < e.loras.maxLoras → e.runningAdapters.toFinset.card ≤ e.loras.maxLoras)
    (hadm : e.loras.admits loraName e.runningAdapters)
    (h : ∀ name ∈ e'.runningAdapters, name ∈ e.runningAdapters ∨ loraName = some name)
    (hpos : 0 < e.loras.maxLoras) : e'.runningAdapters.toFinset.card ≤ e.loras.maxLoras := by
  refine (Finset.card_le_card ?_).trans (LoraRegistry.admits_cap (hcap hpos) hpos hadm)
  intro name hname
  rw [List.mem_toFinset] at hname ⊢
  rcases h name hname with hold | hnew
  · exact List.mem_append_right _ hold
  · exact List.mem_append_left _ (by simp [hnew])

end SimEngine

structure Capped (e : SimEngine env) : Prop where
  slots : e.numGenerating + e.pendingPulls.size ≤ e.runningCapacity
  adapters : 0 < e.loras.maxLoras → e.runningAdapters.toFinset.card ≤ e.loras.maxLoras
  pending : ∀ id p, e.pendingPulls.get? id = some p → p.loraName = p.queued.request.requestLoraName

theorem Fresh.capped {e : SimEngine env} (h : Fresh e) : Capped e := by
  obtain ⟨engineIndex, opt, tokenSource, stepSource, hnew⟩ := h
  obtain ⟨latency, _, rfl⟩ := except_map_eq_ok hnew
  exact ⟨Nat.zero_le _, fun _ => Nat.zero_le _, by simp⟩

namespace Capped

variable {e e' : SimEngine env}

theorem congr (h : Capped e) (hactive : e'.activeRequests = e.activeRequests)
    (hpending : e'.pendingPulls = e.pendingPulls)
    (hopt : e'.opt.maxNumSeqs = e.opt.maxNumSeqs) (hloras : e'.loras.maxLoras = e.loras.maxLoras) :
    Capped e' := by
  refine ⟨?_, ?_, ?_⟩
  · rw [SimEngine.numGenerating, SimEngine.runningCapacity, hactive, hpending, hopt]
    exact h.slots
  · rw [SimEngine.runningAdapters, hactive, hpending, hloras]
    exact h.adapters
  · rw [hpending]
    exact h.pending

/-- Slots and adapters may only be given up. -/
theorem shrink (h : Capped e) (hgenerating : e'.numGenerating ≤ e.numGenerating)
    (hsize : e'.pendingPulls.size ≤ e.pendingPulls.size)
    (hadapters : ∀ name ∈ e'.runningAdapters, name ∈ e.runningAdapters)
    (hpending : ∀ id p, e'.pendingPulls.get? id = some p → e.pendingPulls.get? id = some p)
    (hopt : e'.opt = e.opt) (hloras : e'.loras = e.loras) : Capped e' where
  slots := by
    have := h.slots
    rw [SimEngine.runningCapacity, hopt]
    rw [SimEngine.runningCapacity] at this
    omega
  adapters := fun hpos => by
    rw [hloras] at hpos ⊢
    exact (SimEngine.adapters_le hadapters).trans (h.adapters hpos)
  pending := fun id p hp => h.pending id p (hpending id p hp)

theorem progress (h : Capped e) (hp : Progress e e') : Capped e' := by
  refine h.shrink ?_ (by rw [hp.pendingPulls]) ?_ (by simp [hp.pendingPulls]) hp.opt hp.loras
  · rw [SimEngine.numGenerating_eq, SimEngine.numGenerating_eq]
    refine hp.active.weight_le (fun _ r r' hr => ?_)
    split_ifs with hnew hold
    · exact le_rfl
    · exact absurd (hr.isGenerating hnew) hold
    · exact Nat.zero_le _
    · exact le_rfl
  · intro name hname
    rw [SimEngine.mem_runningAdapters] at hname ⊢
    rcases hname with ⟨id, r', hr', hlora⟩ | hpending
    · obtain ⟨r, hr, hprog⟩ := hp.active.right hr'
      exact Or.inl ⟨id, r, hr, hprog.loraName ▸ hlora⟩
    · exact Or.inr (hp.pendingPulls ▸ hpending)

theorem eraseActive (h : Capped e) (id : String)
    (hactive : e'.activeRequests = e.activeRequests.erase id)
    (hpending : e'.pendingPulls = e.pendingPulls) (hopt : e'.opt = e.opt)
    (hloras : e'.loras = e.loras) : Capped e' := by
  refine h.shrink ?_ (by rw [hpending]) ?_ (by simp [hpending]) hopt hloras
  · rw [SimEngine.numGenerating_eq, SimEngine.numGenerating_eq, hactive]
    cases hget : e.activeRequests.get? id with
    | none => rw [SortedMap.erase_of_none hget]
    | some r =>
        rw [SortedMap.weight_erase _ hget]
        exact Nat.le_add_left _ _
  · intro name hname
    rw [SimEngine.mem_runningAdapters] at hname ⊢
    rcases hname with ⟨id', r, hr, hlora⟩ | hone
    · rw [hactive, SortedMap.get?_erase] at hr
      split at hr
      · cases hr
      · exact Or.inl ⟨id', r, hr, hlora⟩
    · exact Or.inr (hpending ▸ hone)

theorem erasePending (h : Capped e) {id : String} {p : PendingPull}
    (hget : e.pendingPulls.get? id = some p) (hactive : e'.activeRequests = e.activeRequests)
    (hpending : e'.pendingPulls = e.pendingPulls.erase id) (hopt : e'.opt = e.opt)
    (hloras : e'.loras = e.loras) : Capped e' := by
  have hkept : ∀ id' p', e'.pendingPulls.get? id' = some p' →
      e.pendingPulls.get? id' = some p' := by
    intro id' p' hp'
    rw [hpending, SortedMap.get?_erase] at hp'
    split at hp'
    · cases hp'
    · exact hp'
  refine h.shrink ?_ ?_ ?_ hkept hopt hloras
  · rw [SimEngine.numGenerating, SimEngine.numGenerating, hactive]
  · have hsize := SortedMap.size_erase hget
    rw [hpending]
    omega
  · intro name hname
    rw [SimEngine.mem_runningAdapters] at hname ⊢
    rcases hname with hone | ⟨id', p', hp', hlora⟩
    · exact Or.inl (hactive ▸ hone)
    · exact Or.inr ⟨id', p', hkept id' p' hp', hlora⟩

theorem retire (h : Capped e) (id : String) : Capped (e.retire id) := by
  refine h.eraseActive id (e.retire_active id) ?_ ?_ ?_ <;>
    (unfold SimEngine.retire; split <;> rfl)

/-- A request that joins the batch takes a slot that was free and an adapter that was admitted. -/
theorem activate {e₁ : SimEngine env} {now : Instant} {id : String} {r : ActiveRequest env}
    (hnone : e₁.activeRequests.get? id = none)
    (hslots : e₁.numGenerating + e₁.pendingPulls.size < e₁.runningCapacity)
    (hadapters : 0 < e₁.loras.maxLoras → ∀ e' : SimEngine env,
      (∀ name ∈ e'.runningAdapters, name ∈ e₁.runningAdapters ∨ r.loraName = some name) →
      e'.runningAdapters.toFinset.card ≤ e₁.loras.maxLoras)
    (hpending : ∀ id p, e₁.pendingPulls.get? id = some p →
      p.loraName = p.queued.request.requestLoraName) : Capped (e₁.activate now id r) := by
  obtain ⟨maxTokens, scripted, _, hactive⟩ := e₁.activate_active now id r
  refine ⟨?_, fun hpos => hadapters hpos _ (fun name hname => ?_), hpending⟩
  · have hone : (e₁.activate now id r).numGenerating ≤ e₁.numGenerating + 1 := by
      rw [SimEngine.numGenerating_eq, SimEngine.numGenerating_eq, hactive,
        SortedMap.weight_insert_of_none _ hnone]
      split_ifs <;> omega
    rw [SimEngine.runningCapacity, SimEngine.activate_pendingPulls, SimEngine.activate_opt]
    rw [SimEngine.runningCapacity] at hslots
    omega
  · rw [SimEngine.mem_runningAdapters] at hname
    rcases hname with ⟨id', r', hr', hlora⟩ | hone
    · rw [hactive, SortedMap.get?_insert] at hr'
      split at hr'
      · cases hr'
        exact Or.inr hlora
      · exact Or.inl (SimEngine.mem_runningAdapters.mpr (Or.inl ⟨id', r', hr', hlora⟩))
    · exact Or.inl (SimEngine.mem_runningAdapters.mpr (Or.inr hone))

end Capped

theorem Move.capped {now : Instant} {e e' : SimEngine env} {effect : Effect}
    (h : Move now e effect e') (he : Sound e)
    (hfixed : ∀ patch, effect = .configured patch →
      (patch.apply e.opt).maxNumSeqs = e.opt.maxNumSeqs)
    (hc : Capped e) : Capped e' := by
  cases h with
  | arrivalFailed | arrivalRejected | enqueued | refused | orphaned | drained | adaptersChanged
  | specCleared | statsReset =>
      exact hc.congr (by simp [SimEngine.schedulerStats]) (by simp [SimEngine.schedulerStats])
        (by simp [SimEngine.schedulerStats]) (by simp [SimEngine.schedulerStats])
  | configured patch latency => exact hc.congr rfl rfl (hfixed patch rfl) rfl
  | @parked i queued hadm =>
      have hfree := (SimEngine.free_of_perm he.ids (SimEngine.live_dequeue hadm.waiting)).2
      have hroom := hadm.room.1
      refine ⟨?_, fun hpos => ?_, fun id p hp => ?_⟩
      · rw [SimEngine.runningCapacity] at hroom ⊢
        rw [SimEngine.park_pendingPulls, SortedMap.size_insert_of_none hfree]
        simp only [SimEngine.park_opt, SimEngine.dequeue_opt, SimEngine.dequeue_pendingPulls]
        simp only [SimEngine.numGenerating, SimEngine.park_activeRequests,
          SimEngine.dequeue_activeRequests] at hroom ⊢
        omega
      · rw [SimEngine.park_loras, SimEngine.dequeue_loras] at hpos ⊢
        refine SimEngine.adapters_admit hc.adapters hadm.adapter (fun name hname => ?_) hpos
        rw [SimEngine.mem_runningAdapters] at hname
        rcases hname with hone | ⟨id, p, hp, hlora⟩
        · exact Or.inl (SimEngine.mem_runningAdapters.mpr (Or.inl (by simpa using hone)))
        · rw [SimEngine.park_pendingPulls, SortedMap.get?_insert] at hp
          split at hp
          · cases hp
            exact Or.inr hlora
          · exact Or.inl (SimEngine.mem_runningAdapters.mpr (Or.inr ⟨id, p, hp, hlora⟩))
      · rw [SimEngine.park_pendingPulls, SortedMap.get?_insert] at hp
        split at hp
        · cases hp
          rfl
        · exact hc.pending id p hp
  | @admitted i queued hadm active hbuild =>
      have hbuilt := SimEngine.buildRequest_ok hbuild
      have hqueue : Capped ((e.dequeue i queued).1.pruneBigAdmissions now) :=
        hc.congr (by simp) (by simp) (by simp) (by simp)
      have hfree := (SimEngine.free_of_perm he.ids (SimEngine.live_dequeue hadm.waiting)).1
      refine Capped.activate (by simpa using hfree) (by simpa [SimEngine.numGenerating,
        SimEngine.runningCapacity] using hadm.room.1) (fun hpos e' he' => ?_) hqueue.pending
      refine SimEngine.adapters_admit hqueue.adapters ?_ he' hpos
      rw [hbuilt.loraName]
      simpa [SimEngine.runningAdapters, SimEngine.loraAdmits] using hadm.adapter
  | @promoted task htask pending hpending active hbuild =>
      have hbuilt := SimEngine.buildRequest_ok hbuild
      have hperm : e.live.Perm ((task.requestId, pending.queued.ticket) ::
          ((e.receivePull task).unpark now task.requestId).live) :=
        SimEngine.live_erase_pending hpending (by simp) (by simp) (by simp)
      have hunparked : Capped ((e.receivePull task).unpark now task.requestId) :=
        hc.erasePending hpending (by simp) (by simp) (by simp) (by simp)
      refine Capped.congr (e := ((e.receivePull task).unpark now task.requestId).activate now
        task.requestId active) ?_ (by simp) (by simp) (by simp) (by simp)
      refine Capped.activate (SimEngine.free_of_perm he.ids hperm).1 ?_ (fun hpos e' he' => ?_)
        hunparked.pending
      · have hsize := SortedMap.size_erase hpending
        have hslots := hc.slots
        simp only [SimEngine.numGenerating, SimEngine.runningCapacity] at hslots ⊢
        simp only [SimEngine.unpark_activeRequests, SimEngine.unpark_pendingPulls,
          SimEngine.unpark_opt, SimEngine.pruneBigAdmissions_activeRequests,
          SimEngine.pruneBigAdmissions_opt,
          SimEngine.receivePull_activeRequests, SimEngine.receivePull_pendingPulls,
          SimEngine.receivePull_opt]
        omega
      · -- The promoted request brings the adapter its pending pull already held.
        refine (SimEngine.adapters_le (e := e) (fun name hname => ?_)).trans
          (by simpa using hc.adapters (by simpa using hpos))
        rcases he' name hname with hold | hnew
        · rw [SimEngine.mem_runningAdapters] at hold ⊢
          rcases hold with hone | ⟨id, p, hp, hlora⟩
          · exact Or.inl (by simpa using hone)
          · simp only [SimEngine.unpark_pendingPulls, SimEngine.receivePull_pendingPulls] at hp
            rw [SortedMap.get?_erase] at hp
            split at hp
            · cases hp
            · exact Or.inr ⟨id, p, hp, hlora⟩
        · rw [hbuilt.loraName, ← hc.pending _ _ hpending] at hnew
          exact SimEngine.mem_runningAdapters.mpr (Or.inr ⟨_, pending, hpending, hnew⟩)
  | @pullRefused task htask pending hpending reason =>
      exact hc.erasePending hpending (by simp) (by simp) (by simp) (by simp)
  | @withdrawn id e₁ client ticket hwithdraw =>
      have hgone : Capped e₁ := by
        rcases SimEngine.withdraw_some hwithdraw with ⟨r, _, _, _, rfl⟩ | ⟨p, hp, _, _, rfl⟩ |
          ⟨i, q, _, _, _, _, rfl⟩
        · exact hc.retire id
        · exact hc.erasePending hp rfl rfl rfl rfl
        · exact hc.congr rfl rfl rfl rfl
      exact hgone.congr (by simp) (by simp) (by simp) (by simp)
  | composed anchor => exact hc.progress (e.composeStep_progress anchor)
  | @executed step =>
      have htake : Capped e.takeStep := hc.congr rfl rfl rfl rfl
      exact htake.progress (e.takeStep.executeStep_progress step)
  | flushed =>
      refine SimEngine.flush_preserves ?_ (fun _ id h => h.retire id)
      have hpop : ∀ r : ActiveRequest env, (r.emitDue e.tokenSource now).1.isGenerating =
          r.isGenerating ∧ (r.emitDue e.tokenSource now).1.loraName = r.loraName := by
        intro r
        rw [ActiveRequest.emitDue, ActiveRequest.emitQueue_request]
        exact ⟨rfl, rfl⟩
      refine hc.shrink ?_ le_rfl (fun name hname => ?_) (fun _ _ hp => hp) rfl rfl
      · rw [SimEngine.numGenerating_eq, SimEngine.numGenerating_eq,
          SimEngine.popEmits_activeRequests, SortedMap.weight_mapValues]
        simp only [(hpop _).1, le_refl]
      · rw [SimEngine.mem_runningAdapters] at hname ⊢
        rcases hname with ⟨id, r', hr', hlora⟩ | hone
        · rw [SimEngine.popEmits_activeRequests, SortedMap.get?_mapValues] at hr'
          obtain ⟨r, hr, rfl⟩ := Option.map_eq_some_iff.mp hr'
          exact Or.inl ⟨id, r, hr, (hpop r).2 ▸ hlora⟩
        · exact Or.inr hone
  | cacheReset =>
      refine hc.congr ?_ ?_ ?_ ?_ <;> (unfold SimEngine.resetPrefixCache; split <;> rfl)

/-- The options change by a patch only, and the adapter cap never. -/
theorem Move.settings {now : Instant} {e e' : SimEngine env} {effect : Effect}
    (h : Move now e effect e') :
    (e'.opt = e.opt ∨ ∃ patch, effect = .configured patch ∧ e'.opt = patch.apply e.opt) ∧
      e'.loras.maxLoras = e.loras.maxLoras := by
  cases h with
  | arrivalFailed | arrivalRejected | enqueued | refused | orphaned | drained | adaptersChanged
  | specCleared | statsReset | parked | admitted | promoted | pullRefused =>
      exact ⟨Or.inl (by simp [SimEngine.schedulerStats]), by simp [SimEngine.schedulerStats]⟩
  | configured patch latency => exact ⟨Or.inr ⟨patch, rfl, rfl⟩, rfl⟩
  | @withdrawn id e₁ client ticket hwithdraw =>
      have hkept : e₁.opt = e.opt ∧ e₁.loras = e.loras := by
        rcases SimEngine.withdraw_some hwithdraw with ⟨r, _, _, _, rfl⟩ | ⟨p, hp, _, _, rfl⟩ |
          ⟨i, q, _, _, _, _, rfl⟩
        · unfold SimEngine.retire
          split <;> exact ⟨rfl, rfl⟩
        · exact ⟨rfl, rfl⟩
        · exact ⟨rfl, rfl⟩
      exact ⟨Or.inl (by simp [hkept.1]), by simp [hkept.2]⟩
  | composed anchor =>
      have hprog := e.composeStep_progress anchor
      exact ⟨Or.inl hprog.opt, by rw [hprog.loras]⟩
  | @executed step =>
      have hprog := e.takeStep.executeStep_progress step
      exact ⟨Or.inl hprog.opt, congrArg LoraRegistry.maxLoras hprog.loras⟩
  | flushed =>
      have hflush := e.flush_flushed now
      exact ⟨Or.inl hflush.opt, by rw [hflush.loras]⟩
  | cacheReset =>
      unfold SimEngine.resetPrefixCache
      split <;> exact ⟨Or.inl rfl, rfl⟩

/-- Without a patch the options stay. -/
theorem SimEngine.opt_of_moves {now : Instant} {e e' : SimEngine env} {effects : List Effect}
    (h : Path (Move now) e effects e') (hquiet : ∀ effect ∈ effects, ∀ patch,
      effect ≠ .configured patch) : e'.opt = e.opt := by
  refine h.invariant_of (I := fun e' => e'.opt = e.opt)
    (P := fun effect => ∀ patch, effect ≠ .configured patch) rfl hquiet ?_
  rintro s effect s' hquiet hs hmove
  rcases hmove.settings.1 with hsame | ⟨patch, heq, _⟩
  · exact hsame.trans hs
  · exact absurd heq (hquiet patch)

/-- The operation is no patch that sets `max_num_seqs` to another value than `n`. -/
def Op.KeepsSlots (op : Op) (n : ℕ) : Prop :=
  ∀ patch, op = .input (.control (.patchConfig patch)) → ∀ m, patch.maxNumSeqs = some m → m = n

theorem ConfigPatch.apply_maxNumSeqs {patch : ConfigPatch} {opt : Opt} {n : ℕ}
    (hn : opt.maxNumSeqs = n) (h : ∀ m, patch.maxNumSeqs = some m → m = n) :
    (patch.apply opt).maxNumSeqs = n := by
  rw [ConfigPatch.apply]
  cases hm : patch.maxNumSeqs with
  | none => simpa using hn
  | some m => simpa using h m hm

theorem Run.capped {e₀ e : SimEngine env} {turns : List (Turn env)} {clock : Instant}
    (hrun : Run e₀ turns e clock) (hfresh : Fresh e₀)
    (hfixed : ∀ t ∈ turns, t.op.KeepsSlots e₀.opt.maxNumSeqs) :
    Sound e ∧ Capped e ∧ e.opt.maxNumSeqs = e₀.opt.maxNumSeqs ∧
      e.loras.maxLoras = e₀.loras.maxLoras := by
  refine hrun.invariant_of (I := fun e => Sound e ∧ Capped e ∧
      e.opt.maxNumSeqs = e₀.opt.maxNumSeqs ∧ e.loras.maxLoras = e₀.loras.maxLoras)
    (Q := fun effect => ∀ patch, effect = .configured patch →
      ∀ m, patch.maxNumSeqs = some m → m = e₀.opt.maxNumSeqs)
    ⟨hfresh.sound, hfresh.capped, rfl, rfl⟩ ?_ ?_
  · rintro t ht effect hallow patch rfl
    exact hfixed t ht patch hallow
  · rintro now e effect e' hok ⟨hsound, hcapped, hslots, hloras⟩ hmove
    have hpatch : ∀ patch, effect = .configured patch →
        (patch.apply e.opt).maxNumSeqs = e₀.opt.maxNumSeqs :=
      fun patch heq => ConfigPatch.apply_maxNumSeqs hslots (hok patch heq)
    obtain ⟨hopt, hcap⟩ := hmove.settings
    refine ⟨hmove.sound hsound,
      hmove.capped hsound (fun patch heq => (hpatch patch heq).trans hslots.symm) hcapped, ?_,
      hcap.trans hloras⟩
    rcases hopt with hsame | ⟨patch, heq, hnew⟩
    · rw [hsame, hslots]
    · rw [hnew, hpatch patch heq]

/-- The slots of the batch and the adapters resident in it stay within their caps. -/
theorem admission_caps {e₀ e : SimEngine env} {turns : List (Turn env)} {clock : Instant}
    (hfresh : Fresh e₀) (hrun : Run e₀ turns e clock)
    (hfixed : ∀ t ∈ turns, t.op.KeepsSlots e₀.opt.maxNumSeqs) :
    e.numGenerating + e.pendingPulls.size ≤ max e₀.opt.maxNumSeqs 1 ∧
      (0 < e₀.loras.maxLoras → e.runningAdapters.toFinset.card ≤ e₀.loras.maxLoras) := by
  obtain ⟨_, hcapped, hslots, hloras⟩ := hrun.capped hfresh hfixed
  have hcap := hcapped.slots
  have hadapters := hcapped.adapters
  rw [SimEngine.runningCapacity, hslots] at hcap
  rw [hloras] at hadapters
  exact ⟨hcap, hadapters⟩

/-- Three adapters compete for one adapter slot. -/
def adapterScript : List (Instant × Op) :=
  let tuned (id adapter : String) : EngineCoreRequest :=
    { demoRequest id 1 with loraRequest := some ⟨adapter, 1⟩ }
  [(0, .input (.request (tuned "a" "x"))), (0, .input (.request (tuned "b" "y"))),
    (1, .step), (2, .input (.abort ["b"])), (3, .input (.request (tuned "c" "z")))]

theorem adapterScript_caps :
    ∃ turns e clock, Run (demo { demoOpt with maxLoras := 1 } none) turns e clock ∧
      e.runningAdapters = ["z"] ∧ e.numGenerating + e.pendingPulls.size ≤ 2 ∧
      e.runningAdapters.toFinset.card ≤ 1 := by
  have hplays : ((demo { demoOpt with maxLoras := 1 } none).play 20 adapterScript).any
      (fun played => played.2.runningAdapters = ["z"]) = true := by decide +kernel
  obtain ⟨turns, e, clock, hrun, hops, hadapters⟩ :=
    Run.of_script (p := fun _ e => e.runningAdapters = ["z"]) hplays (by decide +kernel)
  have hfixed : ∀ t ∈ turns, t.op.KeepsSlots 2 := by
    intro t ht patch hop
    have hmem : Op.input (.control (.patchConfig patch)) ∈ adapterScript.map Prod.snd := by
      rw [← hops, ← hop]
      exact List.mem_map_of_mem ht
    simp [adapterScript] at hmem
  obtain ⟨hslots, hcap⟩ := admission_caps (demo_fresh _ _ _) hrun hfixed
  exact ⟨turns, e, clock, hrun, of_decide_eq_true hadapters, hslots, hcap Nat.one_pos⟩

end VllmVcr
