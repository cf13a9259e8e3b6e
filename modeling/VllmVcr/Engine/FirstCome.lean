import VllmVcr.Engine.Queue
import VllmVcr.Engine.Framing

/-!
# First come, first prefilled

A step's prefill chunks run through the prefill order, so that a chunk is planned only
behind chunks that finish the prefills before it. Prefills end in the order of entry.
-/

namespace VllmVcr

variable {env : Env} {now : Instant} {e e' : SimEngine env} {effect : Effect}

open SimEngine

/-- The generation at the end of a prefill. -/
def Event.opening : Event → Option Generation
  | .generated g => if g.byDecoder then none else some g
  | _ => none

theorem Event.IsQuiet.opening {ev : Event} (h : ev.IsQuiet) : ev.opening = none := by
  cases ev with
  | generated => cases h
  | _ => rfl

namespace SimEngine

/-- The generations that ended a prefill, in order: who has reached decode. -/
def openings (e : SimEngine env) : List Generation := e.journal.filterMap Event.opening

theorem openings_quiet {evs : List Event} (hjournal : e'.journal = e.journal ++ evs)
    (hquiet : ∀ ev ∈ evs, ev.IsQuiet) : e'.openings = e.openings := by
  rw [openings, hjournal, List.filterMap_append,
    filterMap_quiet (fun _ => Event.IsQuiet.opening) hquiet, List.append_nil, openings]

/-- A generation for a chunk's entry is an opening. -/
theorem generateFor_openings (stepEnd : Instant) (id : String) (entry n : ℕ)
    (r : ActiveRequest env) (e : SimEngine env) :
    (e.generateFor stepEnd id entry false n r).openings = e.openings ++ [⟨entry, r.ticket, false,
      r.phase, (r.generate e.tokenSource stepEnd n e.opt.effectiveTimeScale e.emitSeq).2.2⟩] := by
  have hjournal : (e.generateFor stepEnd id entry false n r).journal = e.journal ++
      [.generated ⟨entry, r.ticket, false, r.phase,
        (r.generate e.tokenSource stepEnd n e.opt.effectiveTimeScale e.emitSeq).2.2⟩] := rfl
  rw [openings, hjournal, List.filterMap_append, openings]
  rfl

theorem openings_entered {pre post : List Event} {admitted uncached maxTokens : ℕ} {listed : Bool}
    (hjournal : e'.journal = (e.journal ++ pre) ++
      .admitted admitted uncached maxTokens listed :: post)
    (hquiet : ∀ ev ∈ pre ++ post, ev.IsQuiet) : e'.openings = e.openings := by
  rw [openings, hjournal, List.filterMap_append, List.filterMap_append,
    filterMap_quiet (fun _ => Event.IsQuiet.opening)
      (fun ev hev => hquiet ev (List.mem_append_left _ hev)), List.append_nil, List.filterMap_cons]
  change _ ++ post.filterMap Event.opening = _
  rw [filterMap_quiet (fun _ => Event.IsQuiet.opening)
    (fun ev hev => hquiet ev (List.mem_append_right _ hev)), List.append_nil, openings]

/-- Whoever prefills in `e'` has no more to prefill than in `e`. -/
def Lags (e e' : SimEngine env) : Prop :=
  ∀ id r', e'.activeRequests.get? id = some r' →
    ∃ r, e.activeRequests.get? id = some r ∧ r'.ticket = r.ticket ∧
      ∀ remaining', r'.phase = .prefill remaining' →
        ∃ remaining, r.phase = .prefill remaining ∧ remaining' ≤ remaining

/-- Whoever decodes in `e'` decodes in `e`. -/
def DecodesFrom (e e' : SimEngine env) : Prop :=
  ∀ id r', e'.activeRequests.get? id = some r' → r'.phase = .decode →
    ∃ r, e.activeRequests.get? id = some r ∧ r'.ticket = r.ticket ∧ r.phase = .decode

theorem Stands.lags (h : e.Stands e') : e.Lags e' := by
  intro id r' hr'
  obtain ⟨r, hr, hticket, hphase⟩ := h id r' hr'
  exact ⟨r, hr, hticket, fun remaining hleft => ⟨remaining, hphase ▸ hleft, le_rfl⟩⟩

theorem Stands.decodesFrom (h : e.Stands e') : e.DecodesFrom e' := by
  intro id r' hr' hdecodes
  obtain ⟨r, hr, hticket, hphase⟩ := h id r' hr'
  exact ⟨r, hr, hticket, hphase ▸ hdecodes⟩

end SimEngine

/-! ## The chunks of a step -/

/-- The chunks left of a step, in the order of tickets: whoever prefills and is behind none of
them ends with its own. -/
structure Drains (chunks : List ChunkEntry) (e : SimEngine env) : Prop where
  ascending : (chunks.map ChunkEntry.ticket).Pairwise (· < ·)
  admitted : ∀ c ∈ chunks, c.ticket ∈ e.admissions
  named : ∀ c ∈ chunks, ∀ id r, e.activeRequests.get? id = some r → r.ticket = c.ticket →
    id = c.requestId
  ahead : ∀ id r remaining, e.activeRequests.get? id = some r → r.phase = .prefill remaining →
    ∀ c ∈ chunks, r.ticket < c.ticket →
      ∃ c' ∈ chunks, c'.ticket = r.ticket ∧ remaining ≤ c'.take

namespace Drains

variable {c : ChunkEntry} {chunks : List ChunkEntry}

theorem nil (e : SimEngine env) : Drains [] e :=
  ⟨List.Pairwise.nil, by simp, by simp, by simp⟩

theorem lags (h : Drains chunks e) (hlags : e.Lags e')
    (hadmissions : ∀ k ∈ e.admissions, k ∈ e'.admissions) : Drains chunks e' := by
  refine ⟨h.ascending, fun c hc => hadmissions _ (h.admitted c hc), ?_, ?_⟩
  · intro c hc id r' hr' hticket'
    obtain ⟨r, hr, hticket, _⟩ := hlags id r' hr'
    exact h.named c hc id r hr (hticket ▸ hticket')
  · intro id r' remaining' hr' hphase' c hc hless
    obtain ⟨r, hr, hticket, hleft⟩ := hlags id r' hr'
    obtain ⟨remaining, hphase, hle⟩ := hleft remaining' hphase'
    rw [hticket] at hless ⊢
    obtain ⟨c', hc', hsame, htake⟩ := h.ahead id r remaining hr hphase c hc hless
    exact ⟨c', hc', hsame, hle.trans htake⟩

/-- A chunk is done with once its request no longer prefills, or nothing comes after it. -/
theorem tail (h : Drains (c :: chunks) e)
    (hdone : ∀ r remaining, e.activeRequests.get? c.requestId = some r →
      r.phase = .prefill remaining → chunks = []) : Drains chunks e := by
  refine ⟨(List.pairwise_cons.mp h.ascending).2,
    fun c' hc' => h.admitted c' (List.mem_cons_of_mem _ hc'),
    fun c' hc' => h.named c' (List.mem_cons_of_mem _ hc'), ?_⟩
  intro id r remaining hr hphase c₂ hc₂ hless
  obtain ⟨c', hc', hsame, htake⟩ := h.ahead id r remaining hr hphase c₂
    (List.mem_cons_of_mem _ hc₂) hless
  rcases List.mem_cons.mp hc' with rfl | hrest
  · have hid := h.named c' List.mem_cons_self id r hr hsame.symm
    rw [hdone r remaining (hid ▸ hr) hphase] at hc₂
    cases hc₂
  · exact ⟨c', hrest, hsame, htake⟩

theorem head_lt (h : Drains (c :: chunks) e) {c' : ChunkEntry} (hc' : c' ∈ chunks) :
    c.ticket < c'.ticket :=
  (List.pairwise_cons.mp h.ascending).1 _ (List.mem_map_of_mem hc')

/-- Nobody prefills under a smaller ticket than that of the first chunk. -/
theorem head_le (h : Drains (c :: chunks) e) {id : String} {r : ActiveRequest env}
    (hr : e.activeRequests.get? id = some r) (hphase : r.phase ≠ .decode) :
    c.ticket ≤ r.ticket := by
  by_contra hless
  cases hprefill : r.phase with
  | decode => exact hphase hprefill
  | prefill remaining =>
      obtain ⟨c', hc', hsame, _⟩ := h.ahead id r remaining hr hprefill c List.mem_cons_self
        (Nat.lt_of_not_le hless)
      rcases List.mem_cons.mp hc' with rfl | hrest
      · omega
      · have := h.head_lt hrest
        omega

/-- A chunk that leaves tokens to prefill is the last one. -/
theorem last (h : Drains (c :: chunks) e) {r : ActiveRequest env} {remaining : ℕ}
    (hr : e.activeRequests.get? c.requestId = some r) (hticket : c.ticket = r.ticket)
    (hphase : r.phase = .prefill remaining) (hleft : c.take < remaining) : chunks = [] := by
  rw [List.eq_nil_iff_forall_not_mem]
  intro c₂ hc₂
  obtain ⟨c', hc', hsame, htake⟩ := h.ahead _ r remaining hr hphase c₂
    (List.mem_cons_of_mem _ hc₂) (hticket ▸ h.head_lt hc₂)
  rcases List.mem_cons.mp hc' with rfl | hrest
  · omega
  · have := h.head_lt hrest
    omega

end Drains

/-! ## The ends of prefills -/

/-- Prefills have ended in the order of tickets, before whatever still prefills; the first chunk of
a request is the one that came with the end of its prefill. -/
structure Opened (e : SimEngine env) : Prop where
  ordered : e.openings.Pairwise (fun g g' => g.ticket < g'.ticket)
  admitted : ∀ g ∈ e.openings, g.ticket ∈ e.admissions
  passed : ∀ g ∈ e.openings, ∀ id r, e.activeRequests.get? id = some r → r.phase ≠ .decode →
    g.ticket < r.ticket
  first : ∀ g ∈ e.openings, g.emit.toList <+: e.chunksOf g.ticket
  fresh : ∀ id r, e.activeRequests.get? id = some r → r.phase ≠ .decode → e.chunksOf r.ticket = []
  started : ∀ id r, e.activeRequests.get? id = some r → r.phase = .decode →
    ∃ g ∈ e.openings, g.ticket = r.ticket

namespace Opened

theorem lags (h : Opened e) (hlags : e.Lags e') (hdecodes : e.DecodesFrom e')
    (hopenings : e'.openings = e.openings) (hadmissions : ∀ k ∈ e.admissions, k ∈ e'.admissions)
    (hgrows : ∀ k, e.chunksOf k <+: e'.chunksOf k)
    (hprefills : ∀ id r', e'.activeRequests.get? id = some r' → r'.phase ≠ .decode →
      e'.chunksOf r'.ticket = e.chunksOf r'.ticket) : Opened e' := by
  have hback : ∀ id r', e'.activeRequests.get? id = some r' → r'.phase ≠ .decode →
      ∃ r, e.activeRequests.get? id = some r ∧ r'.ticket = r.ticket ∧ r.phase ≠ .decode := by
    intro id r' hr' hphase'
    obtain ⟨r, hr, hticket, hleft⟩ := hlags id r' hr'
    cases hprefill : r'.phase with
    | decode => exact absurd hprefill hphase'
    | prefill remaining' =>
        obtain ⟨remaining, hphase, _⟩ := hleft remaining' hprefill
        exact ⟨r, hr, hticket, by simp [hphase]⟩
  refine ⟨hopenings ▸ h.ordered, fun g hg => hadmissions _ (h.admitted g (hopenings ▸ hg)), ?_,
    fun g hg => (h.first g (hopenings ▸ hg)).trans (hgrows _), ?_, ?_⟩
  · intro g hg id r' hr' hphase'
    obtain ⟨r, hr, hticket, hphase⟩ := hback id r' hr' hphase'
    rw [hticket]
    exact h.passed g (hopenings ▸ hg) id r hr hphase
  · intro id r' hr' hphase'
    obtain ⟨r, hr, hticket, hphase⟩ := hback id r' hr' hphase'
    rw [hprefills id r' hr' hphase', hticket]
    exact h.fresh id r hr hphase
  · intro id r' hr' hphase'
    obtain ⟨r, hr, hticket, hphase⟩ := hdecodes id r' hr' hphase'
    rw [hopenings, hticket]
    exact h.started id r hr hphase

/-- Nothing is generated. -/
theorem still (h : Opened e) (hlags : e.Lags e') (hdecodes : e.DecodesFrom e')
    (hopenings : e'.openings = e.openings) (hadmissions : ∀ k ∈ e.admissions, k ∈ e'.admissions)
    (hchunks : ∀ k, e'.chunksOf k = e.chunksOf k) : Opened e' := by
  apply h.lags hlags hdecodes hopenings hadmissions
  · exact fun k => (hchunks k).symm ▸ List.prefix_rfl
  · exact fun _ r' _ _ => hchunks r'.ticket

/-- A prefilling request enters behind all the others. -/
theorem enter {id : String} {r : ActiveRequest env} (h : Opened e)
    (hactive : e'.activeRequests = e.activeRequests.insert id r) (hphase : r.phase ≠ .decode)
    (hlast : ∀ k ∈ e.admissions, k < r.ticket) (hadmissions : ∀ k ∈ e.admissions, k ∈ e'.admissions)
    (hopenings : e'.openings = e.openings) (hchunks : ∀ k, e'.chunksOf k = e.chunksOf k)
    (hnone : e.chunksOf r.ticket = []) : Opened e' := by
  refine ⟨hopenings ▸ h.ordered, fun g hg => hadmissions _ (h.admitted g (hopenings ▸ hg)), ?_,
    fun g hg => hchunks g.ticket ▸ h.first g (hopenings ▸ hg), ?_, ?_⟩
  · intro g hg id' r' hr' hphase'
    rw [hactive, SortedMap.get?_insert] at hr'
    split at hr'
    · cases hr'
      exact hlast _ (h.admitted g (hopenings ▸ hg))
    · exact h.passed g (hopenings ▸ hg) id' r' hr' hphase'
  · intro id' r' hr' hphase'
    rw [hactive, SortedMap.get?_insert] at hr'
    rw [hchunks]
    split at hr'
    · cases hr'
      exact hnone
    · exact h.fresh id' r' hr' hphase'
  · intro id' r' hr' hphase'
    rw [hactive, SortedMap.get?_insert] at hr'
    rw [hopenings]
    split at hr'
    · cases hr'
      exact absurd hphase' hphase
    · exact h.started id' r' hr' hphase'

end Opened

/-! ## Executing a step -/

namespace SimEngine

/-- The same engine with another state of one request. -/
@[simps] def setActive (id : String) (r : ActiveRequest env) (e : SimEngine env) : SimEngine env :=
  { e with activeRequests := e.activeRequests.insert id r }

/-- What a chunk's entry does: nothing, or it takes tokens and its request goes on prefilling, or
it ends the prefill. -/
theorem completeChunk_cases (stepEnd : Instant) (numRunning : ℕ) (e : SimEngine env)
    (c : ChunkEntry) :
    (completeChunk stepEnd numRunning e c = e ∧ ∀ r remaining,
      e.activeRequests.get? c.requestId = some r → r.phase ≠ .prefill remaining) ∨
    ∃ r remaining, e.activeRequests.get? c.requestId = some r ∧ r.phase = .prefill remaining ∧
      (c.take < remaining ∧ completeChunk stepEnd numRunning e c =
        (e.log (.chunked c.ticket r.ticket c.take)).setActive c.requestId
          { r with phase := .prefill (remaining - c.take) } ∨
      remaining ≤ c.take ∧ completeChunk stepEnd numRunning e c =
        ((e.log (.chunked c.ticket r.ticket c.take)).noteLoad
          (e.startDecode numRunning r)).generateFor stepEnd c.requestId c.ticket false
            (e.firstChunk r) (e.startDecode numRunning r)) := by
  unfold completeChunk
  cases hget : e.activeRequests.get? c.requestId with
  | none => exact Or.inl ⟨rfl, by simp⟩
  | some r =>
      cases hphase : r.phase with
      | decode =>
          refine Or.inl ⟨by simp only [hphase], ?_⟩
          intro r' remaining hr'
          cases hr'
          simp [hphase]
      | prefill remaining =>
          refine Or.inr ⟨r, remaining, rfl, hphase, ?_⟩
          simp only [hphase]
          by_cases hleft : 0 < remaining - c.take
          · exact Or.inl ⟨by omega, by rw [if_pos hleft]; rfl⟩
          · exact Or.inr ⟨by omega, by rw [if_neg hleft]; rfl⟩

/-- A request is replaced under its ticket. -/
structure Rewrites (e : SimEngine env) (id : String) (r r' : ActiveRequest env)
    (e' : SimEngine env) : Prop where
  found : e.activeRequests.get? id = some r
  active : e'.activeRequests = e.activeRequests.insert id r'
  ticket : r'.ticket = r.ticket
  admissions : e'.admissions = e.admissions

namespace Rewrites

variable {id : String} {r r' : ActiveRequest env}

theorem back (h : e.Rewrites id r r' e') {id' : String} {s : ActiveRequest env}
    (hs : e'.activeRequests.get? id' = some s) :
    (id' = id ∧ s = r') ∨ id' ≠ id ∧ e.activeRequests.get? id' = some s := by
  rw [h.active, SortedMap.get?_insert] at hs
  split at hs
  · next hid =>
      cases hs
      exact Or.inl ⟨hid, rfl⟩
  · next hid => exact Or.inr ⟨hid, hs⟩

theorem lags (h : e.Rewrites id r r' e') (hleft : ∀ remaining', r'.phase = .prefill remaining' →
    ∃ remaining, r.phase = .prefill remaining ∧ remaining' ≤ remaining) : e.Lags e' := by
  intro id' s hs
  rcases h.back hs with ⟨rfl, rfl⟩ | ⟨_, hkept⟩
  · exact ⟨r, h.found, h.ticket, hleft⟩
  · exact ⟨s, hkept, rfl, fun remaining hphase => ⟨remaining, hphase, le_rfl⟩⟩

theorem decodesFrom (h : e.Rewrites id r r' e') (hphase : r'.phase = .decode → r.phase = .decode) :
    e.DecodesFrom e' := by
  intro id' s hs hdecodes
  rcases h.back hs with ⟨rfl, rfl⟩ | ⟨_, hkept⟩
  · exact ⟨r, h.found, h.ticket, hphase hdecodes⟩
  · exact ⟨s, hkept, rfl, hdecodes⟩

theorem distinct (h : e.Rewrites id r r' e') (hdistinct : e.DistinctTickets) :
    e'.DistinctTickets := by
  have hwas : ∀ id' s, e'.activeRequests.get? id' = some s →
      ∃ s₀, e.activeRequests.get? id' = some s₀ ∧ s.ticket = s₀.ticket := by
    intro id' s hs
    rcases h.back hs with ⟨rfl, rfl⟩ | ⟨_, hkept⟩
    · exact ⟨r, h.found, h.ticket⟩
    · exact ⟨s, hkept, rfl⟩
  intro id₁ id₂ s₁ s₂ hs₁ hs₂ hticket
  obtain ⟨t₁, ht₁, hsame₁⟩ := hwas id₁ s₁ hs₁
  obtain ⟨t₂, ht₂, hsame₂⟩ := hwas id₂ s₂ hs₂
  exact hdistinct id₁ id₂ t₁ t₂ ht₁ ht₂ (hsame₁.symm.trans (hticket.trans hsame₂))

/-- Other requests have other tickets. -/
theorem other (h : e.Rewrites id r r' e') (hdistinct : e.DistinctTickets) {id' : String}
    {s : ActiveRequest env} (hid : id' ≠ id) (hs : e.activeRequests.get? id' = some s) :
    r.ticket ≠ s.ticket :=
  fun hticket => hid (hdistinct id' id s r hs h.found hticket.symm)

theorem generateFor {id : String} {r r₁ : ActiveRequest env}
    (hr : e.activeRequests.get? id = some r) (hticket : r₁.ticket = r.ticket) (stepEnd : Instant)
    (entry : ℕ) (byDecoder : Bool) (n : ℕ) :
    ∃ r', e.Rewrites id r r' (e.generateFor stepEnd id entry byDecoder n r₁) ∧
      r'.phase = r₁.phase := by
  obtain ⟨r', hactive, hsame, hphase⟩ := e.generateFor_active stepEnd id entry byDecoder n r₁
  refine ⟨r', ⟨hr, hactive, hsame.trans hticket, ?_⟩, hphase⟩
  simp [SimEngine.admissions, SimEngine.generateFor, Event.admission]

end Rewrites
end SimEngine

/-- The oldest prefill ends. -/
theorem Opened.opens {id : String} {r r' : ActiveRequest env} {g : Generation} (h : Opened e)
    (hrewrites : e.Rewrites id r r' e') (hdistinct : e.DistinctTickets)
    (hadmitted : r.ticket ∈ e.admissions) (hprefills : r.phase ≠ .decode)
    (hdecodes : r'.phase = .decode)
    (holdest : ∀ id s, e.activeRequests.get? id = some s → s.phase ≠ .decode →
      r.ticket ≤ s.ticket)
    (hopenings : e'.openings = e.openings ++ [g]) (hg : g.ticket = r.ticket)
    (hchunks : ∀ k, e'.chunksOf k =
      e.chunksOf k ++ if r.ticket = k then g.emit.toList else []) : Opened e' := by
  refine ⟨?_, ?_, ?_, ?_, ?_, ?_⟩
  · rw [hopenings]
    apply List.pairwise_append.mpr ⟨h.ordered, List.pairwise_singleton _ _, ?_⟩
    intro g₁ hg₁ g₂ hg₂
    cases List.mem_singleton.mp hg₂
    rw [hg]
    exact h.passed g₁ hg₁ id r hrewrites.found hprefills
  · intro g₁ hg₁
    rw [hopenings, List.mem_append, List.mem_singleton] at hg₁
    rw [hrewrites.admissions]
    rcases hg₁ with hold | rfl
    · exact h.admitted g₁ hold
    · exact hg ▸ hadmitted
  · intro g₁ hg₁ id' s hs hphase
    rw [hopenings, List.mem_append, List.mem_singleton] at hg₁
    rcases hrewrites.back hs with ⟨_, rfl⟩ | ⟨hid, hkept⟩
    · exact absurd hdecodes hphase
    · rcases hg₁ with hold | rfl
      · exact h.passed g₁ hold id' s hkept hphase
      · rw [hg]
        exact lt_of_le_of_ne (holdest id' s hkept hphase) (hrewrites.other hdistinct hid hkept)
  · intro g₁ hg₁
    rw [hopenings, List.mem_append, List.mem_singleton] at hg₁
    rw [hchunks]
    rcases hg₁ with hold | rfl
    · exact (h.first g₁ hold).trans (List.prefix_append _ _)
    · rw [if_pos hg.symm, hg, h.fresh id r hrewrites.found hprefills, List.nil_append]
  · intro id' s hs hphase
    rcases hrewrites.back hs with ⟨_, rfl⟩ | ⟨hid, hkept⟩
    · exact absurd hdecodes hphase
    · rw [hchunks, if_neg (hrewrites.other hdistinct hid hkept), List.append_nil]
      exact h.fresh id' s hkept hphase
  · intro id' s hs hphase
    rw [hopenings]
    rcases hrewrites.back hs with ⟨_, rfl⟩ | ⟨_, hkept⟩
    · exact ⟨g, List.mem_append_right _ (List.mem_singleton_self g),
        hg.trans hrewrites.ticket.symm⟩
    · obtain ⟨g₁, hg₁, hsame⟩ := h.started id' s hkept hphase
      exact ⟨g₁, List.mem_append_left _ hg₁, hsame⟩

/-- The state between two entries of a step, with the prefill chunks left. -/
structure Filling (step : EngineStep) (chunks : List ChunkEntry) (e : SimEngine env) : Prop where
  executing : Executing step e
  distinct : e.DistinctTickets
  active : ∀ id r, e.activeRequests.get? id = some r → r.ticket ∈ e.admissions
  drains : Drains chunks e
  opened : Opened e

namespace Filling

variable {step : EngineStep} {c : ChunkEntry} {chunks : List ChunkEntry}

theorem active_rewrites {id : String} {r r' : ActiveRequest env} (h : Filling step chunks e)
    (hrewrites : e.Rewrites id r r' e') : ∀ id' s, e'.activeRequests.get? id' = some s →
      s.ticket ∈ e'.admissions := by
  intro id' s hs
  rw [hrewrites.admissions]
  rcases hrewrites.back hs with ⟨rfl, rfl⟩ | ⟨_, hkept⟩
  · exact hrewrites.ticket ▸ h.active _ r hrewrites.found
  · exact h.active id' s hkept

/-- A decoder's entry ends no prefill. -/
theorem completeDecoder {d : DecoderEntry} (h : Filling step chunks e) (hd : d ∈ step.decoders)
    (stepEnd : Instant) : Filling step chunks (completeDecoder stepEnd e d) := by
  have hexecuting := h.executing.completeDecoder hd stepEnd
  unfold SimEngine.completeDecoder at hexecuting ⊢
  split
  · exact h
  · next r hr =>
      have hdecodes := (h.executing.matched.decoders d hd r hr).2
      simp only [hr] at hexecuting
      obtain ⟨r', hrewrites, hphase⟩ := Rewrites.generateFor hr rfl stepEnd d.ticket true
        (if 1 < d.tokens then d.tokens else e.opt.outputTokenChunkSize)
      have hlags := hrewrites.lags (fun remaining hleft => ⟨remaining, hphase ▸ hleft, le_rfl⟩)
      have hadmissions := fun k (hk : k ∈ e.admissions) => hrewrites.admissions ▸ hk
      have hopenings : (e.generateFor stepEnd d.requestId d.ticket true
          (if 1 < d.tokens then d.tokens else e.opt.outputTokenChunkSize) r).openings =
            e.openings := by
        simp [openings, SimEngine.generateFor, Event.opening]
      have hchunks := generateFor_chunksOf stepEnd d.requestId d.ticket true
        (if 1 < d.tokens then d.tokens else e.opt.outputTokenChunkSize) r e
      refine ⟨hexecuting, hrewrites.distinct h.distinct, h.active_rewrites hrewrites,
        h.drains.lags hlags hadmissions, h.opened.lags hlags
          (hrewrites.decodesFrom (fun _ => hdecodes)) hopenings hadmissions ?_ ?_⟩
      · intro k
        rw [hchunks]
        exact List.prefix_append _ _
      · intro id s hs hprefills
        rcases hrewrites.back hs with ⟨_, rfl⟩ | ⟨hid, hkept⟩
        · exact absurd (hphase.trans hdecodes) hprefills
        · rw [hchunks, if_neg (hrewrites.other h.distinct hid hkept), List.append_nil]

/-- The first chunk left finds nobody prefilling, or leaves its request prefilling and is the last,
or ends the oldest prefill. -/
theorem completeChunk (h : Filling step (c :: chunks) e) (hc : c ∈ step.chunks)
    (stepEnd : Instant) (numRunning : ℕ) :
    Filling step chunks (completeChunk stepEnd numRunning e c) := by
  have hexecuting := h.executing.completeChunk hc stepEnd numRunning
  rcases completeChunk_cases stepEnd numRunning e c with ⟨heq, hnone⟩ |
    ⟨r, remaining, hr, hphase, ⟨hleft, heq⟩ | ⟨hdone, heq⟩⟩
  · rw [heq]
    exact ⟨h.executing, h.distinct, h.active, h.drains.tail
      (fun r remaining hr hphase => absurd hphase (hnone r remaining hr)), h.opened⟩
  · rw [heq] at hexecuting ⊢
    have hticket := h.executing.matched.chunks c hc r hr
    have hrewrites : e.Rewrites c.requestId r { r with phase := .prefill (remaining - c.take) }
        ((e.log (.chunked c.ticket r.ticket c.take)).setActive c.requestId
          { r with phase := .prefill (remaining - c.take) }) := by
      refine ⟨hr, rfl, rfl, ?_⟩
      simp [admissions, Event.admission]
    have hadmissions := fun k (hk : k ∈ e.admissions) => hrewrites.admissions ▸ hk
    have hlags := hrewrites.lags (by
      intro remaining' hphase'
      cases hphase'
      exact ⟨remaining, hphase, Nat.sub_le _ _⟩)
    have hlast := h.drains.last hr hticket hphase hleft
    refine ⟨hexecuting, hrewrites.distinct h.distinct, h.active_rewrites hrewrites,
      (h.drains.lags hlags hadmissions).tail (fun _ _ _ _ => hlast),
      h.opened.still hlags (hrewrites.decodesFrom (by simp)) ?_ hadmissions
        (fun k => chunksOf_log rfl)⟩
    simp [openings, Event.opening]
  · rw [heq] at hexecuting ⊢
    have hticket := h.executing.matched.chunks c hc r hr
    have hprefills : r.phase ≠ .decode := by simp [hphase]
    have hstarted : (e.startDecode numRunning r).ticket = r.ticket := rfl
    set e₁ := (e.log (.chunked c.ticket r.ticket c.take)).noteLoad (e.startDecode numRunning r)
    obtain ⟨r', hlogged, hdecodes⟩ := Rewrites.generateFor
      (e := e₁) hr hstarted stepEnd c.ticket false (e.firstChunk r)
    have hadmissions : e₁.admissions = e.admissions := by
      simp [e₁, admissions, Event.admission]
    have hrewrites : e.Rewrites c.requestId r r' _ :=
      ⟨hr, hlogged.active, hlogged.ticket, hlogged.admissions.trans hadmissions⟩
    have hlags := hrewrites.lags (fun remaining' hphase' => by
      rw [hdecodes] at hphase'
      cases hphase')
    have hchunks : ∀ k, e₁.chunksOf k = e.chunksOf k :=
      fun k => chunksOf_log rfl
    have hopenings : e₁.openings = e.openings := by
      simp [e₁, openings, Event.opening]
    refine ⟨hexecuting, hrewrites.distinct h.distinct, h.active_rewrites hrewrites,
      (h.drains.lags hlags (fun k hk => hrewrites.admissions ▸ hk)).tail ?_,
      h.opened.opens hrewrites h.distinct (h.active _ r hr) hprefills hdecodes
        (fun id s hs hphase => hticket ▸ h.drains.head_le hs hphase)
        ((generateFor_openings _ _ _ _ _ _).trans (by rw [hopenings])) rfl ?_⟩
    · intro s remaining' hs hphase'
      rw [hrewrites.active, SortedMap.get?_insert_self, Option.some.injEq] at hs
      subst hs
      rw [hdecodes] at hphase'
      cases hphase'
    · intro k
      rw [generateFor_chunksOf, hchunks]
      rfl

/-- A step that is executed in full. -/
theorem executeStep (h : Filling step step.chunks e) : Filling step [] (e.executeStep step) := by
  have hlogged : Filling step step.chunks (e.log (.completed step)) := by
    have hstands : e.Stands (e.log (.completed step)) := fun id r' hr' => ⟨r', hr', rfl, rfl⟩
    have hadmissions : (e.log (.completed step)).admissions = e.admissions := by
      simp [admissions, Event.admission]
    have hopenings : (e.log (.completed step)).openings = e.openings := by
      simp [openings, Event.opening]
    refine ⟨⟨⟨h.executing.matched.decoders, h.executing.matched.chunks⟩,
      h.executing.covered.stands hstands rfl, h.executing.justified.snoc trivial⟩, h.distinct,
      fun id r hr => hadmissions ▸ h.active id r hr,
      h.drains.lags hstands.lags (fun k hk => hadmissions ▸ hk),
      h.opened.still hstands.lags hstands.decodesFrom hopenings (fun k hk => hadmissions ▸ hk)
        (fun k => chunksOf_log rfl)⟩
  have hdecoders : Filling step step.chunks
      (step.decoders.foldl (SimEngine.completeDecoder step.endsAt) (e.log (.completed step))) :=
    List.foldlRecOn _ _ hlogged (fun e' he' d hd => he'.completeDecoder hd _)
  have hchunks : ∀ (chunks : List ChunkEntry) (e' : SimEngine env),
      (∀ c ∈ chunks, c ∈ step.chunks) → Filling step chunks e' →
        Filling step [] (chunks.foldl (SimEngine.completeChunk step.endsAt e.numRunning) e') := by
    intro chunks
    induction chunks with
    | nil => exact fun e' _ he' => he'
    | cons c chunks ih =>
        intro e' hmem he'
        apply ih
        · exact fun c' hc' => hmem c' (List.mem_cons_of_mem _ hc')
        · exact he'.completeChunk (hmem c List.mem_cons_self) _ _
  obtain ⟨spec, hspec⟩ := foldSpecStats_eq
    (step.decoders.foldl (SimEngine.completeDecoder step.endsAt) (e.log (.completed step)))
    step.decoders
  unfold SimEngine.executeStep
  simp only
  rw [hspec]
  apply hchunks _ _ (fun c hc => hc)
  exact ⟨⟨⟨hdecoders.executing.matched.decoders, hdecoders.executing.matched.chunks⟩,
    hdecoders.executing.covered, hdecoders.executing.justified⟩, hdecoders.distinct,
    hdecoders.active, ⟨hdecoders.drains.ascending, hdecoders.drains.admitted,
      hdecoders.drains.named, hdecoders.drains.ahead⟩,
    ⟨hdecoders.opened.ordered, hdecoders.opened.admitted, hdecoders.opened.passed,
      hdecoders.opened.first, hdecoders.opened.fresh, hdecoders.opened.started⟩⟩

end Filling

/-! ## Composing a step -/

section Plan

variable {active : SortedMap String (ActiveRequest env)} {cost : ℕ → ℕ → Duration}

theorem planChunks_sublist (active : SortedMap String (ActiveRequest env))
    (cost : ℕ → ℕ → Duration) (threshold : ℕ) (order : List String) (left : ℕ) :
    ((planChunks active threshold cost order left).1.map ChunkEntry.requestId).Sublist order := by
  induction order generalizing left with
  | nil => exact List.Sublist.refl _
  | cons id rest ih =>
      unfold planChunks
      split
      · exact List.nil_sublist _
      · split
        · exact (ih left).cons id
        · split
          · exact (ih left).cons id
          · exact (ih _).cons_cons id

/-- The requests of an order stand in it by their tickets. -/
def ByTicket (active : SortedMap String (ActiveRequest env)) (order : List String) : Prop :=
  order.Pairwise (fun a b => ∀ r s, active.get? a = some r → active.get? b = some s →
    r.ticket < s.ticket)

theorem planChunks_ascending {order : List String} (h : ByTicket active order)
    (threshold left : ℕ) :
    ((planChunks active threshold cost order left).1.map ChunkEntry.ticket).Pairwise (· < ·) := by
  have hids := h.sublist (planChunks_sublist active cost threshold order left)
  rw [List.pairwise_map] at hids ⊢
  apply hids.imp_of_mem
  intro c c' hc hc' hless
  obtain ⟨r, _, hr, _, hticket, _⟩ := mem_planChunks hc
  obtain ⟨r', _, hr', _, hticket', _⟩ := mem_planChunks hc'
  rw [hticket, hticket']
  exact hless r r' hr hr'

/-- Without a threshold, a chunk is planned only behind chunks that finish their prefills. -/
theorem planChunks_ahead {order : List String} (h : ByTicket active order) (left : ℕ) {id : String}
    (hid : id ∈ order) {r : ActiveRequest env} {remaining : ℕ} (hr : active.get? id = some r)
    (hphase : r.phase = .prefill remaining) :
    ∀ c ∈ (planChunks active 0 cost order left).1, r.ticket < c.ticket →
      ∃ c' ∈ (planChunks active 0 cost order left).1, c'.ticket = r.ticket ∧
        remaining ≤ c'.take := by
  induction order generalizing left with
  | nil => cases hid
  | cons head rest ih =>
      obtain ⟨hhead, hrest⟩ := List.pairwise_cons.mp h
      intro c hc hless
      unfold planChunks at hc ⊢
      by_cases hleft : left = 0
      · rw [if_pos hleft] at hc
        cases hc
      · rw [if_neg hleft] at hc ⊢
        rcases List.mem_cons.mp hid with rfl | hlater
        · -- The request heads the order: a chunk behind its own takes what its own left over.
          simp only [hr, hphase, lt_irrefl, if_false] at hc ⊢
          refine ⟨_, List.mem_cons_self, rfl, ?_⟩
          rcases List.mem_cons.mp hc with rfl | hbehind
          · exact absurd hless (lt_irrefl _)
          · by_contra hshort
            have hnone : left - min remaining left = 0 := by
              simp only at hshort
              omega
            rw [hnone] at hbehind
            cases rest <;> simp [planChunks] at hbehind
        · cases hget : active.get? head with
          | none =>
              simp only [hget] at hc ⊢
              exact ih hrest left hlater c hc hless
          | some s =>
              cases hphase' : s.phase with
              | decode =>
                  simp only [hget, hphase'] at hc ⊢
                  exact ih hrest left hlater c hc hless
              | prefill remaining' =>
                  simp only [hget, hphase', lt_irrefl, if_false] at hc ⊢
                  rcases List.mem_cons.mp hc with rfl | hbehind
                  · have hbefore := hhead id hlater s r hget hr
                    exact absurd hless (Nat.not_lt.mpr hbefore.le)
                  · obtain ⟨c', hc', hfound⟩ := ih hrest _ hlater c hbehind hless
                    exact ⟨c', List.mem_cons_of_mem _ hc', hfound⟩

end Plan

/-- The chunks of the in-flight step. -/
def SimEngine.stepChunks (e : SimEngine env) : List ChunkEntry :=
  e.currentStep.elim [] EngineStep.chunks

section Compose

variable {source : Option StepSource} {requests : List EngineCoreRequest}

/-- The prefill order runs through the tickets upwards. -/
theorem Lined.byTicket (hl : Lined requests e) (hi : Issued source requests e)
    (hids : (requests.map EngineCoreRequest.requestId).Nodup) :
    ByTicket e.activeRequests e.prefillOrder := by
  obtain ⟨tickets, hsub, horder⟩ := List.sublist_map_iff.mp hl.order
  have hsorted : tickets.Pairwise (· < ·) :=
    ((List.pairwise_append.mp hl.line).1).sublist hsub
  have hpairs : (e.prefillOrder.map some).Pairwise (fun a b => ∀ k k',
      idOf requests k = a → idOf requests k' = b → a ≠ none → b ≠ none → k < k') := by
    rw [horder, List.pairwise_map]
    apply hsorted.imp
    intro k k' hless l l' hl hl' hsome hsome'
    obtain ⟨id, hid⟩ := Option.ne_none_iff_exists'.mp hsome
    obtain ⟨id', hid'⟩ := Option.ne_none_iff_exists'.mp hsome'
    rw [idOf_inj hids (hl.trans hid) hid, idOf_inj hids (hl'.trans hid') hid']
    exact hless
  rw [List.pairwise_map] at hpairs
  apply hpairs.imp
  intro a b hless r s hr hs
  obtain ⟨request, hrequest, hid⟩ := hi.active a r hr
  obtain ⟨request', hrequest', hid'⟩ := hi.active b s hs
  apply hless r.ticket s.ticket
  · rw [idOf, hrequest, Option.map_some, hid]
  · rw [idOf, hrequest', Option.map_some, hid']
  · simp
  · simp

theorem Drains.compose (hl : Lined requests e) (he : Sound e) (hen : Enrolled e)
    (hi : Issued source requests e) (hids : (requests.map EngineCoreRequest.requestId).Nodup)
    (hidle : e.currentStep = none) (anchor : Instant) :
    Drains (e.composeStep anchor).stepChunks (e.composeStep anchor) := by
  cases hstep : (e.composeStep anchor).currentStep with
  | none =>
      rw [stepChunks, hstep]
      exact Drains.nil _
  | some step =>
      have hstands := composeStep_stands anchor e
      have hactive : (e.composeStep anchor).activeRequests = e.drawDecoders.1.activeRequests := rfl
      have hchunks : (e.composeStep anchor).stepChunks =
          (planChunks e.drawDecoders.1.activeRequests 0 e.latency.prefillChunkCost e.prunedOrder
            (e.opt.stepBudget - (e.drawDecoders.2.map (fun d => max d.tokens 1)).sum)).1 := by
        rw [stepChunks, hstep, ← hl.settings.threshold, ← e.prunePrefills_order]
        exact (composeStep_step hidle hstep).2
      have hsorted : ByTicket e.drawDecoders.1.activeRequests e.prunedOrder := by
        apply ((hl.byTicket hi hids).sublist List.filter_sublist).imp
        intro a b hless r' s' hr' hs'
        obtain ⟨r, hr, hticket, _⟩ := hstands a r' hr'
        obtain ⟨s, hs, hticket', _⟩ := hstands b s' hs'
        rw [hticket, hticket']
        exact hless r s hr hs
      rw [hchunks]
      refine ⟨planChunks_ascending hsorted _ _, ?_, ?_, ?_⟩
      · intro c hc
        obtain ⟨r', _, hr', _, hticket, _⟩ := mem_planChunks hc
        obtain ⟨r, hr, hsame, _⟩ := hstands c.requestId r' hr'
        rw [hticket, hsame]
        exact hen.active _ r hr
      · intro c hc id s' hs' hsame
        obtain ⟨r', _, hr', _, hticket, _⟩ := mem_planChunks hc
        obtain ⟨r, hr, hr'', _⟩ := hstands c.requestId r' hr'
        obtain ⟨s, hs, hs'', _⟩ := hstands id s' hs'
        apply he.distinctTickets id c.requestId s r hs hr
        rw [← hs'', hsame, hticket, hr'']
      · intro id r' remaining hr' hphase
        apply planChunks_ahead hsorted _ _ hr' hphase
        obtain ⟨r, hr, _, hsame⟩ := hstands id r' hr'
        have hprefills : r.phase ≠ .decode := by
          rw [← hsame, hphase]
          simp
        apply List.mem_filter.mpr ⟨hl.listed id r hr hprefills, ?_⟩
        rw [isPrefilling, hr, Option.any_some]
        exact decide_eq_true hprefills

end Compose

/-! ## The invariant -/

/-- A move of an engine in which no request entered under a listed id. -/
theorem Move.clocked_of_own (h : Move now e effect e') (he : Clocked e)
    (hown : ∀ k, e.intruded k = false) : Clocked e' := by
  by_cases hcompleted : ∃ step, effect = .completed step
  · obtain ⟨step, rfl⟩ := hcompleted
    refine ⟨h.sound he.sound, h.enrolled he.sound he.enrolled, ?_⟩
    cases h with
    | executed hstep => exact he.tracked.execute hstep (fun _ r _ _ => hown r.ticket)
  · exact h.clocked he (fun step heq => hcompleted ⟨step, heq⟩)

/-- Requests enter, prefill and reach decode in the order of their tickets. -/
structure InTurn (requests : List EngineCoreRequest) (e : SimEngine env) : Prop where
  lined : Lined requests e
  drains : Drains e.stepChunks e
  opened : Opened e

namespace InTurn

variable {requests more : List EngineCoreRequest}

theorem stands {evs : List Event} (h : InTurn requests e) (hl : Lined more e')
    (hstands : e.Stands e') (hstep : e'.currentStep = e.currentStep)
    (hjournal : e'.journal = e.journal ++ evs) (hquiet : ∀ ev ∈ evs, ev.IsQuiet) :
    InTurn more e' := by
  have hadmissions : e'.admissions = e.admissions := by
    rw [admissions_append hjournal, filterMap_quiet (fun _ => Event.IsQuiet.admission) hquiet,
      List.append_nil]
  have hchunks : e'.stepChunks = e.stepChunks := by rw [stepChunks, hstep, stepChunks]
  refine ⟨hl, hchunks ▸ h.drains.lags hstands.lags (fun k hk => hadmissions ▸ hk), ?_⟩
  exact h.opened.still hstands.lags hstands.decodesFrom (openings_quiet hjournal hquiet)
    (fun k hk => hadmissions ▸ hk) (chunksOf_quiet hjournal hquiet)

/-- Whoever enters is behind everybody in the batch. -/
theorem enter {q : QueuedRequest} {r : ActiveRequest env} (h : InTurn requests e)
    (hl : Lined more e') (hgenerated : ∀ k, e.chunksOf k ≠ [] → k ∈ e.admissions)
    (hentry : Entry now e e' q r) (hwaiting : e.waiting = q :: e'.waiting)
    (hphase : r.phase ≠ .decode) : InTurn more e' := by
  obtain ⟨pre, post, hquiet, hjournal⟩ := hentry.journal
  have hadmissions : ∀ k ∈ e.admissions, k ∈ e'.admissions := by
    intro k hk
    rw [hentry.admissions]
    exact List.mem_append_left _ hk
  have hlast : ∀ k ∈ e.admissions, k < r.ticket := by
    intro k hk
    rw [hentry.ticket]
    have hline := (List.pairwise_append.mp h.lined.line).2.2
    apply hline k hk
    rw [hwaiting]
    exact List.mem_cons_self
  have hnone : e.chunksOf r.ticket = [] := by
    by_contra hne
    exact lt_irrefl _ (hlast _ (hgenerated _ hne))
  have hchunks : e'.stepChunks = e.stepChunks := by
    rw [stepChunks, hentry.currentStep, stepChunks]
  refine ⟨hl, ?_, h.opened.enter hentry.active hphase hlast hadmissions
    (openings_entered hjournal hquiet) (chunksOf_entered hjournal hquiet) hnone⟩
  rw [hchunks]
  refine ⟨h.drains.ascending, fun c hc => hadmissions _ (h.drains.admitted c hc), ?_, ?_⟩
  · intro c hc id s hs hticket
    rw [hentry.active, SortedMap.get?_insert] at hs
    split at hs
    · cases hs
      have := hlast _ (h.drains.admitted c hc)
      omega
    · exact h.drains.named c hc id s hs hticket
  · intro id s remaining hs hprefill c hc hless
    rw [hentry.active, SortedMap.get?_insert] at hs
    split at hs
    · cases hs
      have := hlast _ (h.drains.admitted c hc)
      omega
    · exact h.drains.ahead id s remaining hs hprefill c hc hless

end InTurn

theorem Fresh.inTurn (h : Fresh e) (hscheduler : e.opt.schedulingPolicy = .fcfs)
    (hloras : e.opt.maxLoras = 0) (hthreshold : e.opt.longPrefillTokenThreshold = 0) :
    InTurn [] e := by
  have hl := h.lined hscheduler hloras hthreshold
  obtain ⟨engineIndex, opt, tokenSource, stepSource, hnew⟩ := h
  obtain ⟨latency, _, rfl⟩ := except_map_eq_ok hnew
  refine ⟨hl, Drains.nil _, List.Pairwise.nil, by simp [openings], by simp [openings],
    by simp [openings], by simp, by simp⟩

theorem Move.inTurn {source : Option StepSource} {requests : List EngineCoreRequest}
    (h : Move now e effect e') (he : Clocked e)
    (hgenerated : ∀ k, e.chunksOf k ≠ [] → k ∈ e.admissions)
    (hi : Issued source requests e)
    (hlocal : ∀ request ∈ requests, request.prefilledRemotely = false)
    (hids : (requests.map EngineCoreRequest.requestId).Nodup) (hs : InTurn requests e) :
    InTurn (requests ++ effect.issued) e' := by
  obtain ⟨hc, hl⟩ := h.lined he.sound he.enrolled hi hlocal hids hs.lined
  by_cases hadmissions : e'.admissions = e.admissions
  · cases h.batch he.sound with
    | still _ hactive hstep _ hjournal hquiet =>
        exact hs.stands hl (fun id r' hr' => ⟨r', hactive ▸ hr', rfl, rfl⟩) hstep hjournal hquiet
    | entered _ _ _ _ _ _ _ hjournal =>
        rw [admissions_append ((List.append_assoc _ _ _).symm ▸ hjournal)] at hadmissions
        simp [Event.admission] at hadmissions
    | withdrew _ hactive hstep _ hjournal =>
        have hsame : e'.journal = e.journal ++ [] := by rw [hjournal, List.append_nil]
        exact hs.stands hl (stands_of_erase hactive) hstep hsame (by simp)
    | composed anchor hidle =>
        have hstands := composeStep_stands anchor e
        exact ⟨hl, Drains.compose hs.lined he.sound he.enrolled hi hids hidle anchor,
          hs.opened.still hstands.lags hstands.decodesFrom rfl (fun _ hk => hk) (fun _ => rfl)⟩
    | @executed step hstep hdue =>
        have hchunks : step.chunks = e.stepChunks := by
          rw [stepChunks, hstep]
          rfl
        have hfilling : Filling step step.chunks e.takeStep :=
          ⟨he.tracked.executing hstep (fun _ r _ _ => hs.lined.own r.ticket),
            he.sound.distinctTickets, he.enrolled.active,
            hchunks ▸ ⟨hs.drains.ascending, hs.drains.admitted, hs.drains.named, hs.drains.ahead⟩,
            ⟨hs.opened.ordered, hs.opened.admitted, hs.opened.passed, hs.opened.first,
              hs.opened.fresh, hs.opened.started⟩⟩
        have hdone := hfilling.executeStep
        have hidle : (e.takeStep.executeStep step).stepChunks = [] := by
          rw [stepChunks, executeStep_currentStep]
          rfl
        exact ⟨hl, hidle ▸ hdone.drains, hdone.opened⟩
    | flushed =>
        have hflushed := e.flush_flushed now
        have hsame : (e.flush now).1.journal = e.journal ++ [] := by
          rw [hflushed.journal, List.append_nil]
        exact hs.stands hl (flush_stands he.sound.active now) hflushed.currentStep hsame (by simp)
  · cases hc with
    | kept _ hkept => exact absurd hkept hadmissions
    | joined hkept => exact absurd hkept hadmissions
    | entered _ hwaiting _ hentry hphase => exact hs.enter hl hgenerated hentry hwaiting hphase

/-! ## The numbers of the chunks -/

def Event.emitted : Event → Option PendingEmit
  | .generated g => g.emit
  | _ => none

theorem Event.IsQuiet.emitted {ev : Event} (h : ev.IsQuiet) : ev.emitted = none := by
  cases ev with
  | generated => cases h
  | _ => rfl

/-- The generated chunks are numbered upwards. -/
structure Numbered (e : SimEngine env) : Prop where
  ascending : (e.journal.filterMap Event.emitted).Pairwise (fun a b => a.seq < b.seq)
  bounded : ∀ emit ∈ e.journal.filterMap Event.emitted, emit.seq < e.emitSeq

theorem Numbered.kept (h : Numbered e)
    (hemits : e'.journal.filterMap Event.emitted = e.journal.filterMap Event.emitted)
    (hseq : e.emitSeq = e'.emitSeq) : Numbered e' :=
  ⟨hemits ▸ h.ascending, hseq ▸ hemits ▸ h.bounded⟩

theorem Numbered.generateFor (h : Numbered e) (stepEnd : Instant) (id : String) (entry : ℕ)
    (byDecoder : Bool) (n : ℕ) (r : ActiveRequest env) :
    Numbered (e.generateFor stepEnd id entry byDecoder n r) := by
  have hjournal : (e.generateFor stepEnd id entry byDecoder n r).journal.filterMap Event.emitted =
      e.journal.filterMap Event.emitted ++
        (r.generate e.tokenSource stepEnd n e.opt.effectiveTimeScale e.emitSeq).2.2.toList := by
    rw [SimEngine.generateFor, log_journal, List.filterMap_append]
    cases hemit : (r.generate e.tokenSource stepEnd n e.opt.effectiveTimeScale e.emitSeq).2.2 with
    | none => simp [Event.emitted]
    | some emit => simp [Event.emitted]
  have hnext : (e.generateFor stepEnd id entry byDecoder n r).emitSeq = e.emitSeq + 1 := rfl
  have hlast : ∀ emit ∈ (r.generate e.tokenSource stepEnd n e.opt.effectiveTimeScale
      e.emitSeq).2.2.toList, emit.seq = e.emitSeq := by
    intro emit hemit
    rcases r.generate_eq e.tokenSource stepEnd n e.opt.effectiveTimeScale e.emitSeq with
      ⟨_, hnone⟩ | ⟨_, _, emit', _, _, _, hseq, hsome⟩
    · rw [hnone] at hemit
      cases hemit
    · rw [hsome] at hemit
      cases List.mem_singleton.mp hemit
      exact hseq
  constructor
  · rw [hjournal]
    refine List.pairwise_append.mpr ⟨h.ascending, ?_, ?_⟩
    · cases (r.generate e.tokenSource stepEnd n e.opt.effectiveTimeScale e.emitSeq).2.2 with
      | none => exact List.Pairwise.nil
      | some emit => exact List.pairwise_singleton _ _
    · intro a ha b hb
      rw [hlast b hb]
      exact h.bounded a ha
  · intro emit hemit
    rw [hnext]
    rw [hjournal, List.mem_append] at hemit
    rcases hemit with hold | hnew
    · have := h.bounded emit hold
      omega
    · have := hlast emit hnew
      omega

theorem Fresh.numbered (h : Fresh e) : Numbered e := by
  obtain ⟨engineIndex, opt, tokenSource, stepSource, hnew⟩ := h
  obtain ⟨latency, _, rfl⟩ := except_map_eq_ok hnew
  exact ⟨List.Pairwise.nil, by simp⟩

theorem Move.numbered (h : Move now e effect e') (he : Sound e) (hn : Numbered e) :
    Numbered e' := by
  cases h.batch he with
  | still _ _ _ hseq hjournal hquiet =>
      apply hn.kept _ hseq.symm
      rw [hjournal, List.filterMap_append, filterMap_quiet (fun _ => Event.IsQuiet.emitted) hquiet,
        List.append_nil]
  | entered _ _ _ _ _ _ hseq hjournal hquiet =>
      apply hn.kept _ hseq.symm
      rw [hjournal, List.filterMap_append, List.filterMap_append, List.filterMap_cons,
        filterMap_quiet (fun _ => Event.IsQuiet.emitted)
          (fun ev hev => hquiet ev (List.mem_append_left _ hev)),
        filterMap_quiet (fun _ => Event.IsQuiet.emitted)
          (fun ev hev => hquiet ev (List.mem_append_right _ hev)), List.append_nil]
      exact List.append_nil _
  | withdrew _ _ _ hseq hjournal => exact hn.kept (by rw [hjournal]) hseq.symm
  | composed => exact hn.kept rfl rfl
  | @executed step =>
      apply executeStep_preserves (I := Numbered)
      · exact hn.kept (by simp [Event.emitted]) rfl
      · exact fun _ _ h => ⟨h.ascending, h.bounded⟩
      · intro e₁ d _ h
        unfold completeDecoder
        split
        · exact h
        · exact h.generateFor _ _ _ _ _ _
      · intro numRunning e₁ c _ h
        rcases completeChunk_cases step.endsAt numRunning e₁ c with ⟨heq, _⟩ |
          ⟨r, remaining, _, _, ⟨_, heq⟩ | ⟨_, heq⟩⟩
        · rwa [heq]
        · rw [heq]
          exact h.kept (by simp [Event.emitted]) rfl
        · rw [heq]
          have hnoted : Numbered ((e₁.log (.chunked c.ticket r.ticket c.take)).noteLoad
              (e₁.startDecode numRunning r)) := h.kept (by simp [Event.emitted]) rfl
          exact hnoted.generateFor _ _ _ _ _ _
  | flushed =>
      have hflushed := e.flush_flushed now
      exact hn.kept (by rw [hflushed.journal]) hflushed.emitSeq.symm

/-! ## First chunks of some tokens -/

/-- Whoever prefills is to open with a token, and whoever reached decode did. -/
structure Filled (e : SimEngine env) : Prop where
  ready : ∀ id r, e.activeRequests.get? id = some r → r.phase ≠ .decode →
    r.generated = 0 ∧ 0 < r.maxTokens ∧ e.firstChunk r ≠ 0
  opened : ∀ g ∈ e.openings, g.emit.isSome

theorem Filled.kept (h : Filled e) (hopenings : e'.openings = e.openings)
    (hchunk : e'.opt.outputTokenChunkSize = e.opt.outputTokenChunkSize)
    (hback : ∀ id r', e'.activeRequests.get? id = some r' → r'.phase ≠ .decode →
      ∃ r, e.activeRequests.get? id = some r ∧ r.phase ≠ .decode ∧ r'.generated = r.generated ∧
        r'.maxTokens = r.maxTokens ∧ r'.scriptedDecode = r.scriptedDecode) : Filled e' := by
  refine ⟨fun id r' hr' hphase' => ?_, fun g hg => h.opened g (hopenings ▸ hg)⟩
  obtain ⟨r, hr, hphase, hgenerated, hmax, hscript⟩ := hback id r' hr' hphase'
  have hfirst : e'.firstChunk r' = e.firstChunk r := by
    unfold firstChunk
    rw [hscript, hchunk]
  rw [hgenerated, hmax, hfirst]
  exact h.ready id r hr hphase

theorem Filled.completeDecoder {step : EngineStep} {d : DecoderEntry} (h : Filled e)
    (hexecuting : Executing step e) (hd : d ∈ step.decoders) (stepEnd : Instant) :
    Filled (completeDecoder stepEnd e d) := by
  unfold SimEngine.completeDecoder
  split
  · exact h
  · next r hr =>
      have hdecodes := (hexecuting.matched.decoders d hd r hr).2
      obtain ⟨r', hactive, _, hphase⟩ := e.generateFor_active stepEnd d.requestId d.ticket
        true (if 1 < d.tokens then d.tokens else e.opt.outputTokenChunkSize) r
      refine h.kept (by simp [openings, generateFor, Event.opening]) rfl ?_
      intro id s hs hprefills
      rw [hactive, SortedMap.get?_insert] at hs
      split at hs
      · cases hs
        exact absurd (hphase.trans hdecodes) hprefills
      · exact ⟨s, hs, hprefills, rfl, rfl, rfl⟩

theorem Filled.completeChunk (h : Filled e) (stepEnd : Instant) (numRunning : ℕ) (c : ChunkEntry) :
    Filled (completeChunk stepEnd numRunning e c) := by
  rcases completeChunk_cases stepEnd numRunning e c with ⟨heq, _⟩ |
    ⟨r, remaining, hr, hphase, ⟨_, heq⟩ | ⟨_, heq⟩⟩
  · rwa [heq]
  · rw [heq]
    refine h.kept (by simp [openings, Event.opening]) rfl ?_
    intro id s hs hprefills
    rw [setActive_activeRequests, log_activeRequests, SortedMap.get?_insert] at hs
    split at hs
    · next hid =>
        cases hs
        exact ⟨r, hid ▸ hr, by simp [hphase], rfl, rfl, rfl⟩
    · exact ⟨s, hs, hprefills, rfl, rfl, rfl⟩
  · rw [heq]
    obtain ⟨hgenerated, hmax, hfirst⟩ := h.ready _ r hr (by simp [hphase])
    set e₁ := (e.log (.chunked c.ticket r.ticket c.take)).noteLoad (e.startDecode numRunning r)
    obtain ⟨r', hactive, _, hdecodes⟩ := generateFor_active stepEnd c.requestId c.ticket
      false (e.firstChunk r) (e.startDecode numRunning r) e₁
    have hopenings := generateFor_openings stepEnd c.requestId c.ticket (e.firstChunk r)
      (e.startDecode numRunning r) e₁
    have hlogged : e₁.openings = e.openings := by
      simp [e₁, openings, Event.opening]
    constructor
    · intro id s hs hprefills
      rw [hactive, SortedMap.get?_insert] at hs
      split at hs
      · cases hs
        exact absurd hdecodes hprefills
      · exact h.ready id s hs hprefills
    · intro g hg
      rw [hopenings, hlogged, List.mem_append, List.mem_singleton] at hg
      rcases hg with hold | rfl
      · exact h.opened g hold
      · have hlen : (e.startDecode numRunning r).chunkLen (e.firstChunk r) ≠ 0 := by
          have hsame : (e.startDecode numRunning r).chunkLen (e.firstChunk r) =
              min (r.maxTokens - r.generated) (e.firstChunk r) := rfl
          omega
        rcases (e.startDecode numRunning r).generate_eq
          e₁.tokenSource stepEnd (e.firstChunk r) e₁.opt.effectiveTimeScale e₁.emitSeq with
          ⟨hzero, _⟩ | ⟨_, _, emit, _, _, _, _, hsome⟩
        · exact absurd hzero hlen
        · simp only [hsome]
          rfl

theorem Filled.executeStep {step : EngineStep} (h : Filled e) (hexecuting : Executing step e) :
    Filled (e.executeStep step) := by
  have hboth : Executing step (e.executeStep step) ∧ Filled (e.executeStep step) := by
    apply executeStep_preserves (I := fun e' => Executing step e' ∧ Filled e')
    · refine ⟨⟨⟨hexecuting.matched.decoders, hexecuting.matched.chunks⟩,
        hexecuting.covered.stands (fun id r' hr' => ⟨r', hr', rfl, rfl⟩) rfl,
        hexecuting.justified.snoc trivial⟩, ?_⟩
      exact h.kept (by simp [openings, Event.opening]) rfl
        (fun id r hr hphase => ⟨r, hr, hphase, rfl, rfl, rfl⟩)
    · exact fun e' spec he' => ⟨⟨⟨he'.1.matched.decoders, he'.1.matched.chunks⟩, he'.1.covered,
        he'.1.justified⟩, ⟨he'.2.ready, he'.2.opened⟩⟩
    · exact fun e' d hd he' => ⟨he'.1.completeDecoder hd _, he'.2.completeDecoder he'.1 hd _⟩
    · exact fun numRunning e' c hc he' => ⟨he'.1.completeChunk hc _ _, he'.2.completeChunk _ _ c⟩
  exact hboth.2

/-- The schedule handed to a request, and without one the configured chunk size, opens with at
least one token. -/
def Opens (outputTokenChunkSize : ℕ) (schedule : Option ScriptedDecode) : Prop :=
  schedule.elim outputTokenChunkSize ScriptedDecode.firstChunkTokens ≠ 0

theorem Entry.ready {q : QueuedRequest} {r : ActiveRequest env} (h : Entry now e e' q r)
    (hopens : Opens e.opt.outputTokenChunkSize (handTo e.stepSource q.request).2) :
    r.generated = 0 ∧ 0 < r.maxTokens ∧ e.firstChunk r ≠ 0 := by
  obtain ⟨admission, active, hbuild, rfl⟩ := h.built
  have hbuilt := ActiveRequest.new_ok hbuild
  obtain ⟨maxTokens, scripted, _, heq⟩ := active.pinned_eq
    (e.tokenSource.onRequestAdded q.request.requestId q.request.prompt).2
    (handTo e.stepSource q.request).2
  refine ⟨by rw [heq]; exact hbuilt.generated, ?_, ?_⟩
  · have hclamped : 0 < (active.clampTokens
        (e.tokenSource.onRequestAdded q.request.requestId q.request.prompt).2).maxTokens := by
      cases hrecorded : (e.tokenSource.onRequestAdded q.request.requestId q.request.prompt).2 with
      | none => exact hbuilt.maxTokens
      | some len => exact lt_min hbuilt.maxTokens (TokenSource.onRequestAdded_pos hrecorded)
    unfold ActiveRequest.pinned
    cases hschedule : (handTo e.stepSource q.request).2 with
    | none => exact hclamped
    | some schedule =>
        rw [hschedule] at hopens
        have hpos : 0 < schedule.outputTokens :=
          (Nat.pos_of_ne_zero hopens).trans_le (Nat.le_add_right _ _)
        exact lt_min hclamped hpos
  · have hscript : (active.clampTokens
        (e.tokenSource.onRequestAdded q.request.requestId q.request.prompt).2).scriptedDecode =
          none := by
      cases (e.tokenSource.onRequestAdded q.request.requestId q.request.prompt).2 with
      | none => exact hbuilt.scriptedDecode
      | some len => exact hbuilt.scriptedDecode
    unfold ActiveRequest.pinned firstChunk
    cases hschedule : (handTo e.stepSource q.request).2 with
    | none =>
        rw [hschedule] at hopens
        simp only [ActiveRequest.script, hscript]
        exact hopens
    | some schedule =>
        rw [hschedule] at hopens
        exact hopens

theorem Move.outputTokenChunkSize (h : Move now e effect e') :
    e'.opt.outputTokenChunkSize = e.opt.outputTokenChunkSize := by
  rcases h.settings.1 with hsame | ⟨patch, _, hpatched⟩
  · rw [hsame]
  · rw [hpatched]
    rfl

theorem Move.filled {source : Option StepSource} {requests : List EngineCoreRequest}
    (h : Move now e effect e') (he : Clocked e) (hi : Issued source requests e)
    (hown : ∀ k, e.intruded k = false)
    (hopens : ∀ k schedule, (k, schedule) ∈
      (handOut (requests ++ effect.issued) source e'.admissions).2 →
        Opens e.opt.outputTokenChunkSize schedule) (hf : Filled e) : Filled e' := by
  have hchunk := h.outputTokenChunkSize
  cases h.batch he.sound with
  | still _ hactive _ _ hjournal hquiet =>
      apply hf.kept (openings_quiet hjournal hquiet) hchunk
      exact fun id r hr hphase => ⟨r, hactive ▸ hr, hphase, rfl, rfl, rfl⟩
  | entered _ _ _ _ _ _ _ hjournal hquiet =>
      rcases h.entry he.sound with ⟨hkept, _⟩ | ⟨q, r, hentry⟩
      · rw [admissions_append ((List.append_assoc _ _ _).symm ▸ hjournal)] at hkept
        simp [Event.admission] at hkept
      · have hrequest : (requests ++ effect.issued)[q.ticket]? = some q.request := by
          have hwas := hi.waits q hentry.waits
          rw [List.getElem?_append_left (List.getElem?_eq_some_iff.mp hwas).1, hwas]
        have hhanded : handOut (requests ++ effect.issued) source e.admissions =
            handOut requests source e.admissions :=
          handOut_append (fun k hk => hi.length ▸ he.enrolled.issued k hk) _
        have hready := hentry.ready (hopens q.ticket _ (by
          rw [hentry.admissions, handOut_snoc hrequest, hhanded, ← hi.source]
          exact List.mem_append_right _ (List.mem_singleton_self _)))
        have hfirst : ∀ s, e'.firstChunk s = e.firstChunk s := by
          intro s
          unfold firstChunk
          rw [hchunk]
        refine ⟨fun id s hs hphase => ?_, fun g hg =>
          hf.opened g (openings_entered hjournal hquiet ▸ hg)⟩
        rw [hfirst]
        rw [hentry.active, SortedMap.get?_insert] at hs
        split at hs
        · cases hs
          exact hready
        · exact hf.ready id s hs hphase
  | withdrew _ hactive _ _ hjournal =>
      refine hf.kept (by rw [openings, hjournal, openings]) hchunk ?_
      intro id r hr hphase
      rw [hactive, SortedMap.get?_erase] at hr
      split at hr
      · cases hr
      · exact ⟨r, hr, hphase, rfl, rfl, rfl⟩
  | composed anchor =>
      refine hf.kept rfl hchunk ?_
      intro id r' hr' hphase
      obtain ⟨r, hr, heq⟩ := composeStep_active hr'
      by_cases hdecoding : r.isDecoding = true
      · rw [if_pos hdecoding] at heq
        rw [ActiveRequest.isDecoding, Bool.and_eq_true, decide_eq_true_eq] at hdecoding
        rw [heq, (e.drawFor_kept r).2.2] at hphase
        exact absurd hdecoding.1 hphase
      · rw [if_neg hdecoding] at heq
        exact ⟨r, hr, heq ▸ hphase, by rw [heq], by rw [heq], by rw [heq]⟩
  | @executed step hstep =>
      have htaken : Filled e.takeStep := ⟨hf.ready, hf.opened⟩
      exact htaken.executeStep (he.tracked.executing hstep (fun _ r _ _ => hown r.ticket))
  | flushed =>
      refine hf.kept (by rw [openings, (e.flush_flushed now).journal, openings]) hchunk ?_
      intro id r' hr' hphase
      obtain ⟨r, hr, _, heq⟩ := e.flush_get? he.sound.active now hr'
      rw [ActiveRequest.emitDue, ActiveRequest.emitQueue_request] at heq
      exact ⟨r, hr, by rw [← heq] at hphase; exact hphase, by rw [← heq], by rw [← heq],
        by rw [← heq]⟩

/-! ## Runs -/

/-- No request brings remote KV, and no id is used twice. -/
structure Plain (requests : List EngineCoreRequest) : Prop where
  ownPrompt : ∀ request ∈ requests, request.prefilledRemotely = false
  ids : (requests.map EngineCoreRequest.requestId).Nodup

theorem Plain.of_append {requests more : List EngineCoreRequest} (h : Plain (requests ++ more)) :
    Plain requests := by
  refine ⟨fun request hrequest => h.ownPrompt request (List.mem_append_left _ hrequest), ?_⟩
  have hids := h.ids
  rw [List.map_append] at hids
  exact (List.nodup_append.mp hids).1

/-- A move leaves what was handed out before it. -/
theorem Move.handOut_subset {source : Option StepSource} {requests : List EngineCoreRequest}
    (h : Move now e effect e') (he : Sound e) (hen : Enrolled e) (hi : Issued source requests e) :
    (handOut requests source e.admissions).2 ⊆
      (handOut (requests ++ effect.issued) source e'.admissions).2 := by
  have hhanded : handOut (requests ++ effect.issued) source e.admissions =
      handOut requests source e.admissions :=
    handOut_append (fun k hk => hi.length ▸ hen.issued k hk) _
  rcases h.entry he with ⟨hkept, _⟩ | ⟨q, r, hentry⟩
  · rw [hkept, hhanded]
    exact fun _ hx => hx
  · have hrequest : (requests ++ effect.issued)[q.ticket]? = some q.request := by
      have hwas := hi.waits q hentry.waits
      rw [List.getElem?_append_left (List.getElem?_eq_some_iff.mp hwas).1, hwas]
    rw [hentry.admissions, handOut_snoc hrequest, hhanded]
    exact List.subset_append_left _ _

/-- An engine that serves plain requests in order. -/
structure ServingInTurn (e₀ : SimEngine env) (requests : List EngineCoreRequest)
    (e : SimEngine env) : Prop where
  clocked : Clocked e
  inTurn : InTurn requests e
  filled : (∀ k schedule, (k, schedule) ∈ (handOut requests e₀.stepSource e.admissions).2 →
    Opens e₀.opt.outputTokenChunkSize schedule) → Filled e

section Runs

variable {e₀ : SimEngine env} {turns : List (Turn env)} {clock : Instant}

theorem Fresh.serving (h : Fresh e) (hscheduler : e.opt.schedulingPolicy = .fcfs)
    (hloras : e.opt.maxLoras = 0) (hthreshold : e.opt.longPrefillTokenThreshold = 0) :
    ServingInTurn e [] e := by
  refine ⟨⟨h.sound, h.enrolled, h.tracked⟩, h.inTurn hscheduler hloras hthreshold, ?_⟩
  intro _
  obtain ⟨engineIndex, opt, tokenSource, stepSource, hnew⟩ := h
  obtain ⟨latency, _, rfl⟩ := except_map_eq_ok hnew
  exact ⟨by simp, by simp [openings]⟩

theorem Run.serving (hrun : Run e₀ turns e clock) (hfresh : Fresh e₀)
    (hscheduler : e₀.opt.schedulingPolicy = .fcfs) (hloras : e₀.opt.maxLoras = 0)
    (hthreshold : e₀.opt.longPrefillTokenThreshold = 0)
    (hplain : Plain (VllmVcr.issued turns)) :
    Numbered e ∧ ServingInTurn e₀ (VllmVcr.issued turns) e := by
  have hall : Standing clock e ∧ Issued e₀.stepSource (VllmVcr.issued turns) e ∧ Numbered e ∧
      e.opt.outputTokenChunkSize = e₀.opt.outputTokenChunkSize ∧
        (Plain (VllmVcr.issued turns) → ServingInTurn e₀ (VllmVcr.issued turns) e) := by
    apply hrun.issuing (Q := fun _ => True) (P := fun requests e now => Standing now e ∧
      Issued e₀.stepSource requests e ∧ Numbered e ∧
        e.opt.outputTokenChunkSize = e₀.opt.outputTokenChunkSize ∧
          (Plain requests → ServingInTurn e₀ requests e)) (by simp)
    · exact ⟨hfresh.standing, hfresh.issued, hfresh.numbered, rfl,
        fun _ => hfresh.serving hscheduler hloras hthreshold⟩
    · exact fun requests e now later hle h => ⟨h.1.later hle, h.2⟩
    · intro requests now e effect e' _ ⟨hst, hi, hn, hchunk, hserving⟩ hmove
      refine ⟨hmove.standing hst, hmove.issued hst.sound hst.enrolled hi,
        hmove.numbered hst.sound hn, hmove.outputTokenChunkSize.trans hchunk, fun hplain => ?_⟩
      have hp := hplain.of_append
      have hs := hserving hp
      have hown := hs.inTurn.lined.own
      refine ⟨hmove.clocked_of_own hs.clocked hown, hmove.inTurn hs.clocked
        hst.timed.ordered.admitted hi hp.ownPrompt hp.ids hs.inTurn, fun hopens => ?_⟩
      rw [← hchunk] at hopens
      apply hmove.filled hs.clocked hi hown hopens
      apply hs.filled
      intro k schedule hmem
      rw [← hchunk]
      exact hopens k schedule (hmove.handOut_subset hst.sound hst.enrolled hi hmem)
  exact ⟨hall.2.2.1, hall.2.2.2.2 hplain⟩

/-- Prefills end in the order of arrival, and when every schedule opens with a token, the first
chunks are numbered in this order. -/
theorem first_come_first_prefilled (hfresh : Fresh e₀) (hrun : Run e₀ turns e clock)
    (hscheduler : e₀.opt.schedulingPolicy = .fcfs) (hloras : e₀.opt.maxLoras = 0)
    (hthreshold : e₀.opt.longPrefillTokenThreshold = 0) (hplain : Plain (issued turns)) :
    (∀ id r, e.activeRequests.get? id = some r → r.phase = .decode →
      ∃ g ∈ e.openings, g.ticket = r.ticket) ∧
    e.openings.Pairwise (fun g g' => g.ticket < g'.ticket) ∧
    ((∀ k schedule, (k, schedule) ∈ schedules e₀ turns e →
        Opens e₀.opt.outputTokenChunkSize schedule) →
      e.openings.Pairwise (fun g g' => ∃ a b, (e.chunksOf g.ticket).head? = some a ∧
        (e.chunksOf g'.ticket).head? = some b ∧ a.seq < b.seq)) := by
  obtain ⟨hnumbered, hserving⟩ := hrun.serving hfresh hscheduler hloras hthreshold hplain
  have hopened := hserving.inTurn.opened
  refine ⟨hopened.started, hopened.ordered, fun hopens => ?_⟩
  have hfilled := hserving.filled hopens
  have hascending : e.openings.Pairwise (fun g g' => ∀ a ∈ g.emit, ∀ b ∈ g'.emit,
      a.seq < b.seq) := by
    have hjournal := List.pairwise_filterMap.mp hnumbered.ascending
    apply List.Pairwise.filterMap _ _ hjournal
    intro ev ev' hless g hg g' hg' a ha b hb
    have hsame : ∀ (ev : Event) (g : Generation) (a : PendingEmit), ev.opening = some g →
        g.emit = some a → ev.emitted = some a := by
      intro ev g a hopening hemit
      cases ev with
      | generated g₁ =>
          rw [Event.opening] at hopening
          split at hopening
          · cases hopening
          · cases hopening
            exact hemit
      | _ => cases hopening
    exact hless a (hsame ev g a hg ha) b (hsame ev' g' b hg' hb)
  have hhead : ∀ g ∈ e.openings, ∀ a, g.emit = some a → (e.chunksOf g.ticket).head? = some a := by
    intro g hg a ha
    obtain ⟨rest, hrest⟩ := hopened.first g hg
    rw [← hrest, ha]
    rfl
  apply hascending.imp_of_mem
  intro g g' hg hg' hless
  obtain ⟨a, ha⟩ := Option.isSome_iff_exists.mp (hfilled.opened g hg)
  obtain ⟨b, hb⟩ := Option.isSome_iff_exists.mp (hfilled.opened g' hg')
  exact ⟨a, b, hhead g hg a ha, hhead g' hg' b hb, hless a ha b hb⟩

end Runs

/-- Two requests, the first of which may replay a record, prefill in one step behind a third. -/
def trio : List EngineCoreRequest :=
  [demoRequest "a" 1, demoRequest "replay-0" 9, demoRequest "b" 2]

def trioScript : List (Instant × Op) :=
  trio.map (fun request => (0, .input (.request request))) ++ [(1, .step)]

theorem trio_plain : Plain trio := ⟨by decide +kernel, by decide +kernel⟩

def trioDemo (record : TraceRecord) : SimEngine demoEnv :=
  demo { demoOpt with maxNumSeqs := 3, replaySteps := some "trace" } (some (.index [record]))

theorem trioScript_in_order :
    ∃ turns e clock, Run (trioDemo burstRecord) turns e clock ∧
      (e.openings.map Generation.ticket = [0, 1, 2] ∧
        e.openings.Pairwise (fun g g' => g.ticket < g'.ticket)) ∧
      e.openings.Pairwise (fun g g' => ∃ a b, (e.chunksOf g.ticket).head? = some a ∧
        (e.chunksOf g'.ticket).head? = some b ∧ a.seq < b.seq) := by
  have hplays : ((trioDemo burstRecord).play 20 trioScript).any (fun played =>
      (issued played.1).length = 3 ∧ played.2.openings.map Generation.ticket = [0, 1, 2] ∧
        schedules (trioDemo burstRecord) played.1 played.2 =
          [(0, none), (1, some burstSchedule), (2, none)]) = true := by
    decide +kernel
  obtain ⟨turns, e, clock, hrun, hops, hfound⟩ := Run.of_script
    (p := fun (turns : List (Turn demoEnv)) e => (issued turns).length = 3 ∧
      e.openings.map Generation.ticket = [0, 1, 2] ∧ schedules (trioDemo burstRecord) turns e =
        [(0, none), (1, some burstSchedule), (2, none)]) hplays (by decide +kernel)
  obtain ⟨hlen, htickets, hschedules⟩ := of_decide_eq_true hfound
  have hissued : issued turns = trio := issued_of_ops hops hlen
  obtain ⟨_, hordered, hnumbered⟩ := first_come_first_prefilled (demo_fresh _ _ _) hrun rfl rfl rfl
    (hissued ▸ trio_plain)
  have hopens : ∀ k schedule, (k, schedule) ∈ schedules (trioDemo burstRecord) turns e →
      Opens 1 schedule := by
    intro k schedule hmem
    rw [hschedules] at hmem
    simp only [List.mem_cons, List.not_mem_nil, or_false] at hmem
    rcases hmem with heq | heq | heq
    · cases heq
      exact Nat.succ_ne_zero 0
    · cases heq
      exact Nat.succ_ne_zero 1
    · cases heq
      exact Nat.succ_ne_zero 0
  exact ⟨turns, e, clock, hrun, ⟨htickets, hordered⟩, hnumbered hopens⟩

/-- A record whose first chunk is `2 ^ 32` tokens. -/
def wrappedRecord : TraceRecord where
  outputTokens := 2 ^ 32 + 3
  itlMs := some [10]
  itlTokens := some [3]
  arrivalMs := some 0

/-- The wrapped first chunk is empty: the third request shows tokens before the second does. -/
theorem wrapped_overtaken :
    ∃ turns e clock, Run (trioDemo wrappedRecord) turns e clock ∧ Plain (issued turns) ∧
      e.openings.map Generation.ticket = [0, 1, 2] ∧ ∃ a b, (e.chunksOf 1).head? = some a ∧
        (e.chunksOf 2).head? = some b ∧ b.seq < a.seq := by
  have hplays : ((trioDemo wrappedRecord).play 20 trioScript).any (fun played =>
      (issued played.1).length = 3 ∧ played.2.openings.map Generation.ticket = [0, 1, 2] ∧
        ((played.2.chunksOf 1).head?.map PendingEmit.seq = some 4 ∧
          (played.2.chunksOf 2).head?.map PendingEmit.seq = some 2)) = true := by
    decide +kernel
  obtain ⟨turns, e, clock, hrun, hops, hfound⟩ := Run.of_script
    (p := fun (turns : List (Turn demoEnv)) e => (issued turns).length = 3 ∧
      e.openings.map Generation.ticket = [0, 1, 2] ∧
        ((e.chunksOf 1).head?.map PendingEmit.seq = some 4 ∧
          (e.chunksOf 2).head?.map PendingEmit.seq = some 2)) hplays (by decide +kernel)
  obtain ⟨hlen, htickets, hsecond, hthird⟩ := of_decide_eq_true hfound
  obtain ⟨a, ha, haseq⟩ := Option.map_eq_some_iff.mp hsecond
  obtain ⟨b, hb, hbseq⟩ := Option.map_eq_some_iff.mp hthird
  have hissued : issued turns = trio := issued_of_ops hops hlen
  exact ⟨turns, e, clock, hrun, hissued ▸ trio_plain, htickets, a, b, ha, hb, by omega⟩

end VllmVcr
