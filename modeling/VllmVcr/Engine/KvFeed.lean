import VllmVcr.KvEvents
import VllmVcr.Engine.Sound

/-!
# The feed of KV-cache events

The engine hands batches to the publisher while it runs, and the publisher task runs beside it in
any interleaving. Losing a batch before it is sent leaves no gap in the sequence numbers; missing
a message that was sent does.
-/

namespace VllmVcr

variable {env : Env} {now : Instant}

namespace SimEngine

/-- The batches handed to the publisher so far. -/
def handed (e : SimEngine env) : List (List KvCacheEvent) := e.events.getD []

theorem executeStep_events (step : EngineStep) (e : SimEngine env) :
    (e.executeStep step).events = e.events := by
  have hchunk : ∀ (numRunning : ℕ) (e₁ : SimEngine env) (c : ChunkEntry),
      (completeChunk step.endsAt numRunning e₁ c).events = e₁.events := by
    intro numRunning e₁ c
    unfold completeChunk
    split
    · rfl
    · split
      · rfl
      · split <;> rfl
  have hdecoder : ∀ (e₁ : SimEngine env) (d : DecoderEntry),
      (completeDecoder step.endsAt e₁ d).events = e₁.events := by
    intro e₁ d
    unfold completeDecoder
    split <;> rfl
  exact executeStep_preserves (I := fun e₁ => e₁.events = e.events) rfl (fun _ _ h => h)
    (fun e₁ d _ h => (hdecoder e₁ d).trans h) (fun n e₁ c _ h => (hchunk n e₁ c).trans h)

theorem retire_events (id : String) (e : SimEngine env) : (e.retire id).events = e.events := by
  unfold retire
  split <;> rfl

theorem retire_keySet (id : String) (e : SimEngine env) :
    (e.retire id).pool.keySet = e.pool.keySet := by
  unfold retire
  split
  · rfl
  · exact BlockPool.keySet_unpin _ _

/-- `e'` is `e` after handing one batch over, and the batch says what became of the cached keys.
An empty batch is not handed over. -/
def Hands (e e' : SimEngine env) : Prop :=
  ∃ batch, e'.events = (e.publish batch).events ∧
    e.pool.keySet.applyAll batch = e'.pool.keySet

theorem Hands.of_same {e e' : SimEngine env} (hevents : e'.events = e.events)
    (hkeys : e'.pool.keySet = e.pool.keySet) : e.Hands e' :=
  ⟨[], hevents, hkeys.symm⟩

theorem Hands.of_unpinned {e e₁ e' : SimEngine env} (h : e.Hands e₁)
    (hevents : e'.events = e₁.events) (hkeys : e'.pool.keySet = e₁.pool.keySet) : e.Hands e' := by
  obtain ⟨batch, hbatch, hfold⟩ := h
  exact ⟨batch, hevents.trans hbatch, hfold.trans hkeys.symm⟩

theorem activate_events (requestId : String) (active : ActiveRequest env) (e : SimEngine env) :
    (e.activate now requestId active).events = e.events := rfl

theorem dequeue_hands (i : ℕ) (queued : QueuedRequest) (e : SimEngine env) :
    e.Hands (e.dequeue i queued).1 :=
  ⟨_, rfl, (BlockPool.cachePrompt_events _ _ _ _).2⟩

end SimEngine

theorem Move.hands {e e' : SimEngine env} {effect : Effect} (h : Move now e effect e') :
    e.Hands e' := by
  cases h with
  | arrivalFailed | arrivalRejected | enqueued | orphaned | configured | adaptersChanged
  | specCleared | statsReset | drained => exact .of_same rfl rfl
  | @promoted task htask pending hpending active hbuild =>
      apply SimEngine.Hands.of_same
      · simp only [SimEngine.log_events, SimEngine.activate_events, SimEngine.unpark_events,
          SimEngine.pruneBigAdmissions_events, SimEngine.receivePull_events]
      · simp only [SimEngine.log_pool, SimEngine.activate_pool, SimEngine.unpark_pool,
          SimEngine.pruneBigAdmissions_pool, SimEngine.receivePull_pool]
  | @parked i queued hadm => exact (e.dequeue_hands i queued).of_unpinned rfl rfl
  | @admitted i queued hadm active hbuild => exact (e.dequeue_hands i queued).of_unpinned rfl rfl
  | @refused i queued hadm reason =>
      exact (e.dequeue_hands i queued).of_unpinned rfl (BlockPool.keySet_unpin _ _)
  | @pullRefused task htask pending hpending reason =>
      apply SimEngine.Hands.of_same
      · simp only [SimEngine.failAdmission_events, SimEngine.countFailed_events,
          SimEngine.unpark_events, SimEngine.pruneBigAdmissions_events,
          SimEngine.receivePull_events]
      · simp only [SimEngine.failAdmission_pool, SimEngine.unpark_pool,
          SimEngine.pruneBigAdmissions_pool, SimEngine.receivePull_pool, BlockPool.keySet_unpin]
  | @withdrawn id e₁ client ticket hwithdraw =>
      rcases SimEngine.withdraw_some hwithdraw with ⟨r, _, _, _, rfl⟩ | ⟨p, _, _, _, rfl⟩ |
        ⟨i, q, _, _, _, _, rfl⟩
      · exact .of_same (e.retire_events id) (e.retire_keySet id)
      · exact .of_same rfl (BlockPool.keySet_unpin _ _)
      · exact .of_same rfl rfl
  | composed anchor =>
      have hpool : (e.composeStep anchor).pool = e.pool := (e.composeStep_progress anchor).pool
      have hevents : (e.composeStep anchor).events = e.events := rfl
      exact .of_same hevents (congrArg BlockPool.keySet hpool)
  | @executed step =>
      have hpool : (e.takeStep.executeStep step).pool = e.pool :=
        (e.takeStep.executeStep_progress step).pool
      have hevents : (e.takeStep.executeStep step).events = e.events :=
        e.takeStep.executeStep_events step
      exact .of_same hevents (congrArg BlockPool.keySet hpool)
  | flushed =>
      apply SimEngine.flush_preserves (I := fun e₁ => e.Hands e₁) (.of_same rfl rfl)
      intro e₁ id h
      exact h.of_unpinned (e₁.retire_events id) (e₁.retire_keySet id)
  | cacheReset =>
      unfold SimEngine.resetPrefixCache
      split
      · exact ⟨_, rfl, e.pool.reset_events⟩
      · exact .of_same rfl rfl

/-- A move that hands nothing over keeps the cached keys, where events are enabled. -/
theorem Move.handed {e e' : SimEngine env} {effect : Effect} (h : Move now e effect e') :
    (e'.events = e.events ∧ (e.events.isSome → e'.pool.keySet = e.pool.keySet)) ∨
    ∃ batch, batch.isEmpty = false ∧ e.events.isSome ∧ e'.events = some (e.handed ++ [batch]) ∧
      e.pool.keySet.applyAll batch = e'.pool.keySet := by
  obtain ⟨batch, hevents, hfold⟩ := h.hands
  rw [SimEngine.publish_events] at hevents
  by_cases hempty : batch.isEmpty = true
  · rw [if_pos hempty] at hevents
    obtain rfl := List.isEmpty_iff.mp hempty
    exact Or.inl ⟨hevents, fun _ => hfold.symm⟩
  · rw [if_neg hempty] at hevents
    cases hsent : e.events with
    | none =>
        rw [hsent] at hevents
        exact Or.inl ⟨hevents, fun hsome => absurd hsome (by simp)⟩
    | some sent =>
        rw [hsent] at hevents
        refine Or.inr ⟨batch, by simpa using hempty, rfl, ?_, hfold⟩
        rw [hevents, SimEngine.handed, hsent]
        rfl

theorem Move.handed_append {e e' : SimEngine env} {effect : Effect}
    (h : Move now e effect e') : ∃ batches, e'.handed = e.handed ++ batches := by
  rcases h.handed with ⟨hevents, _⟩ | ⟨batch, _, _, hevents, _⟩
  · exact ⟨[], by rw [SimEngine.handed, hevents, List.append_nil]; rfl⟩
  · exact ⟨[batch], by rw [SimEngine.handed, hevents]; rfl⟩

/-! ## The engine and its publisher -/

/-- An engine with its publisher, and the key sets its pool has had. -/
structure Feed (env : Env) where
  engine : SimEngine env
  publisher : KvPublisher
  views : List RouterView

namespace Feed

def start (e : SimEngine env) : Feed env := ⟨e, {}, [e.pool.keySet]⟩

/-- The feed after the engine moved to `e'`: what `e'` has handed over since is published. -/
def moveTo (s : Feed env) (e' : SimEngine env) : Feed env where
  engine := e'
  publisher := (e'.handed.drop s.engine.handed.length).foldl
    (fun p batch => p.publish batch) s.publisher
  views := s.views ++ [e'.pool.keySet]

end Feed

inductive FeedLabel where
  | move (now : Instant) (effect : Effect)
  | task (act : PublisherAct)

/-- The engine moves, or the publisher task does. -/
inductive FeedStep : Feed env → FeedLabel → Feed env → Prop
  | move {s : Feed env} {now : Instant} {effect : Effect} {e' : SimEngine env}
      (h : Move now s.engine effect e') : FeedStep s (.move now effect) (s.moveTo e')
  | task {s : Feed env} {act : PublisherAct} {p : KvPublisher} (h : s.publisher.act act = some p) :
      FeedStep s (.task act) { s with publisher := p }

namespace Feed

/-- The set a router holds after the first batches handed over. -/
def viewAfter (s : Feed env) (k : ℕ) : RouterView :=
  RouterView.applyAll ∅ (s.engine.handed.take k).flatten

/-- The publisher is fed in order, and the batches handed over tell the key sets the pool had. -/
structure Follows (s : Feed env) : Prop where
  order : s.publisher.InOrder s.engine.handed
  current : s.engine.events.isSome → s.viewAfter s.engine.handed.length = s.engine.pool.keySet
  seen : ∀ k ≤ s.engine.handed.length, s.viewAfter k ∈ s.views
  only : s.engine.events.isSome → ∀ view ∈ s.views, ∃ k ≤ s.engine.handed.length, view = s.viewAfter k

end Feed

theorem Fresh.handed {e : SimEngine env} (h : Fresh e) : e.handed = [] := by
  obtain ⟨engineIndex, opt, tokenSource, stepSource, hnew⟩ := h
  obtain ⟨latency, _, rfl⟩ := except_map_eq_ok hnew
  unfold SimEngine.handed
  dsimp only
  split <;> rfl

theorem Fresh.keySet {e : SimEngine env} (h : Fresh e) : e.pool.keySet = ∅ := by
  obtain ⟨engineIndex, opt, tokenSource, stepSource, hnew⟩ := h
  obtain ⟨latency, _, rfl⟩ := except_map_eq_ok hnew
  rfl

namespace Feed

variable {s t : Feed env} {label : FeedLabel}

theorem Follows.start {e : SimEngine env} (h : Fresh e) : (Feed.start e).Follows := by
  have hview : ∀ k, (Feed.start e).viewAfter k = e.pool.keySet := fun k => by
    simp [viewAfter, Feed.start, h.handed, h.keySet, RouterView.applyAll]
  constructor
  · change KvPublisher.InOrder e.handed {}
    rw [h.handed]
    exact KvPublisher.InOrder.init
  · exact fun _ => hview _
  · exact fun k _ => List.mem_singleton.mpr (hview k)
  · exact fun _ view hmem => ⟨0, Nat.zero_le _, (List.mem_singleton.mp hmem).trans (hview 0).symm⟩

theorem Follows.moveTo_same (hs : s.Follows) {e' : SimEngine env}
    (hevents : e'.events = s.engine.events)
    (hkeys : s.engine.events.isSome → e'.pool.keySet = s.engine.pool.keySet) :
    (s.moveTo e').Follows := by
  have hhanded : e'.handed = s.engine.handed := congrArg (fun o => o.getD []) hevents
  have hview : ∀ k, (s.moveTo e').viewAfter k = s.viewAfter k := fun k => by
    rw [viewAfter, viewAfter, moveTo, hhanded]
  have hsome : (s.moveTo e').engine.events.isSome → s.engine.events.isSome := fun h => hevents ▸ h
  constructor
  · have hpublisher : (s.moveTo e').publisher = s.publisher := by
      simp only [moveTo, hhanded, List.drop_length, List.foldl_nil]
    rw [hpublisher]
    exact hhanded.symm ▸ hs.order
  · intro h
    change (s.moveTo e').viewAfter e'.handed.length = e'.pool.keySet
    rw [hview, hhanded, hkeys (hsome h), hs.current (hsome h)]
  · intro k hk
    rw [hview]
    exact List.mem_append_left _ (hs.seen k (hhanded ▸ hk))
  · intro h view hmem
    rcases List.mem_append.mp hmem with hold | hnew
    · obtain ⟨k, hle, hk⟩ := hs.only (hsome h) view hold
      exact ⟨k, hhanded ▸ hle, hk.trans (hview k).symm⟩
    · refine ⟨s.engine.handed.length, hhanded ▸ le_rfl, ?_⟩
      rw [List.mem_singleton.mp hnew, hview, hkeys (hsome h), hs.current (hsome h)]

theorem Follows.moveTo_handed (hs : s.Follows) {e' : SimEngine env} {batch : List KvCacheEvent}
    (hnonempty : batch.isEmpty = false) (hsome : s.engine.events.isSome)
    (hevents : e'.events = some (s.engine.handed ++ [batch]))
    (hfold : s.engine.pool.keySet.applyAll batch = e'.pool.keySet) : (s.moveTo e').Follows := by
  have hhanded : e'.handed = s.engine.handed ++ [batch] := congrArg (fun o => o.getD []) hevents
  have hview : ∀ k ≤ s.engine.handed.length, (s.moveTo e').viewAfter k = s.viewAfter k :=
    fun k hk => by rw [viewAfter, viewAfter, moveTo, hhanded, List.take_append_of_le_length hk]
  have hlast : (s.moveTo e').viewAfter (s.engine.handed.length + 1) = e'.pool.keySet := by
    have hcurrent := hs.current hsome
    rw [viewAfter, List.take_length] at hcurrent
    rw [viewAfter, moveTo, hhanded, List.take_of_length_le (by simp), List.flatten_append,
      RouterView.applyAll_append, hcurrent, List.flatten_singleton, hfold]
  have hlength : e'.handed.length = s.engine.handed.length + 1 := by simp [hhanded]
  constructor
  · have hpublisher : (s.moveTo e').publisher = s.publisher.publish batch := by
      simp only [moveTo, hhanded, List.drop_left, List.foldl_cons, List.foldl_nil]
    have horder := hs.order.publish batch
    rw [if_neg (by simp [hnonempty])] at horder
    rw [hpublisher]
    exact hhanded.symm ▸ horder
  · intro _
    change (s.moveTo e').viewAfter e'.handed.length = e'.pool.keySet
    rw [hlength, hlast]
  · intro k hk
    change k ≤ e'.handed.length at hk
    by_cases hle : k ≤ s.engine.handed.length
    · rw [hview k hle]
      exact List.mem_append_left _ (hs.seen k hle)
    · obtain rfl : k = s.engine.handed.length + 1 := by omega
      rw [hlast]
      exact List.mem_append_right _ List.mem_cons_self
  · intro _ view hmem
    rcases List.mem_append.mp hmem with hold | hnew
    · obtain ⟨k, hle, hk⟩ := hs.only hsome view hold
      exact ⟨k, hle.trans (hlength ▸ Nat.le_succ _), hk.trans (hview k hle).symm⟩
    · exact ⟨_, hlength.ge, (List.mem_singleton.mp hnew).trans hlast.symm⟩

theorem Follows.step (hs : s.Follows) (h : FeedStep s label t) : t.Follows := by
  cases h with
  | task hact => exact ⟨hs.order.act hact, hs.current, hs.seen, hs.only⟩
  | move hmove =>
      rcases hmove.handed with ⟨hevents, hkeys⟩ | ⟨batch, hnonempty, hsome, hevents, hfold⟩
      · exact hs.moveTo_same hevents hkeys
      · exact hs.moveTo_handed hnonempty hsome hevents hfold

theorem path_follows {e : SimEngine env} {labels : List FeedLabel} (hfresh : Fresh e)
    (h : Path FeedStep (Feed.start e) labels s) : s.Follows :=
  h.invariant (Follows.start hfresh) (fun _ _ _ => Follows.step)

/-! ## Operations of the engine as paths of the feed -/

/-- A path of the engine is one of the feed, beside an idle publisher task. -/
theorem path_of_moves {effects : List Effect} {e' : SimEngine env}
    (h : Path (Move now) s.engine effects e') :
    (∃ batches, e'.handed = s.engine.handed ++ batches) ∧
    ∃ labels t, Path FeedStep s labels t ∧ t.engine = e' ∧
      t.publisher = (s.moveTo e').publisher := by
  induction h with
  | nil =>
      refine ⟨⟨[], (List.append_nil _).symm⟩, [], s, Path.nil s, rfl, ?_⟩
      simp [moveTo]
  | snoc _ hmove ih =>
      obtain ⟨⟨batches, hbatches⟩, labels, t, hto, rfl, hpublisher⟩ := ih
      obtain ⟨more, hmore⟩ := hmove.handed_append
      refine ⟨⟨batches ++ more, by rw [hmore, hbatches, List.append_assoc]⟩, _, _,
        hto.snoc (.move hmove), rfl, ?_⟩
      simp only [moveTo] at hpublisher ⊢
      rw [hpublisher, hmore, hbatches, List.append_assoc, List.drop_left, List.drop_left,
        ← List.append_assoc, List.drop_left, List.foldl_append]

theorem path_of_perform {fuel : ℕ} {op : Op} {e' : SimEngine env} {outs : List EngineOutput}
    (h : s.engine.perform fuel now op = some (e', outs)) :
    ∃ labels t, Path FeedStep s labels t ∧ t.engine = e' ∧
      t.publisher = (s.moveTo e').publisher := by
  obtain ⟨os, ⟨effects, hpath, _, _⟩, _⟩ := perform_emits h
  exact (path_of_moves hpath).2

theorem path_of_acts (acts : List PublisherAct) {s : Feed env} {p : KvPublisher}
    (h : acts.foldlM (fun p act => p.act act) s.publisher = some p) :
    Path FeedStep s (acts.map FeedLabel.task) { s with publisher := p } := by
  induction acts generalizing s with
  | nil =>
      cases h
      exact Path.nil s
  | cons act acts ih =>
      obtain ⟨p', hact, hrest⟩ := Option.bind_eq_some_iff.mp h
      exact Path.cons (.task hact) (ih (s := { s with publisher := p' }) hrest)

end Feed

/-! ## What the sequence numbers tell -/

/-- The messages sent are numbered one by one, whatever was dropped before them. A subscriber that
has seen the first numbers has missed no message before its last one; it holds a key set of the
pool where no batch was dropped before its last one. -/
theorem received_tells {e : SimEngine env} {labels : List FeedLabel} {s : Feed env}
    {received : List EventMessage} (hfresh : Fresh e) (hrun : Path FeedStep (Feed.start e) labels s)
    (hsub : received.Sublist s.publisher.sent) (hfew : s.publisher.sent.length ≤ 2 ^ 64)
    (hseqs : received.map EventMessage.seq = (List.range received.length).map UInt64.ofNat) :
    s.publisher.sent.map EventMessage.seq =
        (List.range s.publisher.sent.length).map UInt64.ofNat ∧
      received = s.publisher.sent.take received.length ∧
      ((∀ m ∈ received, ∀ k < m.batch.number, ∃ m' ∈ s.publisher.sent, m'.batch.number = k) →
        RouterView.applyAll ∅ (received.flatMap (fun m => m.batch.events)) ∈ s.views) := by
  have hfollows := Feed.path_follows hfresh hrun
  have htake := hfollows.order.received_take hsub hfew hseqs
  refine ⟨hfollows.order.numbered, htake, ?_⟩
  intro hkept
  have hhanded := hfollows.order.sent_history (n := received.length) hsub.length_le (htake ▸ hkept)
  rw [← htake] at hhanded
  have hle : received.length ≤ s.engine.handed.length := by
    have hlength := congrArg List.length hhanded
    rw [List.length_map, List.length_take] at hlength
    omega
  have hview := hfollows.seen received.length hle
  rw [Feed.viewAfter, ← hhanded, ← List.flatMap_def] at hview
  exact hview

/-! ## Two prompts of one block each -/

def feedOpt : Opt :=
  { demoOpt with tokensPerBlock := 1, enableKvCacheEvents := true, maxNumSeqs := 4 }

def feedRequest (requestId : String) (token : Token) : EngineCoreRequest :=
  { demoRequest requestId 1 with promptTokenIds := some [token] }

/-- Each of the two requests stores a block of its own, and the pool never holds the second alone. -/
theorem demo_hands : ∃ (e₁ e₂ : SimEngine demoEnv) (batch batch' : List KvCacheEvent)
    (outs outs' : List EngineOutput),
    (demo feedOpt none).perform 1 0 (.input (.request (feedRequest "A" 1))) = some (e₁, outs) ∧
    e₁.perform 1 0 (.input (.request (feedRequest "B" 2))) = some (e₂, outs') ∧
    e₂.events.isSome ∧ e₁.handed = [batch] ∧ e₂.handed = [batch, batch'] ∧
    batch.isEmpty = false ∧ batch'.isEmpty = false ∧
    RouterView.applyAll ∅ batch' ∉ (List.range 3).map
      (fun k => RouterView.applyAll ∅ ([batch, batch'].take k).flatten) := by
  have hplays : ((demo feedOpt none).perform 1 0 (.input (.request (feedRequest "A" 1)))).any
      (fun first => (first.1.perform 1 0 (.input (.request (feedRequest "B" 2)))).any
        (fun second => second.1.events.isSome && second.1.handed.length == 2 &&
          first.1.handed == second.1.handed.take 1 && second.1.handed.all (!·.isEmpty) &&
          decide (RouterView.applyAll ∅ (second.1.handed.getD 1 []) ∉ (List.range 3).map
            (fun k => RouterView.applyAll ∅ (second.1.handed.take k).flatten)))) = true := by
    decide +kernel
  obtain ⟨⟨e₁, outs⟩, hfirst, hrest⟩ := (Option.any_eq_true _ _).mp hplays
  obtain ⟨⟨e₂, outs'⟩, hsecond, hchecks⟩ := (Option.any_eq_true _ _).mp hrest
  simp only [Bool.and_eq_true, beq_iff_eq, decide_eq_true_eq] at hchecks
  obtain ⟨⟨⟨⟨hsome, htwo⟩, hone⟩, hall⟩, hview⟩ := hchecks
  obtain ⟨batch, batch', hhanded⟩ := List.length_eq_two.mp htwo
  rw [hhanded] at hone hall hview
  simp only [List.all_cons, List.all_nil, Bool.and_true, Bool.and_eq_true,
    Bool.not_eq_eq_eq_not, Bool.not_true] at hall
  exact ⟨e₁, e₂, batch, batch', outs, outs', hfirst, hsecond, hsome, hone, hhanded, hall.1, hall.2,
    hview⟩

/-- The first batch is lost in sending, the second goes out with the number 0. -/
theorem lost_batch_leaves_no_gap : ∃ (labels : List FeedLabel) (s : Feed demoEnv)
    (received : List EventMessage), Path FeedStep (Feed.start (demo feedOpt none)) labels s ∧
      received.Sublist s.publisher.sent ∧ s.publisher.sent.length ≤ 2 ^ 64 ∧ received ≠ [] ∧
      received.map EventMessage.seq = (List.range received.length).map UInt64.ofNat ∧
      (∀ m ∈ received, 0 < m.batch.number) ∧ (∀ m ∈ s.publisher.sent, m.batch.number ≠ 0) ∧
      RouterView.applyAll ∅ (received.flatMap (fun m => m.batch.events)) ∉ s.views := by
  obtain ⟨e₁, e₂, batch, batch', outs, outs', hfirst, hsecond, hsome, hone, htwo, hnonempty,
    hnonempty', hview⟩ := demo_hands
  have hfresh : Fresh (demo feedOpt none) := demo_fresh _ _ _
  obtain ⟨labels, s, hpath, rfl, hpublisher⟩ :=
    Feed.path_of_perform (s := Feed.start (demo feedOpt none)) hfirst
  have hqueued : s.publisher = { queue := [⟨0, batch⟩], published := 1 } := by
    rw [hpublisher]
    simp only [Feed.moveTo, Feed.start, hone, hfresh.handed, List.length_nil, List.drop_zero,
      List.foldl_cons, List.foldl_nil]
    simp [KvPublisher.publish, hnonempty, KvPublisher.queueCapacity]
  have hdropped := Feed.path_of_acts [.recv, .sendFails] (s := s)
    (p := { published := 1 }) (by rw [hqueued]; rfl)
  obtain ⟨labels', t, hpath', rfl, hpublisher'⟩ :=
    Feed.path_of_perform (s := { s with publisher := { published := 1 } }) hsecond
  have hqueued' : t.publisher = { queue := [⟨1, batch'⟩], published := 2 } := by
    rw [hpublisher']
    simp only [Feed.moveTo, hone, htwo, List.length_singleton, List.drop_succ_cons, List.drop_zero,
      List.foldl_cons, List.foldl_nil]
    simp [KvPublisher.publish, hnonempty', KvPublisher.queueCapacity]
  have hsent := Feed.path_of_acts [.recv, .send] (s := t)
    (p := { published := 2, seq := 1, sent := [⟨0, ⟨1, batch'⟩⟩] }) (by rw [hqueued']; rfl)
  have hrun := ((hpath.append hdropped).append hpath').append hsent
  refine ⟨_, _, [⟨0, ⟨1, batch'⟩⟩], hrun, List.Sublist.refl _, by simp, by simp, rfl, by simp,
    by simp, ?_⟩
  intro hmem
  obtain ⟨k, hk, heq⟩ := (Feed.path_follows hfresh hrun).only hsome _ hmem
  apply hview
  refine List.mem_map.mpr ⟨k, List.mem_range.mpr ?_, ?_⟩
  · change k ≤ t.engine.handed.length at hk
    rw [htwo] at hk
    exact Nat.lt_succ_of_le hk
  · simpa [Feed.viewAfter, htwo] using heq.symm

/-- A request arrives at the engine, or its publisher task acts. -/
inductive FeedAct where
  | arrives (request : EngineCoreRequest)
  | task (act : PublisherAct)

/-- The engine and its publisher after these acts. -/
def playFeed : List FeedAct → SimEngine demoEnv × KvPublisher →
    Option (SimEngine demoEnv × KvPublisher)
  | [], s => some s
  | .arrives request :: acts, s =>
      (s.1.perform 1 0 (.input (.request request))).bind (fun done => playFeed acts
        (done.1, (done.1.handed.drop s.1.handed.length).foldl (fun p batch => p.publish batch) s.2))
  | .task act :: acts, s => (s.2.act act).bind (fun p => playFeed acts (s.1, p))

theorem path_of_playFeed {acts : List FeedAct} {s : Feed demoEnv} {e : SimEngine demoEnv}
    {p : KvPublisher} (h : playFeed acts (s.engine, s.publisher) = some (e, p)) :
    ∃ labels t, Path FeedStep s labels t ∧ t.engine = e ∧ t.publisher = p := by
  induction acts generalizing s with
  | nil =>
      cases h
      exact ⟨[], s, Path.nil s, rfl, rfl⟩
  | cons act acts ih =>
      cases act with
      | arrives request =>
          obtain ⟨⟨e', outs⟩, hperform, hrest⟩ := Option.bind_eq_some_iff.mp h
          obtain ⟨labels, t, hpath, rfl, hpublisher⟩ := Feed.path_of_perform hperform
          simp only [Feed.moveTo] at hpublisher
          rw [← hpublisher] at hrest
          obtain ⟨labels', u, hpath', hu⟩ := ih hrest
          exact ⟨_, u, hpath.append hpath', hu⟩
      | task act =>
          obtain ⟨p', hact, hrest⟩ := Option.bind_eq_some_iff.mp h
          obtain ⟨labels, t, hpath, ht⟩ := ih (s := { s with publisher := p' }) hrest
          exact ⟨_, t, Path.cons (.task hact) hpath, ht⟩

/-- Four batches of a block each, the third of which is lost in sending. -/
def feedScript : List FeedAct :=
  [.arrives (feedRequest "A" 1), .task .recv, .task .send, .arrives (feedRequest "B" 2),
    .task .recv, .arrives (feedRequest "C" 3), .task .send, .task .recv, .task .sendFails,
    .arrives (feedRequest "D" 4), .task .recv, .task .send]

/-- A subscriber to them that has received the first two messages of three. -/
theorem received_tells_two : ∃ s : Feed demoEnv,
    s.publisher.sent.map (fun m => m.batch.number) = [0, 1, 3] ∧
      s.publisher.sent.map EventMessage.seq = (List.range 3).map UInt64.ofNat ∧
        RouterView.applyAll ∅ ((s.publisher.sent.take 2).flatMap (fun m => m.batch.events)) ∈
          s.views := by
  have hplays : (playFeed feedScript (demo feedOpt none, {})).any (fun played =>
      played.2.sent.map (fun m => m.batch.number) == [0, 1, 3] &&
        played.2.sent.map EventMessage.seq == (List.range 3).map UInt64.ofNat &&
          (played.2.sent.take 2).all (fun m => (List.range m.batch.number).all (fun k =>
            played.2.sent.any (fun m' => m'.batch.number == k)))) = true := by
    decide +kernel
  obtain ⟨⟨e, p⟩, hplay, hchecks⟩ := (Option.any_eq_true _ _).mp hplays
  simp only [Bool.and_eq_true, beq_iff_eq, List.all_eq_true, List.any_eq_true, List.mem_range]
    at hchecks
  obtain ⟨⟨hnumbers, hseqs⟩, hkept⟩ := hchecks
  obtain ⟨labels, s, hpath, rfl, rfl⟩ :=
    path_of_playFeed (s := Feed.start (demo feedOpt none)) hplay
  have hthree : s.publisher.sent.length = 3 := by
    simpa using congrArg List.length hnumbers
  have htwo : (s.publisher.sent.take 2).length = 2 := by
    rw [List.length_take, hthree]
    rfl
  have hfirst : (s.publisher.sent.take 2).map EventMessage.seq =
      (List.range (s.publisher.sent.take 2).length).map UInt64.ofNat := by
    rw [htwo, List.map_take, hseqs]
    rfl
  have hfew : s.publisher.sent.length ≤ 2 ^ 64 := by
    rw [hthree]
    decide
  obtain ⟨hall, _, hview⟩ := received_tells (demo_fresh _ _ _) hpath (List.take_sublist 2 _) hfew
    hfirst
  rw [hthree] at hall
  exact ⟨s, hnumbers, hall, hview hkept⟩

end VllmVcr
