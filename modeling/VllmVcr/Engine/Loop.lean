import VllmVcr.Engine.Issued
import VllmVcr.Engine.Reception

/-!
# The engine loop

`run_loop` over the engine: one branch of `select!` a round, until a branch exits. Any ready branch
may be taken, so the orders that the biased `select!` polls in are among those of the model.
-/

namespace VllmVcr

variable {env : Env}

/-- How the loop ends; the last two are errors. -/
inductive LoopExit where
  | drained
  | aborted
  | drainTimedOut
  | inputClosed
  | inputFailed (error : String)
  deriving DecidableEq

def LoopExit.isShutdown : LoopExit → Bool
  | drained | aborted | drainTimedOut => true
  | inputClosed | inputFailed _ => false

/-- The check at the top of a round, and the branches of `select!`. `input none` is a closed
channel. -/
inductive Branch where
  | complete
  | shutdown
  | drainTimeout
  | input (message : Option EngineInput)
  | internal (task : PullTask)
  | step

variable (env) in
structure EngineLoop where
  engine : SimEngine env
  drainDeadline : Option Instant
  exit : Option LoopExit

namespace EngineLoop

def start (engine : SimEngine env) : EngineLoop env := ⟨engine, none, none⟩

def draining (l : EngineLoop env) : Bool := l.drainDeadline.isSome

def isComplete (l : EngineLoop env) : Bool := l.draining && l.engine.numUnfinishedRequests = 0

/-- Whether the round may go this way at `now`. -/
def ready (now : Instant) (branch : Branch) (l : EngineLoop env) : Bool :=
  match branch with
  | .complete => l.isComplete
  | .shutdown => !l.isComplete && !l.draining
  | .drainTimeout => !l.isComplete && l.drainDeadline.any (fun deadline => deadline ≤ now)
  | .input _ => !l.isComplete
  | .internal task => !l.isComplete && task ∈ l.engine.pullTasks
  | .step => !l.isComplete && l.engine.earliestDeadline.any (fun due => due ≤ now)

/-- Go on with the engine as an operation left it. -/
def goOn (l : EngineLoop env) (result : SimEngine env × List EngineOutput) :
    EngineLoop env × List EngineOutput :=
  ({ l with engine := result.1 }, result.2)

def breakWith (l : EngineLoop env) (exit : LoopExit) (result : SimEngine env × List EngineOutput) :
    EngineLoop env × List EngineOutput :=
  ({ l with engine := result.1, exit := some exit }, result.2)

def handleInput (now : Instant) (input : EngineInput) (l : EngineLoop env) :
    EngineLoop env × List EngineOutput :=
  match l.engine.handleInput now input with
  | .ok result => l.goOn result
  | .error error => l.breakWith (.inputFailed error) (l.engine, [])

/-- One round of the loop. `none`: `fuel` ran out. -/
def round (fuel : ℕ) (shutdownTimeout : Duration) (now : Instant) (branch : Branch)
    (l : EngineLoop env) : Option (EngineLoop env × List EngineOutput) :=
  match branch with
  | .complete => some (l.breakWith .drained (l.engine, []))
  | .shutdown =>
      if shutdownTimeout = 0 then some (l.breakWith .aborted (l.engine.abortAllRequests now))
      else some ({ l with drainDeadline := some (now + shutdownTimeout) }, [])
  | .drainTimeout => some (l.breakWith .drainTimedOut (l.engine.abortAllRequests now))
  | .input none => some (l.breakWith .inputClosed (l.engine, []))
  | .input (some (.request request)) =>
      if l.draining then
        let (e, output) := l.engine.rejectRequest now request
        some (l.goOn (e, [output]))
      else some (l.handleInput now (.request request))
  | .input (some input) => some (l.handleInput now input)
  | .internal task => some (l.goOn ((l.engine.receivePull task).finishPull now task))
  | .step => (l.engine.step fuel now).map l.goOn

end EngineLoop

variable (env) in
/-- A round with what it did. -/
structure LoopTurn where
  branch : Branch
  now : Instant
  before : EngineLoop env
  outputs : List EngineOutput
  after : EngineLoop env

namespace LoopTurn

/-- The request that the round takes from the input channel. -/
def taken (t : LoopTurn env) : Option EngineCoreRequest :=
  match t.branch with
  | .input (some (.request request)) => some request
  | _ => none

structure Takes (shutdownTimeout : Duration) (s : EngineLoop env × Instant) (t : LoopTurn env)
    (u : EngineLoop env × Instant) : Prop where
  before : t.before = s.1
  after : t.after = u.1
  clock : s.2 ≤ t.now
  now : t.now = u.2
  running : t.before.exit = none
  ready : t.before.ready t.now t.branch = true
  performs : ∃ fuel,
    t.before.round fuel shutdownTimeout t.now t.branch = some (t.after, t.outputs)

end LoopTurn

/-- The rounds `turns` of the loop over `e₀` lead to `l`, the last of them at `clock`. -/
def LoopRun (shutdownTimeout : Duration) (e₀ : SimEngine env) (turns : List (LoopTurn env))
    (l : EngineLoop env) (clock : Instant) : Prop :=
  Path (LoopTurn.Takes shutdownTimeout) (EngineLoop.start e₀, 0) turns (l, clock)

/-- The outputs that the loop sent. -/
def sent (turns : List (LoopTurn env)) : List EngineCoreOutput :=
  turns.flatMap (fun t => coreOf t.outputs)

/-! ## Rounds as turns of the engine -/

namespace LoopTurn

/-- What the round has the engine do. -/
def op (t : LoopTurn env) : Option Op :=
  match t.branch with
  | .complete => none
  | .shutdown => if t.after.exit.isSome then some .abortAllRequests else none
  | .drainTimeout => some .abortAllRequests
  | .input none => none
  | .input (some (.request request)) =>
      if t.before.draining then some (.rejectRequest request) else some (.input (.request request))
  | .input (some input) => if t.after.exit.isSome then none else some (.input input)
  | .internal task => some (.pullCompletion task)
  | .step => some .step

def turn (t : LoopTurn env) : Option (Turn env) :=
  t.op.map fun op => ⟨op, t.now, t.before.engine, t.outputs, t.after.engine⟩

theorem taken_op (t : LoopTurn env) (h : t.op = none) : t.taken = none := by
  unfold op at h
  unfold taken
  split at h
  · next hb => simp only [hb]
  · next hb => simp only [hb]
  · cases h
  · next hb => simp only [hb]
  · split at h <;> cases h
  · next input hinput hb =>
      cases input with
      | request request => exact absurd rfl (hinput request)
      | _ => simp only [hb]
  · cases h
  · cases h

theorem taken_of_op {t : LoopTurn env} {op : Op} (h : t.op = some op) : t.taken = op.taken := by
  unfold LoopTurn.op at h
  unfold taken
  split at h
  · cases h
  · next hb =>
      split at h
      · cases h
        simp only [hb]
        rfl
      · cases h
  · next hb =>
      cases h
      simp only [hb]
      rfl
  · cases h
  · next request hb =>
      simp only [hb]
      split at h <;> (cases h; rfl)
  · next input hinput hb =>
      split at h
      · cases h
      · cases h
        cases input with
        | request request => exact absurd rfl (hinput request)
        | _ =>
            simp only [hb]
            rfl
  · next hb =>
      cases h
      simp only [hb]
      rfl
  · next hb =>
      cases h
      simp only [hb]
      rfl

/-- A round leaves the engine alone and sends nothing, or performs its operation. -/
theorem performed {fuel : ℕ} {shutdownTimeout : Duration} {t : LoopTurn env}
    (hrunning : t.before.exit = none) (hready : t.before.ready t.now t.branch = true)
    (h : t.before.round fuel shutdownTimeout t.now t.branch = some (t.after, t.outputs)) :
    (t.op = none ∧ t.after.engine = t.before.engine ∧ t.outputs = []) ∨
      ∃ op, t.op = some op ∧
        t.before.engine.perform fuel t.now op = some (t.after.engine, t.outputs) := by
  obtain ⟨branch, now, before, outputs, after⟩ := t
  simp only at hrunning hready h
  cases branch with
  | complete =>
      cases h
      exact Or.inl ⟨rfl, rfl, rfl⟩
  | shutdown =>
      simp only [EngineLoop.round] at h
      split at h
      · cases h
        exact Or.inr ⟨.abortAllRequests, rfl, rfl⟩
      · cases h
        refine Or.inl ⟨?_, rfl, rfl⟩
        simp only [LoopTurn.op, hrunning]
        rfl
  | drainTimeout =>
      cases h
      exact Or.inr ⟨.abortAllRequests, rfl, rfl⟩
  | input message =>
      have hinput : ∀ input : EngineInput, before.handleInput now input = (after, outputs) →
          (after.exit.isSome = true ∧ after.engine = before.engine ∧ outputs = []) ∨
            (after.exit.isSome = false ∧
              before.engine.perform fuel now (.input input) = some (after.engine, outputs)) := by
        intro input hround
        unfold EngineLoop.handleInput at hround
        split at hround
        · next result hresult =>
            cases hround
            refine Or.inr ⟨?_, ?_⟩
            · simp only [hrunning]
              rfl
            · simp only [SimEngine.perform, hresult]
              rfl
        · next error herror =>
            cases hround
            exact Or.inl ⟨rfl, rfl, rfl⟩
      cases message with
      | none =>
          cases h
          exact Or.inl ⟨rfl, rfl, rfl⟩
      | some input =>
          cases input with
          | request request =>
              simp only [EngineLoop.round] at h
              simp only [LoopTurn.op]
              split at h
              · next hdraining =>
                  cases h
                  rw [if_pos hdraining]
                  exact Or.inr ⟨_, rfl, rfl⟩
              · next hdraining =>
                  rw [if_neg hdraining]
                  cases h
                  exact Or.inr ⟨_, rfl, rfl⟩
          | _ =>
              rcases hinput _ (Option.some.inj h) with ⟨hexit, hkept⟩ | ⟨hexit, hperform⟩
              · refine Or.inl ⟨?_, hkept⟩
                simp only [LoopTurn.op, hexit, if_true]
              · refine Or.inr ⟨_, ?_, hperform⟩
                simp only [LoopTurn.op, hexit, Bool.false_eq_true, if_false]
  | internal task =>
      cases h
      refine Or.inr ⟨_, rfl, ?_⟩
      have htask := of_decide_eq_true (Bool.and_eq_true_iff.mp hready).2
      simp only [SimEngine.perform, if_pos htask]
  | step =>
      obtain ⟨result, hresult, heq⟩ := Option.map_eq_some_iff.mp h
      cases heq
      exact Or.inr ⟨.step, rfl, hresult⟩

end LoopTurn

/-- A run of the loop is a run of the engine that sends the same outputs. -/
theorem LoopRun.engine_run {shutdownTimeout : Duration} {e₀ : SimEngine env}
    {turns : List (LoopTurn env)} {l : EngineLoop env} {clock : Instant}
    (hrun : LoopRun shutdownTimeout e₀ turns l clock) :
    (∃ last ≤ clock, Run e₀ (turns.filterMap LoopTurn.turn) l.engine last) ∧
      coreOutputs (turns.filterMap LoopTurn.turn) = sent turns ∧
      takenIds (turns.filterMap LoopTurn.turn) =
        (turns.filterMap LoopTurn.taken).map EngineCoreRequest.requestId := by
  apply hrun.history (P := fun turns s =>
    (∃ last ≤ s.2, Run e₀ (turns.filterMap LoopTurn.turn) s.1.engine last) ∧
      coreOutputs (turns.filterMap LoopTurn.turn) = sent turns ∧
      takenIds (turns.filterMap LoopTurn.turn) =
        (turns.filterMap LoopTurn.taken).map EngineCoreRequest.requestId)
  · exact ⟨⟨0, le_rfl, Path.nil _⟩, rfl, rfl⟩
  · rintro turns ⟨l, clock⟩ t ⟨l', clock'⟩ ⟨⟨last, hlast, hrun⟩, houtputs, htaken⟩ ht
    obtain ⟨fuel, hround⟩ := ht.performs
    have hclock : last ≤ t.now := hlast.trans ht.clock
    have hbefore : t.before = l := ht.before
    have hafter : t.after = l' := ht.after
    have hnow : t.now = clock' := ht.now
    have hsent : sent (turns ++ [t]) = sent turns ++ coreOf t.outputs := by
      simp [sent]
    rw [List.filterMap_append, List.filterMap_append, hsent, List.map_append]
    rcases LoopTurn.performed ht.running ht.ready hround with
      ⟨hop, hengine, hquiet⟩ | ⟨op, hop, hperform⟩
    · have hturn : [t].filterMap LoopTurn.turn = [] := by simp [LoopTurn.turn, hop]
      have hnone : [t].filterMap LoopTurn.taken = [] := by simp [t.taken_op hop]
      rw [hturn, hnone, hquiet, List.append_nil, coreOf_nil, List.append_nil, List.map_nil,
        List.append_nil]
      refine ⟨⟨last, hclock.trans hnow.le, ?_⟩, houtputs, htaken⟩
      rw [← hafter, hengine, hbefore]
      exact hrun
    · let u : Turn env := ⟨op, t.now, t.before.engine, t.outputs, t.after.engine⟩
      have hturn : [t].filterMap LoopTurn.turn = [u] := by simp [LoopTurn.turn, hop, u]
      have hone : ([t].filterMap LoopTurn.taken).map EngineCoreRequest.requestId =
          takenIds [u] := by
        rw [takenIds, List.filterMap_cons, List.filterMap_cons, LoopTurn.taken_of_op hop]
        rfl
      rw [hturn, hone, ← houtputs, ← htaken]
      refine ⟨⟨clock', le_rfl, hrun.snoc ⟨?_, ?_, hclock, hnow, fuel, hperform⟩⟩, ?_, ?_⟩
      · exact congrArg EngineLoop.engine hbefore
      · exact congrArg EngineLoop.engine hafter
      · simp [coreOutputs, coreOf, u]
      · rw [takenIds, List.filterMap_append, List.map_append]
        rfl

/-! ## How the loop ends -/

namespace SimEngine

theorem withdraw_of_live {e : SimEngine env} {id : String} (h : id ∈ e.liveIds) :
    ∃ e' client ticket, e.withdraw id = (e', some (client, ticket)) := by
  unfold withdraw
  cases hactive : e.activeRequests.get? id with
  | some r => exact ⟨_, _, _, rfl⟩
  | none =>
      cases hpending : e.pendingPulls.get? id with
      | some p => exact ⟨_, _, _, rfl⟩
      | none =>
          simp only
          obtain ⟨x, hx, rfl⟩ := List.mem_map.mp h
          have hwaits : ∃ q ∈ e.waiting, q.request.requestId = x.1 := by
            rcases List.mem_append.mp hx with hin | hrest
            · obtain ⟨⟨id, r⟩, hr, rfl⟩ := List.mem_map.mp hin
              rw [SortedMap.mem_entries.mp hr] at hactive
              cases hactive
            · rcases List.mem_append.mp hrest with hin | hin
              · obtain ⟨⟨id, p⟩, hp, rfl⟩ := List.mem_map.mp hin
                rw [SortedMap.mem_entries.mp hp] at hpending
                cases hpending
              · obtain ⟨q, hq, rfl⟩ := List.mem_map.mp hin
                exact ⟨q, hq, rfl⟩
          obtain ⟨q, hq, hid⟩ := hwaits
          cases hfind : e.waiting.findIdx? (fun q => q.request.requestId = x.1) with
          | none =>
              have hnot := List.findIdx?_eq_none_iff.mp hfind q hq
              exact absurd hid (of_decide_eq_false hnot)
          | some i =>
              obtain ⟨hlt, _⟩ := List.findIdx?_eq_some_iff_getElem.mp hfind
              simp only [List.getElem?_eq_getElem hlt, Option.map_some]
              exact ⟨_, _, _, rfl⟩

/-- Aborting the ids of all live requests, in any order, leaves none. -/
theorem abortMany_live (ids : List String) (e : SimEngine env) (byClient : ByClient)
    (h : e.liveIds.Perm ids) : (ids.foldl abortOne (e, byClient)).1.live = [] := by
  induction ids generalizing e byClient with
  | nil => exact List.map_eq_nil_iff.mp h.eq_nil
  | cons id ids ih =>
      obtain ⟨e', client, ticket, hwithdraw⟩ :=
        withdraw_of_live (h.mem_iff.mpr List.mem_cons_self)
      have hlive := (withdraw_live hwithdraw).map Prod.fst
      rw [List.foldl_cons, abortOne, hwithdraw]
      apply ih
      have hcounted : e'.countAborted.liveIds = e'.liveIds := by
        rw [liveIds, live_countAborted, liveIds]
      rw [hcounted]
      exact (List.perm_cons id).mp (hlive.symm.trans h)

theorem unfinishedIds_eq (e : SimEngine env) : e.unfinishedIds = e.liveIds := by
  simp only [unfinishedIds, liveIds, live, SortedMap.keys, List.map_append, List.map_map,
    List.append_assoc]
  rfl

theorem abortAllRequests_live (now : Instant) (e : SimEngine env) :
    (e.abortAllRequests now).1.live = [] := by
  have haborted : (e.unfinishedIds.foldl abortOne (e, SortedMap.empty)).1.live = [] :=
    abortMany_live _ e _ (by rw [unfinishedIds_eq])
  generalize hfold : e.unfinishedIds.foldl abortOne (e, SortedMap.empty) = acc at haborted
  have hwaiting : acc.1.waiting = [] := by
    rw [live, List.append_eq_nil_iff, List.append_eq_nil_iff] at haborted
    exact List.map_eq_nil_iff.mp haborted.2.2
  have hschedule : acc.1.schedule now = (acc.1, []) := by
    rw [schedule, hwaiting]
    rfl
  have hresult : (e.abortAllRequests now).1 = (acc.1.schedulerStats.1).ensureStep now := by
    simp only [abortAllRequests, abortRequests, hfold, hschedule]
  have hstats : acc.1.schedulerStats.1.live = acc.1.live := live_congr rfl rfl rfl
  rw [hresult]
  unfold ensureStep
  split
  · rw [(composeStep_progress now _).live, hstats, haborted]
  · rw [hstats, haborted]

end SimEngine

/-- A round that breaks on a shutdown leaves no live request. -/
theorem LoopTurn.shutdown_live {fuel : ℕ} {shutdownTimeout : Duration} {t : LoopTurn env}
    (hrunning : t.before.exit = none) (hready : t.before.ready t.now t.branch = true)
    (h : t.before.round fuel shutdownTimeout t.now t.branch = some (t.after, t.outputs))
    {exit : LoopExit} (hexit : t.after.exit = some exit) (hshutdown : exit.isShutdown = true) :
    t.after.engine.live = [] := by
  obtain ⟨branch, now, before, outputs, after⟩ := t
  simp only at hrunning hready h hexit ⊢
  cases branch with
  | complete =>
      cases h
      obtain ⟨_, hzero⟩ := Bool.and_eq_true_iff.mp hready
      rw [decide_eq_true_eq, ← SimEngine.length_live] at hzero
      exact List.length_eq_zero_iff.mp hzero
  | shutdown =>
      simp only [EngineLoop.round] at h
      split at h
      · cases h
        exact SimEngine.abortAllRequests_live now before.engine
      · cases h
        rw [hrunning] at hexit
        cases hexit
  | drainTimeout =>
      cases h
      exact SimEngine.abortAllRequests_live now before.engine
  | input message =>
      have hinput : ∀ input : EngineInput, before.handleInput now input = (after, outputs) →
          exit.isShutdown = false := by
        intro input hround
        unfold EngineLoop.handleInput at hround
        split at hround
        · cases hround
          cases hrunning.symm.trans hexit
        · cases hround
          cases hexit
          rfl
      have hnot : exit.isShutdown = false := by
        cases message with
        | none =>
            cases h
            cases hexit
            rfl
        | some input =>
            cases input with
            | request request =>
                simp only [EngineLoop.round] at h
                split at h
                · cases h
                  cases hrunning.symm.trans hexit
                · exact hinput _ (Option.some.inj h)
            | _ => exact hinput _ (Option.some.inj h)
      rw [hnot] at hshutdown
      cases hshutdown
  | internal task =>
      cases h
      cases hrunning.symm.trans hexit
  | step =>
      obtain ⟨result, _, heq⟩ := Option.map_eq_some_iff.mp h
      cases heq
      cases hrunning.symm.trans hexit

theorem LoopTurn.drainDeadline_eq {fuel : ℕ} {shutdownTimeout : Duration} {t : LoopTurn env}
    (hready : t.before.ready t.now t.branch = true)
    (h : t.before.round fuel shutdownTimeout t.now t.branch = some (t.after, t.outputs))
    (hdraining : t.before.draining = true) : t.after.drainDeadline = t.before.drainDeadline := by
  obtain ⟨branch, now, before, outputs, after⟩ := t
  simp only at hready h hdraining ⊢
  have hinput : ∀ input : EngineInput, before.handleInput now input = (after, outputs) →
      after.drainDeadline = before.drainDeadline := by
    intro input hround
    unfold EngineLoop.handleInput at hround
    split at hround <;> (cases hround; rfl)
  cases branch with
  | shutdown =>
      rw [EngineLoop.ready, hdraining, Bool.not_true, Bool.and_false] at hready
      cases hready
  | input message =>
      cases message with
      | none =>
          cases h
          rfl
      | some input =>
          cases input with
          | request request =>
              simp only [EngineLoop.round, if_pos hdraining] at h
              cases h
              rfl
          | _ => exact hinput _ (Option.some.inj h)
  | step =>
      obtain ⟨result, _, heq⟩ := Option.map_eq_some_iff.mp h
      cases heq
      rfl
  | _ =>
      cases h
      rfl

/-- A draining loop goes on draining, issues no ticket and answers what it takes by an Abort. -/
theorem LoopTurn.drains {fuel : ℕ} {shutdownTimeout : Duration} {t : LoopTurn env}
    (hrunning : t.before.exit = none) (hready : t.before.ready t.now t.branch = true)
    (h : t.before.round fuel shutdownTimeout t.now t.branch = some (t.after, t.outputs))
    (hdraining : t.before.draining = true) :
    t.after.draining = true ∧ t.after.engine.nextTicket = t.before.engine.nextTicket ∧
      ∀ request, t.taken = some request → t.outputs = [⟨request.clientIndex,
        emptyFinishOutputs t.before.engine.engineIndex t.now none request.requestId .abort⟩] := by
  refine ⟨?_, ?_, ?_⟩
  · rw [EngineLoop.draining, (LoopTurn.drainDeadline_eq hready h hdraining)]
    exact hdraining
  · rcases performed hrunning hready h with ⟨_, hengine, _⟩ | ⟨op, hop, hperform⟩
    · rw [hengine]
    · obtain ⟨os, hemits, _⟩ := perform_emits hperform
      apply SimEngine.nextTicket_of_emits hemits
      intro effect hallow
      cases effect with
      | accepted request =>
          have heq : op = .input (.request request) := hallow
          rw [heq] at hop
          unfold LoopTurn.op at hop
          split at hop
          · cases hop
          · split at hop <;> cases hop
          · cases hop
          · cases hop
          · rw [if_pos hdraining] at hop
            cases hop
          · next input hinput _ =>
              split at hop
              · cases hop
              · cases hop
                exact absurd rfl (hinput request)
          · cases hop
          · cases hop
      | _ => rfl
  · intro request htaken
    obtain ⟨branch, now, before, outputs, after⟩ := t
    unfold taken at htaken
    split at htaken
    · next request' hbranch =>
        cases htaken
        simp only at hbranch h hdraining ⊢
        rw [hbranch] at h
        simp only [EngineLoop.round, if_pos hdraining] at h
        cases h
        rfl
    · cases htaken

theorem LoopRun.ends {shutdownTimeout : Duration} {e₀ : SimEngine env}
    {turns : List (LoopTurn env)} {l : EngineLoop env} {clock : Instant}
    (hrun : LoopRun shutdownTimeout e₀ turns l clock) :
    (∀ exit, l.exit = some exit → exit.isShutdown = true → l.engine.live = []) ∧
      ∀ t ∈ turns, t.before.draining = true → l.draining = true ∧
        t.before.engine.nextTicket = l.engine.nextTicket ∧
        ∀ request, t.taken = some request → t.outputs = [⟨request.clientIndex,
          emptyFinishOutputs t.before.engine.engineIndex t.now none request.requestId .abort⟩] := by
  apply hrun.history (P := fun turns s =>
    (∀ exit, s.1.exit = some exit → exit.isShutdown = true → s.1.engine.live = []) ∧
      ∀ t ∈ turns, t.before.draining = true → s.1.draining = true ∧
        t.before.engine.nextTicket = s.1.engine.nextTicket ∧
        ∀ request, t.taken = some request → t.outputs = [⟨request.clientIndex,
          emptyFinishOutputs t.before.engine.engineIndex t.now none request.requestId .abort⟩])
  · exact ⟨fun exit h => absurd h (by simp [EngineLoop.start]), by simp⟩
  · rintro turns ⟨l, clock⟩ t ⟨l', clock'⟩ ⟨_, hdrained⟩ ht
    obtain ⟨fuel, hround⟩ := ht.performs
    have hbefore : t.before = l := ht.before
    have hafter : t.after = l' := ht.after
    refine ⟨fun exit hexit hshutdown => ?_, fun u hu hdraining => ?_⟩
    · rw [← hafter] at hexit ⊢
      exact t.shutdown_live ht.running ht.ready hround hexit hshutdown
    · simp only
      rw [← hafter]
      rcases List.mem_append.mp hu with hold | hone
      · obtain ⟨hstill, hnext, hanswer⟩ := hdrained u hold hdraining
        rw [← hbefore] at hstill hnext
        obtain ⟨hagain, hsame, _⟩ := t.drains ht.running ht.ready hround hstill
        exact ⟨hagain, hnext.trans hsame.symm, hanswer⟩
      · obtain rfl := List.mem_singleton.mp hone
        obtain ⟨hagain, hsame, hanswer⟩ := u.drains ht.running ht.ready hround hdraining
        exact ⟨hagain, hsame.symm, hanswer⟩

/-- Whenever the loop returns through a shutdown exit, of each id as many finishing outputs were
sent as requests were taken, nothing is left in the engine, and what was taken after the drain
began was answered by an Abort and never admitted. -/
theorem shutdown_complete {shutdownTimeout : Duration} {e₀ : SimEngine env}
    {turns : List (LoopTurn env)} {l : EngineLoop env} {clock : Instant} (hfresh : Fresh e₀)
    (hrun : LoopRun shutdownTimeout e₀ turns l clock) {exit : LoopExit}
    (hexit : l.exit = some exit) (hshutdown : exit.isShutdown = true) :
    (∀ id, ((sent turns).filter
        (fun o => o.requestId = id ∧ o.finishReason.isSome = true)).length =
      ((turns.filterMap LoopTurn.taken).filter (fun request => request.requestId = id)).length) ∧
    (l.engine.waiting = [] ∧ l.engine.pendingPulls.isEmpty = true ∧
      l.engine.activeRequests.isEmpty = true) ∧
    ∀ t ∈ turns, t.before.draining = true →
      (∀ request, t.taken = some request → t.outputs = [⟨request.clientIndex,
        emptyFinishOutputs t.before.engine.engineIndex t.now none request.requestId .abort⟩]) ∧
      ∀ ticket ∈ l.engine.admissions, ticket < t.before.engine.nextTicket := by
  obtain ⟨⟨last, _, hengine⟩, houtputs, htaken⟩ := hrun.engine_run
  obtain ⟨hlive, hdrained⟩ := hrun.ends
  have hnone : l.engine.live = [] := hlive exit hexit hshutdown
  refine ⟨fun id => ?_, ?_, fun t ht hdraining => ?_⟩
  · have hids := (hengine.ids_answered hfresh).count_eq id
    rw [htaken, houtputs, SimEngine.liveIds, hnone, List.map_nil, List.append_nil] at hids
    rw [closedIds, closed, List.map_map] at hids
    rw [← List.countP_eq_length_filter, ← List.countP_eq_length_filter]
    rw [List.count_eq_countP, List.count_eq_countP, List.countP_map, List.countP_map,
      List.countP_filter] at hids
    refine Eq.trans ?_ (hids.symm.trans ?_)
    · apply List.countP_congr
      intro o _
      simp
    · apply List.countP_congr
      intro request _
      simp
  · rw [SimEngine.live, List.append_eq_nil_iff, List.append_eq_nil_iff] at hnone
    obtain ⟨hactive, hpending, hwaiting⟩ := hnone
    refine ⟨List.map_eq_nil_iff.mp hwaiting, ?_, ?_⟩
    · exact List.isEmpty_iff.mpr (List.map_eq_nil_iff.mp hpending)
    · exact List.isEmpty_iff.mpr (List.map_eq_nil_iff.mp hactive)
  · obtain ⟨_, hnext, hanswer⟩ := hdrained t ht hdraining
    refine ⟨hanswer, ?_⟩
    rw [hnext]
    exact (hengine.issued hfresh).2.1.issued

/-! ## Playing a script -/

/-- Go through the rounds of a script, one after another. -/
def EngineLoop.play (fuel : ℕ) (shutdownTimeout : Duration) :
    List (Instant × Branch) → EngineLoop env → Option (List (LoopTurn env) × EngineLoop env)
  | [], l => some ([], l)
  | (now, branch) :: rest, l =>
    if l.exit.isNone && l.ready now branch then
      match l.round fuel shutdownTimeout now branch with
      | none => none
      | some (l', outputs) =>
          (play fuel shutdownTimeout rest l').map fun played =>
            (⟨branch, now, l, outputs, l'⟩ :: played.1, played.2)
    else none

theorem EngineLoop.play_path {fuel : ℕ} {shutdownTimeout : Duration}
    {script : List (Instant × Branch)} {l l' : EngineLoop env} {turns : List (LoopTurn env)}
    {clock : Instant} (h : l.play fuel shutdownTimeout script = some (turns, l'))
    (hclock : (clock :: script.map Prod.fst).IsChain (· ≤ ·)) :
    ∃ last, Path (LoopTurn.Takes shutdownTimeout) (l, clock) turns (l', last) := by
  induction script generalizing l turns clock with
  | nil =>
      cases h
      exact ⟨clock, Path.nil _⟩
  | cons entry rest ih =>
      unfold EngineLoop.play at h
      split at h
      · next hready =>
          obtain ⟨hrunning, hready⟩ := Bool.and_eq_true_iff.mp hready
          split at h
          · cases h
          · next l₁ outputs hround =>
              obtain ⟨⟨more, last⟩, hrest, heq⟩ := Option.map_eq_some_iff.mp h
              cases heq
              obtain ⟨hle, hchain⟩ := List.isChain_cons_cons.mp hclock
              obtain ⟨clock', hpath⟩ := ih hrest hchain
              refine ⟨clock', Path.cons ⟨rfl, rfl, hle, rfl, ?_, hready, fuel, hround⟩ hpath⟩
              exact Option.isNone_iff_eq_none.mp hrunning
      · cases h

/-- A script that plays is a run of the loop, with whatever `p` finds in it. -/
theorem LoopRun.of_script {fuel : ℕ} {shutdownTimeout : Duration} {script : List (Instant × Branch)}
    {e : SimEngine env} {p : List (LoopTurn env) → EngineLoop env → Bool}
    (h : ((EngineLoop.start e).play fuel shutdownTimeout script).any
      (fun played => p played.1 played.2) = true)
    (hclock : (script.map Prod.fst).IsChain (· ≤ ·)) :
    ∃ turns l clock, LoopRun shutdownTimeout e turns l clock ∧ p turns l = true := by
  obtain ⟨⟨turns, l⟩, hplay, hp⟩ := (Option.any_eq_true _ _).mp h
  have hstart : ((0 : Instant) :: script.map Prod.fst).IsChain (· ≤ ·) := by
    cases script with
    | nil => exact List.IsChain.singleton _
    | cons entry rest => exact List.isChain_cons_cons.mpr ⟨bot_le, hclock⟩
  obtain ⟨clock, hpath⟩ := EngineLoop.play_path hplay hstart
  exact ⟨turns, l, clock, hpath, hp⟩

/-- A request is running when the drain begins, one comes during it, and the drain times out. -/
def drainScript : List (Instant × Branch) :=
  [(0, .input (some (.request (demoRequest "a" 5)))), (1, .shutdown),
    (2, .input (some (.request (demoRequest "b" 5)))), (11, .drainTimeout)]

theorem drainScript_complete :
    ∃ turns l clock, LoopRun 10 (demo demoOpt none) turns l clock ∧
      (turns.filterMap LoopTurn.taken).length = 2 ∧
      (∀ id, ((sent turns).filter
          (fun o => o.requestId = id ∧ o.finishReason.isSome = true)).length =
        ((turns.filterMap LoopTurn.taken).filter (fun request => request.requestId = id)).length) ∧
      l.engine.activeRequests.isEmpty = true := by
  have hplays : ((EngineLoop.start (demo demoOpt none)).play 20 10 drainScript).any
      (fun played => (played.1.filterMap LoopTurn.taken).length = 2 &&
        played.2.exit.any LoopExit.isShutdown) = true := by decide +kernel
  obtain ⟨turns, l, clock, hrun, hp⟩ := LoopRun.of_script
    (p := fun turns l => (turns.filterMap LoopTurn.taken).length = 2 &&
      l.exit.any LoopExit.isShutdown) hplays (by decide +kernel)
  obtain ⟨hlength, hexit⟩ := Bool.and_eq_true_iff.mp hp
  obtain ⟨exit, hexit, hshutdown⟩ := (Option.any_eq_true _ _).mp hexit
  obtain ⟨hids, ⟨_, _, hactive⟩, _⟩ := shutdown_complete (demo_fresh _ _ _) hrun hexit hshutdown
  exact ⟨turns, l, clock, hrun, of_decide_eq_true hlength, hids, hactive⟩

end VllmVcr
