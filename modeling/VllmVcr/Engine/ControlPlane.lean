import Mathlib.Logic.Function.Basic
import VllmVcr.Reorder
import VllmVcr.Engine.Caps
import VllmVcr.Engine.Loop

/-!
# The control plane

The HTTP server of the control API before the engine loops. A call goes to the engines one after
another and waits for each reply before it goes on, and the calls under way share nothing but the
engines' input channels.
-/

namespace VllmVcr

variable {env : Env}

/-- How an `f64` is printed. -/
abbrev ShowF64 := ℚ → String

namespace ConfigPatch

def validate (showF64 : ShowF64) (p : ConfigPatch) : Except ControlError Unit :=
  if let some rate := p.failureInjectionRate.filter (fun rate => ¬(0 ≤ rate ∧ rate ≤ 1)) then
    .error ⟨400, "failure_injection_rate must be in [0, 1], got " ++ showF64 rate⟩
  else if let some factor := p.timeFactorUnderLoad.filter (fun factor => factor < 1) then
    .error ⟨400, "time_factor_under_load must be >= 1.0, got " ++ showF64 factor⟩
  else if p.failureTypes = some [] then
    .error ⟨400, "failure_types must name at least one type"⟩
  else .ok ()

end ConfigPatch

/-- What a call is answered with. -/
inductive Response where
  | config (config : Config)
  | stats (stats : Stats)
  | noContent

def Stats.add (s other : Stats) : Stats where
  requestsReceived := s.requestsReceived + other.requestsReceived
  requestsCompleted := s.requestsCompleted + other.requestsCompleted
  requestsFailed := s.requestsFailed + other.requestsFailed
  requestsAborted := s.requestsAborted + other.requestsAborted
  running := s.running + other.running
  waiting := s.waiting + other.waiting

def firstConfig (replies : List ControlReply) : Except ControlError Config :=
  match replies.head? with
  | some (.config config) => .ok config
  | _ => .error ⟨500, "engine returned no config"⟩

def addReply (total : Stats) (reply : ControlReply) : Stats :=
  match reply with
  | .stats stats => total.add stats
  | .config _ => total

/-- The answer to a call that every engine replied to. -/
def ControlRequest.respond (request : ControlRequest) (replies : List ControlReply) :
    Except ControlError Response :=
  match request with
  | .getConfig | .patchConfig _ => (firstConfig replies).map .config
  | .getStats => .ok (.stats (replies.foldl addReply {}))
  | .resetStats => .ok .noContent

/-- Where a call stands with the engine it has got to. -/
inductive Stage where
  | ready
  | awaiting
  | replied (reply : Except ControlError ControlReply)
  | answered (result : Except ControlError Response)

/-- A call of the HTTP server, at engine number `engine` of its broadcast. -/
structure Call where
  request : ControlRequest
  engine : ℕ
  replies : List ControlReply
  stage : Stage

namespace Call

def accept (showF64 : ShowF64) (request : ControlRequest) : Call where
  request := request
  engine := 0
  replies := []
  stage :=
    match request with
    | .patchConfig patch =>
      match patch.validate showF64 with
      | .error error => .answered (.error error)
      | .ok () => .ready
    | _ => .ready

/-- The engine's reply comes in, if the call still waits for it. -/
def receive (reply : Except ControlError ControlReply) (c : Call) : Call :=
  match c.stage with
  | .awaiting => { c with stage := .replied reply }
  | _ => c

/-- Go on with the reply. -/
def resume (reply : Except ControlError ControlReply) (c : Call) : Call :=
  match reply with
  | .ok reply => { c with engine := c.engine + 1, replies := c.replies ++ [reply], stage := .ready }
  | .error error => { c with stage := .answered (.error error) }

def answer (result : Except ControlError Response) (c : Call) : Call :=
  { c with stage := .answered result }

/-- The call ends with an error, or is about to. -/
def Fails (c : Call) : Prop :=
  match c.stage with
  | .replied (.error _) | .answered (.error _) => True
  | _ => False

/-- The number of engines that the call has been sent to. -/
def reach (c : Call) : ℕ :=
  match c.stage with
  | .awaiting | .replied _ => c.engine + 1
  | _ => c.engine

end Call

/-- A control call on an engine's input channel, with the call that awaits the reply. -/
structure ControlCall where
  call : ℕ
  request : ControlRequest
  deriving DecidableEq

variable (env) in
/-- An engine loop, with all the control calls its channel was sent and how many it took. -/
structure Worker where
  loop : EngineLoop env
  mailbox : List ControlCall
  handled : ℕ

variable (env) in
structure ControlPlane (n : ℕ) where
  workers : Fin n → Worker env
  calls : List Call

/-- A call comes in, a call goes on, an engine takes its next control call, or an engine loop goes
another round. -/
inductive PlaneAction (n : ℕ) where
  | accept (request : ControlRequest)
  | advance (call : ℕ)
  | handle (engine : Fin n) (now : Instant)
  | round (engine : Fin n) (fuel : ℕ) (shutdownTimeout : Duration) (now : Instant) (branch : Branch)

/-- The branch takes a control call. -/
def Branch.isControl : Branch → Bool
  | .input (some (.control _)) => true
  | _ => false

namespace ControlPlane

variable {n : ℕ}

def setWorker (p : ControlPlane env n) (i : Fin n) (w : Worker env) : ControlPlane env n :=
  { p with workers := Function.update p.workers i w }

def setCall (p : ControlPlane env n) (k : ℕ) (c : Call) : ControlPlane env n :=
  { p with calls := p.calls.set k c }

/-- `Engines::call` and `broadcast` up to the next point where the call waits. -/
def advance (k : ℕ) (p : ControlPlane env n) : Option (ControlPlane env n) :=
  match p.calls[k]? with
  | none => none
  | some c =>
    match c.stage with
    | .ready =>
      if h : c.engine < n then
        let i : Fin n := ⟨c.engine, h⟩
        let w := p.workers i
        if w.loop.exit.isSome then
          some (p.setCall k (c.answer (.error ⟨500, "engine loop is gone"⟩)))
        else
          some ((p.setWorker i { w with mailbox := w.mailbox ++ [⟨k, c.request⟩] }).setCall k
            { c with stage := .awaiting })
      else some (p.setCall k (c.answer (c.request.respond c.replies)))
    | .awaiting =>
      if h : c.engine < n then
        if (p.workers ⟨c.engine, h⟩).loop.exit.isSome then
          some (p.setCall k (c.answer (.error ⟨500, "engine dropped the control reply"⟩)))
        else none
      else none
    | .replied reply => some (p.setCall k (c.resume reply))
    | .answered _ => none

def handle (i : Fin n) (now : Instant) (p : ControlPlane env n) : Option (ControlPlane env n) :=
  let w := p.workers i
  match w.mailbox[w.handled]? with
  | none => none
  | some message =>
    if w.loop.exit.isNone && w.loop.ready now (.input (some (.control message.request))) then
      let result := w.loop.engine.handleControl now message.request
      let p' := p.setWorker i
        { w with loop := (w.loop.goOn result.2).1, handled := w.handled + 1 }
      some { p' with calls := p.calls.modify message.call (Call.receive result.1) }
    else none

def round (i : Fin n) (fuel : ℕ) (shutdownTimeout : Duration) (now : Instant) (branch : Branch)
    (p : ControlPlane env n) : Option (ControlPlane env n) :=
  let w := p.workers i
  if w.loop.exit.isNone && w.loop.ready now branch && !branch.isControl then
    (w.loop.round fuel shutdownTimeout now branch).map
      fun result => p.setWorker i { w with loop := result.1 }
  else none

def perform (showF64 : ShowF64) (action : PlaneAction n) (p : ControlPlane env n) :
    Option (ControlPlane env n) :=
  match action with
  | .accept request => some { p with calls := p.calls ++ [.accept showF64 request] }
  | .advance k => p.advance k
  | .handle i now => p.handle i now
  | .round i fuel shutdownTimeout now branch => p.round i fuel shutdownTimeout now branch

end ControlPlane

/-- An action with the plane before and after it. -/
structure PlaneTurn (env : Env) (n : ℕ) where
  action : PlaneAction n
  before : ControlPlane env n
  after : ControlPlane env n

structure PlaneTurn.Takes {n : ℕ} (showF64 : ShowF64) (p : ControlPlane env n) (t : PlaneTurn env n)
    (p' : ControlPlane env n) : Prop where
  before : t.before = p
  after : t.after = p'
  performs : t.before.perform showF64 t.action = some t.after

/-- `turns` lead from the plane `p₀` to `p`. -/
def PlaneRun {n : ℕ} (showF64 : ShowF64) (p₀ : ControlPlane env n) (turns : List (PlaneTurn env n))
    (p : ControlPlane env n) : Prop :=
  Path (PlaneTurn.Takes showF64) p₀ turns p

/-! ## What a patch sets -/

@[simps] def ConfigPatch.set (p : ConfigPatch) (c : Config) : Config where
  timeToFirstToken := p.timeToFirstToken.getD c.timeToFirstToken
  timeToFirstTokenStdDev := p.timeToFirstTokenStdDev.getD c.timeToFirstTokenStdDev
  interTokenLatency := p.interTokenLatency.getD c.interTokenLatency
  interTokenLatencyStdDev := p.interTokenLatencyStdDev.getD c.interTokenLatencyStdDev
  prefillOverhead := p.prefillOverhead.getD c.prefillOverhead
  prefillTimePerToken := p.prefillTimePerToken.getD c.prefillTimePerToken
  prefillTimeStdDev := p.prefillTimeStdDev.getD c.prefillTimeStdDev
  timeFactorUnderLoad := p.timeFactorUnderLoad.getD c.timeFactorUnderLoad
  maxNumSeqs := p.maxNumSeqs.getD c.maxNumSeqs
  maxNumBatchedTokens := p.maxNumBatchedTokens.getD c.maxNumBatchedTokens
  maxModelLen := p.maxModelLen.getD c.maxModelLen
  failureInjectionRate := p.failureInjectionRate.getD c.failureInjectionRate
  failureTypes := p.failureTypes.getD c.failureTypes
  logRequests := p.logRequests.getD c.logRequests

def ControlRequest.set : ControlRequest → Config → Config
  | .patchConfig patch, c => patch.set c
  | _, c => c

/-- Two settings of a knob, where both set it, are the same. -/
def Agree {α : Type} (x y : Option α) : Prop := ∀ a ∈ x, ∀ b ∈ y, a = b

theorem Agree.getD_getD {α : Type} {x y : Option α} (h : Agree x y) (a : α) :
    y.getD (x.getD a) = x.getD (y.getD a) := by
  cases x with
  | none => rfl
  | some b =>
      cases y with
      | none => rfl
      | some c => exact (h b rfl c rfl).symm

/-- The patches set no knob to different values. -/
structure ConfigPatch.Agrees (p q : ConfigPatch) : Prop where
  timeToFirstToken : Agree p.timeToFirstToken q.timeToFirstToken
  timeToFirstTokenStdDev : Agree p.timeToFirstTokenStdDev q.timeToFirstTokenStdDev
  interTokenLatency : Agree p.interTokenLatency q.interTokenLatency
  interTokenLatencyStdDev : Agree p.interTokenLatencyStdDev q.interTokenLatencyStdDev
  prefillOverhead : Agree p.prefillOverhead q.prefillOverhead
  prefillTimePerToken : Agree p.prefillTimePerToken q.prefillTimePerToken
  prefillTimeStdDev : Agree p.prefillTimeStdDev q.prefillTimeStdDev
  timeFactorUnderLoad : Agree p.timeFactorUnderLoad q.timeFactorUnderLoad
  maxNumSeqs : Agree p.maxNumSeqs q.maxNumSeqs
  maxNumBatchedTokens : Agree p.maxNumBatchedTokens q.maxNumBatchedTokens
  maxModelLen : Agree p.maxModelLen q.maxModelLen
  failureInjectionRate : Agree p.failureInjectionRate q.failureInjectionRate
  failureTypes : Agree p.failureTypes q.failureTypes
  logRequests : Agree p.logRequests q.logRequests

theorem ConfigPatch.Agrees.set_set {p q : ConfigPatch} (h : p.Agrees q) (c : Config) :
    q.set (p.set c) = p.set (q.set c) := by
  simp only [ConfigPatch.set, Config.mk.injEq]
  exact ⟨h.timeToFirstToken.getD_getD _, h.timeToFirstTokenStdDev.getD_getD _,
    h.interTokenLatency.getD_getD _, h.interTokenLatencyStdDev.getD_getD _,
    h.prefillOverhead.getD_getD _, h.prefillTimePerToken.getD_getD _,
    h.prefillTimeStdDev.getD_getD _, h.timeFactorUnderLoad.getD_getD _, h.maxNumSeqs.getD_getD _,
    h.maxNumBatchedTokens.getD_getD _, h.maxModelLen.getD_getD _,
    h.failureInjectionRate.getD_getD _, h.failureTypes.getD_getD _, h.logRequests.getD_getD _⟩

/-- The calls are not two patches that set a knob to different values. -/
def ControlRequest.Agrees : ControlRequest → ControlRequest → Prop
  | .patchConfig p, .patchConfig q => p.Agrees q
  | _, _ => True

theorem ControlRequest.Agrees.set_set {a b : ControlRequest} (h : a.Agrees b) (c : Config) :
    b.set (a.set c) = a.set (b.set c) := by
  cases a with
  | patchConfig p =>
      cases b with
      | patchConfig q => exact ConfigPatch.Agrees.set_set h c
      | getConfig | getStats | resetStats => rfl
  | getConfig | getStats | resetStats => cases b <;> rfl

namespace SimEngine

theorem config_congr {e e' : SimEngine env} (h : e'.opt = e.opt) : e'.config = e.config := by
  rw [config, config, h]

theorem config_patched {e e' : SimEngine env} {patch : ConfigPatch}
    (h : e'.opt = patch.apply e.opt) : e'.config = patch.set e.config := by
  rw [config, h]
  rfl

/-- Nothing but a patch changes the config. -/
theorem perform_config {fuel : ℕ} {now : Instant} {op : Op} {e e' : SimEngine env}
    {outs : List EngineOutput} (h : e.perform fuel now op = some (e', outs))
    (hop : ∀ patch, op ≠ .input (.control (.patchConfig patch))) : e'.config = e.config := by
  obtain ⟨os, hemits, _⟩ := perform_emits h
  obtain ⟨effects, hpath, hallow, _⟩ := hemits.allows
  refine config_congr (opt_of_moves hpath ?_)
  rintro effect heffect patch rfl
  exact hop patch (hallow _ heffect)

/-- A call that succeeds sets what its patch sets, and nothing else. -/
theorem handleControl_config {now : Instant} {request : ControlRequest} {e : SimEngine env}
    {reply : ControlReply} (h : (e.handleControl now request).1 = .ok reply) :
    (e.handleControl now request).2.1.config = request.set e.config := by
  cases request with
  | getConfig | getStats | resetStats => rfl
  | patchConfig patch =>
      simp only [handleControl] at h ⊢
      cases hpatched : e.applyPatch now patch with
      | error error =>
          rw [hpatched] at h
          cases h
      | ok result =>
          obtain ⟨latency, _, heq⟩ := applyPatch_ok hpatched
          dsimp only
          rw [heq]
          obtain ⟨effects, hpath, hallow, _⟩ := refill_emits (P := fun _ => False) now
            { e with opt := patch.apply e.opt, latency := latency }
          refine config_patched ((opt_of_moves hpath ?_).trans rfl)
          rintro effect heffect patch' rfl
          rcases hallow _ heffect with ⟨os, hos⟩ | hnone
          · cases hos
          · exact hnone

end SimEngine

/-- A round that takes no control call leaves the config as it is. -/
theorem EngineLoop.round_config {fuel : ℕ} {shutdownTimeout : Duration} {now : Instant}
    {branch : Branch} {l l' : EngineLoop env} {outs : List EngineOutput} (hrunning : l.exit = none)
    (hready : l.ready now branch = true) (hbranch : branch.isControl = false)
    (h : l.round fuel shutdownTimeout now branch = some (l', outs)) :
    l'.engine.config = l.engine.config := by
  rcases LoopTurn.performed (t := ⟨branch, now, l, outs, l'⟩) hrunning hready h with
    ⟨_, hsame, _⟩ | ⟨op, hop, hperform⟩
  · exact congrArg SimEngine.config hsame
  · refine SimEngine.perform_config hperform ?_
    rintro patch rfl
    unfold LoopTurn.op at hop
    dsimp only at hop
    split at hop
    · cases hop
    · split at hop <;> cases hop
    · cases hop
    · cases hop
    · split at hop <;> cases hop
    · split at hop
      · cases hop
      · cases hop
        cases hbranch
    · cases hop
    · cases hop

/-! ## What an action does -/

namespace Call

/-- The handler of a call goes on without sending anything. -/
inductive Goes (n : ℕ) (c : Call) : Call → Prop
  | ends (hready : c.stage = .ready) (hdone : n ≤ c.engine) :
      Goes n c (c.answer (c.request.respond c.replies))
  | breaks (error : ControlError) : Goes n c (c.answer (.error error))
  | resumes {reply : Except ControlError ControlReply} (hreplied : c.stage = .replied reply) :
      Goes n c (c.resume reply)

variable {n : ℕ} {c c' : Call} {reply : Except ControlError ControlReply}

theorem Goes.request (h : c.Goes n c') : c'.request = c.request := by
  cases h with
  | ends | breaks => rfl
  | @resumes reply => cases reply <;> rfl

theorem Goes.fails (h : c.Goes n c') (hfails : c.Fails) : c'.Fails := by
  cases h with
  | ends hready => simp [Fails, hready] at hfails
  | breaks error => trivial
  | @resumes reply hreplied =>
      cases reply with
      | error error => trivial
      | ok reply => simp [Fails, hreplied] at hfails

theorem Goes.reach (h : c.Goes n c') (hfails : ¬c'.Fails) : c'.reach = c.reach := by
  cases h with
  | ends hready => simp only [Call.reach, hready, answer]
  | breaks error => exact absurd trivial hfails
  | @resumes reply hreplied =>
      cases reply with
      | error error => exact absurd trivial hfails
      | ok reply => simp only [Call.reach, hreplied, resume]

theorem Goes.awaiting (h : c.Goes n c') (hstage : c.stage = .awaiting) : c'.Fails := by
  cases h with
  | ends hready => rw [hstage] at hready; cases hready
  | breaks error => trivial
  | resumes hreplied => rw [hstage] at hreplied; cases hreplied

@[simp] theorem receive_request : (c.receive reply).request = c.request := by
  unfold receive
  split <;> rfl

theorem receive_fails (hfails : c.Fails) : (c.receive reply).Fails := by
  unfold receive
  split
  · next hstage => simp [Fails, hstage] at hfails
  · exact hfails

@[simp] theorem receive_reach : (c.receive reply).reach = c.reach := by
  unfold receive
  split
  · next hstage => simp only [reach, hstage]
  · rfl

end Call

namespace ControlPlane

variable {n : ℕ} {p p' : ControlPlane env n} {showF64 : ShowF64}

/-- The actions of a plane, by what they change. -/
inductive Step (p : ControlPlane env n) : PlaneAction n → ControlPlane env n → Prop
  | accepted {request : ControlRequest} {c : Call} (hreach : c.reach = 0)
      (hanswered : ∀ r, c.stage ≠ .answered (.ok r)) :
      Step p (.accept request) { p with calls := p.calls ++ [c] }
  | called {k : ℕ} {c c' : Call} (hcall : p.calls[k]? = some c) (hgoes : c.Goes n c') :
      Step p (.advance k) (p.setCall k c')
  | sent {k : ℕ} {c : Call} (hcall : p.calls[k]? = some c) (hready : c.stage = .ready)
      (hengine : c.engine < n) :
      Step p (.advance k) ((p.setWorker ⟨c.engine, hengine⟩
        { p.workers ⟨c.engine, hengine⟩ with
          mailbox := (p.workers ⟨c.engine, hengine⟩).mailbox ++ [⟨k, c.request⟩] }).setCall k
        { c with stage := .awaiting })
  | handled {i : Fin n} {now : Instant} {message : ControlCall}
      {reply : Except ControlError ControlReply} {loop : EngineLoop env}
      (hnext : (p.workers i).mailbox[(p.workers i).handled]? = some message)
      (hreply : ∀ r, reply = .ok r →
        loop.engine.config = message.request.set (p.workers i).loop.engine.config) :
      Step p (.handle i now) { p.setWorker i { p.workers i with
          loop := loop, handled := (p.workers i).handled + 1 } with
        calls := p.calls.modify message.call (Call.receive reply) }
  | looped {i : Fin n} {fuel : ℕ} {shutdownTimeout : Duration} {now : Instant} {branch : Branch}
      {loop : EngineLoop env}
      (hconfig : loop.engine.config = (p.workers i).loop.engine.config) :
      Step p (.round i fuel shutdownTimeout now branch) (p.setWorker i { p.workers i with loop := loop })

theorem perform_step {action : PlaneAction n} (h : p.perform showF64 action = some p') :
    p.Step action p' := by
  cases action with
  | accept request =>
      cases h
      refine .accepted ?_ ?_
      · cases request with
        | patchConfig patch =>
            simp only [Call.accept, Call.reach]
            cases patch.validate showF64 <;> rfl
        | getConfig | getStats | resetStats => rfl
      · intro r
        cases request with
        | patchConfig patch =>
            simp only [Call.accept]
            cases patch.validate showF64 <;> simp
        | getConfig | getStats | resetStats => simp [Call.accept]
  | advance k =>
      simp only [perform, advance] at h
      split at h
      · cases h
      · next c hcall =>
          split at h
          · next hready =>
              split at h
              · next hengine =>
                  split at h
                  · cases h
                    exact .called hcall (.breaks _)
                  · cases h
                    exact .sent hcall hready hengine
              · next hengine =>
                  cases h
                  exact .called hcall (.ends hready (Nat.not_lt.mp hengine))
          · split at h
            · split at h
              · cases h
                exact .called hcall (.breaks _)
              · cases h
            · cases h
          · next reply hreplied =>
              cases h
              exact .called hcall (.resumes hreplied)
          · cases h
  | handle i now =>
      simp only [perform, handle] at h
      split at h
      · cases h
      · next message hnext =>
          split at h
          · cases h
            exact .handled hnext fun r hr => SimEngine.handleControl_config hr
          · cases h
  | round i fuel shutdownTimeout now branch =>
      simp only [perform, round] at h
      split at h
      · next hopen =>
          simp only [Bool.and_eq_true, Option.isNone_iff_eq_none, Bool.not_eq_true'] at hopen
          obtain ⟨⟨hrunning, hready⟩, hbranch⟩ := hopen
          obtain ⟨result, hround, rfl⟩ := Option.map_eq_some_iff.mp h
          exact .looped (EngineLoop.round_config hrunning hready hbranch hround)
      · cases h

/-- Calls keep their request, and those that fail go on failing. -/
theorem Step.calls {action : PlaneAction n} (h : p.Step action p') {k : ℕ} {c : Call} (hcall : p.calls[k]? = some c) :
    ∃ c', p'.calls[k]? = some c' ∧ c'.request = c.request ∧ (c.Fails → c'.Fails) := by
  have hlt : k < p.calls.length := (List.getElem?_eq_some_iff.mp hcall).1
  have hset : ∀ {k' c₁ c₂}, p.calls[k']? = some c₁ → c₂.request = c₁.request →
      (c₁.Fails → c₂.Fails) → ∃ c', (p.calls.set k' c₂)[k]? = some c' ∧
        c'.request = c.request ∧ (c.Fails → c'.Fails) := by
    intro k' c₁ c₂ hc₁ hrequest hfails
    rw [List.getElem?_set]
    by_cases hk : k' = k
    · subst hk
      obtain rfl : c = c₁ := Option.some.inj (hcall.symm.trans hc₁)
      rw [if_pos rfl, if_pos hlt]
      exact ⟨c₂, rfl, hrequest, hfails⟩
    · rw [if_neg hk]
      exact ⟨c, hcall, rfl, id⟩
  cases h with
  | accepted => exact ⟨c, by rw [List.getElem?_append_left hlt, hcall], rfl, id⟩
  | called hcall' hgoes => exact hset hcall' hgoes.request hgoes.fails
  | sent hcall' hready => exact hset hcall' rfl (fun hfails => by simp [Call.Fails, hready] at hfails)
  | handled =>
      rw [List.getElem?_modify, hcall]
      refine ⟨_, rfl, ?_, ?_⟩ <;> dsimp only <;> split
      · exact Call.receive_request
      · rfl
      · exact Call.receive_fails
      · exact id
  | looped => exact ⟨c, hcall, rfl, id⟩

@[simp] theorem setWorker_calls (i : Fin n) (w : Worker env) :
    (p.setWorker i w).calls = p.calls := rfl

@[simp] theorem setCall_workers (k : ℕ) (c : Call) : (p.setCall k c).workers = p.workers := rfl

@[simp] theorem setCall_calls (k : ℕ) (c : Call) : (p.setCall k c).calls = p.calls.set k c := rfl

@[simp] theorem setWorker_self (i : Fin n) (w : Worker env) : (p.setWorker i w).workers i = w :=
  Function.update_self ..

theorem setWorker_of_ne {i j : Fin n} (h : j ≠ i) (w : Worker env) :
    (p.setWorker i w).workers j = p.workers j :=
  Function.update_of_ne h ..

/-- An engine that takes from its channel leaves what was sent on it. -/
theorem setWorker_mailbox (i j : Fin n) (loop : EngineLoop env) (handled : ℕ) :
    ((p.setWorker i ⟨loop, (p.workers i).mailbox, handled⟩).workers j).mailbox =
      (p.workers j).mailbox := by
  by_cases hj : j = i
  · subst hj
    rw [setWorker_self]
  · rw [setWorker_of_ne hj]

/-- Channels change by a call sent. -/
theorem Step.mailbox {action : PlaneAction n} (h : p.Step action p') (i : Fin n) :
    (p'.workers i).mailbox = (p.workers i).mailbox ∨
      ∃ k c, action = .advance k ∧ p.calls[k]? = some c ∧ c.stage = .ready ∧ c.engine = i ∧
        (p'.workers i).mailbox = (p.workers i).mailbox ++ [⟨k, c.request⟩] := by
  cases h with
  | accepted | called => exact Or.inl rfl
  | @sent k c hcall hready hengine =>
      by_cases hi : i = ⟨c.engine, hengine⟩
      · subst hi
        exact Or.inr ⟨k, c, rfl, hcall, hready, rfl, by simp⟩
      · exact Or.inl (by simp [setWorker_of_ne hi])
  | @handled j | @looped j => exact Or.inl (setWorker_mailbox j i _ _)

/-! ## What is on the channels -/

/-- Every channel carries the calls that were sent to its engine, each of them once, and the calls
whose turn has not come are awaited. -/
structure Posted (p : ControlPlane env n) : Prop where
  valid : ∀ i, ∀ m ∈ (p.workers i).mailbox,
    ∃ c, p.calls[m.call]? = some c ∧ c.request = m.request
  once : ∀ i, ((p.workers i).mailbox.map ControlCall.call).Nodup
  sent : ∀ (k : ℕ) (c : Call), p.calls[k]? = some c → ¬c.Fails → ∀ i : Fin n,
    (∃ m ∈ (p.workers i).mailbox, m.call = k) ↔ i.val < c.reach
  taken : ∀ i, (p.workers i).handled ≤ (p.workers i).mailbox.length
  awaited : ∀ i, ∀ m ∈ (p.workers i).mailbox.drop (p.workers i).handled,
    ∃ c, p.calls[m.call]? = some c ∧ (c.Fails ∨ c.stage = .awaiting ∧ c.engine = i)
  answered : ∀ c ∈ p.calls, ∀ r, c.stage = .answered (.ok r) → n ≤ c.engine

namespace Posted

variable {action : PlaneAction n}

theorem step_valid (hp : p.Posted) (h : p.Step action p') (i : Fin n) :
    ∀ m ∈ (p'.workers i).mailbox, ∃ c, p'.calls[m.call]? = some c ∧ c.request = m.request := by
  have hkept : ∀ m : ControlCall, (∃ c, p.calls[m.call]? = some c ∧ c.request = m.request) →
      ∃ c, p'.calls[m.call]? = some c ∧ c.request = m.request := by
    rintro m ⟨c, hcall, hrequest⟩
    obtain ⟨c', hcall', hsame, _⟩ := h.calls hcall
    exact ⟨c', hcall', hsame.trans hrequest⟩
  intro m hm
  rcases h.mailbox i with hbox | ⟨k, c, _, hcall, _, _, hbox⟩
  · exact hkept m (hp.valid i m (hbox ▸ hm))
  · rw [hbox] at hm
    rcases List.mem_append.mp hm with hold | hnew
    · exact hkept m (hp.valid i m hold)
    · obtain rfl := List.mem_singleton.mp hnew
      exact hkept _ ⟨c, hcall, rfl⟩

theorem not_sent (hp : p.Posted) {k : ℕ} {c : Call} (hcall : p.calls[k]? = some c)
    (hready : c.stage = .ready) (i : Fin n) (hi : c.engine ≤ i) :
    ∀ m ∈ (p.workers i).mailbox, m.call ≠ k := by
  have hfails : ¬c.Fails := by simp [Call.Fails, hready]
  intro m hm hk
  have hlt := (hp.sent k c hcall hfails i).mp ⟨m, hm, hk⟩
  simp only [Call.reach, hready] at hlt
  omega

theorem step_once (hp : p.Posted) (h : p.Step action p') (i : Fin n) :
    ((p'.workers i).mailbox.map ControlCall.call).Nodup := by
  rcases h.mailbox i with hbox | ⟨k, c, _, hcall, hready, hengine, hbox⟩
  · exact hbox ▸ hp.once i
  · rw [hbox, List.map_append, List.map_singleton, ← List.concat_eq_append]
    refine (hp.once i).concat fun hk => ?_
    obtain ⟨m, hm, hmk⟩ := List.mem_map.mp hk
    exact hp.not_sent hcall hready i hengine.le m hm hmk

theorem step_sent (hp : p.Posted) (h : p.Step action p') (k : ℕ) (c' : Call)
    (hcall' : p'.calls[k]? = some c') (hfails : ¬c'.Fails) (i : Fin n) :
    (∃ m ∈ (p'.workers i).mailbox, m.call = k) ↔ i.val < c'.reach := by
  cases h with
  | @accepted request c hreach =>
      by_cases hk : k < p.calls.length
      · rw [List.getElem?_append_left hk] at hcall'
        exact hp.sent k c' hcall' hfails i
      · rw [List.getElem?_append_right (Nat.not_lt.mp hk), List.getElem?_singleton] at hcall'
        obtain ⟨hzero, rfl⟩ : k - p.calls.length = 0 ∧ c = c' := by
          split at hcall'
          · next hzero => exact ⟨hzero, Option.some.inj hcall'⟩
          · cases hcall'
        rw [hreach]
        refine iff_of_false ?_ (Nat.not_lt_zero _)
        rintro ⟨m, hm, rfl⟩
        obtain ⟨c₁, hc₁, _⟩ := hp.valid i m hm
        exact hk (List.getElem?_eq_some_iff.mp hc₁).1
  | @called k' c₁ c₂ hcall hgoes =>
      rw [setCall_calls, List.getElem?_set] at hcall'
      by_cases hk : k' = k
      · subst hk
        rw [if_pos rfl, if_pos (List.getElem?_eq_some_iff.mp hcall).1] at hcall'
        cases hcall'
        rw [hgoes.reach hfails]
        exact hp.sent k' c₁ hcall (fun hold => hfails (hgoes.fails hold)) i
      · rw [if_neg hk] at hcall'
        exact hp.sent k c' hcall' hfails i
  | @sent k' c hcall hready hengine =>
      rw [setCall_calls, setWorker_calls, List.getElem?_set] at hcall'
      rw [setCall_workers]
      by_cases hk : k' = k
      · subst hk
        rw [if_pos rfl, if_pos (List.getElem?_eq_some_iff.mp hcall).1] at hcall'
        cases hcall'
        have hold := hp.sent k' c hcall (by simp [Call.Fails, hready]) i
        simp only [Call.reach, hready] at hold ⊢
        by_cases hi : i = ⟨c.engine, hengine⟩
        · subst hi
          rw [setWorker_self]
          exact iff_of_true ⟨_, List.mem_append_right _ (List.mem_singleton_self _), rfl⟩
            (Nat.lt_succ_self _)
        · rw [setWorker_of_ne hi, hold]
          have hne : i.val ≠ c.engine := fun heq => hi (Fin.ext heq)
          omega
      · rw [if_neg hk] at hcall'
        rw [← hp.sent k c' hcall' hfails i]
        by_cases hi : i = ⟨c.engine, hengine⟩
        · subst hi
          rw [setWorker_self]
          simp [hk]
        · rw [setWorker_of_ne hi]
  | @handled j now message reply loop hnext hreply =>
      rw [List.getElem?_modify] at hcall'
      obtain ⟨c, hcall, rfl⟩ := Option.map_eq_some_iff.mp hcall'
      dsimp only
      rw [setWorker_mailbox]
      by_cases hk : message.call = k
      · rw [if_pos hk] at hfails ⊢
        rw [Call.receive_reach]
        exact hp.sent k c hcall (fun hold => hfails (Call.receive_fails hold)) i
      · rw [if_neg hk] at hfails ⊢
        exact hp.sent k c hcall hfails i
  | @looped j fuel shutdownTimeout now branch loop hconfig =>
      rw [setWorker_mailbox]
      exact hp.sent k c' hcall' hfails i

theorem step_taken (hp : p.Posted) (h : p.Step action p') (i : Fin n) :
    (p'.workers i).handled ≤ (p'.workers i).mailbox.length := by
  have hi := hp.taken i
  cases h with
  | accepted | called => exact hi
  | @sent k c _ _ hengine =>
      by_cases heq : i = ⟨c.engine, hengine⟩
      · subst heq
        rw [setCall_workers, setWorker_self, List.length_append]
        exact Nat.le_add_right_of_le hi
      · rwa [setCall_workers, setWorker_of_ne heq]
  | @handled j _ _ _ _ hnext =>
      by_cases heq : i = j
      · subst heq
        dsimp only
        rw [setWorker_self]
        exact (List.getElem?_eq_some_iff.mp hnext).1
      · dsimp only
        rwa [setWorker_of_ne heq]
  | @looped j =>
      by_cases heq : i = j
      · subst heq
        rwa [setWorker_self]
      · rwa [setWorker_of_ne heq]

theorem step_answered (hp : p.Posted) (h : p.Step action p') :
    ∀ c ∈ p'.calls, ∀ r, c.stage = .answered (.ok r) → n ≤ c.engine := by
  intro c' hc' r hstage
  cases h with
  | accepted _ hanswered =>
      rcases List.mem_append.mp hc' with hold | hnew
      · exact hp.answered c' hold r hstage
      · obtain rfl := List.mem_singleton.mp hnew
        exact absurd hstage (hanswered r)
  | called hcall hgoes =>
      rcases List.mem_or_eq_of_mem_set hc' with hold | rfl
      · exact hp.answered c' hold r hstage
      · cases hgoes with
        | ends hready hdone => exact hdone
        | breaks error => cases hstage
        | @resumes reply hreplied => cases reply <;> cases hstage
  | sent hcall hready hengine =>
      rcases List.mem_or_eq_of_mem_set hc' with hold | rfl
      · exact hp.answered c' hold r hstage
      · cases hstage
  | handled =>
      obtain ⟨k, hk⟩ := List.getElem?_of_mem hc'
      rw [List.getElem?_modify] at hk
      obtain ⟨c, hcall, rfl⟩ := Option.map_eq_some_iff.mp hk
      have hold := hp.answered c (List.mem_of_getElem? hcall)
      split
      · next hreceived =>
          rw [if_pos hreceived] at hstage
          unfold Call.receive at hstage ⊢
          split
          · next hawaiting =>
              rw [hawaiting] at hstage
              cases hstage
          · next hnot =>
              split at hstage
              · cases hstage
              · exact hold r hstage
      · next hother =>
          rw [if_neg hother] at hstage
          exact hold r hstage
  | looped => exact hp.answered c' hc' r hstage

/-- The message that an engine takes is not among those after it. -/
theorem taken_once (hp : p.Posted) {i : Fin n} {message : ControlCall}
    (hnext : (p.workers i).mailbox[(p.workers i).handled]? = some message) :
    ∀ m ∈ (p.workers i).mailbox.drop ((p.workers i).handled + 1), m.call ≠ message.call := by
  obtain ⟨hlt, hget⟩ := List.getElem?_eq_some_iff.mp hnext
  have hdrop := (hp.once i).sublist ((List.drop_sublist (p.workers i).handled _).map _)
  rw [← List.getElem_cons_drop hlt, hget, List.map_cons, List.nodup_cons] at hdrop
  exact fun m hm heq => hdrop.1 (List.mem_map.mpr ⟨m, hm, heq⟩)

theorem step_awaited (hp : p.Posted) (h : p.Step action p') (i : Fin n) :
    ∀ m ∈ (p'.workers i).mailbox.drop (p'.workers i).handled,
      ∃ c, p'.calls[m.call]? = some c ∧ (c.Fails ∨ c.stage = .awaiting ∧ c.engine = i) := by
  intro m hm
  cases h with
  | accepted =>
      obtain ⟨c, hcall, hc⟩ := hp.awaited i m hm
      exact ⟨c, by rw [List.getElem?_append_left (List.getElem?_eq_some_iff.mp hcall).1, hcall], hc⟩
  | @called k c₁ c₂ hcall hgoes =>
      obtain ⟨c, hc, hstage⟩ := hp.awaited i m hm
      rw [setCall_calls, List.getElem?_set]
      by_cases hk : k = m.call
      · subst hk
        obtain rfl : c = c₁ := Option.some.inj (hc.symm.trans hcall)
        rw [if_pos rfl, if_pos (List.getElem?_eq_some_iff.mp hcall).1]
        refine ⟨c₂, rfl, Or.inl ?_⟩
        rcases hstage with hfails | ⟨hawaiting, _⟩
        · exact hgoes.fails hfails
        · exact hgoes.awaiting hawaiting
      · rw [if_neg hk]
        exact ⟨c, hc, hstage⟩
  | @sent k c₁ hcall hready hengine =>
      have hold : ∀ m ∈ (p.workers i).mailbox.drop (p.workers i).handled,
          ∃ c, (p.calls.set k { c₁ with stage := .awaiting })[m.call]? = some c ∧
            (c.Fails ∨ c.stage = .awaiting ∧ c.engine = i) := by
        intro m hm
        obtain ⟨c, hc, hstage⟩ := hp.awaited i m hm
        have hk : k ≠ m.call := by
          rintro rfl
          obtain rfl : c = c₁ := Option.some.inj (hc.symm.trans hcall)
          simp [Call.Fails, hready] at hstage
        exact ⟨c, by rw [List.getElem?_set, if_neg hk, hc], hstage⟩
      rw [setCall_calls, setWorker_calls]
      rw [setCall_workers] at hm
      by_cases hi : i = ⟨c₁.engine, hengine⟩
      · subst hi
        rw [setWorker_self] at hm
        dsimp only at hm
        rw [List.drop_append_of_le_length (hp.taken _)] at hm
        rcases List.mem_append.mp hm with hin | hnew
        · exact hold m hin
        · obtain rfl := List.mem_singleton.mp hnew
          refine ⟨{ c₁ with stage := .awaiting }, ?_, Or.inr ⟨rfl, rfl⟩⟩
          rw [List.getElem?_set, if_pos rfl, if_pos (List.getElem?_eq_some_iff.mp hcall).1]
      · rw [setWorker_of_ne hi] at hm
        exact hold m hm
  | @handled j now message reply loop hnext hreply =>
      dsimp only at hm ⊢
      by_cases hi : i = j
      · subst hi
        rw [setWorker_self] at hm
        have hne := hp.taken_once hnext m hm
        obtain ⟨c, hc, hstage⟩ := hp.awaited i m
          ((List.drop_sublist_drop_left _ (Nat.le_succ _)).subset hm)
        refine ⟨c, ?_, hstage⟩
        rw [List.getElem?_modify, hc]
        exact congrArg some (if_neg (Ne.symm hne))
      · rw [setWorker_of_ne hi] at hm
        obtain ⟨c, hc, hstage⟩ := hp.awaited i m hm
        rw [List.getElem?_modify, hc]
        by_cases hk : message.call = m.call
        · refine ⟨c.receive reply, congrArg some (if_pos hk), Or.inl (Call.receive_fails ?_)⟩
          obtain ⟨hlt, hget⟩ := List.getElem?_eq_some_iff.mp hnext
          obtain ⟨c', hc', hstage'⟩ := hp.awaited j message
            (hget ▸ List.mem_drop_iff_getElem.mpr ⟨0, by simpa using hlt, rfl⟩)
          obtain rfl : c = c' := Option.some.inj (hc.symm.trans (hk ▸ hc'))
          rcases hstage with hfails | ⟨_, hengine⟩
          · exact hfails
          · rcases hstage' with hfails | ⟨_, hengine'⟩
            · exact hfails
            · exact absurd (Fin.ext (hengine.symm.trans hengine')) hi
        · exact ⟨c, congrArg some (if_neg hk), hstage⟩
  | @looped j =>
      by_cases hi : i = j
      · subst hi
        rw [setWorker_self] at hm
        exact hp.awaited i m hm
      · rw [setWorker_of_ne hi] at hm
        exact hp.awaited i m hm

theorem step (hp : p.Posted) (h : p.Step action p') : p'.Posted where
  valid := hp.step_valid h
  once := hp.step_once h
  sent := hp.step_sent h
  taken := hp.step_taken h
  awaited := hp.step_awaited h
  answered := hp.step_answered h

end Posted

/-! ## What the engines hold -/

/-- What a control call makes of the config. -/
def update (c : Config) (m : ControlCall) : Config := m.request.set c

/-- The control calls that the engine took. -/
def tookBy (p : ControlPlane env n) (i : Fin n) : List ControlCall :=
  (p.workers i).mailbox.take (p.workers i).handled

/-- Unless a call that it took fails, an engine holds what these calls make of its config. -/
def Holds (start : Fin n → Config) (p : ControlPlane env n) : Prop :=
  ∀ i, (∀ m ∈ p.tookBy i, ∀ c, p.calls[m.call]? = some c → ¬c.Fails) →
    (p.workers i).loop.engine.config = (p.tookBy i).foldl update (start i)

theorem Holds.step {action : PlaneAction n} {start : Fin n → Config} (hp : p.Posted)
    (hholds : p.Holds start) (h : p.Step action p') : p'.Holds start := by
  intro i hok
  have hbefore : (∀ m ∈ p.tookBy i, m ∈ p'.tookBy i) →
      ∀ m ∈ p.tookBy i, ∀ c, p.calls[m.call]? = some c → ¬c.Fails := by
    intro hsub m hm c hcall hfails
    obtain ⟨c', hcall', _, hfails'⟩ := h.calls hcall
    exact hok m (hsub m hm) c' hcall' (hfails' hfails)
  have hsame : p'.tookBy i = p.tookBy i →
      (p'.workers i).loop.engine.config = (p.workers i).loop.engine.config →
      (p'.workers i).loop.engine.config = (p'.tookBy i).foldl update (start i) := by
    intro htook hconfig
    rw [htook, hconfig]
    exact hholds i (hbefore fun m hm => htook ▸ hm)
  cases h with
  | accepted | called => exact hsame rfl rfl
  | @sent k c hcall hready hengine =>
      by_cases hi : i = ⟨c.engine, hengine⟩
      · subst hi
        refine hsame ?_ (by rw [setCall_workers, setWorker_self])
        rw [tookBy, setCall_workers, setWorker_self]
        exact List.take_append_of_le_length (hp.taken _)
      · refine hsame ?_ ?_ <;> simp only [tookBy, setCall_workers, setWorker_of_ne hi]
  | @handled j now message reply loop hnext hreply =>
      by_cases hi : i = j
      · subst hi
        have htook : tookBy { p.setWorker i ⟨loop, (p.workers i).mailbox,
            (p.workers i).handled + 1⟩ with
            calls := p.calls.modify message.call (Call.receive reply) } i =
            p.tookBy i ++ [message] := by
          rw [tookBy, tookBy]
          dsimp only
          rw [setWorker_self, List.take_add_one, hnext]
          rfl
        have hmine : message ∈ p.tookBy i ++ [message] :=
          List.mem_append_right _ (List.mem_singleton_self _)
        have hold := hholds i (hbefore fun m hm => htook ▸ List.mem_append_left _ hm)
        rw [htook, List.foldl_append, ← hold]
        obtain ⟨hlt, hget⟩ := List.getElem?_eq_some_iff.mp hnext
        obtain ⟨c, hcall, hstage⟩ := hp.awaited i message
          (hget ▸ List.mem_drop_iff_getElem.mpr ⟨0, by simpa using hlt, rfl⟩)
        have hreceived := hok message (htook ▸ hmine) (c.receive reply)
          (by rw [List.getElem?_modify, hcall]; exact congrArg some (if_pos rfl))
        have hawaiting : c.stage = .awaiting := by
          rcases hstage with hfails | ⟨hawaiting, _⟩
          · exact absurd (Call.receive_fails hfails) hreceived
          · exact hawaiting
        cases reply with
        | error error =>
            refine absurd ?_ hreceived
            simp only [Call.receive, hawaiting, Call.Fails]
        | ok r =>
            dsimp only
            rw [setWorker_self]
            exact hreply r rfl
      · refine hsame ?_ ?_ <;> simp only [tookBy, setWorker_of_ne hi]
  | @looped j fuel shutdownTimeout now branch loop hconfig =>
      by_cases hi : i = j
      · subst hi
        refine hsame ?_ ?_
        · rw [tookBy, tookBy, setWorker_self]
        · rw [setWorker_self]
          exact hconfig
      · refine hsame ?_ ?_ <;> simp only [tookBy, setWorker_of_ne hi]

/-! ## Order -/

/-- A call that goes on to an engine overtakes none that came to the first engine before it and
conflicts with it. -/
def InOrder (k : ℕ) (p : ControlPlane env n) : Prop :=
  ∀ c, p.calls[k]? = some c → c.stage = .ready → ∀ first i : Fin n, first.val = 0 →
    i.val = c.engine → ∀ earlier, Reorder.Before (p.workers first).mailbox earlier ⟨k, c.request⟩ →
      earlier ∉ (p.workers i).mailbox → earlier.request.Agrees c.request

/-- No later engine got two conflicting calls in another order than the first one. -/
def Ordered (p : ControlPlane env n) : Prop :=
  ∀ first i : Fin n, first.val = 0 → i ≠ first →
    Reorder.InStep (fun a b => a.request.Agrees b.request) (p.workers first).mailbox
      (p.workers i).mailbox

theorem Ordered.step {action : PlaneAction n} (hp : p.Posted) (hordered : p.Ordered)
    (h : p.Step action p') (hstep : ∀ k, action = .advance k → p.InOrder k) : p'.Ordered := by
  intro first i hfirst hne
  have hold := hordered first i hfirst hne
  rcases h.mailbox i with hbox | ⟨k, c, haction, hcall, hready, hengine, hbox⟩
  · rcases h.mailbox first with hbox₀ | ⟨k, c, _, hcall, hready, hengine, hbox₀⟩
    · rwa [hbox, hbox₀]
    · rw [hbox, hbox₀]
      refine hold.grow fun hm => ?_
      exact hp.not_sent hcall hready i (by omega) _ hm rfl
  · have hbox₀ : (p'.workers first).mailbox = (p.workers first).mailbox := by
      rcases h.mailbox first with hbox₀ | ⟨k', c', haction', hcall', _, hengine', _⟩
      · exact hbox₀
      · obtain rfl : k = k' := PlaneAction.advance.inj (haction.symm.trans haction')
        obtain rfl : c = c' := Option.some.inj (hcall.symm.trans hcall')
        exact absurd (Fin.ext (hengine.symm.trans hengine')) hne
    rw [hbox, hbox₀]
    exact hold.concat fun earlier hbefore hnot =>
      hstep k haction c hcall hready first i hfirst hengine.symm earlier hbefore hnot

/-- Engines before any call. -/
structure Idle (p : ControlPlane env n) : Prop where
  calls : p.calls = []
  mailbox : ∀ i, (p.workers i).mailbox = []
  handled : ∀ i, (p.workers i).handled = 0

theorem Idle.posted (h : p.Idle) : p.Posted where
  valid i m hm := by simp [h.mailbox i] at hm
  once i := by simp [h.mailbox i]
  sent k c hcall := by simp [h.calls] at hcall
  taken i := by simp [h.handled i]
  awaited i m hm := by simp [h.mailbox i] at hm
  answered c hc := by simp [h.calls] at hc

theorem Idle.holds (h : p.Idle) : p.Holds (fun i => (p.workers i).loop.engine.config) := by
  intro i _
  rw [tookBy, h.mailbox i, List.take_nil]
  rfl

theorem Idle.ordered (h : p.Idle) : p.Ordered := by
  intro first i _ _
  rw [h.mailbox i]
  exact .nil

end ControlPlane

variable {n : ℕ} {showF64 : ShowF64} {p₀ p : ControlPlane env n} {turns : List (PlaneTurn env n)}

/-- The turn, if it sends a call on, sends it in order. -/
def PlaneTurn.InOrder (t : PlaneTurn env n) : Prop :=
  ∀ k, t.action = .advance k → t.before.InOrder k

theorem PlaneRun.holds (hrun : PlaneRun showF64 p₀ turns p) (hidle : p₀.Idle)
    (hordered : ∀ t ∈ turns, t.InOrder) :
    p.Posted ∧ p.Holds (fun i => (p₀.workers i).loop.engine.config) ∧ p.Ordered := by
  refine Path.invariant_of (I := fun p => p.Posted ∧
      p.Holds (fun i => (p₀.workers i).loop.engine.config) ∧ p.Ordered)
    (P := PlaneTurn.InOrder) hrun ⟨hidle.posted, hidle.holds, hidle.ordered⟩ hordered ?_
  rintro p t p' horder ⟨hposted, hholds, hord⟩ ⟨rfl, rfl, hperforms⟩
  have hstep := ControlPlane.perform_step hperforms
  exact ⟨hposted.step hstep, hholds.step hposted hstep, hord.step hposted hstep horder⟩

namespace ControlPlane

/-- Once every call is answered and none has failed, every engine was sent and took each of them. -/
theorem Posted.all_taken (hp : p.Posted) (hok : ∀ c ∈ p.calls, ∃ r, c.stage = .answered (.ok r))
    (i j : Fin n) : p.tookBy i = (p.workers i).mailbox ∧
      ((p.workers i).mailbox).Perm (p.workers j).mailbox := by
  have hnot : ∀ (k : ℕ) c, p.calls[k]? = some c → ¬c.Fails ∧ n ≤ c.engine ∧
      c.reach = c.engine ∧ c.stage ≠ .awaiting := by
    intro k c hcall
    obtain ⟨r, hr⟩ := hok c (List.mem_of_getElem? hcall)
    exact ⟨by simp [Call.Fails, hr], hp.answered c (List.mem_of_getElem? hcall) r hr,
      by simp [Call.reach, hr], by simp [hr]⟩
  have hsub : ∀ i j : Fin n, ∀ m ∈ (p.workers i).mailbox, m ∈ (p.workers j).mailbox := by
    intro i j m hm
    obtain ⟨c, hcall, hrequest⟩ := hp.valid i m hm
    obtain ⟨hfails, hreach, hsame, _⟩ := hnot m.call c hcall
    obtain ⟨m', hm', hcall'⟩ := (hp.sent m.call c hcall hfails j).mpr (by omega)
    obtain ⟨c', hc', hrequest'⟩ := hp.valid j m' hm'
    rw [hcall', hcall] at hc'
    cases hc'
    have heq : m' = m := by
      cases m
      cases m'
      simp only [ControlCall.mk.injEq]
      exact ⟨hcall', hrequest'.symm.trans hrequest⟩
    exact heq ▸ hm'
  constructor
  · have hempty : (p.workers i).mailbox.drop (p.workers i).handled = [] := by
      rw [List.eq_nil_iff_forall_not_mem]
      intro m hm
      obtain ⟨c, hcall, hstage⟩ := hp.awaited i m hm
      obtain ⟨hfails, _, _, hawaiting⟩ := hnot m.call c hcall
      rcases hstage with hfails' | ⟨hawaiting', _⟩
      · exact hfails hfails'
      · exact hawaiting hawaiting'
    exact List.take_of_length_le (List.drop_eq_nil_iff.mp hempty)
  · have hnodup : ∀ i, (p.workers i).mailbox.Nodup := fun i => List.Nodup.of_map _ (hp.once i)
    exact (List.perm_ext_iff_of_nodup (hnodup i) (hnodup j)).mpr
      fun m => ⟨hsub i j m, hsub j i m⟩

end ControlPlane

/-- Engines with one config end with one config, when all calls succeed and none overtakes another
that it conflicts with. -/
theorem engines_converge (hidle : p₀.Idle)
    (hequal : ∀ i j, (p₀.workers i).loop.engine.config = (p₀.workers j).loop.engine.config)
    (hrun : PlaneRun showF64 p₀ turns p) (hordered : ∀ t ∈ turns, t.InOrder)
    (hok : ∀ c ∈ p.calls, ∃ r, c.stage = .answered (.ok r)) (i j : Fin n) :
    (p.workers i).loop.engine.config = (p.workers j).loop.engine.config := by
  obtain ⟨hposted, hholds, hord⟩ := hrun.holds hidle hordered
  have hfails : ∀ (k : ℕ) c, p.calls[k]? = some c → ¬c.Fails := by
    intro k c hcall
    obtain ⟨r, hr⟩ := hok c (List.mem_of_getElem? hcall)
    simp [Call.Fails, hr]
  have hfirst : ∀ first i : Fin n, first.val = 0 →
      (p.workers i).loop.engine.config = (p.workers first).loop.engine.config := by
    intro first i hzero
    by_cases hi : i = first
    · rw [hi]
    obtain ⟨htook, hperm⟩ := hposted.all_taken hok first i
    obtain ⟨htook', _⟩ := hposted.all_taken hok i first
    rw [hholds i (fun m _ c hcall => hfails m.call c hcall),
      hholds first (fun m _ c hcall => hfails m.call c hcall), htook, htook']
    dsimp only
    rw [hequal i first]
    refine (Reorder.foldl_eq hperm ?_ _).symm
    intro a b hab hba s
    have hagrees := (hord first i hzero hi).related
      (List.Nodup.of_map _ (hposted.once i)) hab hba
    exact hagrees.set_set s
  have hn : 0 < n := i.pos
  exact (hfirst ⟨0, hn⟩ i rfl).trans (hfirst ⟨0, hn⟩ j rfl).symm

/-! ## Playing a script -/

/-- Perform the actions one after another. -/
def ControlPlane.play (showF64 : ShowF64) :
    List (PlaneAction n) → ControlPlane env n → Option (List (PlaneTurn env n) × ControlPlane env n)
  | [], p => some ([], p)
  | action :: rest, p =>
    match p.perform showF64 action with
    | none => none
    | some p' =>
        (play showF64 rest p').map fun played => (⟨action, p, p'⟩ :: played.1, played.2)

theorem PlaneRun.of_play {actions : List (PlaneAction n)}
    (h : p₀.play showF64 actions = some (turns, p)) : PlaneRun showF64 p₀ turns p := by
  induction actions generalizing p₀ turns with
  | nil =>
      cases h
      exact Path.nil _
  | cons action rest ih =>
      unfold ControlPlane.play at h
      split at h
      · cases h
      · next p' hperform =>
          obtain ⟨⟨more, last⟩, hrest, heq⟩ := Option.map_eq_some_iff.mp h
          cases heq
          exact Path.cons ⟨rfl, rfl, hperform⟩ (ih hrest)

/-- Two engines that nobody has called yet. -/
def demoPlane : ControlPlane demoEnv 2 where
  workers _ := ⟨.start (demo demoOpt none demoOpt_starts), [], 0⟩
  calls := []

theorem demoPlane_idle : demoPlane.Idle := ⟨rfl, fun _ => rfl, fun _ => rfl⟩

/-- A call that sets the number of slots. -/
def setSlots (slots : ℕ) : ControlRequest := .patchConfig { maxNumSeqs := some slots }

/-- All calls are answered and none failed. -/
def ControlPlane.allAnswered (p : ControlPlane env n) : Bool :=
  p.calls.all fun c => match c.stage with
    | .answered (.ok _) => true
    | _ => false

theorem ControlPlane.allAnswered_ok {p : ControlPlane env n} (h : p.allAnswered = true) :
    ∀ c ∈ p.calls, ∃ r, c.stage = .answered (.ok r) := by
  intro c hc
  have hstage := List.all_eq_true.mp h c hc
  split at hstage
  · next r hr => exact ⟨r, hr⟩
  · cases hstage

/-- The slots of the two engines. -/
def slots (p : ControlPlane env 2) : List ℕ :=
  [0, 1].map fun i => (p.workers i).loop.engine.config.maxNumSeqs

/-- The turn, if a call goes on in it, has the calls before it on the next channel already. -/
def PlaneTurn.keepsOrder (t : PlaneTurn env 2) : Bool :=
  match t.action with
  | .advance k => (t.before.calls[k]?).all fun c => (t.before.workers 0).mailbox.all fun earlier =>
      [earlier, ⟨k, c.request⟩].isSublist (t.before.workers 0).mailbox →
        ∀ i : Fin 2, i.val = c.engine → earlier ∈ (t.before.workers i).mailbox
  | _ => true

theorem PlaneTurn.inOrder_of_keepsOrder {t : PlaneTurn env 2} (h : t.keepsOrder = true) :
    t.InOrder := by
  intro k haction c hcall _ first i hfirst hengine earlier hbefore hnot
  obtain rfl : first = 0 := Fin.ext hfirst
  rw [keepsOrder, haction] at h
  simp only [hcall, Option.all_some, List.all_eq_true] at h
  have hkept := of_decide_eq_true (h earlier hbefore.mem.1)
  exact absurd (hkept (List.isSublist_iff_sublist.mpr hbefore) i hengine) hnot

/-- Two calls that set the slots differently are under way at once, and reach both engines in one
order. -/
theorem ordered_calls_converge :
    ∃ (turns : List (PlaneTurn demoEnv 2)) (p : ControlPlane demoEnv 2),
      PlaneRun (fun _ => "") demoPlane turns p ∧ ¬ (setSlots 1).Agrees (setSlots 2) ∧
        (∃ t ∈ turns, t.before.calls.map Call.request = [setSlots 1, setSlots 2] ∧
          t.before.calls.all (fun c => c.stage matches .awaiting)) ∧
        (∀ i, (p.workers i).mailbox = [⟨0, setSlots 1⟩, ⟨1, setSlots 2⟩]) ∧ slots p = [2, 2] ∧
        ∀ i j, (p.workers i).loop.engine.config = (p.workers j).loop.engine.config := by
  have hplays : (demoPlane.play (fun _ => "") [.accept (setSlots 1), .accept (setSlots 2),
      .advance 0, .advance 1, .handle 0 1, .handle 0 1, .advance 0, .advance 0, .advance 1,
      .advance 1, .handle 1 1, .handle 1 1, .advance 0, .advance 0, .advance 1, .advance 1]).any
      (fun played => played.1.all PlaneTurn.keepsOrder ∧
        played.1.any (fun t => t.before.calls.map Call.request = [setSlots 1, setSlots 2] ∧
          t.before.calls.all (fun c => c.stage matches .awaiting)) ∧
        (∀ i, (played.2.workers i).mailbox = [⟨0, setSlots 1⟩, ⟨1, setSlots 2⟩]) ∧
        slots played.2 = [2, 2] ∧ played.2.allAnswered) = true := by
    decide +kernel
  obtain ⟨⟨turns, p⟩, hplay, hshown⟩ := (Option.any_eq_true _ _).mp hplays
  obtain ⟨hordered, hawaiting, hmailbox, hslots, hanswered⟩ := of_decide_eq_true hshown
  have hrun := PlaneRun.of_play hplay
  obtain ⟨t, ht, hboth⟩ := List.any_eq_true.mp hawaiting
  have hconflict : ¬ (setSlots 1).Agrees (setSlots 2) := by
    intro hagrees
    exact absurd (hagrees.maxNumSeqs 1 rfl 2 rfl) (by decide)
  refine ⟨turns, p, hrun, hconflict, ⟨t, ht, of_decide_eq_true hboth⟩, hmailbox, hslots,
    engines_converge demoPlane_idle (fun _ _ => rfl) hrun ?_
      (ControlPlane.allAnswered_ok hanswered)⟩
  exact fun t ht => PlaneTurn.inOrder_of_keepsOrder (List.all_eq_true.mp hordered t ht)

/-- Two calls under way at once reach the engines in different orders. -/
theorem overlapping_calls_diverge :
    ¬ ∀ (env : Env) (n : ℕ) (showF64 : ShowF64) (p₀ p : ControlPlane env n)
        (turns : List (PlaneTurn env n)), p₀.Idle →
      (∀ i j, (p₀.workers i).loop.engine.config = (p₀.workers j).loop.engine.config) →
      PlaneRun showF64 p₀ turns p → (∀ c ∈ p.calls, ∃ r, c.stage = .answered (.ok r)) →
        ∀ i j, (p.workers i).loop.engine.config = (p.workers j).loop.engine.config := by
  intro hclaim
  have hplays : (demoPlane.play (fun _ => "") [.accept (setSlots 1), .accept (setSlots 2),
      .advance 0, .handle 0 1, .advance 1, .handle 0 1, .advance 1, .advance 1, .handle 1 1,
      .advance 0, .advance 0, .handle 1 1, .advance 0, .advance 0, .advance 1, .advance 1]).any
      (fun played => slots played.2 = [2, 1] ∧ played.2.allAnswered) = true := by
    decide +kernel
  obtain ⟨⟨turns, p⟩, hplay, hshown⟩ := (Option.any_eq_true _ _).mp hplays
  obtain ⟨hslots, hanswered⟩ := of_decide_eq_true hshown
  have hsame := hclaim demoEnv 2 (fun _ => "") demoPlane p turns demoPlane_idle (fun _ _ => rfl)
    (PlaneRun.of_play hplay) (ControlPlane.allAnswered_ok hanswered) 0 1
  have hequal := congrArg Config.maxNumSeqs hsame
  simp only [slots, List.map_cons, List.map_nil, List.cons.injEq, and_true] at hslots
  omega

end VllmVcr
