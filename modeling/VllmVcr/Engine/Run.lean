import VllmVcr.Paths
import VllmVcr.Engine.Input

/-!
# Runs of an engine

The operations of the engine loop, in any order, at instants that never go back. A pull
completion is the arrival of one of the spawned pulls, whichever finished.
-/

namespace VllmVcr

variable {env : Env}

inductive Op where
  | input (input : EngineInput)
  | pullCompletion (task : PullTask)
  | step
  | rejectRequest (request : EngineCoreRequest)
  | abortAllRequests

namespace SimEngine

/-- Take a completion off the channel. -/
@[simps] def receivePull (task : PullTask) (e : SimEngine env) : SimEngine env :=
  { e with pullTasks := e.pullTasks.erase task }

/-- One operation at `now`. `none`: it failed, it was not possible, or `fuel` ran out. -/
def perform (fuel : ℕ) (now : Instant) (op : Op) (e : SimEngine env) :
    Option (SimEngine env × List EngineOutput) :=
  match op with
  | .input input => (e.handleInput now input).toOption
  | .pullCompletion task =>
      if task ∈ e.pullTasks then some ((e.receivePull task).finishPull now task) else none
  | .step => e.step fuel now
  | .rejectRequest request =>
      let (e, output) := e.rejectRequest now request
      some (e, [output])
  | .abortAllRequests => some (e.abortAllRequests now)

end SimEngine

/-- An operation with what it did. -/
structure Turn (env : Env) where
  op : Op
  now : Instant
  before : SimEngine env
  outputs : List EngineOutput
  after : SimEngine env

/-- The turn takes the engine at clock `s.2` to that at clock `u.2`. -/
structure Turn.Takes (s : SimEngine env × Instant) (t : Turn env) (u : SimEngine env × Instant) :
    Prop where
  before : t.before = s.1
  after : t.after = u.1
  clock : s.2 ≤ t.now
  now : t.now = u.2
  performs : ∃ fuel, t.before.perform fuel t.now t.op = some (t.after, t.outputs)

/-- `turns` lead from the engine `e₀` to `e`, the last of them at `clock`. -/
def Run (e₀ : SimEngine env) (turns : List (Turn env)) (e : SimEngine env) (clock : Instant) :
    Prop :=
  Path (fun s t u => Turn.Takes s t u) (e₀, 0) turns (e, clock)

/-- An engine as `SimEngine::new` builds it, over any sources. -/
def Fresh (e : SimEngine env) : Prop :=
  ∃ engineIndex opt tokenSource stepSource,
    SimEngine.new env engineIndex opt tokenSource stepSource = .ok e

/-- The outputs of a run, each with the client it goes to, in the order returned. -/
def delivered (turns : List (Turn env)) : List (ℕ × EngineCoreOutput) :=
  turns.flatMap fun t => t.outputs.flatMap fun out =>
    out.outputs.requestOutputs.map (fun o => (out.clientIndex, o))

/-- The per-request outputs of a run, in the order returned. -/
def coreOutputs (turns : List (Turn env)) : List EngineCoreOutput :=
  turns.flatMap fun t => t.outputs.flatMap fun out => out.outputs.requestOutputs

/-! ## Playing a script -/

/-- Perform the operations of a script, one after another. -/
def SimEngine.play (fuel : ℕ) :
    List (Instant × Op) → SimEngine env → Option (List (Turn env) × SimEngine env)
  | [], e => some ([], e)
  | (now, op) :: rest, e =>
    match e.perform fuel now op with
    | none => none
    | some (e', outputs) =>
        (play fuel rest e').map fun played => (⟨op, now, e, outputs, e'⟩ :: played.1, played.2)

theorem SimEngine.play_path {fuel : ℕ} {script : List (Instant × Op)} {e e' : SimEngine env}
    {turns : List (Turn env)} {clock : Instant} (h : e.play fuel script = some (turns, e'))
    (hclock : (clock :: script.map Prod.fst).IsChain (· ≤ ·)) :
    ∃ last, Path (fun s t u => Turn.Takes s t u) (e, clock) turns (e', last) := by
  induction script generalizing e turns clock with
  | nil =>
      cases h
      exact ⟨clock, Path.nil _⟩
  | cons entry rest ih =>
      unfold SimEngine.play at h
      split at h
      · cases h
      · next e₁ outputs hperform =>
          obtain ⟨⟨more, last⟩, hrest, heq⟩ := Option.map_eq_some_iff.mp h
          cases heq
          obtain ⟨hle, hchain⟩ := List.isChain_cons_cons.mp hclock
          obtain ⟨clock', hpath⟩ := ih hrest hchain
          exact ⟨clock', Path.cons ⟨rfl, rfl, hle, rfl, fuel, hperform⟩ hpath⟩

theorem SimEngine.play_ops {fuel : ℕ} {script : List (Instant × Op)} {e e' : SimEngine env}
    {turns : List (Turn env)} (h : e.play fuel script = some (turns, e')) :
    turns.map Turn.op = script.map Prod.snd := by
  induction script generalizing e turns with
  | nil =>
      cases h
      rfl
  | cons entry rest ih =>
      unfold SimEngine.play at h
      split at h
      · cases h
      · obtain ⟨⟨more, last⟩, hrest, heq⟩ := Option.map_eq_some_iff.mp h
        cases heq
        rw [List.map_cons, List.map_cons, ih hrest]

theorem Run.of_play {fuel : ℕ} {script : List (Instant × Op)} {e e' : SimEngine env}
    {turns : List (Turn env)} (h : e.play fuel script = some (turns, e'))
    (hclock : (script.map Prod.fst).IsChain (· ≤ ·)) : ∃ clock, Run e turns e' clock := by
  have hstart : ((0 : Instant) :: script.map Prod.fst).IsChain (· ≤ ·) := by
    cases script with
    | nil => exact List.IsChain.singleton _
    | cons entry rest => exact List.isChain_cons_cons.mpr ⟨bot_le, hclock⟩
  exact SimEngine.play_path h hstart

/-- A script that plays is a run of the engine, with whatever `p` finds in it. -/
theorem Run.of_script {fuel : ℕ} {script : List (Instant × Op)} {e : SimEngine env}
    {p : List (Turn env) → SimEngine env → Bool}
    (h : (e.play fuel script).any (fun played => p played.1 played.2) = true)
    (hclock : (script.map Prod.fst).IsChain (· ≤ ·)) :
    ∃ turns e' clock, Run e turns e' clock ∧ turns.map Turn.op = script.map Prod.snd ∧
      p turns e' = true := by
  obtain ⟨⟨turns, e'⟩, hplay, hp⟩ := (Option.any_eq_true _ _).mp h
  obtain ⟨clock, hrun⟩ := Run.of_play hplay hclock
  exact ⟨turns, e', clock, hrun, SimEngine.play_ops hplay, hp⟩

/-- A small engine without randomness. -/
def demoEnv : Env where
  Rng := Unit
  seedFromU64 _ := ()
  requestSeed _ _ _ := 0
  randomF64 _ := (0, ())
  randomRange _ _ := (0, ())
  normalDeviate _ := (0, ())
  traceLatency _ := .error "no trace"
  advertisePrefilled _ _ _ := .error "no data plane"

def demoOpt : Opt where
  outputTokenChunkSize := 1
  vocabSize := 1
  replayTokens := none
  replaySteps := none
  latencyTrace := none
  seed := 0
  tokensPerBlock := 16
  timeToFirstToken := 0
  timeToFirstTokenStdDev := 0
  interTokenLatency := 100
  interTokenLatencyStdDev := 0
  prefillOverhead := 0
  prefillTimePerToken := 0
  prefillTimeStdDev := 0
  kvCacheTransferLatency := 0
  kvCacheTransferLatencyStdDev := 0
  kvCacheTransferTimePerToken := 0
  kvCacheTransferTimeStdDev := 0
  timeFactorUnderLoad := 1
  maxNumSeqs := 2
  maxNumBatchedTokens := 2048
  longPrefillTokenThreshold := 0
  schedulingPolicy := .fcfs
  kvCacheSize := 1024
  maxLoras := 0
  enableKvCacheEvents := false
  kvCacheNoneSeed := 0
  maxModelLen := 0
  failureInjectionRate := 0
  timeScale := 1
  failureTypes := [.error]
  logRequests := false

/-- The small engine, with options over those of `demoOpt` and a step source. -/
def demo (opt : Opt) (steps : Option StepSource)
    (h : (SimEngine.new demoEnv 0 opt (.random 1) steps).toOption.isSome := by rfl) :
    SimEngine demoEnv :=
  (SimEngine.new demoEnv 0 opt (.random 1) steps).toOption.get h

theorem demoOpt_starts :
    (SimEngine.new demoEnv 0 demoOpt (.random 1) none).toOption.isSome := rfl

theorem demo_fresh (opt : Opt) (steps : Option StepSource)
    (h : (SimEngine.new demoEnv 0 opt (.random 1) steps).toOption.isSome) :
    Fresh (demo opt steps h) := by
  refine ⟨0, opt, .random 1, steps, ?_⟩
  have hget := Option.some_get h
  change some (demo opt steps h) = _ at hget
  cases hnew : SimEngine.new demoEnv 0 opt (.random 1) steps with
  | error message =>
      rw [hnew] at h
      cases h
  | ok e =>
      rw [hnew] at hget
      cases hget
      rfl

def demoRequest (requestId : String) (maxTokens : ℕ) : EngineCoreRequest where
  requestId := requestId
  clientIndex := 0
  promptTokenIds := some [0]
  samplingParams := some ⟨maxTokens, 0, none, none⟩
  arrivalTime := 0
  priority := 0
  loraRequest := none
  cacheSalt := none

end VllmVcr
