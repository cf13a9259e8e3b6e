import VllmVcr.Wire
import VllmVcr.Engine.Loop
import VllmVcr.Engine.Routing

/-!
# The IO loop

`run_io_loop` between the frontends' sockets and the engine loop: decoded messages go into the
input channel, which the control plane also feeds, and every output goes to its client's socket.
-/

namespace VllmVcr

variable {env : Env}

/-! ## Decoding a message -/

/-- `decode_msgpack` at the types of the payloads. -/
structure PayloadDecoders where
  request : List UInt8 → Except String EngineCoreRequest
  requestIds : List UInt8 → Except String (List String)
  utility : List UInt8 → Except String UtilityRequestSpec

/-- The auxiliary frames of a multimodal request are dropped. -/
def decodeRequest (decoders : PayloadDecoders) (frames : ZmqMessage) :
    Except String EngineInput :=
  match frames with
  | typeFrame :: payload :: _ =>
    match requestTypeFromFrame typeFrame with
    | none => .error ("unknown engine request type: " ++ toString typeFrame)
    | some .add => (decoders.request payload).map .request
    | some .abort => (decoders.requestIds payload).map .abort
    | some .utility => (decoders.utility payload).map .utility
    | some .startDpWave => .ok .startDpWave
  | _ => .error ("engine request needs at least 2 frames, got " ++ toString frames.length)

/-- Who put an input into the channel. -/
inductive Origin where
  | dealer (client : ℕ)
  | control
  deriving DecidableEq

inductive IoStatus where
  | running
  | flushing
  | done
  | failed
  deriving DecidableEq

variable (env) in
/-- The two loops with what lies between them and the frontends. `sent`, `handled` and `rounds`
only record what happened. -/
structure EngineIo where
  wires : ℕ → List ZmqMessage
  inputs : List (Origin × EngineInput)
  engineLoop : EngineLoop env
  clock : Instant
  outputs : List EngineOutput
  pushed : ℕ → List Envelope
  status : IoStatus
  sent : ℕ → List ZmqMessage
  handled : List (Origin × EngineInput)
  rounds : List (LoopTurn env)

/-- What may happen next, in any order. -/
inductive IoEvent where
  | send (client : ℕ) (message : ZmqMessage)
  | control (request : ControlRequest)
  | receive (client : ℕ)
  | receiveFails
  | push
  | pushFails
  | close
  | input (now : Instant)
  | round (now : Instant) (branch : Branch)

namespace EngineIo

def start (engine : SimEngine env) : EngineIo env where
  wires _ := []
  inputs := []
  engineLoop := .start engine
  clock := 0
  outputs := []
  pushed _ := []
  status := .running
  sent _ := []
  handled := []
  rounds := []

/-- A message of the frontend reaches its dealer socket. -/
def send (client : ℕ) (message : ZmqMessage) (s : EngineIo env) : EngineIo env :=
  { s with
    wires := Function.update s.wires client (s.wires client ++ [message])
    sent := Function.update s.sent client (s.sent client ++ [message]) }

/-- The input stream of a dealer: a message that does not decode is skipped, and an input that
finds the engine loop gone makes the loop flush. -/
def receive (decoders : PayloadDecoders) (client : ℕ) (s : EngineIo env) :
    Option (EngineIo env) :=
  match s.wires client with
  | [] => none
  | message :: rest =>
    let s := { s with wires := Function.update s.wires client rest }
    match decodeRequest decoders message with
    | .error _ => some s
    | .ok input =>
      if s.engineLoop.exit.isNone then
        some { s with inputs := s.inputs ++ [(.dealer client, input)] }
      else some { s with status := .flushing }

/-- `send_engine_outputs_to_client`; an index without a socket drops the batch. -/
def sendEngineOutputs (sockets : ℕ) (output : EngineOutput) (s : EngineIo env) : EngineIo env :=
  if output.clientIndex < sockets then
    { s with
      pushed := Function.update s.pushed output.clientIndex
        (s.pushed output.clientIndex ++ [output.outputs]) }
  else s

/-- One round of the engine loop, which sends what it returns. -/
def engineRound (fuel : ℕ) (shutdownTimeout : Duration) (now : Instant) (branch : Branch)
    (s : EngineIo env) : Option (EngineIo env) :=
  if s.engineLoop.exit = none ∧ s.clock ≤ now ∧ s.engineLoop.ready now branch = true then
    (s.engineLoop.round fuel shutdownTimeout now branch).map fun result =>
      { s with
        engineLoop := result.1
        clock := now
        outputs := s.outputs ++ result.2
        rounds := s.rounds ++ [⟨branch, now, s.engineLoop, result.2, result.1⟩] }
  else none

/-- One event. `none`: it cannot happen now, or `fuel` ran out. -/
def step (sockets : ℕ) (decoders : PayloadDecoders) (shutdownTimeout : Duration) (fuel : ℕ)
    (event : IoEvent) (s : EngineIo env) : Option (EngineIo env) :=
  match event with
  | .send client message => if client < sockets then some (s.send client message) else none
  | .control request =>
      if s.engineLoop.exit = none then
        some { s with inputs := s.inputs ++ [(.control, .control request)] }
      else none
  | .receive client =>
      if s.status = .running ∧ client < sockets then s.receive decoders client else none
  | .receiveFails => if s.status = .running then some { s with status := .failed } else none
  | .push =>
      match s.outputs with
      | [] => none
      | output :: rest =>
        if s.status = .running ∨ s.status = .flushing then
          some ({ s with outputs := rest }.sendEngineOutputs sockets output)
        else none
  | .pushFails =>
      match s.outputs with
      | [] => none
      | _ :: rest =>
        if s.status = .running ∨ s.status = .flushing then
          some { s with outputs := rest, status := .failed }
        else none
  | .close =>
      if (s.status = .running ∨ s.status = .flushing) ∧ s.outputs.isEmpty ∧
          s.engineLoop.exit.isSome then some { s with status := .done }
      else none
  | .input now =>
      match s.inputs with
      | [] => none
      | (origin, input) :: rest =>
        if s.status = .failed then none
        else { s with inputs := rest, handled := s.handled ++ [(origin, input)] }.engineRound
          fuel shutdownTimeout now (.input (some input))
  | .round _ (.input _) => none
  | .round now branch =>
      if s.status = .failed then none else s.engineRound fuel shutdownTimeout now branch

end EngineIo

/-- Some fuel takes `s` to `s'` by the event. -/
def EngineIo.Step (sockets : ℕ) (decoders : PayloadDecoders) (shutdownTimeout : Duration)
    (s : EngineIo env) (event : IoEvent) (s' : EngineIo env) : Prop :=
  ∃ fuel, s.step sockets decoders shutdownTimeout fuel event = some s'

/-- `events` lead from the connected sockets and the engine `e₀` to `s`. -/
def IoRun (sockets : ℕ) (decoders : PayloadDecoders) (shutdownTimeout : Duration)
    (e₀ : SimEngine env) (events : List IoEvent) (s : EngineIo env) : Prop :=
  Path (EngineIo.Step sockets decoders shutdownTimeout) (EngineIo.start e₀) events s

namespace EngineIo

/-! ## What an event does -/

section Change

variable (sockets : ℕ) (decoders : PayloadDecoders) (shutdownTimeout : Duration)

/-- What the engine loop is after a round. -/
def rounded (t : LoopTurn env) (s : EngineIo env) : EngineIo env :=
  { s with
    engineLoop := t.after
    clock := t.now
    outputs := s.outputs ++ t.outputs
    rounds := s.rounds ++ [t] }

/-- An event either moves a message one place further or ends the IO loop. -/
inductive Change (s : EngineIo env) : EngineIo env → Prop
  | sent (client : ℕ) (message : ZmqMessage) (hclient : client < sockets) :
      Change s (s.send client message)
  | posted (request : ControlRequest) :
      Change s { s with inputs := s.inputs ++ [(.control, .control request)] }
  | skipped {client : ℕ} {message : ZmqMessage} {rest : List ZmqMessage} {error : String}
      (hrunning : s.status = .running) (hwire : s.wires client = message :: rest)
      (hbad : decodeRequest decoders message = .error error) :
      Change s { s with wires := Function.update s.wires client rest }
  | queued {client : ℕ} {message : ZmqMessage} {rest : List ZmqMessage} {input : EngineInput}
      (hrunning : s.status = .running) (hwire : s.wires client = message :: rest)
      (hgood : decodeRequest decoders message = .ok input) :
      Change s { s with
        wires := Function.update s.wires client rest
        inputs := s.inputs ++ [(.dealer client, input)] }
  | late {client : ℕ} {message : ZmqMessage} {rest : List ZmqMessage} {input : EngineInput}
      (hrunning : s.status = .running) (hwire : s.wires client = message :: rest)
      (hgood : decodeRequest decoders message = .ok input) :
      Change s { s with
        wires := Function.update s.wires client rest
        status := .flushing }
  | pushed {output : EngineOutput} {rest : List EngineOutput}
      (hopen : s.status = .running ∨ s.status = .flushing)
      (houtputs : s.outputs = output :: rest) :
      Change s ({ s with outputs := rest }.sendEngineOutputs sockets output)
  | failed (outputs : List EngineOutput) (hopen : s.status = .running ∨ s.status = .flushing) :
      Change s { s with outputs := outputs, status := .failed }
  | closed (hopen : s.status = .running ∨ s.status = .flushing) (houtputs : s.outputs = [])
      (hexit : s.engineLoop.exit.isSome = true) : Change s { s with status := .done }
  | handled {origin : Origin} {input : EngineInput} {rest : List (Origin × EngineInput)}
      {t : LoopTurn env} (hinputs : s.inputs = (origin, input) :: rest)
      (hbranch : t.branch = .input (some input))
      (ht : LoopTurn.Takes shutdownTimeout (s.engineLoop, s.clock) t (t.after, t.now)) :
      Change s ({ s with inputs := rest, handled := s.handled ++ [(origin, input)] }.rounded t)
  | rounded {t : LoopTurn env} (hbranch : ∀ message, t.branch ≠ .input message)
      (ht : LoopTurn.Takes shutdownTimeout (s.engineLoop, s.clock) t (t.after, t.now)) :
      Change s (s.rounded t)

end Change

variable {sockets : ℕ} {decoders : PayloadDecoders} {shutdownTimeout : Duration}
  {s s' : EngineIo env}

theorem engineRound_some {fuel : ℕ} {now : Instant} {branch : Branch}
    (h : s.engineRound fuel shutdownTimeout now branch = some s') :
    ∃ t : LoopTurn env, t.branch = branch ∧ s' = s.rounded t ∧
      LoopTurn.Takes shutdownTimeout (s.engineLoop, s.clock) t (t.after, t.now) := by
  unfold engineRound at h
  split at h
  · next hready =>
      obtain ⟨hrunning, hclock, hready⟩ := hready
      obtain ⟨result, hround, heq⟩ := Option.map_eq_some_iff.mp h
      cases heq
      exact ⟨⟨branch, now, s.engineLoop, result.2, result.1⟩, rfl, rfl,
        ⟨rfl, rfl, hclock, rfl, hrunning, hready, fuel, hround⟩⟩
  · cases h

theorem receive_change {client : ℕ} (hrunning : s.status = .running)
    (h : s.receive decoders client = some s') :
    Change sockets decoders shutdownTimeout s s' := by
  unfold receive at h
  split at h
  · cases h
  · next message rest hwire =>
      simp only at h
      split at h
      · next error hbad =>
          cases h
          exact .skipped hrunning hwire hbad
      · next input hgood =>
          split at h
          · cases h
            exact .queued hrunning hwire hgood
          · cases h
            exact .late hrunning hwire hgood

theorem step_change {event : IoEvent} (h : s.Step sockets decoders shutdownTimeout event s') :
    Change sockets decoders shutdownTimeout s s' := by
  obtain ⟨fuel, h⟩ := h
  cases event with
  | send client message =>
      simp only [step] at h
      split at h
      · next hclient =>
          cases h
          exact .sent client message hclient
      · cases h
  | control request =>
      simp only [step] at h
      split at h
      · cases h
        exact .posted request
      · cases h
  | receive client =>
      simp only [step] at h
      split at h
      · next hrunning => exact receive_change hrunning.1 h
      · cases h
  | receiveFails =>
      simp only [step] at h
      split at h
      · next hrunning =>
          cases h
          exact .failed s.outputs (Or.inl hrunning)
      · cases h
  | push =>
      simp only [step] at h
      split at h
      · cases h
      · next output rest houtputs =>
          split at h
          · next hopen =>
              cases h
              exact .pushed hopen houtputs
          · cases h
  | pushFails =>
      simp only [step] at h
      split at h
      · cases h
      · next output rest houtputs =>
          split at h
          · next hopen =>
              cases h
              exact .failed rest hopen
          · cases h
  | close =>
      simp only [step] at h
      split at h
      · next hdone =>
          cases h
          exact .closed hdone.1 (List.isEmpty_iff.mp hdone.2.1) hdone.2.2
      · cases h
  | input now =>
      simp only [step] at h
      split at h
      · cases h
      · next origin input rest hinputs =>
          split at h
          · cases h
          · obtain ⟨t, hbranch, rfl, ht⟩ := engineRound_some h
            exact .handled hinputs hbranch ht
  | round now branch =>
      have hround : (∀ message, branch ≠ .input message) →
          s.engineRound fuel shutdownTimeout now branch = some s' →
          Change sockets decoders shutdownTimeout s s' := by
        intro hnot hround
        obtain ⟨t, rfl, rfl, ht⟩ := engineRound_some hround
        exact .rounded hnot ht
      cases branch with
      | input message => cases h
      | _ =>
          simp only [step] at h
          split at h
          · cases h
          · exact hround (by simp) h

end EngineIo

/-! ## What every interleaving keeps -/

/-- The envelopes for one client. -/
def envelopesFor (client : ℕ) (outs : List EngineOutput) : List Envelope :=
  (outs.filter (fun out => out.clientIndex = client)).map EngineOutput.outputs

theorem envelopesFor_append (client : ℕ) (outs outs' : List EngineOutput) :
    envelopesFor client (outs ++ outs') = envelopesFor client outs ++ envelopesFor client outs' := by
  rw [envelopesFor, List.filter_append, List.map_append, envelopesFor, envelopesFor]

/-- The inputs that one dealer put into the channel. -/
def inputsOf (client : ℕ) (inputs : List (Origin × EngineInput)) : List EngineInput :=
  (inputs.filter (fun x => x.1 = .dealer client)).map Prod.snd

theorem inputsOf_append (client : ℕ) (inputs inputs' : List (Origin × EngineInput)) :
    inputsOf client (inputs ++ inputs') = inputsOf client inputs ++ inputsOf client inputs' := by
  rw [inputsOf, List.filter_append, List.map_append, inputsOf, inputsOf]

/-- The messages that decode, decoded. -/
def decodable (decoders : PayloadDecoders) (messages : List ZmqMessage) : List EngineInput :=
  messages.filterMap (fun message => (decodeRequest decoders message).toOption)

theorem decodable_append (decoders : PayloadDecoders) (messages messages' : List ZmqMessage) :
    decodable decoders (messages ++ messages') =
      decodable decoders messages ++ decodable decoders messages' := List.filterMap_append

/-- The input that a round handles. -/
def LoopTurn.message (t : LoopTurn env) : Option EngineInput :=
  match t.branch with
  | .input message => message
  | _ => none

namespace EngineIo

/-- What the engine loop sent for the client so far. -/
def emitted (s : EngineIo env) (client : ℕ) : List Envelope :=
  envelopesFor client (s.rounds.flatMap LoopTurn.outputs)

/-- A socket has sent what the engine loop emitted for it, but for what is queued or lost. -/
structure Delivers (sockets : ℕ) (s : EngineIo env) : Prop where
  pushed : ∀ client, s.pushed client <+: s.emitted client
  queued : s.status ≠ .failed → ∀ client < sockets,
    s.emitted client = s.pushed client ++ envelopesFor client s.outputs
  done : s.status = .done → s.outputs = [] ∧ s.engineLoop.exit.isSome = true

/-- What each dealer put into the channel is what its frontend sent and decodes, in order. -/
structure Receives (decoders : PayloadDecoders) (s : EngineIo env) : Prop where
  taken : ∀ client, ∃ taken, s.sent client = taken ++ s.wires client ∧
    inputsOf client (s.handled ++ s.inputs) <+: decodable decoders taken ∧
    (s.status = .running → inputsOf client (s.handled ++ s.inputs) = decodable decoders taken)

/-- The rounds are a run of the engine loop that handles the inputs in channel order. -/
structure Runs (shutdownTimeout : Duration) (e₀ : SimEngine env) (s : EngineIo env) : Prop where
  run : LoopRun shutdownTimeout e₀ s.rounds s.engineLoop s.clock
  handled : s.rounds.filterMap LoopTurn.message = s.handled.map Prod.snd

variable {sockets : ℕ} {decoders : PayloadDecoders} {shutdownTimeout : Duration}
  {e₀ : SimEngine env} {s s' : EngineIo env}

theorem emitted_rounded (t : LoopTurn env) (s : EngineIo env) (client : ℕ) :
    (s.rounded t).emitted client = s.emitted client ++ envelopesFor client t.outputs := by
  rw [emitted, rounded, List.flatMap_append, List.flatMap_singleton, envelopesFor_append]
  rfl

namespace Delivers

theorem rounded (h : Delivers sockets s) {t : LoopTurn env}
    (ht : LoopTurn.Takes shutdownTimeout (s.engineLoop, s.clock) t (t.after, t.now)) :
    Delivers sockets (s.rounded t) := by
  refine ⟨?_, ?_, ?_⟩
  · intro client
    rw [emitted_rounded]
    exact (h.pushed client).trans (List.prefix_append _ _)
  · intro hstatus client hclient
    rw [emitted_rounded, h.queued hstatus client hclient, List.append_assoc]
    rw [EngineIo.rounded, envelopesFor_append]
  · intro hdone
    have hexit := (h.done hdone).2
    have hrunning := ht.running
    rw [ht.before] at hrunning
    have hnone : s.engineLoop.exit = none := hrunning
    rw [hnone] at hexit
    cases hexit

theorem pushes (h : Delivers sockets s) {output : EngineOutput} {rest : List EngineOutput}
    (hopen : s.status = .running ∨ s.status = .flushing) (houtputs : s.outputs = output :: rest) :
    Delivers sockets ({ s with outputs := rest }.sendEngineOutputs sockets output) := by
  have hstatus : s.status ≠ .failed ∧ s.status ≠ .done := by
    rcases hopen with hrunning | hflushing
    · simp [hrunning]
    · simp [hflushing]
  have hqueued := h.queued hstatus.1
  rw [houtputs] at hqueued
  unfold sendEngineOutputs
  split
  · next hsocket =>
      have hpushed : ∀ client < sockets, s.emitted client =
          Function.update s.pushed output.clientIndex (s.pushed output.clientIndex ++
            [output.outputs]) client ++ envelopesFor client rest := by
        intro client hclient
        rw [hqueued client hclient]
        by_cases heq : client = output.clientIndex
        · subst heq
          rw [Function.update_self, List.append_assoc]
          simp [envelopesFor]
        · rw [Function.update_of_ne heq]
          simp [envelopesFor, Ne.symm heq]
      refine ⟨?_, fun _ => hpushed, fun hdone => absurd hdone hstatus.2⟩
      intro client
      by_cases heq : client = output.clientIndex
      · subst heq
        exact ⟨_, (hpushed output.clientIndex hsocket).symm⟩
      · have hkept := h.pushed client
        rw [← Function.update_of_ne heq (s.pushed output.clientIndex ++ [output.outputs])
          s.pushed] at hkept
        exact hkept
  · next hsocket =>
      refine ⟨h.pushed, ?_, fun hdone => absurd hdone hstatus.2⟩
      intro _ client hclient
      have hne : output.clientIndex ≠ client := by omega
      refine (hqueued client hclient).trans ?_
      simp [envelopesFor, hne]

theorem change (h : Delivers sockets s) (hchange : Change sockets decoders shutdownTimeout s s') :
    Delivers sockets s' := by
  cases hchange with
  | sent client message => exact ⟨h.pushed, h.queued, h.done⟩
  | posted request => exact ⟨h.pushed, h.queued, h.done⟩
  | skipped => exact ⟨h.pushed, h.queued, h.done⟩
  | queued => exact ⟨h.pushed, h.queued, h.done⟩
  | late hrunning =>
      have hstatus : s.status ≠ .failed := by simp [hrunning]
      exact ⟨h.pushed, fun _ => h.queued hstatus, by simp⟩
  | pushed hopen houtputs => exact h.pushes hopen houtputs
  | failed outputs hopen => exact ⟨h.pushed, by simp, by simp⟩
  | closed hopen houtputs hexit =>
      have hstatus : s.status ≠ .failed := by
        rcases hopen with hrunning | hflushing
        · simp [hrunning]
        · simp [hflushing]
      exact ⟨h.pushed, fun _ => h.queued hstatus, fun _ => ⟨houtputs, hexit⟩⟩
  | @handled origin input rest t hinputs hbranch ht =>
      have hsame : Delivers sockets { s with
          inputs := rest, handled := s.handled ++ [(origin, input)] } :=
        ⟨h.pushed, h.queued, h.done⟩
      exact hsame.rounded ht
  | rounded hbranch ht => exact h.rounded ht

end Delivers

namespace Receives

/-- A dealer that takes a message off its wire. -/
theorem pops (h : Receives decoders s) {client : ℕ} {message : ZmqMessage}
    {rest : List ZmqMessage} {inputs : List (Origin × EngineInput)} {status : IoStatus}
    (hrunning : s.status = .running) (hwire : s.wires client = message :: rest)
    (hother : ∀ other, other ≠ client → inputsOf other inputs = inputsOf other s.inputs)
    (hnew : inputsOf client (s.handled ++ inputs) <+:
      inputsOf client (s.handled ++ s.inputs) ++ decodable decoders [message])
    (hall : status = .running → inputsOf client (s.handled ++ inputs) =
      inputsOf client (s.handled ++ s.inputs) ++ decodable decoders [message]) :
    Receives decoders { s with
      wires := Function.update s.wires client rest
      inputs := inputs
      status := status } := by
  constructor
  intro other
  obtain ⟨taken, hsent, _, heq⟩ := h.taken other
  have hexact := heq hrunning
  by_cases hsame : other = client
  · subst hsame
    refine ⟨taken ++ [message], ?_, ?_, ?_⟩
    · have hwires : Function.update s.wires other rest other = rest := Function.update_self _ _ _
      change s.sent other = taken ++ [message] ++ Function.update s.wires other rest other
      rw [hwires, hsent, hwire, List.append_assoc, List.singleton_append]
    · rw [decodable_append, ← hexact]
      exact hnew
    · intro hstatus
      rw [decodable_append, ← hexact]
      exact hall hstatus
  · have hkept : inputsOf other (s.handled ++ inputs) = decodable decoders taken := by
      rw [inputsOf_append, hother other hsame, ← inputsOf_append, hexact]
    refine ⟨taken, ?_, ?_, fun _ => hkept⟩
    · change s.sent other = taken ++ Function.update s.wires client rest other
      rw [Function.update_of_ne hsame]
      exact hsent
    · exact hkept ▸ List.prefix_refl _

/-- What leaves the wires and the records of the inputs as they are. -/
theorem kept (h : Receives decoders s) (hwires : s'.wires = s.wires) (hsent : s'.sent = s.sent)
    (hinputs : ∀ client, inputsOf client (s'.handled ++ s'.inputs) =
      inputsOf client (s.handled ++ s.inputs))
    (hstatus : s'.status = .running → s.status = .running) : Receives decoders s' := by
  constructor
  intro client
  obtain ⟨taken, htaken, hinitial, heq⟩ := h.taken client
  refine ⟨taken, ?_, ?_, ?_⟩
  · rw [hwires, hsent, htaken]
  · rw [hinputs]
    exact hinitial
  · intro hrunning
    rw [hinputs]
    exact heq (hstatus hrunning)

theorem change (h : Receives decoders s)
    (hchange : Change sockets decoders shutdownTimeout s s') : Receives decoders s' := by
  cases hchange with
  | sent client message =>
      constructor
      intro other
      obtain ⟨taken, htaken, hinitial, heq⟩ := h.taken other
      refine ⟨taken, ?_, hinitial, heq⟩
      change Function.update s.sent client (s.sent client ++ [message]) other =
        taken ++ Function.update s.wires client (s.wires client ++ [message]) other
      by_cases hsame : other = client
      · subst hsame
        rw [Function.update_self, Function.update_self, htaken, List.append_assoc]
      · rw [Function.update_of_ne hsame, Function.update_of_ne hsame, htaken]
  | posted request =>
      refine h.kept rfl rfl ?_ id
      intro client
      simp [inputsOf]
  | @skipped client message rest error hrunning hwire hbad =>
      have hnone : decodable decoders [message] = [] := by
        rw [decodable, List.filterMap_cons, hbad]
        rfl
      have hsame : inputsOf client (s.handled ++ s.inputs) =
          inputsOf client (s.handled ++ s.inputs) ++ decodable decoders [message] := by
        rw [hnone, List.append_nil]
      exact h.pops hrunning hwire (fun _ _ => rfl) (hsame ▸ List.prefix_refl _) (fun _ => hsame)
  | @queued client message rest input hrunning hwire hgood =>
      have hone : decodable decoders [message] = [input] := by
        rw [decodable, List.filterMap_cons, hgood]
        rfl
      have hnew : inputsOf client (s.handled ++ (s.inputs ++ [(.dealer client, input)])) =
          inputsOf client (s.handled ++ s.inputs) ++ decodable decoders [message] := by
        rw [← List.append_assoc, inputsOf_append, hone]
        simp [inputsOf]
      refine h.pops hrunning hwire ?_ (hnew ▸ List.prefix_refl _) (fun _ => hnew)
      intro other hother
      rw [inputsOf_append]
      simp [inputsOf, Ne.symm hother]
  | @late client message rest input hrunning hwire hgood =>
      exact h.pops hrunning hwire (fun _ _ => rfl) (List.prefix_append _ _) (by simp)
  | @pushed output rest hopen houtputs =>
      have hrest : Receives decoders { s with outputs := rest } :=
        h.kept rfl rfl (fun _ => rfl) id
      unfold sendEngineOutputs
      split
      · exact hrest.kept rfl rfl (fun _ => rfl) id
      · exact hrest
  | failed outputs hopen => exact h.kept rfl rfl (fun _ => rfl) (by simp)
  | closed => exact h.kept rfl rfl (fun _ => rfl) (by simp)
  | @handled origin input rest t hinputs hbranch ht =>
      refine h.kept rfl rfl ?_ id
      intro client
      change inputsOf client ((s.handled ++ [(origin, input)]) ++ rest) = _
      rw [hinputs, List.append_assoc, List.singleton_append]
  | rounded => exact h.kept rfl rfl (fun _ => rfl) id

end Receives

namespace Runs

theorem rounded (h : Runs shutdownTimeout e₀ s) {t : LoopTurn env} {handled : List EngineInput}
    (hmessage : t.message.toList = handled) {s' : EngineIo env}
    (hloop : s'.engineLoop = t.after) (hclock : s'.clock = t.now)
    (hrounds : s'.rounds = s.rounds ++ [t])
    (hhandled : s'.handled.map Prod.snd = s.handled.map Prod.snd ++ handled)
    (ht : LoopTurn.Takes shutdownTimeout (s.engineLoop, s.clock) t (t.after, t.now)) :
    Runs shutdownTimeout e₀ s' := by
  constructor
  · rw [hloop, hclock, hrounds]
    exact h.run.snoc ht
  · rw [hrounds, hhandled, List.filterMap_append, h.handled, ← hmessage]
    cases hm : t.message <;> simp [hm]

theorem change (h : Runs shutdownTimeout e₀ s)
    (hchange : Change sockets decoders shutdownTimeout s s') : Runs shutdownTimeout e₀ s' := by
  cases hchange with
  | sent | posted | skipped | queued | late | failed | closed => exact ⟨h.run, h.handled⟩
  | pushed =>
      unfold sendEngineOutputs
      split
      · exact ⟨h.run, h.handled⟩
      · exact ⟨h.run, h.handled⟩
  | @handled origin input rest t hinputs hbranch ht =>
      have hmessage : t.message.toList = [input] := by
        rw [LoopTurn.message, hbranch]
        rfl
      exact h.rounded hmessage rfl rfl rfl (List.map_append) ht
  | @rounded t hbranch ht =>
      have hmessage : t.message.toList = [] := by
        rw [LoopTurn.message]
        split
        · next message heq => exact absurd heq (hbranch message)
        · rfl
      exact h.rounded hmessage rfl rfl rfl (List.append_nil _).symm ht

end Runs
end EngineIo

theorem IoRun.conserves {sockets : ℕ} {decoders : PayloadDecoders} {shutdownTimeout : Duration}
    {e₀ : SimEngine env} {events : List IoEvent} {s : EngineIo env}
    (hrun : IoRun sockets decoders shutdownTimeout e₀ events s) :
    s.Delivers sockets ∧ s.Receives decoders := by
  apply hrun.invariant (I := fun s => s.Delivers sockets ∧ s.Receives decoders)
  · refine ⟨⟨?_, ?_, ?_⟩, ⟨?_⟩⟩
    · exact fun _ => List.prefix_refl _
    · exact fun _ _ _ => rfl
    · intro hdone
      cases hdone
    · exact fun _ => ⟨[], rfl, List.prefix_refl _, fun _ => rfl⟩
  · rintro s event s' ⟨hdelivers, hreceives⟩ hstep
    have hchange := EngineIo.step_change hstep
    exact ⟨hdelivers.change hchange, hreceives.change hchange⟩

theorem EngineIo.Delivers.pushed_all {sockets : ℕ} {s : EngineIo env} (h : s.Delivers sockets)
    (hdone : s.status = .done) {client : ℕ} (hclient : client < sockets) :
    s.pushed client = s.emitted client := by
  have hall := h.queued (by simp [hdone]) client hclient
  rw [(h.done hdone).1] at hall
  exact (hall.trans (List.append_nil _)).symm

/-- Whatever happens in whatever order, a frontend's socket gets a part of what the engine emitted
for it, from the front and in order, and all of it once the IO loop is done; and the engine
handles a part of what the frontend sent and decodes, from the front and in order. -/
theorem IoRun.delivers {sockets : ℕ} {decoders : PayloadDecoders} {shutdownTimeout : Duration}
    {e₀ : SimEngine env} {events : List IoEvent} {s : EngineIo env}
    (hrun : IoRun sockets decoders shutdownTimeout e₀ events s) (client : ℕ) :
    s.pushed client <+: s.emitted client ∧
      (s.status = .done → client < sockets → s.pushed client = s.emitted client) ∧
      inputsOf client s.handled <+: decodable decoders (s.sent client) := by
  obtain ⟨hdelivers, hreceives⟩ := hrun.conserves
  refine ⟨hdelivers.pushed client, ?_, ?_⟩
  · exact fun hdone hclient => hdelivers.pushed_all hdone hclient
  · obtain ⟨taken, htaken, hinitial, _⟩ := hreceives.taken client
    rw [htaken, decodable_append]
    rw [inputsOf_append] at hinitial
    exact ((List.prefix_append _ _).trans hinitial).trans (List.prefix_append _ _)

/-! ## The outputs on a client's socket -/

/-- The request that an input brings. -/
def EngineInput.brought : EngineInput → Option EngineCoreRequest
  | .request r => some r
  | _ => none

/-- The requests among the inputs that the engine handled. -/
def EngineIo.requests (s : EngineIo env) : List EngineCoreRequest :=
  s.handled.filterMap (fun x => x.2.brought)

/-- How many finishing outputs for the id the envelopes hold. -/
def finishesOf (id : String) (envelopes : List Envelope) : ℕ :=
  ((envelopes.flatMap Envelope.requestOutputs).filter
    (fun o => o.requestId = id ∧ o.finishReason.isSome = true)).length

theorem LoopTurn.taken_eq (t : LoopTurn env) : t.taken = t.message.bind EngineInput.brought := by
  unfold LoopTurn.taken LoopTurn.message
  cases t.branch with
  | input message =>
      cases message with
      | none => rfl
      | some input =>
          cases input <;> rfl
  | _ => rfl

/-- A round without an operation sends nothing. -/
theorem LoopRun.quiet {shutdownTimeout : Duration} {e₀ : SimEngine env}
    {rounds : List (LoopTurn env)} {l : EngineLoop env} {clock : Instant}
    (hrun : LoopRun shutdownTimeout e₀ rounds l clock) :
    ∀ t ∈ rounds, t.op = none → t.outputs = [] := by
  apply hrun.history (P := fun rounds _ => ∀ t ∈ rounds, t.op = none → t.outputs = [])
  · intro t ht
    cases ht
  · intro rounds s t s' ih htakes t' ht' hop
    rcases List.mem_append.mp ht' with hold | hnew
    · exact ih t' hold hop
    · cases List.mem_singleton.mp hnew
      obtain ⟨fuel, hround⟩ := htakes.performs
      rcases LoopTurn.performed htakes.running htakes.ready hround with
        ⟨_, _, hquiet⟩ | ⟨op, hsome, _⟩
      · exact hquiet
      · rw [hop] at hsome
        cases hsome

theorem turn_outputs {rounds : List (LoopTurn env)}
    (h : ∀ t ∈ rounds, t.op = none → t.outputs = []) :
    (rounds.filterMap LoopTurn.turn).flatMap Turn.outputs = rounds.flatMap LoopTurn.outputs := by
  induction rounds with
  | nil => rfl
  | cons t rounds ih =>
      have hrest := ih (fun t' ht' => h t' (List.mem_cons_of_mem _ ht'))
      rw [List.filterMap_cons, List.flatMap_cons, ← hrest]
      cases hop : t.op with
      | none =>
          rw [LoopTurn.turn, hop, h t List.mem_cons_self hop]
          rfl
      | some op =>
          rw [LoopTurn.turn, hop]
          rfl

theorem turn_taken (rounds : List (LoopTurn env)) :
    (rounds.filterMap LoopTurn.turn).filterMap (fun t => t.op.taken) =
      rounds.filterMap LoopTurn.taken := by
  induction rounds with
  | nil => rfl
  | cons t rounds ih =>
      rw [List.filterMap_cons, List.filterMap_cons, ← ih]
      cases hop : t.op with
      | none =>
          rw [LoopTurn.turn, hop, t.taken_op hop]
          rfl
      | some op =>
          rw [LoopTurn.taken_of_op hop, LoopTurn.turn, hop, Option.map_some,
            List.filterMap_cons]

theorem count_closedFor (client : ℕ) (id : String) (outs : List EngineOutput) :
    (closedFor outs).count (client, id) = finishesOf id (envelopesFor client outs) := by
  induction outs with
  | nil => rfl
  | cons out outs ih =>
      rw [closedFor, List.flatMap_cons, List.count_append]
      rw [closedFor] at ih
      rw [ih, ← List.singleton_append, envelopesFor_append, finishesOf, finishesOf,
        List.flatMap_append, List.filter_append, List.length_append]
      congr 1
      rw [List.count_eq_countP, List.countP_map, List.countP_filter]
      by_cases hclient : out.clientIndex = client
      · have hone : envelopesFor client [out] = [out.outputs] := by
          simp [envelopesFor, hclient]
        rw [hone, List.flatMap_singleton, ← List.countP_eq_length_filter]
        apply List.countP_congr
        intro o _
        simp [hclient]
      · have hnone : envelopesFor client [out] = [] := by
          simp [envelopesFor, hclient]
        rw [hnone, List.flatMap_nil, List.filter_nil, List.length_nil, List.countP_eq_zero]
        intro o _
        simp [hclient]

theorem mem_issued {turns : List (Turn env)} {request : EngineCoreRequest}
    (h : request ∈ issued turns) : request ∈ turns.filterMap (fun t => t.op.taken) := by
  obtain ⟨t, ht, hmem⟩ := List.mem_flatMap.mp h
  refine List.mem_filterMap.mpr ⟨t, ht, ?_⟩
  unfold Turn.issued at hmem
  split at hmem
  · next r hop =>
      split at hmem
      · cases List.mem_singleton.mp hmem
        rw [hop]
        rfl
      · cases hmem
  · cases hmem

/-- Every output on a client's socket answers a request of that client, by its id; and after a
graceful shutdown, of each id the client was sent as many finishing outputs as the engine handled
requests of that client. -/
theorem IoRun.outputs_answer {sockets : ℕ} {decoders : PayloadDecoders} {shutdownTimeout : Duration}
    {e₀ : SimEngine env} {events : List IoEvent} {s : EngineIo env} (hfresh : Fresh e₀)
    (hrun : IoRun sockets decoders shutdownTimeout e₀ events s) (client : ℕ) :
    (∀ envelope ∈ s.pushed client, ∀ o ∈ envelope.requestOutputs, ∃ request ∈ s.requests,
      request.requestId = o.requestId ∧ request.clientIndex = client) ∧
    (∀ exit, s.status = .done → s.engineLoop.exit = some exit → exit.isShutdown = true →
      client < sockets → ∀ id, finishesOf id (s.pushed client) =
        (s.requests.filter
          (fun request => request.clientIndex = client ∧ request.requestId = id)).length) := by
  obtain ⟨hdelivers, _⟩ := hrun.conserves
  have hruns : s.Runs shutdownTimeout e₀ := by
    apply hrun.invariant (I := EngineIo.Runs shutdownTimeout e₀)
    · exact ⟨Path.nil _, rfl⟩
    · exact fun s event s' h hstep => h.change (EngineIo.step_change hstep)
  obtain ⟨⟨last, _, hengine⟩, _, _⟩ := hruns.run.engine_run
  have haccounted := hengine.accounted hfresh
  have houtputs := turn_outputs hruns.run.quiet
  have htaken : (s.rounds.filterMap LoopTurn.turn).filterMap (fun t => t.op.taken) =
      s.requests := by
    have hbrought : s.requests =
        (s.handled.map Prod.snd).filterMap EngineInput.brought := by
      rw [EngineIo.requests, List.filterMap_map]
      rfl
    rw [turn_taken, hbrought, ← hruns.handled, List.filterMap_filterMap]
    congr 1
    funext t
    exact t.taken_eq
  refine ⟨?_, ?_⟩
  · intro envelope henvelope o ho
    obtain ⟨out, hout, rfl⟩ := List.mem_map.mp ((hdelivers.pushed client).subset henvelope)
    obtain ⟨hout, hclient⟩ := List.mem_filter.mp hout
    rw [← houtputs] at hout
    obtain ⟨t, ht, hmem⟩ := List.mem_flatMap.mp hout
    rw [← htaken, ← of_decide_eq_true hclient]
    rcases haccounted.routed t ht out hmem o ho with
      ⟨k, request, _, hrequest, hid, hsender⟩ | ⟨_, request, htaken, hid, hsender⟩
    · exact ⟨request, mem_issued (List.mem_of_getElem? hrequest), hid, hsender⟩
    · exact ⟨request, List.mem_filterMap.mpr ⟨t, ht, htaken⟩, hid, hsender⟩
  · intro exit hdone hexit hshutdown hclient id
    have hlive : s.engineLoop.engine.live = [] := hruns.run.ends.1 exit hexit hshutdown
    have hperm := haccounted.closed
    rw [takenBy, htaken, houtputs, SimEngine.liveFor, hlive, List.map_nil, List.append_nil] at hperm
    rw [hdelivers.pushed_all hdone hclient, EngineIo.emitted, ← count_closedFor, ← hperm.count_eq,
      List.count_eq_countP, List.countP_map, List.countP_eq_length_filter]
    congr 1
    apply List.filter_congr
    intro request _
    rw [Bool.eq_iff_iff]
    simp

/-! ## Playing events -/

/-- Go through the events, one after another. -/
def EngineIo.play (sockets : ℕ) (decoders : PayloadDecoders) (shutdownTimeout : Duration)
    (fuel : ℕ) : List IoEvent → EngineIo env → Option (EngineIo env)
  | [], s => some s
  | event :: rest, s =>
    (s.step sockets decoders shutdownTimeout fuel event).bind
      (play sockets decoders shutdownTimeout fuel rest)

theorem IoRun.of_play {sockets : ℕ} {decoders : PayloadDecoders} {shutdownTimeout : Duration}
    {fuel : ℕ} {events : List IoEvent} {e₀ : SimEngine env} {p : EngineIo env → Bool}
    (h : ((EngineIo.start e₀).play sockets decoders shutdownTimeout fuel events).any p = true) :
    ∃ s, IoRun sockets decoders shutdownTimeout e₀ events s ∧ p s = true := by
  have hpath : ∀ (events : List IoEvent) (s s' : EngineIo env),
      s.play sockets decoders shutdownTimeout fuel events = some s' →
        Path (EngineIo.Step sockets decoders shutdownTimeout) s events s' := by
    intro events
    induction events with
    | nil =>
        intro s s' h
        cases h
        exact Path.nil s
    | cons event events ih =>
        intro s s' h
        obtain ⟨s₁, hstep, hrest⟩ := Option.bind_eq_some_iff.mp h
        exact Path.cons ⟨fuel, hstep⟩ (ih s₁ s' hrest)
  obtain ⟨s, hplay, hp⟩ := (Option.any_eq_true _ _).mp h
  exact ⟨s, hpath events _ s hplay, hp⟩

/-- Decoders for one-byte payloads: the byte is the client that sends the request. -/
def demoDecoders : PayloadDecoders where
  request
    | [client] => .ok { demoRequest "a" 1 with clientIndex := client.toNat }
    | _ => .error "invalid type"
  requestIds _ := .error "invalid type"
  utility _ := .error "invalid type"

/-- A request of the second client among messages that do not decode, then a drain. -/
def demoTraffic : List IoEvent :=
  [.send 1 [[9], [1]], .send 1 [[0], [1]], .send 0 [[0]], .receive 1, .receive 0, .receive 1,
    .input 0, .round 0 .shutdown, .round 1 .step, .push, .round 1 .complete, .close]

theorem demoTraffic_answers : ∃ s : EngineIo demoEnv,
    IoRun 2 demoDecoders 5 (demo demoOpt none demoOpt_starts) demoTraffic s ∧
      s.requests.length = 1 ∧ finishesOf "a" (s.pushed 1) =
        (s.requests.filter
          (fun request => request.clientIndex = 1 ∧ request.requestId = "a")).length := by
  have hplays : ((EngineIo.start (demo demoOpt none demoOpt_starts)).play 2 demoDecoders 5 20
      demoTraffic).any (fun s => s.status = .done ∧ s.engineLoop.exit = some .drained ∧
        s.requests.length = 1) = true := by decide +kernel
  obtain ⟨s, hrun, hs⟩ := IoRun.of_play hplays
  obtain ⟨hdone, hexit, hlength⟩ := of_decide_eq_true hs
  exact ⟨s, hrun, hlength, (hrun.outputs_answer (demo_fresh _ _ _) 1).2 .drained hdone hexit rfl
    (by decide) "a"⟩

theorem demoTraffic_delivers : ∃ s : EngineIo demoEnv,
    IoRun 2 demoDecoders 5 (demo demoOpt none demoOpt_starts) demoTraffic s ∧
      (s.pushed 1).length = 1 ∧ s.pushed 1 <+: s.emitted 1 ∧
      inputsOf 1 s.handled <+: decodable demoDecoders (s.sent 1) := by
  have hplays : ((EngineIo.start (demo demoOpt none demoOpt_starts)).play 2 demoDecoders 5 20
      demoTraffic).any (fun s => (s.pushed 1).length = 1) = true := by decide +kernel
  obtain ⟨s, hrun, hs⟩ := IoRun.of_play hplays
  obtain ⟨hinitial, _, hhandled⟩ := hrun.delivers 1
  exact ⟨s, hrun, of_decide_eq_true hs, hinitial, hhandled⟩

end VllmVcr
