import VllmVcr.Capture
import VllmVcr.Links
import VllmVcr.Wire

/-!
# The tap as a proxy

`run_tap` after the handshakes: two drain tasks empty the sockets into channels, and the proxy
loop forwards one message at a time and then observes it. Between frontend and engine the tap is
a pair of first-in first-out links, whatever it observes.
-/

namespace VllmVcr

/-- The decoders that the observation uses. -/
structure TapDecoders where
  request : List UInt8 → Except String EngineCoreRequest
  requestIds : List UInt8 → Except String (List String)
  outputs : ZmqMessage → Except String Envelope

/-- A forwarded message, by the side it came from. -/
inductive Forwarded where
  | request (frames : ZmqMessage)
  | output (frames : ZmqMessage)
  deriving DecidableEq

def Forwarded.requestFrames : Forwarded → Option ZmqMessage
  | .request frames => some frames
  | .output _ => none

def Forwarded.outputFrames : Forwarded → Option ZmqMessage
  | .request _ => none
  | .output frames => some frames

namespace TapDecoders

/-- What `observe_request` reads in a message; aux frames are ignored. -/
def observedRequest (decoders : TapDecoders) : ZmqMessage → Option TapMessage
  | typeFrame :: payload :: _ =>
    match requestTypeFromFrame typeFrame with
    | some .add => (decoders.request payload).toOption.map .add
    | some .abort => (decoders.requestIds payload).toOption.map .abort
    | _ => none
  | _ => none

def observed (decoders : TapDecoders) : Forwarded → Option TapMessage
  | .request frames => decoders.observedRequest frames
  | .output frames => (decoders.outputs frames).toOption.map .outputs

end TapDecoders

/-- A loop that failed to send a message has lost it. -/
inductive ProxyStatus where
  | running
  | stopped
  | failed (lost : Option Forwarded)
  deriving DecidableEq

def ProxyStatus.lost : ProxyStatus → Option Forwarded
  | .running => none
  | .stopped => none
  | .failed lost => lost

/-- The proxy with the sockets on both sides. `requestsSent`, `outputsSent` and `observed` only
record what happened. -/
structure TapProxy where
  requestWire : List ZmqMessage
  requestChannel : List (Instant × ZmqMessage)
  requestDrain : Bool
  toEngine : List ZmqMessage
  outputWire : List ZmqMessage
  outputChannel : List (Instant × ZmqMessage)
  outputDrain : Bool
  toFrontend : List ZmqMessage
  observing : Option (Instant × Forwarded)
  tap : Tap
  status : ProxyStatus
  clock : Instant
  requestsSent : List ZmqMessage
  outputsSent : List ZmqMessage
  observed : List (Instant × Forwarded)

/-- What may happen next, in any order. -/
inductive ProxyEvent where
  | frontendSends (message : ZmqMessage)
  | engineSends (message : ZmqMessage)
  | drainRequest (now : Instant)
  | requestRecvFails
  | drainOutput (now : Instant)
  | outputRecvFails
  | forwardRequest
  | forwardOutput
  | requestSendFails
  | outputSendFails
  | observe
  | drainEnded
  | shutdown

def ProxyEvent.engineMessage : ProxyEvent → Option ZmqMessage
  | .engineSends message => some message
  | _ => none

namespace TapProxy

def start (tap : Tap) : TapProxy where
  requestWire := []
  requestChannel := []
  requestDrain := true
  toEngine := []
  outputWire := []
  outputChannel := []
  outputDrain := true
  toFrontend := []
  observing := none
  tap := tap
  status := .running
  clock := tap.captureStart
  requestsSent := []
  outputsSent := []
  observed := []

/-- The proxy loop waits for its next message. -/
def Selecting (s : TapProxy) : Prop := s.status = .running ∧ s.observing = none

instance (s : TapProxy) : Decidable s.Selecting :=
  decidable_of_iff (s.status = .running ∧ s.observing.isNone = true) (by
    rw [Selecting, Option.isNone_iff_eq_none])

/-- The request that was taken off its channel and not sent. -/
def lostRequest (s : TapProxy) : List ZmqMessage :=
  (s.status.lost.bind Forwarded.requestFrames).toList

def lostOutput (s : TapProxy) : List ZmqMessage :=
  (s.status.lost.bind Forwarded.outputFrames).toList

/-- What came from the frontend and has not been forwarded: a lost message, the channel and the
wire. -/
def requestQueue (s : TapProxy) : List ZmqMessage :=
  s.lostRequest ++ (s.requestChannel.map Prod.snd ++ s.requestWire)

/-- What came from the engine and has not been forwarded. -/
def outputQueue (s : TapProxy) : List ZmqMessage :=
  s.lostOutput ++ (s.outputChannel.map Prod.snd ++ s.outputWire)

/-- One event, for the engine's ROUTER identity. `none`: it cannot happen now. A send that fails
ends the loop with its message taken off the channel. -/
def step (identity : List UInt8) (decoders : TapDecoders) (event : ProxyEvent) (s : TapProxy) :
    Option TapProxy :=
  match event with
  | .frontendSends message => some { s with
      requestWire := s.requestWire ++ [message]
      requestsSent := s.requestsSent ++ [message] }
  | .engineSends message => some { s with
      outputWire := s.outputWire ++ [message]
      outputsSent := s.outputsSent ++ [message] }
  | .drainRequest now =>
      match s.requestWire with
      | [] => none
      | message :: rest =>
        if s.requestDrain = true ∧ s.clock ≤ now then some { s with
          requestWire := rest
          requestChannel := s.requestChannel ++ [(now, message)]
          clock := now }
        else none
  | .requestRecvFails =>
      if s.requestDrain = true then some { s with requestDrain := false } else none
  | .drainOutput now =>
      match s.outputWire with
      | [] => none
      | message :: rest =>
        if s.outputDrain = true ∧ s.clock ≤ now then some { s with
          outputWire := rest
          outputChannel := s.outputChannel ++ [(now, message)]
          clock := now }
        else none
  | .outputRecvFails =>
      if s.outputDrain = true then some { s with outputDrain := false } else none
  | .forwardRequest =>
      match s.requestChannel with
      | [] => none
      | (arrival, frames) :: rest =>
        if s.Selecting then some { s with
          requestChannel := rest
          toEngine := s.toEngine ++ [identity :: frames]
          observing := some (arrival, .request frames) }
        else none
  | .forwardOutput =>
      match s.outputChannel with
      | [] => none
      | (arrival, frames) :: rest =>
        if s.Selecting then some { s with
          outputChannel := rest
          toFrontend := s.toFrontend ++ [frames]
          observing := some (arrival, .output frames) }
        else none
  | .requestSendFails =>
      match s.requestChannel with
      | [] => none
      | (_, frames) :: rest =>
        if s.Selecting then some { s with
          requestChannel := rest
          status := .failed (some (.request frames)) }
        else none
  | .outputSendFails =>
      match s.outputChannel with
      | [] => none
      | (_, frames) :: rest =>
        if s.Selecting then some { s with
          outputChannel := rest
          status := .failed (some (.output frames)) }
        else none
  | .observe =>
      match s.observing with
      | none => none
      | some (arrival, message) => some { s with
          observing := none
          observed := s.observed ++ [(arrival, message)]
          tap := ((decoders.observed message).map (fun m => s.tap.observe (arrival, m))).getD
            s.tap }
  | .drainEnded =>
      if s.Selecting ∧ (s.requestDrain = false ∧ s.requestChannel = [] ∨
          s.outputDrain = false ∧ s.outputChannel = []) then some { s with status := .failed none }
      else none
  | .shutdown => if s.Selecting then some { s with status := .stopped } else none

end TapProxy

/-- `events` lead from the connected tap to `s`. The engine sends a message only if `engine` allows
it after what it was sent. -/
def TapRun (identity : List UInt8) (decoders : TapDecoders)
    (engine : List ZmqMessage → ZmqMessage → Prop) (tap : Tap) (events : List ProxyEvent)
    (s : TapProxy) : Prop :=
  Path (fun s event s' => s.step identity decoders event = some s' ∧
    ∀ message, event = .engineSends message → engine s.toEngine message) (TapProxy.start tap)
      events s

namespace TapProxy

variable {identity : List UInt8} {decoders : TapDecoders} {event : ProxyEvent}
  {s s' : TapProxy}

/-! ## What an event does -/

/-- An event sends, drains, forwards or observes one message, or touches none. -/
inductive Change (identity : List UInt8) (decoders : TapDecoders) (s : TapProxy) :
    ProxyEvent → TapProxy → Prop
  | frontendSends (message : ZmqMessage) :
      Change identity decoders s (.frontendSends message) { s with
        requestWire := s.requestWire ++ [message]
        requestsSent := s.requestsSent ++ [message] }
  | engineSends (message : ZmqMessage) :
      Change identity decoders s (.engineSends message) { s with
        outputWire := s.outputWire ++ [message]
        outputsSent := s.outputsSent ++ [message] }
  | drainsRequest {now : Instant} {message : ZmqMessage} {rest : List ZmqMessage}
      (hwire : s.requestWire = message :: rest) (hclock : s.clock ≤ now) :
      Change identity decoders s (.drainRequest now) { s with
        requestWire := rest
        requestChannel := s.requestChannel ++ [(now, message)]
        clock := now }
  | drainsOutput {now : Instant} {message : ZmqMessage} {rest : List ZmqMessage}
      (hwire : s.outputWire = message :: rest) (hclock : s.clock ≤ now) :
      Change identity decoders s (.drainOutput now) { s with
        outputWire := rest
        outputChannel := s.outputChannel ++ [(now, message)]
        clock := now }
  | forwardsRequest {arrival : Instant} {frames : ZmqMessage} {rest : List (Instant × ZmqMessage)}
      (hchannel : s.requestChannel = (arrival, frames) :: rest) (hselecting : s.Selecting) :
      Change identity decoders s .forwardRequest { s with
        requestChannel := rest
        toEngine := s.toEngine ++ [identity :: frames]
        observing := some (arrival, .request frames) }
  | forwardsOutput {arrival : Instant} {frames : ZmqMessage} {rest : List (Instant × ZmqMessage)}
      (hchannel : s.outputChannel = (arrival, frames) :: rest) (hselecting : s.Selecting) :
      Change identity decoders s .forwardOutput { s with
        outputChannel := rest
        toFrontend := s.toFrontend ++ [frames]
        observing := some (arrival, .output frames) }
  | losesRequest {arrival : Instant} {frames : ZmqMessage} {rest : List (Instant × ZmqMessage)}
      (hchannel : s.requestChannel = (arrival, frames) :: rest) (hselecting : s.Selecting) :
      Change identity decoders s .requestSendFails { s with
        requestChannel := rest
        status := .failed (some (.request frames)) }
  | losesOutput {arrival : Instant} {frames : ZmqMessage} {rest : List (Instant × ZmqMessage)}
      (hchannel : s.outputChannel = (arrival, frames) :: rest) (hselecting : s.Selecting) :
      Change identity decoders s .outputSendFails { s with
        outputChannel := rest
        status := .failed (some (.output frames)) }
  | observes {arrival : Instant} {message : Forwarded}
      (hobserving : s.observing = some (arrival, message)) :
      Change identity decoders s .observe { s with
        observing := none
        observed := s.observed ++ [(arrival, message)]
        tap := ((decoders.observed message).map (fun m => s.tap.observe (arrival, m))).getD s.tap }
  | ends {event : ProxyEvent} (requestDrain outputDrain : Bool) {status : ProxyStatus}
      (hsends : ∀ message, event ≠ .engineSends message)
      (hlost : status.lost = s.status.lost) :
      Change identity decoders s event { s with
        requestDrain := requestDrain, outputDrain := outputDrain, status := status }

theorem step_change (h : s.step identity decoders event = some s') :
    Change identity decoders s event s' := by
  cases event with
  | frontendSends message =>
      cases h
      exact .frontendSends message
  | engineSends message =>
      cases h
      exact .engineSends message
  | drainRequest now =>
      simp only [step] at h
      split at h
      · cases h
      · next message rest hwire =>
          split at h
          · next hdrain =>
              cases h
              exact .drainsRequest hwire hdrain.2
          · cases h
  | drainOutput now =>
      simp only [step] at h
      split at h
      · cases h
      · next message rest hwire =>
          split at h
          · next hdrain =>
              cases h
              exact .drainsOutput hwire hdrain.2
          · cases h
  | forwardRequest =>
      simp only [step] at h
      split at h
      · cases h
      · next arrival frames rest hchannel =>
          split at h
          · next hselecting =>
              cases h
              exact .forwardsRequest hchannel hselecting
          · cases h
  | forwardOutput =>
      simp only [step] at h
      split at h
      · cases h
      · next arrival frames rest hchannel =>
          split at h
          · next hselecting =>
              cases h
              exact .forwardsOutput hchannel hselecting
          · cases h
  | observe =>
      simp only [step] at h
      split at h
      · cases h
      · next arrival message hobserving =>
          cases h
          exact .observes hobserving
  | requestSendFails =>
      simp only [step] at h
      split at h
      · cases h
      · next arrival frames rest hchannel =>
          split at h
          · next hselecting =>
              cases h
              exact .losesRequest hchannel hselecting
          · cases h
  | outputSendFails =>
      simp only [step] at h
      split at h
      · cases h
      · next arrival frames rest hchannel =>
          split at h
          · next hselecting =>
              cases h
              exact .losesOutput hchannel hselecting
          · cases h
  | requestRecvFails =>
      simp only [step] at h
      split at h
      · cases h
        exact .ends false s.outputDrain (by simp) rfl
      · cases h
  | outputRecvFails =>
      simp only [step] at h
      split at h
      · cases h
        exact .ends s.requestDrain false (by simp) rfl
      · cases h
  | drainEnded =>
      simp only [step] at h
      split at h
      · next hselecting =>
          cases h
          exact .ends s.requestDrain s.outputDrain (by simp) (by rw [hselecting.1.1]; rfl)
      · cases h
  | shutdown =>
      simp only [step] at h
      split at h
      · next hselecting =>
          cases h
          exact .ends s.requestDrain s.outputDrain (by simp) (by rw [hselecting.1]; rfl)
      · cases h

/-- A loop that waits has lost nothing. -/
theorem Selecting.lost (h : s.Selecting) : s.lostRequest = [] ∧ s.lostOutput = [] := by
  rw [lostRequest, lostOutput, h.1]
  exact ⟨rfl, rfl⟩

/-! ## The proxy as a pair of links -/

/-- The way from the frontend to the engine. -/
def requestLink (s : TapProxy) : Link ZmqMessage :=
  ⟨s.requestsSent, s.requestQueue, s.toEngine.map List.tail⟩

/-- The way from the engine to the frontend. -/
def outputLink (s : TapProxy) : Link ZmqMessage := ⟨s.outputsSent, s.outputQueue, s.toFrontend⟩

theorem requestLink_eq (s : TapProxy) : s.requestLink = Link.staged s.requestsSent s.lostRequest
    s.requestChannel s.requestWire (s.toEngine.map List.tail) := rfl

theorem outputLink_eq (s : TapProxy) : s.outputLink = Link.staged s.outputsSent s.lostOutput
    s.outputChannel s.outputWire s.toFrontend := rfl

theorem requestLink_step (h : Change identity decoders s event s') :
    s'.requestLink = s.requestLink ∨ Link.Step s.requestLink s'.requestLink := by
  rw [requestLink_eq, requestLink_eq]
  cases h with
  | frontendSends message => exact .inr (Link.staged_send message)
  | drainsRequest hwire => exact .inl (Link.staged_drain hwire)
  | forwardsRequest hchannel hselecting =>
      exact .inr (Link.staged_receive hselecting.lost.1 hchannel List.map_append)
  | losesRequest hchannel hselecting =>
      exact .inl (Link.staged_lose hselecting.lost.1 hchannel)
  | losesOutput hchannel hselecting =>
      left
      rw [hselecting.lost.1]
      rfl
  | ends requestDrain outputDrain hsends hlost =>
      left
      rw [lostRequest, lostRequest, hlost]
  | engineSends | drainsOutput | forwardsOutput | observes => exact Or.inl rfl

theorem outputLink_step (h : Change identity decoders s event s') :
    s'.outputLink = s.outputLink ∨ Link.Step s.outputLink s'.outputLink := by
  rw [outputLink_eq, outputLink_eq]
  cases h with
  | engineSends message => exact .inr (Link.staged_send message)
  | drainsOutput hwire => exact .inl (Link.staged_drain hwire)
  | forwardsOutput hchannel hselecting =>
      exact .inr (Link.staged_receive hselecting.lost.2 hchannel rfl)
  | losesOutput hchannel hselecting =>
      exact .inl (Link.staged_lose hselecting.lost.2 hchannel)
  | losesRequest hchannel hselecting =>
      left
      rw [hselecting.lost.2]
      rfl
  | ends requestDrain outputDrain hsends hlost =>
      left
      rw [lostOutput, lostOutput, hlost]
  | frontendSends | drainsRequest | forwardsRequest | observes => exact Or.inl rfl

end TapProxy

section Runs

variable {identity : List UInt8} {decoders : TapDecoders}
  {engine : List ZmqMessage → ZmqMessage → Prop} {tap : Tap} {events : List ProxyEvent}
  {s : TapProxy}

theorem TapRun.requestLink_reached (hrun : TapRun identity decoders engine tap events s) :
    s.requestLink.Reached :=
  Link.reached_of_path hrun Link.Reached.empty
    (fun _ _ _ h => TapProxy.requestLink_step (TapProxy.step_change h.1))

theorem TapRun.outputLink_reached (hrun : TapRun identity decoders engine tap events s) :
    s.outputLink.Reached :=
  Link.reached_of_path hrun Link.Reached.empty
    (fun _ _ _ h => TapProxy.outputLink_step (TapProxy.step_change h.1))

/-- The engine has been sent a part of the frontend's messages, from the front and in order, and
the frontend a part of the engine's. -/
theorem TapRun.in_order (hrun : TapRun identity decoders engine tap events s) :
    s.toEngine.map List.tail <+: s.requestsSent ∧ s.toFrontend <+: s.outputsSent :=
  ⟨hrun.requestLink_reached.received_sent, hrun.outputLink_reached.received_sent⟩

end Runs

/-- In every interleaving each direction of the proxy is a first-in first-out link: the engine is
sent the frontend's messages in order, verbatim behind its identity, and the frontend the engine's
messages. What was sent and not forwarded is in the channels and on the wires, behind the one
message that a failed send loses, which ends the loop. -/
theorem TapRun.transparent {identity : List UInt8} {decoders : TapDecoders}
    {engine : List ZmqMessage → ZmqMessage → Prop} {tap : Tap} {events : List ProxyEvent}
    {s : TapProxy} (hrun : TapRun identity decoders engine tap events s) :
    (s.requestLink.Reached ∧ s.outputLink.Reached) ∧
      s.toEngine = s.requestLink.received.map (identity :: ·) ∧
      s.requestsSent = s.toEngine.map List.tail ++
        (s.lostRequest ++ (s.requestChannel.map Prod.snd ++ s.requestWire)) ∧
      s.outputsSent = s.toFrontend ++
        (s.lostOutput ++ (s.outputChannel.map Prod.snd ++ s.outputWire)) ∧
      (s.lostRequest.length + s.lostOutput.length ≤ 1 ∧
        (s.status = .running → s.lostRequest = [] ∧ s.lostOutput = [])) := by
  have hrequests := hrun.requestLink_reached
  have houtputs := hrun.outputLink_reached
  refine ⟨⟨hrequests, houtputs⟩, ?_, hrequests.conserved, houtputs.conserved, ?_, ?_⟩
  · apply hrun.invariant (I := fun s : TapProxy =>
      s.toEngine = s.requestLink.received.map (identity :: ·))
    · rfl
    · intro s event s' heq hstep
      cases TapProxy.step_change hstep.1 with
      | @forwardsRequest arrival frames rest hchannel hselecting =>
          change s.toEngine ++ [identity :: frames] =
            ((s.toEngine ++ [identity :: frames]).map List.tail).map (identity :: ·)
          rw [List.map_append, List.map_append]
          exact congrArg (· ++ [identity :: frames]) heq
      | frontendSends | engineSends | drainsRequest | drainsOutput | forwardsOutput | observes
      | losesRequest | losesOutput | ends => exact heq
  · rw [TapProxy.lostRequest, TapProxy.lostOutput]
    cases s.status.lost with
    | none => exact Nat.zero_le 1
    | some message =>
        cases message with
        | request frames => exact le_rfl
        | output frames => exact le_rfl
  · intro hrunning
    rw [TapProxy.lostRequest, TapProxy.lostOutput, hrunning]
    exact ⟨rfl, rfl⟩

/-! ## What the proxy observes -/

/-- A forwarded message as the tap reads it, with its arrival. -/
def TapDecoders.read (decoders : TapDecoders) (x : Instant × Forwarded) :
    Option (Instant × TapMessage) := (decoders.observed x.2).map (fun m => (x.1, m))

/-- One of the messages adds a request under the id. -/
def TapDecoders.Adds (decoders : TapDecoders) (messages : List ZmqMessage) (id : String) : Prop :=
  ∃ message ∈ messages, ∃ req, decoders.observedRequest message = some (.add req) ∧
    req.requestId = id

/-- The engine only answers requests that it was sent before. -/
def AnswersOnly (decoders : TapDecoders) (engine : List ZmqMessage → ZmqMessage → Prop) : Prop :=
  ∀ received message envelope, engine received message → decoders.outputs message = .ok envelope →
    ∀ o ∈ envelope.requestOutputs, decoders.Adds (received.map List.tail) o.requestId

/-- Every output that is read answers a request read before it. -/
def Caused (messages : List (Instant × TapMessage)) : Prop :=
  ∀ pre arrival envelope, pre ++ [(arrival, .outputs envelope)] <+: messages →
    ∀ o ∈ envelope.requestOutputs, ∃ x ∈ pre, ∃ req, x.2 = .add req ∧ req.requestId = o.requestId

theorem Caused.snoc {messages : List (Instant × TapMessage)} (h : Caused messages)
    {x : Instant × TapMessage} (hx : ∀ envelope, x.2 = .outputs envelope →
      ∀ o ∈ envelope.requestOutputs, ∃ y ∈ messages, ∃ req, y.2 = .add req ∧
        req.requestId = o.requestId) : Caused (messages ++ [x]) := by
  intro pre arrival envelope hpre
  rcases List.prefix_concat_iff.mp hpre with heq | hold
  · obtain ⟨rfl, hlast⟩ := List.append_inj' heq rfl
    cases hlast
    exact hx envelope rfl
  · exact h pre arrival envelope hold

theorem Caused.mono {messages messages' : List (Instant × TapMessage)} (h : Caused messages)
    (hinitial : messages' <+: messages) : Caused messages' :=
  fun pre arrival envelope hpre => h pre arrival envelope (hpre.trans hinitial)

/-- A forwarded message that is read as outputs was preceded by the requests they answer. -/
theorem Caused.forward {decoders : TapDecoders} {xs : List (Instant × Forwarded)}
    {x : Instant × Forwarded} (h : Caused (xs.filterMap decoders.read))
    (hx : ∀ envelope, decoders.observed x.2 = some (.outputs envelope) →
      ∀ o ∈ envelope.requestOutputs, ∃ y ∈ xs.filterMap decoders.read, ∃ req,
        y.2 = .add req ∧ req.requestId = o.requestId) :
    Caused ((xs ++ [x]).filterMap decoders.read) := by
  rw [List.filterMap_append]
  cases hread : decoders.read x with
  | none =>
      rw [List.filterMap_cons, hread, List.filterMap_nil, List.append_nil]
      exact h
  | some y =>
      rw [List.filterMap_cons, hread, List.filterMap_nil]
      apply h.snoc
      intro envelope henvelope
      obtain ⟨m, hm, rfl⟩ := Option.map_eq_some_iff.mp hread
      cases henvelope
      exact hx envelope hm

theorem TapDecoders.observedRequest_ne_outputs (decoders : TapDecoders) (frames : ZmqMessage)
    (envelope : Envelope) : decoders.observedRequest frames ≠ some (.outputs envelope) := by
  intro h
  unfold TapDecoders.observedRequest at h
  split at h
  · split at h
    · obtain ⟨req, _, heq⟩ := Option.map_eq_some_iff.mp h
      cases heq
    · obtain ⟨ids, _, heq⟩ := Option.map_eq_some_iff.mp h
      cases heq
    · cases h
  · cases h

theorem TapDecoders.decoded_of_observed {decoders : TapDecoders} {frames : ZmqMessage}
    {envelope : Envelope} (h : decoders.observed (.output frames) = some (.outputs envelope)) :
    decoders.outputs frames = .ok envelope := by
  obtain ⟨envelope', hok, heq⟩ := Option.map_eq_some_iff.mp h
  cases heq
  cases hdecoded : decoders.outputs frames with
  | error message =>
      rw [hdecoded] at hok
      cases hok
  | ok decoded =>
      rw [hdecoded] at hok
      cases hok
      rfl

theorem TapDecoders.Adds.mono {decoders : TapDecoders} {messages : List ZmqMessage} {id : String}
    (h : decoders.Adds messages id) (more : List ZmqMessage) :
    decoders.Adds (messages ++ more) id := by
  obtain ⟨message, hmem, hadd⟩ := h
  exact ⟨message, List.mem_append_left _ hmem, hadd⟩

namespace TapProxy

variable {identity : List UInt8} {decoders : TapDecoders} {event : ProxyEvent}
  {s s' : TapProxy}

/-- Everything forwarded, in order; the last may still have to be observed. -/
def forwarded (s : TapProxy) : List (Instant × Forwarded) := s.observed ++ s.observing.toList

theorem forwarded_snoc {x : Instant × Forwarded} (hidle : s.observing = none)
    (hobserved : s'.observed = s.observed) (hobserving : s'.observing = some x) :
    s'.forwarded = s.forwarded ++ [x] := by
  rw [forwarded, forwarded, hidle, hobserved, hobserving, Option.toList_none, List.append_nil,
    Option.toList_some]

/-- The tap has read what was forwarded. -/
structure Observes (decoders : TapDecoders) (tap : Tap) (s : TapProxy) : Prop where
  tap : s.tap = tap.observeAll (s.observed.filterMap decoders.read)
  requests : (s.forwarded.map Prod.snd).filterMap Forwarded.requestFrames =
    s.toEngine.map List.tail
  outputs : (s.forwarded.map Prod.snd).filterMap Forwarded.outputFrames = s.toFrontend

/-- What the engine has answered comes after the requests. -/
structure Answers (decoders : TapDecoders) (s : TapProxy) : Prop where
  queued : ∀ message ∈ s.outputQueue, ∀ envelope, decoders.outputs message = .ok envelope →
    ∀ o ∈ envelope.requestOutputs, decoders.Adds (s.toEngine.map List.tail) o.requestId
  caused : Caused (s.forwarded.filterMap decoders.read)

theorem forwarded_observe {arrival : Instant} {message : Forwarded}
    (hobserving : s.observing = some (arrival, message)) (tap : Tap) :
    ({ s with
      observing := none
      observed := s.observed ++ [(arrival, message)]
      tap := tap } : TapProxy).forwarded = s.forwarded := by
  rw [forwarded, forwarded, hobserving]
  exact List.append_nil _

theorem Observes.change {tap : Tap} (h : Observes decoders tap s)
    (hchange : Change identity decoders s event s') : Observes decoders tap s' := by
  cases hchange with
  | frontendSends | engineSends | drainsRequest | drainsOutput =>
      exact ⟨h.tap, h.requests, h.outputs⟩
  | losesRequest | losesOutput | ends => exact ⟨h.tap, h.requests, h.outputs⟩
  | @forwardsRequest arrival frames rest hchannel hselecting =>
      have hafter : ({ s with
          requestChannel := rest
          toEngine := s.toEngine ++ [identity :: frames]
          observing := some (arrival, .request frames) } : TapProxy).forwarded =
            s.forwarded ++ [(arrival, .request frames)] := forwarded_snoc hselecting.2 rfl rfl
      have hengine : (s.toEngine ++ [identity :: frames]).map List.tail =
          s.toEngine.map List.tail ++ [frames] := List.map_append
      refine ⟨h.tap, ?_, ?_⟩
      · rw [hafter, List.map_append, List.filterMap_append, h.requests]
        exact hengine.symm
      · rw [hafter, List.map_append, List.filterMap_append, h.outputs]
        exact List.append_nil _
  | @forwardsOutput arrival frames rest hchannel hselecting =>
      have hafter : ({ s with
          outputChannel := rest
          toFrontend := s.toFrontend ++ [frames]
          observing := some (arrival, .output frames) } : TapProxy).forwarded =
            s.forwarded ++ [(arrival, .output frames)] := forwarded_snoc hselecting.2 rfl rfl
      refine ⟨h.tap, ?_, ?_⟩
      · rw [hafter, List.map_append, List.filterMap_append, h.requests]
        exact List.append_nil _
      · rw [hafter, List.map_append, List.filterMap_append, h.outputs]
        rfl
  | @observes arrival message hobserving =>
      have hafter := forwarded_observe hobserving
        (((decoders.observed message).map (fun m => s.tap.observe (arrival, m))).getD s.tap)
      refine ⟨?_, ?_, ?_⟩
      · change ((decoders.observed message).map (fun m => s.tap.observe (arrival, m))).getD s.tap =
          tap.observeAll ((s.observed ++ [(arrival, message)]).filterMap decoders.read)
        rw [List.filterMap_append, Tap.observeAll, List.foldl_append]
        have hold : (s.observed.filterMap decoders.read).foldl Tap.observe tap = s.tap :=
          h.tap.symm
        rw [hold]
        cases hread : decoders.observed message with
        | none => simp [TapDecoders.read, hread]
        | some m => simp [TapDecoders.read, hread]
      · rw [hafter]
        exact h.requests
      · rw [hafter]
        exact h.outputs

/-- A request that the engine was sent is among the messages read. -/
theorem Observes.read_of_adds {tap : Tap} (h : Observes decoders tap s) {id : String}
    (hadds : decoders.Adds (s.toEngine.map List.tail) id) :
    ∃ x ∈ s.forwarded.filterMap decoders.read, ∃ req, x.2 = .add req ∧ req.requestId = id := by
  obtain ⟨message, hmem, req, hreq, hid⟩ := hadds
  rw [← h.requests] at hmem
  obtain ⟨f, hf, hframes⟩ := List.mem_filterMap.mp hmem
  obtain ⟨⟨arrival, f'⟩, hx, rfl⟩ := List.mem_map.mp hf
  refine ⟨(arrival, .add req), List.mem_filterMap.mpr ⟨_, hx, ?_⟩, req, rfl, hid⟩
  cases f' with
  | request frames =>
      cases hframes
      simp only [TapDecoders.read, TapDecoders.observed, hreq, Option.map_some]
  | output frames => cases hframes

/-- Messages that leave the queue were in it. -/
theorem Answers.of_queue {s' : TapProxy} (h : Answers decoders s)
    (hqueue : ∀ m ∈ s'.outputQueue, m ∈ s.outputQueue) (hengine : s'.toEngine = s.toEngine)
    (hforwarded : s'.forwarded = s.forwarded) : Answers decoders s' := by
  refine ⟨fun m hm => ?_, hforwarded ▸ h.caused⟩
  rw [hengine]
  exact h.queued m (hqueue m hm)

theorem Answers.change {tap : Tap} (hobserves : Observes decoders tap s) (h : Answers decoders s)
    {engine : List ZmqMessage → ZmqMessage → Prop} (hengine : AnswersOnly decoders engine)
    (hsends : ∀ message, event = .engineSends message → engine s.toEngine message)
    (hchange : Change identity decoders s event s') : Answers decoders s' := by
  cases hchange with
  | frontendSends | drainsRequest => exact ⟨h.queued, h.caused⟩
  | engineSends message =>
      refine ⟨?_, h.caused⟩
      intro m hm envelope henvelope
      change m ∈ s.lostOutput ++ (s.outputChannel.map Prod.snd ++ (s.outputWire ++ [message])) at hm
      rw [← List.append_assoc, ← List.append_assoc, List.append_assoc s.lostOutput] at hm
      rcases List.mem_append.mp hm with hold | hnew
      · exact h.queued m hold envelope henvelope
      · cases List.mem_singleton.mp hnew
        exact hengine s.toEngine message envelope (hsends message rfl) henvelope
  | @drainsOutput now message rest hwire hclock =>
      refine h.of_queue (fun m hm => ?_) rfl rfl
      simpa [outputQueue, lostOutput, hwire] using hm
  | @losesRequest arrival frames rest hchannel hselecting =>
      refine h.of_queue (fun m hm => ?_) rfl rfl
      rw [outputQueue, hselecting.lost.2]
      exact hm
  | @losesOutput arrival frames rest hchannel hselecting =>
      refine h.of_queue (fun m hm => ?_) rfl rfl
      rw [outputQueue, hselecting.lost.2, hchannel]
      exact hm
  | @ends event requestDrain outputDrain status hsends hlost =>
      refine h.of_queue (fun m hm => ?_) rfl rfl
      simpa [outputQueue, lostOutput, hlost] using hm
  | @forwardsRequest arrival frames rest hchannel hselecting =>
      have hafter : ({ s with
          requestChannel := rest
          toEngine := s.toEngine ++ [identity :: frames]
          observing := some (arrival, .request frames) } : TapProxy).forwarded =
            s.forwarded ++ [(arrival, .request frames)] := forwarded_snoc hselecting.2 rfl rfl
      have hsent : (s.toEngine ++ [identity :: frames]).map List.tail =
          s.toEngine.map List.tail ++ [frames] := List.map_append
      refine ⟨?_, ?_⟩
      · intro m hm envelope henvelope o ho
        rw [hsent]
        exact (h.queued m hm envelope henvelope o ho).mono [frames]
      · rw [hafter]
        exact h.caused.forward (fun envelope hread =>
          absurd hread (decoders.observedRequest_ne_outputs frames envelope))
  | @forwardsOutput arrival frames rest hchannel hselecting =>
      have hafter : ({ s with
          outputChannel := rest
          toFrontend := s.toFrontend ++ [frames]
          observing := some (arrival, .output frames) } : TapProxy).forwarded =
            s.forwarded ++ [(arrival, .output frames)] := forwarded_snoc hselecting.2 rfl rfl
      have hqueue : s.outputQueue = frames :: (rest.map Prod.snd ++ s.outputWire) := by
        rw [outputQueue, hselecting.lost.2, hchannel]
        rfl
      refine ⟨?_, ?_⟩
      · intro m hm
        apply h.queued m
        rw [hqueue]
        apply List.mem_cons_of_mem
        change m ∈ s.lostOutput ++ (rest.map Prod.snd ++ s.outputWire) at hm
        rwa [hselecting.lost.2] at hm
      · rw [hafter]
        apply h.caused.forward
        intro envelope hread o ho
        have hdecoded := TapDecoders.decoded_of_observed hread
        have hmem : frames ∈ s.outputQueue := hqueue ▸ List.mem_cons_self
        exact hobserves.read_of_adds (h.queued frames hmem envelope hdecoded o ho)
  | @observes arrival message hobserving =>
      exact h.of_queue (fun m hm => hm) rfl (forwarded_observe hobserving _)

end TapProxy

theorem TapRun.keepsPace {identity : List UInt8} {decoders : TapDecoders}
    {engine : List ZmqMessage → ZmqMessage → Prop} {tap : Tap} {events : List ProxyEvent}
    {s : TapProxy} (hrun : TapRun identity decoders engine tap events s) :
    s.Observes decoders tap := by
  apply hrun.invariant (I := TapProxy.Observes decoders tap)
  · exact ⟨rfl, rfl, rfl⟩
  · exact fun s event s' h hstep => h.change (TapProxy.step_change hstep.1)

/-- In every interleaving what the tap holds is what it reads in the messages forwarded, in the
order forwarded, but for the one being observed; and over an engine that answers only what it was
sent, it reads every output after the request that the output answers. -/
theorem TapRun.observes {identity : List UInt8} {decoders : TapDecoders}
    {engine : List ZmqMessage → ZmqMessage → Prop} {tap : Tap} {events : List ProxyEvent}
    {s : TapProxy} (hrun : TapRun identity decoders engine tap events s) :
    s.tap = tap.observeAll (s.observed.filterMap decoders.read) ∧
      (s.forwarded.map Prod.snd).filterMap Forwarded.requestFrames = s.requestLink.received ∧
      (s.forwarded.map Prod.snd).filterMap Forwarded.outputFrames = s.outputLink.received ∧
      (AnswersOnly decoders engine → Caused (s.observed.filterMap decoders.read)) := by
  have hall := hrun.keepsPace
  refine ⟨hall.tap, hall.requests, hall.outputs, fun hengine => ?_⟩
  have hboth : s.Observes decoders tap ∧ s.Answers decoders := by
    apply hrun.invariant (I := fun s => TapProxy.Observes decoders tap s ∧ s.Answers decoders)
    · refine ⟨⟨rfl, rfl, rfl⟩, fun message hmessage => ?_, fun pre arrival envelope hpre => ?_⟩
      · cases hmessage
      · have hnil := List.prefix_nil.mp hpre
        simp at hnil
    · intro s event s' h hstep
      have hchange := TapProxy.step_change hstep.1
      exact ⟨h.1.change hchange, h.2.change h.1 hengine hstep.2 hchange⟩
  refine hboth.2.caused.mono ?_
  rw [TapProxy.forwarded, List.filterMap_append]
  exact List.prefix_append _ _

/-! ## A request and its answer -/

/-- Decoders for the payload `[1]` of one request, which `[2]` and `[3]` answer. -/
def oneTapDecoders : TapDecoders where
  request payload := if payload = [1] then .ok fourTokens else .error "invalid type"
  requestIds _ := .error "invalid type"
  outputs frames :=
    if frames = [[2]] then
      .ok (.requestBatch 0 [requestOutput "a" [1, 2] none] none 1 none)
    else if frames = [[3]] then
      .ok (.requestBatch 0 [requestOutput "a" [3, 4] (some .length)] none 2 none)
    else .error "invalid type"

def addsRequest (frames : ZmqMessage) (id : String) : Bool :=
  match oneTapDecoders.observedRequest frames with
  | some (.add req) => req.requestId = id
  | _ => false

/-- The engine answers the request as soon as it was sent it. -/
def oneEngine (received : List ZmqMessage) (message : ZmqMessage) : Prop :=
  received.any (fun frames => addsRequest frames.tail "a") = true ∧
    (message = [[2]] ∨ message = [[3]])

instance (received : List ZmqMessage) (message : ZmqMessage) :
    Decidable (oneEngine received message) := instDecidableAnd

theorem adds_of_addsRequest {frames : ZmqMessage} {id : String}
    (h : addsRequest frames id = true) : ∃ req, oneTapDecoders.observedRequest frames =
      some (.add req) ∧ req.requestId = id := by
  unfold addsRequest at h
  split at h
  · next req hreq => exact ⟨req, hreq, of_decide_eq_true h⟩
  · cases h

theorem oneEngine_answersOnly : AnswersOnly oneTapDecoders oneEngine := by
  rintro received message envelope ⟨hsent, hmessage⟩ henvelope o ho
  obtain ⟨frames, hframes, hadds⟩ := List.any_eq_true.mp hsent
  have hid : o.requestId = "a" := by
    rcases hmessage with rfl | rfl
    · cases henvelope
      cases List.mem_singleton.mp ho
      rfl
    · cases henvelope
      cases List.mem_singleton.mp ho
      rfl
  exact ⟨frames.tail, List.mem_map_of_mem hframes, hid ▸ adds_of_addsRequest hadds⟩

/-- Plays events of the proxy in front of this engine. -/
def playOne : List ProxyEvent → TapProxy → Option TapProxy
  | [], s => some s
  | event :: events, s =>
    if ∀ message ∈ event.engineMessage, oneEngine s.toEngine message then
      (s.step [0, 0] oneTapDecoders event).bind (playOne events)
    else none

theorem path_of_playOne {events : List ProxyEvent} {s s' : TapProxy}
    (h : playOne events s = some s') : Path (fun s event s' =>
      s.step [0, 0] oneTapDecoders event = some s' ∧ ∀ message, event = .engineSends message →
        oneEngine s.toEngine message) s events s' := by
  induction events generalizing s with
  | nil =>
      cases h
      exact Path.nil _
  | cons event events ih =>
      rw [playOne] at h
      split at h
      · next hallowed =>
          obtain ⟨u, hstep, hrest⟩ := Option.bind_eq_some_iff.mp h
          refine Path.cons ⟨hstep, ?_⟩ (ih hrest)
          rintro message rfl
          exact hallowed message rfl
      · cases h

/-- The request crosses the tap, with its aux frame, and two answers cross it back. -/
def oneCrossing : List ProxyEvent :=
  [.frontendSends [[0], [1], [9]], .drainRequest 1, .forwardRequest, .engineSends [[2]],
    .drainOutput 2, .observe, .engineSends [[3]], .forwardOutput, .observe, .drainOutput 4,
    .forwardOutput, .observe]

/-- What the tap writes of it. -/
def crossedRecord : TraceRecord where
  outputTokens := 4
  ttftMs := 1000
  itlMs := some [2000]
  itlTokens := some [2]
  arrivalMs := some 1000
  itlCtx := some ⟨[1], [0]⟩
  finishReason := some .length

theorem oneCrossing_run : ∃ s, TapRun [0, 0] oneTapDecoders oneEngine (Tap.new 0 16 .off)
    oneCrossing s ∧ s.tap.written = [crossedRecord] ∧ s.observed = [(1, .request [[0], [1], [9]]),
      (2, .output [[2]]), (4, .output [[3]])] := by
  have hplays : (playOne oneCrossing (.start (Tap.new 0 16 .off))).any (fun s =>
      s.tap.written = [crossedRecord] ∧ s.observed = [(1, .request [[0], [1], [9]]),
        (2, .output [[2]]), (4, .output [[3]])]) = true := by
    decide +kernel
  obtain ⟨s, hplay, hs⟩ := (Option.any_eq_true _ _).mp hplays
  exact ⟨s, path_of_playOne hplay, of_decide_eq_true hs⟩

/-- Three more requests are underway when the send of the first of them fails. -/
def lostCrossing : List ProxyEvent :=
  oneCrossing ++ [.frontendSends [[0], [7]], .frontendSends [[0], [8]], .engineSends [[3]],
    .drainRequest 10, .drainRequest 20, .frontendSends [[0], [9]], .requestSendFails]

theorem lostCrossing_transparent : ∃ s : TapProxy, s.toEngine = [[[0, 0], [0], [1], [9]]] ∧
    s.lostRequest = [[[0], [7]]] ∧ s.requestChannel.map Prod.snd = [[[0], [8]]] ∧
    s.requestWire = [[[0], [9]]] ∧ s.outputWire = [[[3]]] ∧
    (s.requestLink.Reached ∧ s.outputLink.Reached) ∧
      s.toEngine = s.requestLink.received.map ([0, 0] :: ·) ∧
      s.requestsSent = s.toEngine.map List.tail ++
        (s.lostRequest ++ (s.requestChannel.map Prod.snd ++ s.requestWire)) := by
  have hplays : (playOne lostCrossing (.start (Tap.new 0 16 .off))).any (fun s =>
      s.toEngine = [[[0, 0], [0], [1], [9]]] ∧ s.lostRequest = [[[0], [7]]] ∧
        s.requestChannel.map Prod.snd = [[[0], [8]]] ∧ s.requestWire = [[[0], [9]]] ∧
          s.outputWire = [[[3]]]) = true := by
    decide +kernel
  obtain ⟨s, hplay, hs⟩ := (Option.any_eq_true _ _).mp hplays
  obtain ⟨hengine, hlost, hchannel, hwire, hout⟩ := of_decide_eq_true hs
  have hrun : TapRun [0, 0] oneTapDecoders oneEngine (Tap.new 0 16 .off) lostCrossing s :=
    path_of_playOne hplay
  obtain ⟨hlinks, hverbatim, hrequests, _⟩ := TapRun.transparent hrun
  exact ⟨s, hengine, hlost, hchannel, hwire, hout, hlinks, hverbatim, hrequests⟩

theorem oneCrossing_observed : ∃ s : TapProxy, s.tap.written = [crossedRecord] ∧
    s.tap = (Tap.new 0 16 .off).observeAll (s.observed.filterMap oneTapDecoders.read) ∧
      Caused (s.observed.filterMap oneTapDecoders.read) := by
  obtain ⟨s, hrun, hwritten, _⟩ := oneCrossing_run
  obtain ⟨htap, _, _, hcaused⟩ := TapRun.observes hrun
  exact ⟨s, hwritten, htap, hcaused oneEngine_answersOnly⟩

end VllmVcr
