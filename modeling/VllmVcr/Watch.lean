import VllmVcr.Tap

/-!
# Watching the observed messages

Anything kept beside the tap that begins when a request is added, hears the outputs of the request
and ends with it stays in step with the tap's own states.
-/

namespace VllmVcr

/-- An output adds its ids if they are recorded, and a chunk if it has any tokens. -/
theorem Tap.observed_eq (arrival : Instant) (running prefillTokens : ℕ)
    (recordTokens : TokenRecording) (output : EngineCoreOutput) (s : RequestState) :
    ∃ ids cachedTokens, (recordTokens = .on → ids = s.outputTokenIds ++ output.newTokenIds) ∧
      Tap.observed arrival running prefillTokens recordTokens output s =
        if output.newTokenIds.isEmpty then
          { s with outputTokenIds := ids, cachedTokens := cachedTokens }
        else { s with outputTokenIds := ids, cachedTokens := cachedTokens }.recordChunk arrival
          output.newTokenIds.length running prefillTokens := by
  unfold Tap.observed
  cases recordTokens with
  | off =>
      cases output.prefillStats with
      | none => exact ⟨s.outputTokenIds, s.cachedTokens, by simp, rfl⟩
      | some stats => exact ⟨s.outputTokenIds, _, by simp, rfl⟩
  | on =>
      cases output.prefillStats with
      | none => exact ⟨_, s.cachedTokens, fun _ => rfl, rfl⟩
      | some stats => exact ⟨_, _, fun _ => rfl, rfl⟩

/-- What is kept of a request: begun when the request is added, with the number of requests added
before, and changed by each of its outputs. -/
structure Listener (β : Type) where
  begins : ℕ → EngineCoreRequest → β
  hears : Instant → EngineCoreOutput → β → β

/-- What is kept of the requests in flight and of those that finished, and how many were added. -/
structure Watch (β : Type) where
  requests : SortedMap String β
  finished : List β
  added : ℕ

namespace Listener

variable {β : Type} (l : Listener β)

def hearOne (arrival : Instant) (w : Watch β) (output : EngineCoreOutput) : Watch β :=
  match w.requests.get? output.requestId with
  | none => w
  | some b =>
    if output.finishReason = some .abort then
      { w with requests := w.requests.erase output.requestId }
    else
      match output.finishReason with
      | some _ =>
          { w with
            requests := w.requests.erase output.requestId
            finished := w.finished ++ [l.hears arrival output b] }
      | none => { w with requests := w.requests.insert output.requestId (l.hears arrival output b) }

def see (w : Watch β) (message : Instant × TapMessage) : Watch β :=
  match message.2 with
  | .add req =>
      { w with
        requests := w.requests.insert req.requestId (l.begins w.added req)
        added := w.added + 1 }
  | .abort requestIds =>
      { w with requests := requestIds.foldl (fun requests id => requests.erase id) w.requests }
  | .outputs envelope => envelope.requestOutputs.foldl (l.hearOne message.1) w

def watch (messages : List (Instant × TapMessage)) : Watch β :=
  messages.foldl l.see ⟨SortedMap.empty, [], 0⟩

theorem watch_append (messages : List (Instant × TapMessage)) (message : Instant × TapMessage) :
    l.watch (messages ++ [message]) = l.see (l.watch messages) message := by
  rw [watch, watch, List.foldl_append, List.foldl_cons, List.foldl_nil]

end Listener

/-- The tap's states and what is kept beside them are related by `R`, in flight and in the records
written. -/
structure Mirrors {β : Type} (R : TokenRecording → RequestState → β → Prop) (tap : Tap)
    (w : Watch β) : Prop where
  requests : SortedMap.Rel (R tap.recordTokens) tap.requests w.requests
  written : List.Forall₂ (fun r b => ∃ s reason, R tap.recordTokens s b ∧
    r = s.intoRecord tap.captureStart reason tap.recordTokens) tap.written w.finished

/-- What is kept starts and goes on as the tap's states do. -/
structure Listener.Keeps {β : Type} (l : Listener β)
    (R : TokenRecording → RequestState → β → Prop) : Prop where
  begins : ∀ recordTokens n req arrival blockSize concurrency,
    R recordTokens (.new req arrival blockSize concurrency) (l.begins n req)
  hears : ∀ recordTokens s b arrival running prefillTokens output, R recordTokens s b →
    R recordTokens (Tap.observed arrival running prefillTokens recordTokens output s)
      (l.hears arrival output b)

namespace Mirrors

variable {β : Type} {l : Listener β} {R : TokenRecording → RequestState → β → Prop} {tap : Tap}
  {w : Watch β}

theorem rel_insert {P : RequestState → β → Prop} {m : SortedMap String RequestState}
    {m' : SortedMap String β} (h : SortedMap.Rel P m m') (key : String) {s : RequestState} {b : β}
    (hP : P s b) : SortedMap.Rel P (m.insert key s) (m'.insert key b) := by
  intro id
  rw [SortedMap.get?_insert, SortedMap.get?_insert]
  split
  · exact .some hP
  · exact h id

theorem rel_erase {P : RequestState → β → Prop} {m : SortedMap String RequestState}
    {m' : SortedMap String β} (h : SortedMap.Rel P m m') (key : String) :
    SortedMap.Rel P (m.erase key) (m'.erase key) := by
  intro id
  rw [SortedMap.get?_erase, SortedMap.get?_erase]
  split
  · exact .none
  · exact h id

theorem observeOne (h : Mirrors R tap w) (hl : l.Keeps R) (arrival : Instant)
    (running prefillTokens : ℕ) (output : EngineCoreOutput) :
    Mirrors R (tap.observeOne arrival running prefillTokens output)
      (l.hearOne arrival w output) := by
  unfold Tap.observeOne Listener.hearOne
  cases htap : tap.requests.get? output.requestId with
  | none =>
      rw [(h.requests.get?_eq_none_iff _).mp htap]
      exact h
  | some s =>
      obtain ⟨b, hb, hR⟩ := h.requests.left htap
      rw [hb]
      have hnext := hl.hears tap.recordTokens s b arrival running prefillTokens output hR
      cases hreason : output.finishReason with
      | none => exact ⟨rel_insert h.requests output.requestId hnext, h.written⟩
      | some reason =>
          simp only
          split
          · exact ⟨rel_erase h.requests output.requestId, h.written⟩
          · refine ⟨rel_erase h.requests output.requestId, ?_⟩
            exact List.rel_append h.written (.cons ⟨_, reason, hnext, rfl⟩ .nil)

theorem observe (h : Mirrors R tap w) (hl : l.Keeps R) (message : Instant × TapMessage) :
    Mirrors R (tap.observe message) (l.see w message) := by
  unfold Tap.observe Listener.see
  cases message.2 with
  | add req => exact ⟨rel_insert h.requests req.requestId (hl.begins ..), h.written⟩
  | abort requestIds =>
      simp only
      induction requestIds generalizing tap w with
      | nil => exact h
      | cons id ids ih =>
          have hrest := @ih (tap.discard id) { w with requests := w.requests.erase id }
            ⟨rel_erase h.requests id, h.written⟩
          exact hrest
  | outputs envelope =>
      exact List.foldl_rel h (fun output _ _ _ h => h.observeOne hl _ _ _ output)

/-- What is kept beside the tap stays in step with it. -/
theorem of_messages (hl : l.Keeps R) (captureStart : Instant) (blockSize : ℕ)
    (recordTokens : TokenRecording) (messages : List (Instant × TapMessage)) :
    Mirrors R ((Tap.new captureStart blockSize recordTokens).observeAll messages)
      (l.watch messages) := by
  induction messages using List.reverseRecOn with
  | nil => exact ⟨fun _ => .none, .nil⟩
  | append_singleton messages message ih =>
      have hstep := ih.observe hl message
      rw [Tap.observeAll] at hstep ⊢
      rw [List.foldl_append, List.foldl_cons, List.foldl_nil, l.watch_append]
      exact hstep

end Mirrors

end VllmVcr
