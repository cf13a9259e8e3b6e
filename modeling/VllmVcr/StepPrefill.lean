import VllmVcr.Capture

/-!
# Prefills attributed to steps

The prompt tokens that a message is said to have prefilled, and the prompts of the requests it
brings their first tokens to. A request answered twice in one message is counted twice.
-/

namespace VllmVcr

namespace SortedMap

variable {κ ν : Type*} [LinearOrder κ] (m : SortedMap κ ν)

theorem weight_add (f g : κ → ν → ℕ) :
    m.weight (fun k v => f k v + g k v) = m.weight f + m.weight g := by
  unfold weight
  exact List.sum_map_add

theorem weight_filter (p : κ → ν → Bool) (f : κ → ν → ℕ) :
    (m.filter p).weight f = m.weight (fun k v => if p k v then f k v else 0) := by
  change ((m.entries.filter (fun a => p a.1 a.2)).map (fun a => f a.1 a.2)).sum =
    (m.entries.map (fun a => if p a.1 a.2 then f a.1 a.2 else 0)).sum
  induction m.entries with
  | nil => rfl
  | cons a l ih =>
      rw [List.filter_cons, List.map_cons, List.sum_cons, ← ih]
      cases p a.1 a.2 <;> simp

theorem weight_single (key : κ) (f : ν → ℕ) :
    m.weight (fun k v => if k = key then f v else 0) = (m.get? key).elim 0 f := by
  cases hkey : m.get? key with
  | none =>
      refine weight_eq_zero _ (fun k v hk => if_neg (fun heq => ?_))
      rw [heq, hkey] at hk
      cases hk
  | some v =>
      rw [weight_erase _ hkey, if_pos rfl, Option.elim_some, Nat.add_eq_left]
      refine weight_eq_zero _ (fun k w hk => if_neg (fun heq => ?_))
      rw [heq, get?_erase_self] at hk
      cases hk

/-- Reading a list of keys counts every entry as often as its key is read. -/
theorem sum_reads (keys : List κ) (f : ν → ℕ) :
    ((keys.filterMap m.get?).map f).sum = m.weight (fun k v => keys.count k * f v) := by
  induction keys with
  | nil => simp [weight]
  | cons key keys ih =>
      have hcount : (fun (k : κ) (v : ν) => (key :: keys).count k * f v) =
          fun k v => keys.count k * f v + if k = key then f v else 0 := by
        funext k v
        rw [List.count_cons, Nat.add_mul]
        by_cases hk : k = key
        · simp [hk]
        · simp [hk, Ne.symm hk]
      rw [hcount, weight_add, weight_single, ← ih]
      cases hkey : m.get? key with
      | none => rw [List.filterMap_cons_none hkey, Option.elim_none, Nat.add_zero]
      | some v =>
          rw [List.filterMap_cons_some hkey, List.map_cons, List.sum_cons, Option.elim_some,
            Nat.add_comm]

end SortedMap

/-! ## One message -/

def EngineCoreOutput.hasTokens (output : EngineCoreOutput) : Bool := !output.newTokenIds.isEmpty

/-- The outputs of a message that bring tokens to a request. -/
def TapMessage.tokenOutputs (message : TapMessage) (id : String) : ℕ :=
  match message with
  | .outputs envelope =>
      ((envelope.requestOutputs.filter EngineCoreOutput.hasTokens).map
        EngineCoreOutput.requestId).count id
  | _ => 0

namespace Tap

/-- The prompt tokens that a message is said to have prefilled. -/
def attributed (tap : Tap) : TapMessage → ℕ
  | .outputs envelope => tap.stepPrefillTokens envelope
  | _ => 0

def awaitsPrefill (s : RequestState) : Bool := s.awaitingFirstToken && !s.remotePrefill

/-- The prompt tokens of the requests that get their first tokens from a message. -/
def firstPrompts (tap : Tap) (message : TapMessage) : ℕ :=
  (tap.requests.filter (fun id s => awaitsPrefill s && 0 < message.tokenOutputs id)).weight
    (fun _ s => s.promptTokens)

/-- The prompt tokens counted once more for every later output of such a request. -/
def repeatedPrompts (tap : Tap) (message : TapMessage) : ℕ :=
  (tap.requests.filter (fun _ s => awaitsPrefill s)).weight
    (fun id s => (message.tokenOutputs id - 1) * s.promptTokens)

theorem attributed_eq (tap : Tap) (message : TapMessage) :
    tap.attributed message =
      (tap.firstPrompts message + tap.repeatedPrompts message) % 2 ^ 32 := by
  have hsplit : tap.firstPrompts message + tap.repeatedPrompts message =
      (tap.requests.filter (fun _ s => awaitsPrefill s)).weight
        (fun id s => message.tokenOutputs id * s.promptTokens) := by
    rw [firstPrompts, repeatedPrompts, SortedMap.weight_filter, SortedMap.weight_filter,
      SortedMap.weight_filter, ← SortedMap.weight_add]
    refine SortedMap.weight_congr _ (fun id s _ => ?_)
    cases awaitsPrefill s with
    | false => rfl
    | true =>
        cases message.tokenOutputs id with
        | zero => simp
        | succ n =>
            rw [Nat.add_sub_cancel, Nat.succ_mul]
            simp [Nat.add_comm]
  rw [hsplit]
  cases message with
  | add req => simp [attributed, TapMessage.tokenOutputs, SortedMap.weight]
  | abort requestIds => simp [attributed, TapMessage.tokenOutputs, SortedMap.weight]
  | outputs envelope =>
      have hreads : ((envelope.requestOutputs.filter (fun o => !o.newTokenIds.isEmpty)).filterMap
          (fun o => tap.requests.get? o.requestId)).filter
            (fun s => s.awaitingFirstToken && !s.remotePrefill) =
          ((envelope.requestOutputs.filter EngineCoreOutput.hasTokens).map
            EngineCoreOutput.requestId).filterMap
              (tap.requests.filter (fun _ s => awaitsPrefill s)).get? := by
        rw [List.filterMap_map, List.filter_filterMap]
        refine congrArg (List.filterMap · _) (funext fun o => ?_)
        exact (SortedMap.get?_filter tap.requests o.requestId
          (fun _ s => awaitsPrefill s)).symm
      have hsum := SortedMap.sum_reads (tap.requests.filter (fun _ s => awaitsPrefill s))
        ((envelope.requestOutputs.filter EngineCoreOutput.hasTokens).map
          EngineCoreOutput.requestId) RequestState.promptTokens
      rw [attributed, stepPrefillTokens, hreads]
      refine Eq.trans ?_ (congrArg (· % 2 ^ 32) hsum)
      rw [List.sum_nat_mod (List.map RequestState.promptTokens _), List.map_map]
      rfl

/-- A message is attributed the prompts it finished, each once, unless a request is answered
twice or the prompts overflow. -/
theorem attributed_iff (tap : Tap) (message : TapMessage) :
    tap.attributed message = tap.firstPrompts message ↔
      tap.firstPrompts message < 2 ^ 32 ∧ 2 ^ 32 ∣ tap.repeatedPrompts message := by
  rw [attributed_eq]
  constructor
  · intro h
    have hlt : tap.firstPrompts message < 2 ^ 32 := h ▸ Nat.mod_lt _ (by decide)
    exact ⟨hlt, by omega⟩
  · rintro ⟨hlt, hdvd⟩
    omega

end Tap

/-! ## A whole capture -/

section Readings

variable {σ μ β : Type} (f : σ → μ → β) (next : σ → μ → σ)

/-- What is read of every message in the state it finds. -/
def readings : σ → List μ → List β
  | _, [] => []
  | s, message :: messages => f s message :: readings (next s message) messages

theorem readings_snoc (s : σ) (messages : List μ) (message : μ) :
    readings f next s (messages ++ [message]) =
      readings f next s messages ++ [f (messages.foldl next s) message] := by
  induction messages generalizing s with
  | nil => rfl
  | cons m messages ih =>
      rw [List.cons_append, readings, ih]
      rfl

end Readings

/-- A request watched for its first tokens. -/
structure Prompted where
  ticket : ℕ
  promptTokens : ℕ
  remotePrefill : Bool
  heard : Bool

def promptListener : Listener Prompted where
  begins n req := {
    ticket := n
    promptTokens := req.prompt.length
    remotePrefill := req.extractKvParams.any (fun kv => kvFlag kv "do_remote_prefill")
    heard := false }
  hears _ output b := { b with heard := b.heard || output.hasTokens }

def Prompted.awaits (b : Prompted) : Bool := !b.heard && !b.remotePrefill

/-- The requests that get their first tokens from a message. -/
def firstsOf (w : Watch Prompted) (message : Instant × TapMessage) : List Prompted :=
  (w.requests.filter (fun id b => b.awaits && 0 < message.2.tokenOutputs id)).values

/-- The requests prefilled here, each where its first tokens were seen. -/
def prefilledIn (messages : List (Instant × TapMessage)) : List Prompted :=
  (readings firstsOf promptListener.see ⟨SortedMap.empty, [], 0⟩ messages).flatten

/-- What the tap's state and the watched request say alike. -/
structure Awaited (recordTokens : TokenRecording) (s : RequestState) (b : Prompted) : Prop where
  promptTokens : s.promptTokens = b.promptTokens
  remotePrefill : s.remotePrefill = b.remotePrefill
  heard : s.awaitingFirstToken = !b.heard

theorem Awaited.keeps : promptListener.Keeps Awaited where
  begins _ _ _ _ _ _ := ⟨rfl, rfl, rfl⟩
  hears recordTokens s b arrival running prefillTokens output h := by
    obtain ⟨ids, cachedTokens, -, heq⟩ :=
      Tap.observed_eq arrival running prefillTokens recordTokens output s
    rw [heq]
    by_cases hempty : output.newTokenIds.isEmpty
    · rw [if_pos hempty]
      exact ⟨h.promptTokens, h.remotePrefill, h.heard.trans (by
        simp [promptListener, EngineCoreOutput.hasTokens, hempty])⟩
    · rw [if_neg hempty]
      have hheard : (promptListener.hears arrival output b).heard = true := by
        simp [promptListener, EngineCoreOutput.hasTokens, hempty]
      have hprompt : ∀ s' : RequestState, (s'.recordChunk arrival output.newTokenIds.length running
          prefillTokens).promptTokens = s'.promptTokens ∧
          (s'.recordChunk arrival output.newTokenIds.length running
            prefillTokens).remotePrefill = s'.remotePrefill := by
        intro s'
        unfold RequestState.recordChunk
        cases s'.lastOutput <;> exact ⟨rfl, rfl⟩
      exact ⟨(hprompt _).1.trans h.promptTokens, (hprompt _).2.trans h.remotePrefill, by
        rw [hheard]; rfl⟩

theorem Mirrors.firstPrompts_eq {tap : Tap} {w : Watch Prompted} (h : Mirrors Awaited tap w)
    (message : Instant × TapMessage) :
    tap.firstPrompts message.2 = ((firstsOf w message).map Prompted.promptTokens).sum := by
  rw [Tap.firstPrompts, SortedMap.weight_filter, h.requests.weight_eq (g := fun id b =>
    if b.awaits && 0 < message.2.tokenOutputs id then b.promptTokens else 0)]
  · rw [← SortedMap.weight_filter, firstsOf, SortedMap.values, List.map_map]
    rfl
  · intro id s b hs
    rw [Tap.awaitsPrefill, hs.heard, hs.remotePrefill, hs.promptTokens, Prompted.awaits]

/-! ## Each request once -/

theorem Listener.hearAll_added {β : Type} (l : Listener β) (arrival : Instant)
    (outputs : List EngineCoreOutput) (w : Watch β) :
    (outputs.foldl (l.hearOne arrival) w).added = w.added :=
  List.foldlRecOn outputs _ (motive := fun w' : Watch β => w'.added = w.added) rfl
    (fun w' h output _ => by
      rw [← h]
      unfold Listener.hearOne
      split
      · rfl
      · split
        · rfl
        · split <;> rfl)

/-- What is kept of a request after a list of outputs has heard all of them that are its own. -/
theorem Listener.get?_hearAll {β : Type} (l : Listener β) {arrival : Instant}
    {outputs : List EngineCoreOutput} {w : Watch β} {id : String} {b' : β}
    (h : (outputs.foldl (l.hearOne arrival) w).requests.get? id = some b') :
    ∃ b, w.requests.get? id = some b ∧
      b' = (outputs.filter (fun o => o.requestId = id)).foldl (fun b o => l.hears arrival o b) b := by
  induction outputs generalizing w with
  | nil => exact ⟨b', h, rfl⟩
  | cons output outputs ih =>
      obtain ⟨b₁, hb₁, hrest⟩ := ih h
      have hskip : ∀ w' : SortedMap String β, (w'.erase output.requestId).get? id = some b₁ →
          output.requestId ≠ id ∧ w'.get? id = some b₁ := by
        intro w' hw'
        rw [SortedMap.get?_erase] at hw'
        split_ifs at hw' with hid
        exact ⟨Ne.symm hid, hw'⟩
      unfold Listener.hearOne at hb₁
      split at hb₁
      · next hnone =>
          have hid : output.requestId ≠ id := fun heq => by rw [heq, hb₁] at hnone; cases hnone
          exact ⟨b₁, hb₁, by rw [List.filter_cons_of_neg (by simpa using hid)]; exact hrest⟩
      · next b hb =>
          split at hb₁
          · obtain ⟨hid, hkept⟩ := hskip _ hb₁
            exact ⟨b₁, hkept, by rw [List.filter_cons_of_neg (by simpa using hid)]; exact hrest⟩
          · split at hb₁
            · obtain ⟨hid, hkept⟩ := hskip _ hb₁
              exact ⟨b₁, hkept, by rw [List.filter_cons_of_neg (by simpa using hid)]; exact hrest⟩
            · simp only [SortedMap.get?_insert] at hb₁
              split_ifs at hb₁ with hid
              · obtain rfl := Option.some.inj hb₁
                refine ⟨b, by rw [hid]; exact hb, ?_⟩
                rw [List.filter_cons_of_pos (by simp [hid])]
                exact hrest
              · have hne : output.requestId ≠ id := Ne.symm hid
                exact ⟨b₁, hb₁, by rw [List.filter_cons_of_neg (by simpa using hne)]; exact hrest⟩

theorem hears_all (arrival : Instant) (outputs : List EngineCoreOutput) (b : Prompted) :
    outputs.foldl (fun b o => promptListener.hears arrival o b) b =
      { b with heard := b.heard || outputs.any EngineCoreOutput.hasTokens } := by
  induction outputs generalizing b with
  | nil => simp
  | cons output outputs ih =>
      rw [List.foldl_cons, ih, List.any_cons, ← Bool.or_assoc]
      rfl

theorem TapMessage.any_hasTokens (envelope : Envelope) (id : String) :
    (envelope.requestOutputs.filter (fun o => o.requestId = id)).any EngineCoreOutput.hasTokens =
      decide (0 < (TapMessage.outputs envelope).tokenOutputs id) := by
  rw [Bool.eq_iff_iff, decide_eq_true_eq, TapMessage.tokenOutputs, List.count_pos_iff,
    List.any_eq_true, List.mem_map]
  simp only [List.mem_filter, decide_eq_true_eq]
  exact exists_congr (fun o => by tauto)

/-- What a request is kept as after a message of outputs. -/
theorem get?_see_outputs {w : Watch Prompted} {arrival : Instant} {envelope : Envelope} {id : String}
    {b' : Prompted}
    (h : (promptListener.see w (arrival, .outputs envelope)).requests.get? id = some b') :
    ∃ b, w.requests.get? id = some b ∧ b' = { b with
      heard := b.heard || decide (0 < (TapMessage.outputs envelope).tokenOutputs id) } := by
  obtain ⟨b, hb, hheard⟩ := promptListener.get?_hearAll h
  rw [hears_all, TapMessage.any_hasTokens] at hheard
  exact ⟨b, hb, hheard⟩

/-- Requests are counted at their first tokens: not before, and once heard they have been. -/
structure Counted (w : Watch Prompted) (ledger : List Prompted) : Prop where
  fresh : ∀ id b, w.requests.get? id = some b → b.ticket < w.added
  apart : ∀ id id' b b', w.requests.get? id = some b → w.requests.get? id' = some b' →
    b.ticket = b'.ticket → id = id'
  earlier : ∀ b ∈ ledger, b.ticket < w.added
  waiting : ∀ id b, w.requests.get? id = some b → b.heard = false →
    b.ticket ∉ ledger.map Prompted.ticket
  heard : ∀ id b, w.requests.get? id = some b → b.heard = true → b.remotePrefill = false →
    b.ticket ∈ ledger.map Prompted.ticket
  once : (ledger.map Prompted.ticket).Nodup

theorem mem_firstsOf {w : Watch Prompted} {message : Instant × TapMessage} {b : Prompted} :
    b ∈ firstsOf w message ↔ ∃ id, w.requests.get? id = some b ∧ b.heard = false ∧
      b.remotePrefill = false ∧ 0 < message.2.tokenOutputs id := by
  rw [firstsOf, SortedMap.mem_values]
  refine exists_congr (fun id => ?_)
  rw [SortedMap.get?_filter, Option.filter_eq_some_iff, Prompted.awaits]
  simp [and_assoc]

namespace Counted

variable {w : Watch Prompted} {ledger : List Prompted}

theorem outputs (h : Counted w ledger) (arrival : Instant) (envelope : Envelope) :
    Counted (promptListener.see w (arrival, .outputs envelope))
      (ledger ++ firstsOf w (arrival, .outputs envelope)) := by
  have hadded : (promptListener.see w (arrival, .outputs envelope)).added = w.added :=
    promptListener.hearAll_added arrival envelope.requestOutputs w
  have hfirsts : ∀ {id b}, w.requests.get? id = some b →
      (b.ticket ∈ (firstsOf w (arrival, .outputs envelope)).map Prompted.ticket ↔
        b.heard = false ∧ b.remotePrefill = false ∧
          0 < (TapMessage.outputs envelope).tokenOutputs id) := by
    intro id b hb
    rw [List.mem_map]
    constructor
    · rintro ⟨b', hb', hticket⟩
      obtain ⟨id', hid', hrest⟩ := mem_firstsOf.mp hb'
      obtain rfl := h.apart id' id b' b hid' hb hticket
      obtain rfl := Option.some.inj (hid'.symm.trans hb)
      exact hrest
    · exact fun hrest => ⟨b, mem_firstsOf.mpr ⟨id, hb, hrest⟩, rfl⟩
  constructor
  · intro id b' hb'
    obtain ⟨b, hb, rfl⟩ := get?_see_outputs hb'
    exact hadded ▸ h.fresh id b hb
  · intro id id' b₁ b₂ hb₁ hb₂ hticket
    obtain ⟨b, hb, rfl⟩ := get?_see_outputs hb₁
    obtain ⟨b', hb', rfl⟩ := get?_see_outputs hb₂
    exact h.apart id id' b b' hb hb' hticket
  · intro b hb
    rw [hadded]
    rcases List.mem_append.mp hb with hold | hnew
    · exact h.earlier b hold
    · obtain ⟨id, hid, -⟩ := mem_firstsOf.mp hnew
      exact h.fresh id b hid
  · intro id b' hb' hheard
    obtain ⟨b, hb, rfl⟩ := get?_see_outputs hb'
    obtain ⟨hquiet, hnone⟩ := Bool.or_eq_false_iff.mp hheard
    rw [List.map_append, List.mem_append, not_or]
    refine ⟨h.waiting id b hb hquiet, fun hfirst => ?_⟩
    exact of_decide_eq_false hnone ((hfirsts hb).mp hfirst).2.2
  · intro id b' hb' hheard hlocal
    obtain ⟨b, hb, rfl⟩ := get?_see_outputs hb'
    rw [List.map_append, List.mem_append]
    by_cases hbefore : b.heard = true
    · exact .inl (h.heard id b hb hbefore hlocal)
    · have hquiet : b.heard = false := by simpa using hbefore
      refine .inr ((hfirsts hb).mpr ⟨hquiet, hlocal, ?_⟩)
      simpa [hquiet] using hheard
  · rw [List.map_append]
    refine List.nodup_append.mpr ⟨h.once, ?_, ?_⟩
    · rw [firstsOf, SortedMap.values, List.map_map]
      refine List.Nodup.map_on ?_ (SortedMap.sorted _).nodup
      rintro ⟨id, b⟩ hb ⟨id', b'⟩ hb' hticket
      have hid := SortedMap.mem_entries.mp (List.mem_of_mem_filter hb)
      have hid' := SortedMap.mem_entries.mp (List.mem_of_mem_filter hb')
      obtain rfl := h.apart id id' b b' hid hid' hticket
      obtain rfl := Option.some.inj (hid.symm.trans hid')
      rfl
    · intro n hn m hm heq
      obtain ⟨b, hb, rfl⟩ := List.mem_map.mp hm
      obtain ⟨id, hid, hquiet, -⟩ := mem_firstsOf.mp hb
      exact h.waiting id b hid hquiet (heq ▸ hn)

theorem add (h : Counted w ledger) (arrival : Instant) (req : EngineCoreRequest) :
    Counted (promptListener.see w (arrival, .add req)) ledger := by
  have hget : ∀ {id b}, (promptListener.see w (arrival, .add req)).requests.get? id = some b →
      (id = req.requestId ∧ b = promptListener.begins w.added req) ∨
        (id ≠ req.requestId ∧ w.requests.get? id = some b) := by
    intro id b hb
    have hinsert : (w.requests.insert req.requestId
        (promptListener.begins w.added req)).get? id = some b := hb
    rw [SortedMap.get?_insert] at hinsert
    split_ifs at hinsert with hid
    · exact .inl ⟨hid, (Option.some.inj hinsert).symm⟩
    · exact .inr ⟨hid, hinsert⟩
  have hnew : w.added ∉ ledger.map Prompted.ticket := by
    intro hmem
    obtain ⟨b, hb, hticket⟩ := List.mem_map.mp hmem
    exact absurd (h.earlier b hb) (by rw [hticket]; omega)
  constructor
  · intro id b hb
    change b.ticket < w.added + 1
    rcases hget hb with ⟨-, rfl⟩ | ⟨-, hold⟩
    · exact Nat.lt_succ_self _
    · exact Nat.lt_succ_of_lt (h.fresh id b hold)
  · intro id id' b b' hb hb' hticket
    rcases hget hb with ⟨rfl, rfl⟩ | ⟨-, hold⟩ <;> rcases hget hb' with ⟨rfl, rfl⟩ | ⟨-, hold'⟩
    · rfl
    · exact absurd (h.fresh _ _ hold') (by rw [← hticket]; exact lt_irrefl _)
    · exact absurd (h.fresh _ _ hold) (by rw [hticket]; exact lt_irrefl _)
    · exact h.apart id id' b b' hold hold' hticket
  · exact fun b hb => Nat.lt_succ_of_lt (h.earlier b hb)
  · intro id b hb hheard
    rcases hget hb with ⟨-, rfl⟩ | ⟨-, hold⟩
    · exact hnew
    · exact h.waiting id b hold hheard
  · intro id b hb hheard
    rcases hget hb with ⟨-, rfl⟩ | ⟨-, hold⟩
    · cases hheard
    · exact h.heard id b hold hheard
  · exact h.once

/-- With fewer requests in flight nothing else changes. -/
theorem drop (h : Counted w ledger) {requests : SortedMap String Prompted}
    (hfewer : ∀ id b, requests.get? id = some b → w.requests.get? id = some b) :
    Counted { w with requests := requests } ledger where
  fresh id b hb := h.fresh id b (hfewer id b hb)
  apart id id' b b' hb hb' := h.apart id id' b b' (hfewer id b hb) (hfewer id' b' hb')
  earlier := h.earlier
  waiting id b hb := h.waiting id b (hfewer id b hb)
  heard id b hb := h.heard id b (hfewer id b hb)
  once := h.once

theorem abort (h : Counted w ledger) (arrival : Instant) (requestIds : List String) :
    Counted (promptListener.see w (arrival, .abort requestIds)) ledger := by
  refine h.drop ?_
  refine List.foldlRecOn requestIds _ (motive := fun requests : SortedMap String Prompted =>
    ∀ id b, requests.get? id = some b → w.requests.get? id = some b) (fun _ _ hb => hb) ?_
  intro requests hfewer key _ id b hb
  rw [SortedMap.get?_erase] at hb
  split_ifs at hb
  exact hfewer id b hb

theorem see (h : Counted w ledger) (message : Instant × TapMessage) :
    Counted (promptListener.see w message) (ledger ++ firstsOf w message) := by
  obtain ⟨arrival, message⟩ := message
  have hnone : (∀ id, message.tokenOutputs id = 0) → firstsOf w (arrival, message) = [] := by
    intro hzero
    refine List.eq_nil_iff_forall_not_mem.mpr (fun b hb => ?_)
    obtain ⟨id, -, -, -, hpos⟩ := mem_firstsOf.mp hb
    exact absurd hpos (by rw [hzero id]; exact lt_irrefl 0)
  cases message with
  | add req =>
      rw [hnone (fun _ => rfl), List.append_nil]
      exact h.add arrival req
  | abort requestIds =>
      rw [hnone (fun _ => rfl), List.append_nil]
      exact h.abort arrival requestIds
  | outputs envelope => exact h.outputs arrival envelope

end Counted

theorem prefilledIn_snoc (messages : List (Instant × TapMessage))
    (message : Instant × TapMessage) :
    prefilledIn (messages ++ [message]) =
      prefilledIn messages ++ firstsOf (promptListener.watch messages) message := by
  rw [prefilledIn, readings_snoc, List.flatten_append, List.flatten_singleton]
  rfl

theorem counted (messages : List (Instant × TapMessage)) :
    Counted (promptListener.watch messages) (prefilledIn messages) := by
  induction messages using List.reverseRecOn with
  | nil =>
      have hempty : ∀ id b, (SortedMap.empty : SortedMap String Prompted).get? id ≠ some b :=
        fun _ _ hb => by cases hb
      exact ⟨fun id b hb => absurd hb (hempty id b), fun id _ b _ hb => absurd hb (hempty id b),
        by simp [prefilledIn, readings], fun id b hb => absurd hb (hempty id b),
        fun id b hb => absurd hb (hempty id b), List.nodup_nil⟩
  | append_singleton messages message ih =>
      rw [promptListener.watch_append, prefilledIn_snoc]
      exact ih.see message

/-- A message brings tokens to a tracked request whose prompt is prefilled here. -/
def GetsTokens (messages : List (Instant × TapMessage)) (ticket : ℕ) : Prop :=
  ∃ before message after id b, messages = before ++ message :: after ∧
    (promptListener.watch before).requests.get? id = some b ∧ b.ticket = ticket ∧
    b.remotePrefill = false ∧ 0 < message.2.tokenOutputs id

theorem getsTokens_snoc (messages : List (Instant × TapMessage)) (message : Instant × TapMessage)
    (ticket : ℕ) :
    GetsTokens (messages ++ [message]) ticket ↔ GetsTokens messages ticket ∨
      ∃ id b, (promptListener.watch messages).requests.get? id = some b ∧ b.ticket = ticket ∧
        b.remotePrefill = false ∧ 0 < message.2.tokenOutputs id := by
  constructor
  · rintro ⟨before, m, after, id, b, hsplit, hrest⟩
    rcases List.eq_nil_or_concat after with rfl | ⟨after, last, rfl⟩
    · obtain ⟨rfl, hm⟩ := List.append_inj' hsplit rfl
      obtain rfl := List.head_eq_of_cons_eq hm
      exact .inr ⟨id, b, hrest⟩
    · have hconcat : messages ++ [message] = before ++ m :: after ++ [last] := by
        rw [hsplit]
        simp
      exact .inl ⟨before, m, after, id, b, (List.append_inj' hconcat rfl).1, hrest⟩
  · rintro (⟨before, m, after, id, b, rfl, hrest⟩ | ⟨id, b, hrest⟩)
    · exact ⟨before, m, after ++ [message], id, b, by simp, hrest⟩
    · exact ⟨messages, message, [], id, b, rfl, hrest⟩

/-- The requests counted are those that get tokens while they are tracked. -/
theorem mem_prefilledIn_iff (messages : List (Instant × TapMessage)) (ticket : ℕ) :
    ticket ∈ (prefilledIn messages).map Prompted.ticket ↔ GetsTokens messages ticket := by
  induction messages using List.reverseRecOn with
  | nil =>
      refine iff_of_false (by simp [prefilledIn, readings]) ?_
      rintro ⟨before, message, after, id, b, hsplit, -⟩
      simp at hsplit
  | append_singleton messages message ih =>
      rw [prefilledIn_snoc, List.map_append, List.mem_append, ih, getsTokens_snoc]
      constructor
      · rintro (hbefore | hnow)
        · exact .inl hbefore
        · obtain ⟨b, hb, rfl⟩ := List.mem_map.mp hnow
          obtain ⟨id, hid, -, hrest⟩ := mem_firstsOf.mp hb
          exact .inr ⟨id, b, hid, rfl, hrest⟩
      · rintro (hbefore | ⟨id, b, hid, rfl, hlocal, hpos⟩)
        · exact .inl hbefore
        · by_cases hheard : b.heard = true
          · exact .inl (ih.mp ((counted messages).heard id b hid hheard hlocal))
          · exact .inr (List.mem_map_of_mem
              (mem_firstsOf.mpr ⟨id, hid, by simpa using hheard, hlocal, hpos⟩))

/-! ## The capture -/

/-- Every message is attributed the prompts of the requests it brings their first tokens to, and
over the capture each request prefilled here that gets tokens contributes its prompt once. -/
structure AttributedOnce (captureStart : Instant) (blockSize : ℕ) (recordTokens : TokenRecording)
    (messages : List (Instant × TapMessage)) : Prop where
  each : ∀ before message after, messages = before ++ message :: after →
    (tapped captureStart blockSize recordTokens before).attributed message.2 =
      (tapped captureStart blockSize recordTokens before).firstPrompts message.2
  once : ((prefilledIn messages).map Prompted.ticket).Nodup
  all : ∀ ticket, ticket ∈ (prefilledIn messages).map Prompted.ticket ↔ GetsTokens messages ticket
  total : (readings (fun tap message => tap.attributed message.2) Tap.observe
      (Tap.new captureStart blockSize recordTokens) messages).sum =
    ((prefilledIn messages).map Prompted.promptTokens).sum

theorem total_of_each {captureStart : Instant} {blockSize : ℕ} {recordTokens : TokenRecording}
    {messages : List (Instant × TapMessage)}
    (heach : ∀ before message after, messages = before ++ message :: after →
      (tapped captureStart blockSize recordTokens before).attributed message.2 =
        (tapped captureStart blockSize recordTokens before).firstPrompts message.2) :
    (readings (fun tap message => tap.attributed message.2) Tap.observe
      (Tap.new captureStart blockSize recordTokens) messages).sum =
    ((prefilledIn messages).map Prompted.promptTokens).sum := by
  induction messages using List.reverseRecOn with
  | nil => rfl
  | append_singleton messages message ih =>
      have hbefore := ih (fun before m after heq => heach before m (after ++ [message])
        (by rw [heq]; simp))
      have hlast := heach messages message [] rfl
      have hmirrors := Mirrors.of_messages Awaited.keeps captureStart blockSize recordTokens messages
      rw [tapped, hmirrors.firstPrompts_eq] at hlast
      rw [readings_snoc, List.sum_append, hbefore, prefilledIn_snoc, List.map_append,
        List.sum_append, List.sum_singleton]
      exact congrArg (_ + ·) hlast

/-- Each prefill is attributed once exactly when in every message the prompts finished stay below
`2 ^ 32` tokens and what is counted again adds up to a multiple of it. -/
theorem attributed_once_iff (captureStart : Instant) (blockSize : ℕ)
    (recordTokens : TokenRecording) (messages : List (Instant × TapMessage)) :
    AttributedOnce captureStart blockSize recordTokens messages ↔
      ∀ before message after, messages = before ++ message :: after →
        (tapped captureStart blockSize recordTokens before).firstPrompts message.2 < 2 ^ 32 ∧
          2 ^ 32 ∣ (tapped captureStart blockSize recordTokens before).repeatedPrompts
            message.2 := by
  constructor
  · intro h before message after hsplit
    exact (Tap.attributed_iff _ _).mp (h.each before message after hsplit)
  · intro h
    have heach := fun before message after hsplit =>
      (Tap.attributed_iff _ _).mpr (h before message after hsplit)
    exact ⟨heach, (counted messages).once, mem_prefilledIn_iff messages, total_of_each heach⟩

/-- A prompt of three tokens. -/
def threeTokenPrompt : EngineCoreRequest :=
  { fourTokens with promptTokenIds := some [7, 8, 9] }

/-- Two chunks of one request in the same message. -/
def answeredTwice : List (Instant × TapMessage) :=
  [(0, .add threeTokenPrompt),
    (1, .outputs (.requestBatch 0 [requestOutput "a" [1] none, requestOutput "a" [2] none]
      none 1 none))]

theorem answeredTwice_counted :
    ¬ ∀ captureStart blockSize recordTokens messages,
      AttributedOnce captureStart blockSize recordTokens messages := by
  intro hclaim
  have htwice := (hclaim 0 16 .off answeredTwice).each [(0, .add threeTokenPrompt)] _ [] rfl
  exact absurd htwice (by decide +kernel)

end VllmVcr
