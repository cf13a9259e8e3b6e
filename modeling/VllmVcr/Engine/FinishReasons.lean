import VllmVcr.ContentReplay
import VllmVcr.Engine.Ceiling

/-!
# The reason a replayed stream ends with

A request that the token source matched to a recorded output is served that output while it is
active, and ends with a reason that the source looks up: the recorded one, whatever part of the
output was served, or for a dataset row by how far the request got in it.
-/

namespace VllmVcr

variable {env : Env} {now : Instant}

/-! ## Matching -/

@[simps] def DatasetRow.output (row : DatasetRow) : RecordedOutput :=
  ⟨row.responseTokens, some .stop⟩

/-- What a token source matches new requests by: its records, and those consumed already. -/
inductive Matcher where
  | random
  | replay (records : List RecordedOutput)
  | prefixMatch (records : List RecordedOutput) (byHash : HashIndex) (consumed : List Bool)
      (blockSize : ℕ)
  | dataset (rows : List DatasetRow) (byHash : HashIndex) (consumed : List Bool)
      (replayMatch : ReplayMatch) (blockSize : ℕ)

/-- The reason a request ends with depends on how far it got in its match. -/
def Matcher.positional : Matcher → Bool
  | dataset .. => true
  | _ => false

/-- The output that a new request is matched to, and the matcher after it. -/
def Matcher.claim (m : Matcher) (requestId : String) (promptTokenIds : List Token) :
    Matcher × Option RecordedOutput :=
  match m with
  | random => (random, none)
  | replay records => (replay records, (recordIndex requestId).bind (fun i => records[i]?))
  | prefixMatch records byHash consumed blockSize =>
      match (promptBlockHashes promptTokenIds blockSize).bind
          (fun chain => byHash.claim consumed chain.reverse) with
      | none => (m, none)
      | some i => (prefixMatch records byHash (consumed.set i true) blockSize, records[i]?)
  | dataset rows _ _ .index _ =>
      (m, ((recordIndex requestId).bind (fun i => rows[i]?)).map DatasetRow.output)
  | dataset rows byHash consumed .prefixed blockSize =>
      match (promptBlockHashes promptTokenIds blockSize).bind
          (fun chain => byHash.claim consumed chain.reverse) with
      | none => (m, none)
      | some i =>
          (dataset rows byHash (consumed.set i true) .prefixed blockSize,
            rows[i]?.map DatasetRow.output)

@[simp] theorem Matcher.claim_positional (m : Matcher) (requestId : String)
    (promptTokenIds : List Token) :
    (m.claim requestId promptTokenIds).1.positional = m.positional := by
  cases m with
  | random => rfl
  | replay records => rfl
  | prefixMatch records byHash consumed blockSize =>
      simp only [claim]
      split <;> rfl
  | dataset rows byHash consumed replayMatch blockSize =>
      cases replayMatch with
      | index => rfl
      | prefixed =>
          simp only [claim]
          split <;> rfl

/-- The matcher after the requests of `tickets` entered the batch in this order, and the output
that each of them was matched to. -/
def matchOut (requests : List EngineCoreRequest) (m : Matcher) (tickets : List ℕ) :
    Matcher × List (ℕ × Option RecordedOutput) :=
  tickets.foldl (fun acc ticket =>
    match requests[ticket]? with
    | none => acc
    | some request =>
        ((acc.1.claim request.requestId request.prompt).1,
          acc.2 ++ [(ticket, (acc.1.claim request.requestId request.prompt).2)])) (m, [])

section MatchOut

variable {requests : List EngineCoreRequest} {m : Matcher} {tickets : List ℕ}

theorem matchOut_snoc {ticket : ℕ} {request : EngineCoreRequest}
    (h : requests[ticket]? = some request) :
    matchOut requests m (tickets ++ [ticket]) =
      (((matchOut requests m tickets).1.claim request.requestId request.prompt).1,
        (matchOut requests m tickets).2 ++
          [(ticket, ((matchOut requests m tickets).1.claim request.requestId
            request.prompt).2)]) := by
  rw [matchOut, List.foldl_append, List.foldl_cons, List.foldl_nil, h]
  rfl

theorem matchOut_tickets (requests : List EngineCoreRequest) (m : Matcher) (tickets : List ℕ) :
    ((matchOut requests m tickets).2.map Prod.fst).Sublist tickets ∧
      (matchOut requests m tickets).1.positional = m.positional := by
  induction tickets using List.reverseRecOn with
  | nil => exact ⟨List.Sublist.refl _, rfl⟩
  | append_singleton tickets ticket ih =>
      cases hrequest : requests[ticket]? with
      | none =>
          have hskip : matchOut requests m (tickets ++ [ticket]) = matchOut requests m tickets := by
            rw [matchOut, List.foldl_append, List.foldl_cons, List.foldl_nil, hrequest]
            rfl
          rw [hskip]
          exact ⟨ih.1.trans (List.sublist_append_left _ _), ih.2⟩
      | some request =>
          rw [matchOut_snoc hrequest, List.map_append]
          exact ⟨ih.1.append (List.Sublist.refl _), (Matcher.claim_positional _ _ _).trans ih.2⟩

/-- A dataset row always stops. -/
theorem matchOut_stops {k : ℕ} {out : RecordedOutput}
    (h : (k, some out) ∈ (matchOut requests m tickets).2) (hpositional : m.positional = true) :
    out.finishReason = some .stop := by
  have hclaim : ∀ (m : Matcher) (requestId : String) (promptTokenIds : List Token),
      m.positional = true → (m.claim requestId promptTokenIds).2 = some out →
        out.finishReason = some .stop := by
    intro m requestId promptTokenIds hpositional hout
    cases m with
    | dataset rows byHash consumed replayMatch blockSize =>
        cases replayMatch with
        | index =>
            obtain ⟨row, _, rfl⟩ := Option.map_eq_some_iff.mp hout
            rfl
        | prefixed =>
            simp only [Matcher.claim] at hout
            split at hout
            · cases hout
            · obtain ⟨row, _, rfl⟩ := Option.map_eq_some_iff.mp hout
              rfl
    | _ => cases hpositional
  induction tickets using List.reverseRecOn with
  | nil => cases h
  | append_singleton tickets ticket ih =>
      cases hrequest : requests[ticket]? with
      | none =>
          rw [matchOut, List.foldl_append, List.foldl_cons, List.foldl_nil, hrequest] at h
          exact ih h
      | some request =>
          rw [matchOut_snoc hrequest, List.mem_append, List.mem_singleton] at h
          rcases h with hold | hnew
          · exact ih hold
          · exact hclaim _ _ _ ((matchOut_tickets requests m tickets).2.trans hpositional)
              (congrArg Prod.snd hnew).symm

/-- Requests accepted later do not change what was matched. -/
theorem matchOut_append (h : ∀ ticket ∈ tickets, ticket < requests.length)
    (more : List EngineCoreRequest) :
    matchOut (requests ++ more) m tickets = matchOut requests m tickets := by
  apply List.foldl_ext
  intro acc ticket hticket
  rw [List.getElem?_append_left (h ticket hticket)]

end MatchOut

/-- What a list of matches tells for a ticket. -/
def toldBy (matched : List (ℕ × Option RecordedOutput)) (k : ℕ) : Option RecordedOutput :=
  (matched.lookup k).join

theorem toldBy_snoc {matched : List (ℕ × Option RecordedOutput)} {ticket : ℕ}
    (h : ticket ∉ matched.map Prod.fst) (out : Option RecordedOutput) :
    toldBy (matched ++ [(ticket, out)]) = Function.update (toldBy matched) ticket out := by
  funext k
  by_cases hk : k = ticket
  · subst hk
    have hnone : matched.lookup k = none := by
      rw [List.lookup_eq_none_iff]
      intro p hp
      rw [bne_iff_ne]
      rintro rfl
      exact h (List.mem_map_of_mem hp)
    rw [Function.update_self, toldBy, List.lookup_append, hnone]
    simp
  · rw [Function.update_of_ne hk, toldBy, toldBy, List.lookup_append]
    simp [List.lookup_cons, beq_eq_false_iff_ne.mpr hk]

theorem toldBy_of_mem {matched : List (ℕ × Option RecordedOutput)} {k : ℕ}
    {out : Option RecordedOutput} (hnodup : (matched.map Prod.fst).Nodup)
    (h : (k, out) ∈ matched) : toldBy matched k = out := by
  induction matched with
  | nil => cases h
  | cons p matched ih =>
      obtain ⟨hp, hrest⟩ := List.nodup_cons.mp hnodup
      rw [toldBy, List.lookup_cons]
      rcases List.mem_cons.mp h with rfl | hmem
      · simp
      · have hne : k ≠ p.1 := by
          rintro rfl
          exact hp (List.mem_map.mpr ⟨_, hmem, rfl⟩)
        rw [beq_eq_false_iff_ne.mpr hne]
        exact ih hrest hmem

/-! ## What a source keeps of a live request -/

namespace TokenSource

def matcher : TokenSource → Matcher
  | random _ => .random
  | replay records _ => .replay records
  | prefixMatch p => .prefixMatch p.records p.byHash p.consumed p.blockSize
  | dataset d => .dataset d.rows d.byHash d.consumed d.replayMatch d.blockSize

/-- The output that a live request is matched to, with the reason it was recorded to end with. -/
def recordedOutput (s : TokenSource) (requestId : String) : Option RecordedOutput :=
  match s with
  | random _ => none
  | replay records _ => (recordIndex requestId).bind (fun i => records[i]?)
  | prefixMatch p => p.record requestId
  | dataset d => (d.row requestId).map DatasetRow.output

/-- Nothing is kept for the id. -/
def Idle (requestId : String) : TokenSource → Prop
  | prefixMatch p => p.assigned.get? requestId = none
  | dataset d => d.assignments.get? requestId = none
  | _ => True

variable (s : TokenSource) (requestId : String)

theorem nextTokens_keeps (ctx : TokenCtx) (n : ℕ) (rng : env.Rng) :
    (s.nextTokens env ctx n rng).2.2.matcher = s.matcher ∧
      (s.nextTokens env ctx n rng).2.2.recordedOutput requestId = s.recordedOutput requestId ∧
      (Idle requestId s → Idle requestId (s.nextTokens env ctx n rng).2.2) := by
  cases s with
  | random vocabSize => exact ⟨rfl, rfl, id⟩
  | replay records vocabSize => exact ⟨rfl, rfl, id⟩
  | prefixMatch p => exact ⟨rfl, rfl, id⟩
  | dataset d =>
      simp only [nextTokens, HFDatasetTokens.nextTokens]
      split
      · exact ⟨rfl, rfl, id⟩
      · unfold HFDatasetTokens.advance
        split
        · exact ⟨rfl, rfl, id⟩
        · exact ⟨rfl, rfl, id⟩

variable {requestId}

theorem onRequestAdded_keeps {other : String} (hne : other ≠ requestId)
    (promptTokenIds : List Token) :
    (s.onRequestAdded other promptTokenIds).1.recordedOutput requestId =
        s.recordedOutput requestId ∧
      (Idle requestId s → Idle requestId (s.onRequestAdded other promptTokenIds).1) := by
  cases s with
  | random vocabSize => exact ⟨rfl, id⟩
  | replay records vocabSize => exact ⟨rfl, id⟩
  | prefixMatch p =>
      simp only [onRequestAdded, PrefixMatchTokens.onRequestAdded]
      split
      · exact ⟨rfl, id⟩
      · simp only [recordedOutput, Idle, PrefixMatchTokens.record,
          SortedMap.get?_insert_of_ne _ _ _ _ hne.symm]
        exact ⟨trivial, id⟩
  | dataset d =>
      have hassign : ∀ i consumed,
          (dataset { d.assign other i with consumed := consumed }).recordedOutput requestId =
              (dataset d).recordedOutput requestId ∧
            (Idle requestId (dataset d) →
              Idle requestId (dataset { d.assign other i with consumed := consumed })) := by
        intro i consumed
        simp only [recordedOutput, Idle, HFDatasetTokens.row, HFDatasetTokens.assign,
          SortedMap.get?_insert_of_ne _ _ _ _ hne.symm]
        exact ⟨trivial, id⟩
      simp only [onRequestAdded, HFDatasetTokens.onRequestAdded]
      split
      · split
        · exact ⟨rfl, id⟩
        · exact hassign _ d.consumed
      · split
        · exact ⟨rfl, id⟩
        · exact hassign _ _

theorem onRequestFinished_keeps {other : String} (hne : other ≠ requestId) :
    (s.onRequestFinished other).recordedOutput requestId = s.recordedOutput requestId := by
  cases s with
  | random vocabSize => rfl
  | replay records vocabSize => rfl
  | prefixMatch p =>
      simp only [onRequestFinished, recordedOutput, PrefixMatchTokens.record,
        SortedMap.get?_erase_of_ne _ _ _ hne.symm]
  | dataset d =>
      simp only [onRequestFinished, recordedOutput, HFDatasetTokens.row,
        HFDatasetTokens.onRequestFinished, SortedMap.get?_erase_of_ne _ _ _ hne.symm]

theorem onRequestFinished_idle (other : String) (h : other = requestId ∨ Idle requestId s) :
    Idle requestId (s.onRequestFinished other) := by
  cases s with
  | random vocabSize => trivial
  | replay records vocabSize => trivial
  | prefixMatch p =>
      simp only [Idle, onRequestFinished, SortedMap.get?_erase]
      rcases h with rfl | h
      · simp
      · split
        · rfl
        · exact h
  | dataset d =>
      simp only [Idle, onRequestFinished, HFDatasetTokens.onRequestFinished,
        SortedMap.get?_erase]
      rcases h with rfl | h
      · simp
      · split
        · rfl
        · exact h

@[simp] theorem onRequestFinished_matcher :
    (s.onRequestFinished requestId).matcher = s.matcher := by
  cases s <;> rfl

/-- A request that the source keeps nothing of is matched by the matcher alone. -/
theorem onRequestAdded_claim (hidle : Idle requestId s) (promptTokenIds : List Token) :
    (s.onRequestAdded requestId promptTokenIds).1.matcher =
        (s.matcher.claim requestId promptTokenIds).1 ∧
      (s.onRequestAdded requestId promptTokenIds).1.recordedOutput requestId =
        (s.matcher.claim requestId promptTokenIds).2 := by
  cases s with
  | random vocabSize => exact ⟨rfl, rfl⟩
  | replay records vocabSize => exact ⟨rfl, rfl⟩
  | prefixMatch p =>
      simp only [Idle] at hidle
      simp only [onRequestAdded, PrefixMatchTokens.onRequestAdded, matcher, Matcher.claim]
      cases hfound : (promptBlockHashes promptTokenIds p.blockSize).bind
          (fun chain => p.byHash.claim p.consumed chain.reverse) with
      | none => simp [recordedOutput, PrefixMatchTokens.record, hidle]
      | some i => simp [recordedOutput, PrefixMatchTokens.record]
  | dataset d =>
      simp only [Idle] at hidle
      simp only [onRequestAdded, HFDatasetTokens.onRequestAdded, matcher]
      cases hmatch : d.replayMatch with
      | index =>
          simp only [Matcher.claim]
          cases hindex : recordIndex requestId with
          | none => simp [recordedOutput, HFDatasetTokens.row, hidle, hmatch]
          | some i =>
              simp only [Option.bind_some]
              cases hrow : d.rows[i]? with
              | none => simp [recordedOutput, HFDatasetTokens.row, hidle, hmatch]
              | some row =>
                  simp [recordedOutput, HFDatasetTokens.row, HFDatasetTokens.assign, hmatch, hrow]
      | prefixed =>
          simp only [Matcher.claim]
          cases hfound : (promptBlockHashes promptTokenIds d.blockSize).bind
              (fun chain => d.byHash.claim d.consumed chain.reverse) with
          | none => simp [recordedOutput, HFDatasetTokens.row, hidle, hmatch]
          | some i => simp [recordedOutput, HFDatasetTokens.row, HFDatasetTokens.assign, hmatch]

/-- A request new to the source is served its match from the start, and capped at a matched row. -/
theorem onRequestAdded_matched {promptTokenIds : List Token} {rec : RecordedOutput}
    (hidle : Idle requestId s)
    (hrec : (s.onRequestAdded requestId promptTokenIds).1.recordedOutput requestId = some rec) :
    Serving rec.tokenIds requestId 0 (s.onRequestAdded requestId promptTokenIds).1 ∧
      (s.matcher.positional = true →
        (s.onRequestAdded requestId promptTokenIds).2 = some rec.tokenIds.length) := by
  cases s with
  | random vocabSize => cases hrec
  | replay records vocabSize =>
      refine ⟨?_, by simp [matcher, Matcher.positional]⟩
      exact congrArg (Option.map RecordedOutput.tokenIds) hrec
  | prefixMatch p =>
      refine ⟨?_, by simp [matcher, Matcher.positional]⟩
      exact congrArg (Option.map RecordedOutput.tokenIds) hrec
  | dataset d =>
      have hnone : d.row requestId = none := by
        rw [HFDatasetTokens.row, show d.assignments.get? requestId = none from hidle]
        rfl
      have hassign : ∀ (i : ℕ) consumed,
          (dataset { d.assign requestId i with consumed := consumed }).recordedOutput requestId =
              some rec →
            Serving rec.tokenIds requestId 0
                (dataset { d.assign requestId i with consumed := consumed }) ∧
              d.rows[i]?.map (fun row => row.responseTokens.length) =
                some rec.tokenIds.length := by
        intro i consumed h
        simp only [recordedOutput, HFDatasetTokens.row, HFDatasetTokens.assign,
          SortedMap.get?_insert_self, Option.bind_some] at h
        obtain ⟨row, hrow, rfl⟩ := Option.map_eq_some_iff.mp h
        simp [Serving, HFDatasetTokens.row, HFDatasetTokens.assign, hrow]
      simp only [onRequestAdded, HFDatasetTokens.onRequestAdded] at hrec ⊢
      cases hmatch : d.replayMatch with
      | index =>
          simp only [hmatch] at hrec ⊢
          cases hfound : (recordIndex requestId).bind
              (fun i => d.rows[i]?.map (fun row => (i, row))) with
          | none => simp [hfound, recordedOutput, hnone] at hrec
          | some found =>
              obtain ⟨i, row⟩ := found
              simp only [hfound] at hrec ⊢
              obtain ⟨j, _, hj⟩ := Option.bind_eq_some_iff.mp hfound
              obtain ⟨row', hrow, heq⟩ := Option.map_eq_some_iff.mp hj
              obtain ⟨rfl, rfl⟩ := Prod.mk.inj heq
              obtain ⟨hserving, hlen⟩ := hassign j d.consumed hrec
              refine ⟨hserving, fun _ => ?_⟩
              rw [← hlen, hrow, Option.map_some]
      | prefixed =>
          simp only [hmatch] at hrec ⊢
          cases hfound : (promptBlockHashes promptTokenIds d.blockSize).bind
              (fun chain => d.byHash.claim d.consumed chain.reverse) with
          | none => simp [hfound, recordedOutput, hnone] at hrec
          | some i =>
              simp only [hfound] at hrec ⊢
              obtain ⟨hserving, hlen⟩ := hassign i _ hrec
              exact ⟨hserving, fun _ => hlen⟩

end TokenSource

/-- The reason a request that generated `m` tokens ends with, given its match. -/
def endingReason (positional : Bool) (rec : RecordedOutput) (m : ℕ) : FinishReason :=
  if positional then if rec.tokenIds.length ≤ m then .stop else .length
  else rec.finishReason.getD .length

theorem Serving.reason {s : TokenSource} {requestId : String} {rec : RecordedOutput} {m : ℕ}
    (h : Serving rec.tokenIds requestId m s) (hrec : s.recordedOutput requestId = some rec) :
    (s.finishReason requestId).getD .length = endingReason s.matcher.positional rec m := by
  cases s with
  | random vocabSize => cases hrec
  | replay records vocabSize =>
      simp only [TokenSource.recordedOutput] at hrec
      simp [TokenSource.finishReason, hrec, endingReason, TokenSource.matcher,
        Matcher.positional]
  | prefixMatch p =>
      simp only [TokenSource.recordedOutput] at hrec
      simp [TokenSource.finishReason, hrec, endingReason, TokenSource.matcher,
        Matcher.positional]
  | dataset d =>
      obtain ⟨row, hrow, rfl⟩ := Option.map_eq_some_iff.mp hrec
      have hposition := h.2
      simp only [TokenSource.finishReason, HFDatasetTokens.finishReason, hrow, Option.bind_some,
        HFDatasetTokens.position, hposition, Option.getD_some, endingReason,
        TokenSource.matcher, Matcher.positional, if_true, le_min_iff, DatasetRow.output_tokenIds, le_refl, and_true]
      split <;> rfl

open SimEngine

/-! ## What the engine's source keeps of the batch -/

/-- A request of the batch, against the output it was matched to. -/
structure Retelling (e : SimEngine env) (rec : Option RecordedOutput) (id : String)
    (r : ActiveRequest env) : Prop where
  requestId : r.requestId = id
  recorded : e.tokenSource.recordedOutput id = rec
  counted : (e.tokensOf r.ticket).length = r.generated
  serving : ∀ out, rec = some out → Serving out.tokenIds id r.generated e.tokenSource
  told : ∀ out, rec = some out →
    (e.tokensOf r.ticket).take out.tokenIds.length = out.tokenIds.take r.generated
  within : e.tokenSource.matcher.positional = true → ∀ out, rec = some out →
    r.maxTokens ≤ out.tokenIds.length

/-- What one source keeps of a request, another keeps as well. -/
structure Agrees (id : String) (s s' : TokenSource) : Prop where
  matcher : s'.matcher.positional = s.matcher.positional
  recorded : s'.recordedOutput id = s.recordedOutput id
  serving : ∀ output n, Serving output id n s → Serving output id n s'

theorem Agrees.refl (id : String) (s : TokenSource) : Agrees id s s := ⟨rfl, rfl, fun _ _ h => h⟩

namespace Retelling

variable {e e' : SimEngine env} {rec : Option RecordedOutput} {id : String}
  {r r' : ActiveRequest env}

theorem kept (h : Retelling e rec id r) (hid : r'.requestId = r.requestId)
    (hticket : r'.ticket = r.ticket) (hgenerated : r'.generated = r.generated)
    (hcap : r'.maxTokens = r.maxTokens) (hchunks : e'.chunksOf r.ticket = e.chunksOf r.ticket)
    (hsource : Agrees id e.tokenSource e'.tokenSource) : Retelling e' rec id r' := by
  have htokens : e'.tokensOf r'.ticket = e.tokensOf r.ticket := by
    rw [hticket, tokensOf, hchunks, tokensOf]
  refine ⟨hid.trans h.requestId, hsource.recorded.trans h.recorded, ?_, ?_, ?_, ?_⟩
  · rw [htokens, hgenerated, h.counted]
  · intro out hout
    rw [hgenerated]
    exact hsource.serving _ _ (h.serving out hout)
  · intro out hout
    rw [htokens, hgenerated]
    exact h.told out hout
  · intro hpositional out hout
    rw [hcap]
    exact h.within (hsource.matcher ▸ hpositional) out hout

end Retelling

/-- The batch, each request against the output in `told` that its ticket was matched to. -/
structure Retold (told : ℕ → Option RecordedOutput) (m : Matcher) (e : SimEngine env) : Prop where
  matcher : e.tokenSource.matcher = m
  idle : ∀ id, e.activeRequests.get? id = none → e.tokenSource.Idle id
  distinct : e.DistinctTickets
  live : ∀ id r, e.activeRequests.get? id = some r → Retelling e (told r.ticket) id r

namespace Retold

variable {told : ℕ → Option RecordedOutput} {m : Matcher} {e e' : SimEngine env}

theorem congr (h : Retold told m e) (hsource : e'.tokenSource = e.tokenSource)
    (hactive : e'.activeRequests = e.activeRequests)
    (hchunks : ∀ k, e'.chunksOf k = e.chunksOf k) : Retold told m e' := by
  refine ⟨hsource ▸ h.matcher, ?_, ?_, ?_⟩
  · rw [hsource, hactive]
    exact h.idle
  · unfold DistinctTickets
    rw [hactive]
    exact h.distinct
  · intro id r hr
    rw [hactive] at hr
    exact (h.live id r hr).kept rfl rfl rfl rfl (hchunks _) (hsource ▸ .refl id _)

/-- Every request is replaced by one with the same ticket, count and cap. -/
theorem mapped (h : Retold told m e) (hsource : e'.tokenSource = e.tokenSource)
    (hchunks : ∀ k, e'.chunksOf k = e.chunksOf k)
    (hactive : ∀ id, ∃ f : ActiveRequest env → ActiveRequest env,
      e'.activeRequests.get? id = (e.activeRequests.get? id).map f ∧
      ∀ r, (f r).requestId = r.requestId ∧ (f r).ticket = r.ticket ∧
        (f r).generated = r.generated ∧ (f r).maxTokens = r.maxTokens) : Retold told m e' := by
  have hback : ∀ id r', e'.activeRequests.get? id = some r' → ∃ r,
      e.activeRequests.get? id = some r ∧ r'.requestId = r.requestId ∧ r'.ticket = r.ticket ∧
        r'.generated = r.generated ∧ r'.maxTokens = r.maxTokens := by
    intro id r' hr'
    obtain ⟨f, hf, hsame⟩ := hactive id
    rw [hf] at hr'
    obtain ⟨r, hr, rfl⟩ := Option.map_eq_some_iff.mp hr'
    exact ⟨r, hr, hsame r⟩
  refine ⟨hsource ▸ h.matcher, ?_, ?_, ?_⟩
  · intro id hnone
    obtain ⟨f, hf, _⟩ := hactive id
    rw [hf, Option.map_eq_none_iff] at hnone
    rw [hsource]
    exact h.idle id hnone
  · intro id id' r r' hr hr' hticket
    obtain ⟨t, ht, _, hticket₁, _⟩ := hback id r hr
    obtain ⟨t', ht', _, hticket₂, _⟩ := hback id' r' hr'
    exact h.distinct id id' t t' ht ht' (by rw [← hticket₁, hticket, hticket₂])
  · intro id r' hr'
    obtain ⟨r, hr, hid, hticket, hgenerated, hcap⟩ := hback id r' hr'
    rw [hticket]
    exact (h.live id r hr).kept hid hticket hgenerated hcap (hchunks _) (hsource ▸ .refl id _)

theorem retire (h : Retold told m e) (id : String) : Retold told m (e.retire id) := by
  unfold SimEngine.retire
  split
  · exact h
  · next r hr =>
      have hid := (h.live id r hr).requestId
      refine ⟨(TokenSource.onRequestFinished_matcher _).trans h.matcher, ?_, ?_, ?_⟩
      · intro id' hnone
        apply TokenSource.onRequestFinished_idle
        by_cases hsame : r.requestId = id'
        · exact Or.inl hsame
        · right
          apply h.idle
          rwa [SortedMap.get?_erase_of_ne _ _ _ (fun heq => hsame (hid.trans heq.symm))] at hnone
      · intro id₁ id₂ r₁ r₂ hr₁ hr₂ hticket
        simp only [SortedMap.get?_erase] at hr₁ hr₂
        split at hr₁
        · cases hr₁
        · split at hr₂
          · cases hr₂
          · exact h.distinct id₁ id₂ r₁ r₂ hr₁ hr₂ hticket
      · intro id' r' hr'
        simp only [SortedMap.get?_erase] at hr'
        split at hr'
        · cases hr'
        · next hne =>
            have hother : r.requestId ≠ id' := fun heq => hne (heq ▸ hid)
            refine (h.live id' r' hr').kept rfl rfl rfl rfl rfl ⟨?_, ?_, ?_⟩
            · rw [TokenSource.onRequestFinished_matcher]
            · exact TokenSource.onRequestFinished_keeps _ hother
            · exact fun output n hserving => hserving.finished hother

/-- A request enters, and its ticket is matched to what the source now keeps for its id. -/
theorem activate (h : Retold told m e) {id : String} {r : ActiveRequest env}
    (hnone : e.activeRequests.get? id = none) (hid : r.requestId = id)
    (hgenerated : r.generated = 0) (hchunks : e.chunksOf r.ticket = [])
    (hfresh : ∀ id' r', e.activeRequests.get? id' = some r' → r'.ticket ≠ r.ticket) :
    Retold (Function.update told r.ticket (m.claim id r.promptTokenIds).2)
      (m.claim id r.promptTokenIds).1 (e.activate now id r) := by
  obtain ⟨maxTokens, scripted, hcap, hpinned⟩ := r.pinned_eq
    (e.tokenSource.onRequestAdded r.requestId r.promptTokenIds).2
    (e.takeSchedule r.requestId r.promptTokenIds).2
  have hactive : (e.activate now id r).activeRequests = e.activeRequests.insert id
      { r with maxTokens := maxTokens, scriptedDecode := scripted } := by
    rw [← hpinned]
    rfl
  have hlogged : ∀ k, (e.activate now id r).chunksOf k = e.chunksOf k := fun k => chunksOf_log rfl
  have hclamped : ∀ len, (e.tokenSource.onRequestAdded r.requestId r.promptTokenIds).2 = some len →
      maxTokens ≤ len := by
    intro len hlen
    rw [hlen] at hpinned
    have hmax := congrArg ActiveRequest.maxTokens hpinned
    change ((r.clampTokens (some len)).script _).maxTokens = maxTokens at hmax
    rw [← hmax]
    have hclamp : (r.clampTokens (some len)).maxTokens ≤ len := min_le_right _ _
    cases (e.takeSchedule r.requestId r.promptTokenIds).2 with
    | none => exact hclamp
    | some schedule => exact (min_le_left _ _).trans hclamp
  subst hid
  have hclaim := e.tokenSource.onRequestAdded_claim (h.idle _ hnone) r.promptTokenIds
  rw [h.matcher] at hclaim
  refine ⟨hclaim.1, ?_, ?_, ?_⟩
  · intro id' hnone'
    rw [hactive, SortedMap.get?_insert] at hnone'
    split at hnone'
    · cases hnone'
    · next hne =>
        exact (e.tokenSource.onRequestAdded_keeps (Ne.symm hne) r.promptTokenIds).2
          (h.idle id' hnone')
  · intro id₁ id₂ r₁ r₂ hr₁ hr₂ hticket
    rw [hactive, SortedMap.get?_insert] at hr₁ hr₂
    split at hr₁
    · next heq₁ =>
        split at hr₂
        · next heq₂ => exact heq₁.trans heq₂.symm
        · cases hr₁
          exact absurd hticket.symm (hfresh id₂ r₂ hr₂)
    · split at hr₂
      · cases hr₂
        exact absurd hticket (hfresh id₁ r₁ hr₁)
      · exact h.distinct id₁ id₂ r₁ r₂ hr₁ hr₂ hticket
  · intro id' r' hr'
    rw [hactive, SortedMap.get?_insert] at hr'
    split at hr'
    · next heq =>
        cases hr'
        subst heq
        have hnew : (e.activate now r.requestId r).tokensOf r.ticket = [] := by
          rw [tokensOf, hlogged, hchunks]
          rfl
        have hmatched : ∀ out, (e.tokenSource.onRequestAdded r.requestId
            r.promptTokenIds).1.recordedOutput r.requestId = some out → _ ∧ _ :=
          fun out => e.tokenSource.onRequestAdded_matched (h.idle _ hnone)
        rw [Function.update_self, ← hclaim.2]
        refine ⟨rfl, rfl, ?_, ?_, ?_, ?_⟩
        · rw [hnew, hgenerated]
          rfl
        · intro out hout
          rw [hgenerated]
          exact (hmatched out hout).1
        · intro out _
          rw [hnew, hgenerated, List.take_nil, List.take_zero]
        · intro hpositional out hout
          change (e.tokenSource.onRequestAdded r.requestId r.promptTokenIds).1.matcher.positional =
            true at hpositional
          rw [hclaim.1, Matcher.claim_positional, ← h.matcher] at hpositional
          exact hclamped _ ((hmatched out hout).2 hpositional)
    · next hne =>
        rw [Function.update_of_ne (hfresh id' r' hr')]
        refine (h.live id' r' hr').kept rfl rfl rfl rfl (hlogged _) ⟨?_, ?_, ?_⟩
        · change (e.tokenSource.onRequestAdded _ _).1.matcher.positional = _
          rw [hclaim.1, Matcher.claim_positional, h.matcher]
        · exact (e.tokenSource.onRequestAdded_keeps (Ne.symm hne) _).1
        · exact fun output n hserving => hserving.added (Ne.symm hne) _

theorem popEmits (h : Retold told m e) (now : Instant) : Retold told m (e.popEmits now) := by
  refine h.mapped ?_ (fun _ => ?_) (fun id => ?_)
  · rfl
  · rfl
  refine ⟨fun r => (r.emitDue e.tokenSource now).1, ?_, fun r => ?_⟩
  · rw [popEmits_activeRequests, SortedMap.get?_mapValues]
  · dsimp only
    rw [ActiveRequest.emitDue, ActiveRequest.emitQueue_request]
    exact ⟨rfl, rfl, rfl, rfl⟩

theorem composeStep (h : Retold told m e) (anchor : Instant) :
    Retold told m (e.composeStep anchor) := by
  refine h.mapped ?_ (fun _ => ?_) (fun id => ?_)
  · rfl
  · rfl
  refine ⟨fun r => if r.isDecoding then (e.drawFor r).2 else r, ?_, fun r => ?_⟩
  · change e.drawDecoders.1.activeRequests.get? id = _
    simp only [drawDecoders, SortedMap.get?_mapValues]
  · dsimp only
    split
    · unfold drawFor ActiveRequest.drawStep
      split
      · exact ⟨rfl, rfl, rfl, rfl⟩
      · exact ⟨rfl, rfl, rfl, rfl⟩
    · exact ⟨rfl, rfl, rfl, rfl⟩

/-- A generation of the request goes on with its match, and leaves the others alone. -/
theorem generateFor (h : Retold told m e) {id : String} {r r₁ : ActiveRequest env}
    (hr : e.activeRequests.get? id = some r) (hid : r₁.requestId = r.requestId)
    (hticket : r₁.ticket = r.ticket) (hgenerated : r₁.generated = r.generated)
    (hcap : r₁.maxTokens = r.maxTokens) (stepEnd : Instant) (entry : ℕ) (byDecoder : Bool)
    (n : ℕ) : Retold told m (e.generateFor stepEnd id entry byDecoder n r₁) := by
  have hchunks := generateFor_chunksOf stepEnd id entry byDecoder n r₁ e
  have hactive : (e.generateFor stepEnd id entry byDecoder n r₁).activeRequests =
      e.activeRequests.insert id
        (r₁.generate e.tokenSource stepEnd n e.opt.effectiveTimeScale e.emitSeq).1 := rfl
  have hsource : (e.generateFor stepEnd id entry byDecoder n r₁).tokenSource =
      (r₁.generate e.tokenSource stepEnd n e.opt.effectiveTimeScale e.emitSeq).2.1 := rfl
  have hlive := h.live id r hr
  have hkept : Retelling e (told r₁.ticket) id r₁ := by
    rw [hticket]
    exact hlive.kept hid hticket hgenerated hcap rfl (.refl id _)
  have hdistinct : (e.generateFor stepEnd id entry byDecoder n r₁).DistinctTickets := by
    have hsame := (generate_stands r₁ e.tokenSource stepEnd n e.opt.effectiveTimeScale
      e.emitSeq).1.trans hticket
    intro id₁ id₂ r₁' r₂' hr₁ hr₂ heq
    rw [hactive, SortedMap.get?_insert] at hr₁ hr₂
    split at hr₁
    · next hid₁ =>
        split at hr₂
        · next hid₂ => exact hid₁.trans hid₂.symm
        · cases hr₁
          rw [hid₁]
          exact h.distinct id id₂ r r₂' hr hr₂ (hsame.symm.trans heq)
    · split at hr₂
      · next hid₂ =>
          cases hr₂
          rw [hid₂]
          exact h.distinct id₁ id r₁' r hr₁ hr (heq.trans hsame)
      · exact h.distinct id₁ id₂ r₁' r₂' hr₁ hr₂ heq
  -- Whatever the generation did to the source, it agrees on the other ids.
  have hothers : (e.generateFor stepEnd id entry byDecoder n r₁).tokenSource.matcher = m → (∀ id', id' ≠ id → Agrees id' e.tokenSource
        (e.generateFor stepEnd id entry byDecoder n r₁).tokenSource ∧
        (e.tokenSource.Idle id' →
          (e.generateFor stepEnd id entry byDecoder n r₁).tokenSource.Idle id')) →
      (∀ r', r' = (r₁.generate e.tokenSource stepEnd n e.opt.effectiveTimeScale e.emitSeq).1 →
        Retelling (e.generateFor stepEnd id entry byDecoder n r₁) (told r'.ticket) id r') →
      Retold told m (e.generateFor stepEnd id entry byDecoder n r₁) := by
    intro hmatcher hagrees hself
    refine ⟨hmatcher, ?_, hdistinct, ?_⟩
    · intro id' hnone
      rw [hactive, SortedMap.get?_insert] at hnone
      split at hnone
      · cases hnone
      · next hne => exact (hagrees id' hne).2 (h.idle id' hnone)
    · intro id' r' hr'
      rw [hactive, SortedMap.get?_insert] at hr'
      split at hr'
      · next heq =>
          subst heq
          exact hself r' (Option.some.inj hr').symm
      · next hne =>
          apply (h.live id' r' hr').kept rfl rfl rfl rfl _ (hagrees id' hne).1
          rw [hchunks, if_neg, List.append_nil]
          intro heq
          exact hne (h.distinct id' id r' r hr' hr (heq.symm.trans hticket))
  by_cases hlen : r₁.chunkLen n = 0
  · have hgen : r₁.generate e.tokenSource stepEnd n e.opt.effectiveTimeScale e.emitSeq =
        (r₁, e.tokenSource, none) := by simp [ActiveRequest.generate, hlen]
    rw [hgen] at hsource hothers
    rw [hgen] at hchunks
    apply hothers
    · rw [hsource]
      exact h.matcher
    · intro id' _
      rw [hsource]
      exact ⟨.refl id' _, fun hidle => hidle⟩
    · rintro r' rfl
      apply hkept.kept rfl rfl rfl rfl _ (hsource ▸ .refl id _)
      rw [hchunks]
      simp
  · obtain ⟨ctx, hctx⟩ : ∃ ctx : TokenCtx, ctx = ⟨r₁.requestId, r₁.promptTokenIds, r₁.generated⟩ :=
      ⟨_, rfl⟩
    have hrequest : ctx.requestId = id := by rw [hctx]; exact hid.trans hlive.requestId
    have hcount : ctx.numGenerated = r₁.generated := by rw [hctx]
    have hgen : r₁.generate e.tokenSource stepEnd n e.opt.effectiveTimeScale e.emitSeq =
        ({ r₁ with
            rng := (e.tokenSource.nextTokens env ctx (r₁.chunkLen n) r₁.rng).2.1
            generated := r₁.generated +
              (e.tokenSource.nextTokens env ctx (r₁.chunkLen n) r₁.rng).1.length
            pendingEmits := r₁.pendingEmits ++
              [⟨stepEnd + r₁.emitOffset / e.opt.effectiveTimeScale, e.emitSeq,
                (e.tokenSource.nextTokens env ctx (r₁.chunkLen n) r₁.rng).1⟩] },
          (e.tokenSource.nextTokens env ctx (r₁.chunkLen n) r₁.rng).2.2,
          some ⟨stepEnd + r₁.emitOffset / e.opt.effectiveTimeScale, e.emitSeq,
            (e.tokenSource.nextTokens env ctx (r₁.chunkLen n) r₁.rng).1⟩) := by
      rw [hctx]
      simp only [ActiveRequest.generate, if_neg hlen]
    have hkeeps := fun id' => e.tokenSource.nextTokens_keeps id' ctx (r₁.chunkLen n) r₁.rng
    rw [hgen] at hsource hothers
    rw [hgen] at hchunks
    apply hothers
    · rw [hsource]
      exact (hkeeps id).1.trans h.matcher
    · intro id' hne
      rw [hsource]
      refine ⟨⟨congrArg Matcher.positional (hkeeps id').1, (hkeeps id').2.1, ?_⟩, (hkeeps id').2.2⟩
      exact fun output m hserving => hserving.next_other (hrequest ▸ Ne.symm hne) _ _
    · rintro r' rfl
      have hlength : (e.tokenSource.nextTokens env ctx (r₁.chunkLen n) r₁.rng).1.length =
          r₁.chunkLen n := e.tokenSource.nextTokens_length env ctx _ _
      have htokens : (e.generateFor stepEnd id entry byDecoder n r₁).tokensOf r₁.ticket =
          e.tokensOf r₁.ticket ++ (e.tokenSource.nextTokens env ctx (r₁.chunkLen n) r₁.rng).1 := by
        rw [tokensOf, hchunks, if_pos rfl, List.flatMap_append, tokensOf]
        simp
      refine ⟨hkept.requestId, ?_, ?_, ?_, ?_, ?_⟩
      · rw [hsource]
        exact (hkeeps id).2.1.trans hkept.recorded
      · rw [htokens, List.length_append, hkept.counted]
      · intro out hout
        rw [hsource]
        dsimp only
        rw [hlength]
        exact ((hkept.serving out hout).next hrequest hcount _ _).2
      · intro out hout
        have hnext := ((hkept.serving out hout).next hrequest hcount (r₁.chunkLen n) r₁.rng).1
        dsimp only
        rw [htokens, List.take_append, hkept.told out hout, hkept.counted, hnext, hlength,
          List.take_add]
      · intro hpositional out hout
        rw [hsource, (hkeeps id).1] at hpositional
        exact hkept.within hpositional out hout

theorem executeStep (h : Retold told m e) (step : EngineStep) :
    Retold told m (e.executeStep step) := by
  apply executeStep_rule
  · exact h.congr rfl rfl (fun _ => chunksOf_log rfl)
  · exact fun e spec h => h.congr rfl rfl (fun _ => rfl)
  · exact fun e entry ticket take h => h.congr rfl rfl (fun _ => chunksOf_log rfl)
  · intro e id r m n hr _ _ h
    refine h.mapped ?_ (fun _ => ?_) (fun id' => ?_)
    · rfl
    · rfl
    · by_cases hid : id' = id
      · subst hid
        refine ⟨fun r => { r with phase := .prefill n }, ?_, fun _ => ⟨rfl, rfl, rfl, rfl⟩⟩
        simp [hr]
      · refine ⟨fun r => r, ?_, fun _ => ⟨rfl, rfl, rfl, rfl⟩⟩
        simp [SortedMap.get?_insert_of_ne _ _ _ _ hid]
  · exact fun e r h => h.congr rfl rfl (fun _ => rfl)
  · intro e id r r₁ entry byDecoder n hr hstart h
    rcases hstart with rfl | ⟨_, numRunning, rfl⟩
    · exact h.generateFor hr rfl rfl rfl rfl _ _ _ _
    · refine h.generateFor hr ?_ ?_ ?_ ?_ _ _ _ _
      · rfl
      · rfl
      · rfl
      · rfl

/-- The request built for a queued ticket enters. -/
theorem entered (h : Retold told m e) (hen : Enrolled e) (ho : Ordered e) {id : String}
    {queued : QueuedRequest} {blockIds : List ℕ} {r : ActiveRequest env} {e₁ : SimEngine env}
    (hr : r.BuiltFrom queued blockIds) (hprompt : r.promptTokenIds = queued.request.prompt)
    (hid : queued.request.requestId = id) (hqueued : e.Queued queued.ticket)
    (hnone : e.activeRequests.get? id = none) (hsource : e₁.tokenSource = e.tokenSource)
    (hactive : e₁.activeRequests = e.activeRequests)
    (hchunks : ∀ k, e₁.chunksOf k = e.chunksOf k) :
    Retold (Function.update told queued.ticket
        (m.claim queued.request.requestId queued.request.prompt).2)
      (m.claim queued.request.requestId queued.request.prompt).1 (e₁.activate now id r) := by
  have hnew : queued.ticket ∉ e.admissions := fun hmem => hen.queued _ hmem hqueued
  rw [← hr.ticket, ← hprompt, hid]
  apply (h.congr hsource hactive hchunks).activate
  · rw [hactive]
    exact hnone
  · exact hr.requestId.trans hid
  · exact hr.generated
  · rw [hchunks, hr.ticket]
    by_contra hsome
    exact hnew (ho.admitted _ hsome)
  · intro id' r' hr' hticket
    rw [hactive] at hr'
    exact hnew (hr.ticket ▸ hticket ▸ hen.active id' r' hr')

end Retold

/-- A move keeps the matches, or lets in one request and matches it. -/
theorem Move.retold {told : ℕ → Option RecordedOutput} {m : Matcher} {e e' : SimEngine env}
    {effect : Effect} (h : Move now e effect e') (he : Sound e) (hen : Enrolled e)
    (ho : Ordered e) (hr : Retold told m e) :
    (e'.admissions = e.admissions ∧ Retold told m e') ∨
      ∃ q, e.Waits q ∧ e'.admissions = e.admissions ++ [q.ticket] ∧
        Retold (Function.update told q.ticket (m.claim q.request.requestId q.request.prompt).2)
          (m.claim q.request.requestId q.request.prompt).1 e' := by
  have hsame : ∀ {u v : SimEngine env}, v.journal = u.journal → ∀ k, v.chunksOf k = u.chunksOf k :=
    fun hjournal k => by rw [chunksOf, hjournal, chunksOf]
  have hstill : e'.journal = e.journal → Retold told m e' →
      e'.admissions = e.admissions ∧ Retold told m e' :=
    fun hjournal hr' => ⟨by rw [admissions, hjournal, admissions], hr'⟩
  have hdequeued : ∀ {i : ℕ} {queued : QueuedRequest} {v : SimEngine env},
      v.journal = (e.dequeue i queued).1.journal →
        v.admissions = e.admissions ∧ ∀ k, v.chunksOf k = e.chunksOf k := by
    intro i queued v hjournal
    have hcached := hjournal.trans (dequeue_journal i queued e)
    refine ⟨?_, chunksOf_quiet hcached (by simp [Event.IsQuiet])⟩
    rw [admissions_append hcached]
    exact List.append_nil _
  cases h with
  | arrivalFailed | arrivalRejected | enqueued | configured | adaptersChanged | specCleared
  | statsReset | orphaned | drained | pullRefused =>
      left
      apply hstill
      · simp [SimEngine.schedulerStats]
      · apply hr.congr
        · simp [SimEngine.schedulerStats]
        · simp [SimEngine.schedulerStats]
        · exact hsame (by simp [SimEngine.schedulerStats])
  | cacheReset =>
      left
      apply hstill
      · unfold SimEngine.resetPrefixCache
        split <;> rfl
      · unfold SimEngine.resetPrefixCache
        split
        · exact hr.congr rfl rfl (hsame rfl)
        · exact hr
  | @parked i queued hadm =>
      have hkept := @hdequeued i queued _ (park_journal queued (e.dequeue i queued).2 _)
      exact Or.inl ⟨hkept.1, hr.congr (by simp) (by simp) hkept.2⟩
  | @refused i queued hadm reason =>
      have hkept := @hdequeued i queued (((e.dequeue i queued).1.pruneBigAdmissions
        now).failAdmission (e.dequeue i queued).2.blockIds) (by simp)
      exact Or.inl ⟨hkept.1, hr.congr (by simp) (by simp) hkept.2⟩
  | @admitted i queued hadm active hbuild =>
      obtain ⟨r, hentry⟩ := hadm.entry hbuild
      have hready := @hdequeued i queued ((e.dequeue i queued).1.pruneBigAdmissions now) (by simp)
      refine Or.inr ⟨queued, hentry.waits, hentry.admissions, ?_⟩
      apply hr.entered hen ho (buildRequest_ok hbuild) (ActiveRequest.new_prompt hbuild) rfl
      · exact queued_iff.mpr ⟨queued, hentry.waits, rfl⟩
      · exact (free_of_perm he.ids (live_dequeue hadm.waiting)).1
      · simp
      · simp
      · exact hready.2
  | @promoted task htask pending hpending active hbuild =>
      have hwaits : e.Waits pending.queued := Or.inl ⟨_, pending, hpending, rfl⟩
      have hlive : e.live.Perm ((task.requestId, pending.queued.ticket) ::
          ((e.receivePull task).unpark now task.requestId).live) :=
        live_erase_pending hpending (by simp) (by simp) (by simp)
      have hfree := (free_of_perm he.ids hlive).1
      rw [unpark_activeRequests] at hfree
      have hentered : Retold _ _ (((e.receivePull task).unpark now task.requestId).activate now
          task.requestId active) :=
        hr.entered hen ho (buildRequest_ok hbuild) (ActiveRequest.new_prompt hbuild)
          (he.pending _ _ hpending) (queued_iff.mpr ⟨_, hwaits, rfl⟩) hfree (by simp) (by simp)
          (hsame (by simp))
      obtain ⟨r, _, hticket, _, hjournal⟩ := activate_entered
        (e := (e.receivePull task).unpark now task.requestId) now (buildRequest_ok hbuild)
        (he.pending _ _ hpending)
      refine Or.inr ⟨pending.queued, hwaits, ?_, hentered.congr rfl rfl (fun _ => chunksOf_log rfl)⟩
      rw [admissions, log_journal, hjournal, unpark_journal, List.filterMap_append,
        List.filterMap_append, ← hticket]
      exact List.append_nil _
  | @withdrawn id e₁ client ticket hwithdraw =>
      rcases withdraw_some hwithdraw with ⟨r, _, _, _, rfl⟩ | ⟨p, _, _, _, rfl⟩ |
        ⟨i, q, _, _, _, _, rfl⟩
      · exact Or.inl (hstill (retire_flushed (.refl e) id).journal
          ((hr.retire id).congr rfl rfl (hsame rfl)))
      · exact Or.inl (hstill rfl (hr.congr rfl rfl (hsame rfl)))
      · exact Or.inl (hstill rfl (hr.congr rfl rfl (hsame rfl)))
  | composed anchor => exact Or.inl (hstill rfl (hr.composeStep anchor))
  | @executed step =>
      have htaken : Retold told m e.takeStep := hr.congr rfl rfl (hsame rfl)
      refine Or.inl ⟨?_, htaken.executeStep step⟩
      exact executeStep_journal _ step e.takeStep rfl (fun _ _ _ => rfl) (fun _ => rfl)
  | flushed =>
      exact Or.inl (hstill (e.flush_flushed now).journal
        (flush_preserves (hr.popEmits now) (fun _ id h => h.retire id)))

/-! ## The matches of a run -/

/-- The batch follows the matches of the requests admitted so far. -/
def Matched (m₀ : Matcher) (requests : List EngineCoreRequest) (e : SimEngine env) : Prop :=
  Retold (toldBy (matchOut requests m₀ e.admissions).2) (matchOut requests m₀ e.admissions).1 e

/-- A token source as the engine builds it. -/
inductive TokenSource.Loaded : TokenSource → Prop
  | random (vocabSize : ℕ) : Loaded (.random vocabSize)
  | replay (records : List TraceRecord) (vocabSize : ℕ) :
      Loaded (.replay (records.map .ofRecord) vocabSize)
  | prefixMatch (records : List TraceRecord) (blockSize vocabSize : ℕ) :
      Loaded (.prefixMatch (.fromRecords records blockSize vocabSize))
  | dataset (rows : List DatasetRow) (blockSize vocabSize : ℕ) (replayMatch : ReplayMatch) :
      Loaded (.dataset (.fromRows rows blockSize vocabSize replayMatch))

theorem TokenSource.Loaded.idle {s : TokenSource} (h : s.Loaded) (id : String) : s.Idle id := by
  cases h with
  | random vocabSize => trivial
  | replay records vocabSize => trivial
  | prefixMatch records blockSize vocabSize => simp [Idle, PrefixMatchTokens.fromRecords]
  | dataset rows blockSize vocabSize replayMatch => simp [Idle, HFDatasetTokens.fromRows]

theorem Fresh.matched {e : SimEngine env} (h : Fresh e) (hloaded : e.tokenSource.Loaded) :
    Matched e.tokenSource.matcher [] e := by
  obtain ⟨engineIndex, opt, tokenSource, stepSource, hnew⟩ := h
  obtain ⟨latency, _, rfl⟩ := except_map_eq_ok hnew
  refine ⟨rfl, fun id _ => hloaded.idle id, ?_, ?_⟩
  · intro id id' r r' hr
    simp at hr
  · intro id r hr
    simp at hr

theorem Move.matched {source : Option StepSource} {m₀ : Matcher}
    {requests : List EngineCoreRequest} {e e' : SimEngine env} {effect : Effect}
    (h : Move now e effect e') (hst : Standing now e) (hi : Issued source requests e)
    (hm : Matched m₀ requests e) :
    Matched m₀ (requests ++ effect.issued) e' ∧ ∀ k ∈ e.admissions,
      toldBy (matchOut (requests ++ effect.issued) m₀ e'.admissions).2 k =
        toldBy (matchOut requests m₀ e.admissions).2 k := by
  have hsame : matchOut (requests ++ effect.issued) m₀ e.admissions =
      matchOut requests m₀ e.admissions :=
    matchOut_append (fun k hk => hi.length ▸ hst.enrolled.issued k hk) _
  rcases h.retold hst.sound hst.enrolled hst.timed.ordered hm with
    ⟨hadmissions, hkept⟩ | ⟨q, hwaits, hadmissions, hentered⟩
  · rw [Matched, hadmissions, hsame]
    exact ⟨hkept, fun _ _ => rfl⟩
  · have hrequest := hi.waits q hwaits
    have hlonger : (requests ++ effect.issued)[q.ticket]? = some q.request := by
      rw [List.getElem?_append_left (List.getElem?_eq_some_iff.mp hrequest).1, hrequest]
    have hnew : q.ticket ∉ e.admissions := fun hmem =>
      hst.enrolled.queued _ hmem (queued_iff.mpr ⟨q, hwaits, rfl⟩)
    have hkeys : q.ticket ∉ (matchOut requests m₀ e.admissions).2.map Prod.fst :=
      fun hmem => hnew ((matchOut_tickets requests m₀ e.admissions).1.subset hmem)
    rw [Matched, hadmissions, matchOut_snoc hlonger, hsame, toldBy_snoc hkeys]
    refine ⟨hentered, fun k hk => Function.update_of_ne ?_ _ _⟩
    rintro rfl
    exact hnew hk

/-- A normal finish comes once the match was followed through the cap. -/
def Ending (told : ℕ → Option RecordedOutput) (positional : Bool) (hist : List EngineCoreOutput)
    (e : SimEngine env) : Prop :=
  ∀ k, ∀ o ∈ outputsFor k hist, o.finishReason.isSome → o.emission.isSome → ∀ out,
    told k = some out →
      o.finishReason = some (endingReason positional out (e.tokensOf k).length) ∧
        (e.tokensOf k).take out.tokenIds.length = out.tokenIds.take (e.tokensOf k).length ∧
        (positional = true → (e.tokensOf k).length ≤ out.tokenIds.length)

/-- A finishing output carries the reason that the source tells. -/
theorem ActiveRequest.emitQueue_reason (source : TokenSource) (now : Instant)
    (es : List PendingEmit) (r : ActiveRequest env) :
    ∀ d ∈ (emitQueue source now es r).2, d.output.finishReason.isSome →
      d.output.finishReason = some ((source.finishReason r.requestId).getD .length) := by
  induction es generalizing r with
  | nil =>
      intro d hd
      cases hd
  | cons emit rest ih =>
      intro d hd hfin
      simp only [emitQueue] at hd
      split at hd
      · rcases List.mem_cons.mp hd with rfl | hrest
        · simp only [emitOne, requestOutput] at hfin ⊢
          split at hfin
          · next hlast => rw [if_pos hlast]
          · cases hfin
        · exact ih (r.emitOne source emit).1 d hrest hfin
      · cases hd

/-- What a flush finishes followed its match through the cap. -/
theorem Retold.finishes {told : ℕ → Option RecordedOutput} {m : Matcher} {e : SimEngine env}
    (h : Retold told m e) (he : Sound e) {d : DueEmit} (hd : d ∈ e.dueEmits now)
    (hfin : d.output.finishReason.isSome) :
    ∃ id r, e.activeRequests.get? id = some r ∧ d.output.ticket = some r.ticket ∧
      ∀ out, told r.ticket = some out →
        d.output.finishReason = some (endingReason m.positional out (e.tokensOf r.ticket).length) ∧
        (e.tokensOf r.ticket).take out.tokenIds.length =
          out.tokenIds.take (e.tokensOf r.ticket).length ∧
        (m.positional = true → (e.tokensOf r.ticket).length ≤ out.tokenIds.length) := by
  obtain ⟨r, hr, hshown⟩ := List.mem_flatMap.mp hd
  obtain ⟨id, hget⟩ := SortedMap.mem_values.mp hr
  have hd' := r.emitQueue_shown e.tokenSource now r.pendingEmits d hshown
  have hlive := h.live id r hget
  have hok := he.ok id r hget
  refine ⟨id, r, hget, hd'.ticket, fun out hout => ?_⟩
  rw [hlive.counted]
  refine ⟨?_, hlive.told out hout, fun hpositional => ?_⟩
  · rw [ActiveRequest.emitQueue_reason _ now _ r d hshown hfin, hlive.requestId,
      (hlive.serving out hout).reason (hlive.recorded.trans hout), h.matcher]
  · exact hok.capped.trans (hlive.within (h.matcher ▸ hpositional) out hout)

theorem Move.ending {told told' : ℕ → Option RecordedOutput} {m : Matcher}
    {e e' : SimEngine env} {effect : Effect} {hist : List EngineCoreOutput}
    (h : Move now e effect e') (hst : Standing now e) (hs : Streamed hist e)
    (hr : Retold told m e) (htold : ∀ k ∈ e.admissions, told' k = told k)
    (hend : Ending told m.positional hist e) :
    Ending told' m.positional (hist ++ effect.toOutputs) e' := by
  intro k o ho hfin hemission out hout
  have hs' := h.streamed hst.sound hst.enrolled hst.timed.ordered hs
  have hgone : ∀ id r, e'.activeRequests.get? id = some r → r.ticket ≠ k := by
    rintro id r hget rfl
    rw [(hs'.active id r hget).unfinished o ho] at hfin
    cases hfin
  have hkept : e'.tokensOf k = e.tokensOf k := by
    rw [tokensOf, h.chunks_kept hst.sound hgone, tokensOf]
  rw [hkept]
  rw [outputsFor_append, List.mem_append] at ho
  rcases ho with hold | hnew
  · have hadmitted : k ∈ e.admissions := by
      apply hst.timed.ordered.admitted
      intro hnone
      obtain ⟨emission, hemission⟩ := Option.isSome_iff_exists.mp hemission
      have hshown := (hs.stream k).shown
      rw [hnone, List.prefix_nil, List.filterMap_eq_nil_iff] at hshown
      have hchunk := hshown o hold
      rw [EngineCoreOutput.chunk, hemission] at hchunk
      cases hchunk
    exact hend k o hold hfin hemission out (htold k hadmitted ▸ hout)
  · obtain ⟨hshown, hticket⟩ := List.mem_filter.mp hnew
    rw [decide_eq_true_eq] at hticket
    cases h.batch hst.sound with
    | still _ _ _ _ _ _ hquiet =>
        rcases hquiet with hnone | ⟨ticket, id, reason, hone⟩
        · rw [hnone] at hshown
          cases hshown
        · rw [hone] at hshown
          cases List.mem_singleton.mp hshown
          cases hemission
    | entered _ _ _ _ _ _ _ _ _ hnone =>
        rw [hnone] at hshown
        cases hshown
    | withdrew =>
        cases List.mem_singleton.mp hshown
        cases hemission
    | composed => cases hshown
    | executed => cases hshown
    | flushed =>
        obtain ⟨d, hd, rfl⟩ := List.mem_map.mp hshown
        obtain ⟨id, r, hget, hmine, hfollowed⟩ := hr.finishes hst.sound hd hfin
        obtain rfl : k = r.ticket := Option.some.inj (hticket.symm.trans hmine)
        have hadmitted := hst.enrolled.active id r hget
        exact hfollowed out (htold _ hadmitted ▸ hout)

/-- The output that each admitted ticket of a run from `e₀` to `e` was matched to. -/
def matched (e₀ : SimEngine env) (turns : List (Turn env)) (e : SimEngine env) :
    List (ℕ × Option RecordedOutput) :=
  (matchOut (issued turns) e₀.tokenSource.matcher e.admissions).2

theorem Run.ending {e₀ e : SimEngine env} {turns : List (Turn env)} {clock : Instant}
    (hrun : Run e₀ turns e clock) (hfresh : Fresh e₀) (hloaded : e₀.tokenSource.Loaded) :
    Standing clock e ∧ Issued e₀.stepSource (VllmVcr.issued turns) e ∧
      Matched e₀.tokenSource.matcher (VllmVcr.issued turns) e ∧
      ∃ hist, Streamed hist e ∧
        Ending (toldBy (matched e₀ turns e)) e₀.tokenSource.matcher.positional hist e ∧
        ∀ o ∈ coreOutputs turns, ∃ o' ∈ hist, o'.bare = o.bare := by
  apply hrun.turnwise (P := fun turns e clock => Standing clock e ∧
    Issued e₀.stepSource (VllmVcr.issued turns) e ∧
    Matched e₀.tokenSource.matcher (VllmVcr.issued turns) e ∧ ∃ hist, Streamed hist e ∧
      Ending (toldBy (matched e₀ turns e)) e₀.tokenSource.matcher.positional hist e ∧
      ∀ o ∈ coreOutputs turns, ∃ o' ∈ hist, o'.bare = o.bare)
  · refine ⟨hfresh.standing, hfresh.issued, hfresh.matched hloaded, [], hfresh.streamed, ?_, ?_⟩
    · intro k o ho
      cases ho
    · intro o ho
      cases ho
  · rintro turns clock fuel t ⟨hst, hi, hm, hist, hs, hend, hshown⟩ hclock hperform
    obtain ⟨os, hemits, hperm⟩ := perform_emits hperform
    obtain ⟨effects, hpath, hallow, rfl⟩ := hemits.allows
    have hissued := Turn.issued_eq hperform hpath hallow
    have hall := hpath.history (P := fun effects e => Standing t.now e ∧
      Issued e₀.stepSource (VllmVcr.issued turns ++ effects.flatMap Effect.issued) e ∧
      Matched e₀.tokenSource.matcher
        (VllmVcr.issued turns ++ effects.flatMap Effect.issued) e ∧
      Streamed (hist ++ effects.flatMap Effect.toOutputs) e ∧
      Ending (toldBy (matchOut (VllmVcr.issued turns ++ effects.flatMap Effect.issued)
          e₀.tokenSource.matcher e.admissions).2) e₀.tokenSource.matcher.positional
        (hist ++ effects.flatMap Effect.toOutputs) e) ?_ ?_
    · rw [hissued] at hall
      obtain ⟨hst', hi', hm', hs', hend'⟩ := hall
      have hturn : VllmVcr.issued (turns ++ [t]) = VllmVcr.issued turns ++ t.issued := by
        rw [VllmVcr.issued, List.flatMap_append, List.flatMap_singleton]
        rfl
      rw [matched, hturn]
      refine ⟨hst', hi', hm', _, hs', hend', fun o ho => ?_⟩
      have hsplit : coreOutputs (turns ++ [t]) = coreOutputs turns ++ coreOf t.outputs := by
        simp [coreOutputs, coreOf]
      rw [hsplit, List.mem_append] at ho
      rcases ho with hold | hnew
      · obtain ⟨o', ho', hbare⟩ := hshown o hold
        exact ⟨o', List.mem_append_left _ ho', hbare⟩
      · obtain ⟨o', ho', hbare⟩ := List.mem_map.mp
          (hperm.mem_iff.mp (List.mem_map_of_mem (f := EngineCoreOutput.bare) hnew))
        exact ⟨o', List.mem_append_right _ ho', hbare⟩
    · simp only [List.flatMap_nil, List.append_nil]
      exact ⟨hst.later hclock, hi, hm, hs, hend⟩
    · rintro effects e effect e' ⟨hst, hi, hm, hs, hend⟩ hmove
      obtain ⟨hm', htold⟩ := hmove.matched hst hi hm
      have hpositional : (matchOut (VllmVcr.issued turns ++ effects.flatMap Effect.issued)
          e₀.tokenSource.matcher e.admissions).1.positional =
            e₀.tokenSource.matcher.positional := (matchOut_tickets _ _ _).2
      have hnext := hmove.ending hst hs hm htold (hpositional ▸ hend)
      rw [hpositional, List.append_assoc hist] at hnext
      have hstream := hmove.streamed hst.sound hst.enrolled hst.timed.ordered hs
      rw [List.append_assoc] at hstream
      rw [List.flatMap_append, List.flatMap_singleton, List.flatMap_append, List.flatMap_singleton,
        ← List.append_assoc (VllmVcr.issued turns)]
      exact ⟨hmove.standing hst, hmove.issued hst.sound hst.enrolled hi, hm', hstream, hnext⟩

/-- The recorded reason when the stream is the recorded output, else that of a request that ends at
its cap. -/
def RecordedOutput.truthfulReason (out : RecordedOutput) (stream : List Token) : FinishReason :=
  if stream = out.tokenIds then out.finishReason.getD .length else .length

/-- The finishing output of a matched request carries the truthful reason exactly when the source is
a dataset, the cap is the recorded length, or the recorded reason is that of reaching a cap. -/
theorem finish_truthful_iff {e₀ e : SimEngine env} {turns : List (Turn env)} {clock : Instant}
    (hfresh : Fresh e₀) (hloaded : e₀.tokenSource.Loaded) (hrun : Run e₀ turns e clock)
    {k m : ℕ} {out : RecordedOutput} (hmatch : (k, some out) ∈ matched e₀ turns e)
    (hcap : (k, m) ∈ e.caps) {o : EngineCoreOutput} (ho : o ∈ outputsFor k (coreOutputs turns))
    (hfin : o.finishReason.isSome) (hsome : o.newTokenIds ≠ []) :
    o.finishReason = some (out.truthfulReason
        ((outputsFor k (coreOutputs turns)).flatMap EngineCoreOutput.newTokenIds)) ↔
      e₀.tokenSource.matcher.positional = true ∨ m = out.tokenIds.length ∨
        out.finishReason.getD .length = .length := by
  obtain ⟨hst, hi, hm, hist, hs, hend, hshown⟩ := hrun.ending hfresh hloaded
  obtain ⟨hframed, _, hstream⟩ := hrun.stream hfresh k
  obtain ⟨hchunks, hlength⟩ := hstream o ho hfin hsome
  have htokens : (outputsFor k (coreOutputs turns)).flatMap EngineCoreOutput.newTokenIds =
      e.tokensOf k := by
    rw [hframed.flatMap_tokens, hchunks, tokensOf]
  rw [htokens] at hlength ⊢
  obtain rfl : m = (e.tokensOf k).length := caps_unique hst.enrolled hcap hlength
  obtain ⟨hmem, hticket⟩ := List.mem_filter.mp ho
  obtain ⟨o', ho', hbare⟩ := hshown o hmem
  have hreason : o'.bare.finishReason = o.bare.finishReason := by rw [hbare]
  have hticket' : o'.bare.ticket = o.bare.ticket := by rw [hbare]
  have hemission : o'.emission.isSome := by
    have hsame : o'.bare.emission = o.bare.emission := by rw [hbare]
    by_contra hnone
    have hnothing : o.emission = none := hsame.symm.trans (Option.not_isSome_iff_eq_none.mp hnone)
    exact hsome (hframed.bare o ho hnothing).1
  have hkeys : ((matched e₀ turns e).map Prod.fst).Nodup :=
    hst.enrolled.once.sublist (matchOut_tickets _ _ _).1
  have hmine : o' ∈ outputsFor k hist := by
    refine List.mem_filter.mpr ⟨ho', ?_⟩
    rw [decide_eq_true_eq] at hticket ⊢
    exact hticket'.trans hticket
  have hfin' : o'.finishReason.isSome := by
    rw [show o'.finishReason = o.finishReason from hreason]
    exact hfin
  obtain ⟨hends, hfollows, hwithin⟩ := hend k o' hmine hfin' hemission out
    (toldBy_of_mem hkeys hmatch)
  rw [show o'.finishReason = o.finishReason from hreason] at hends
  have hexact : e.tokensOf k = out.tokenIds ↔ (e.tokensOf k).length = out.tokenIds.length := by
    constructor
    · exact fun heq => congrArg List.length heq
    · intro heq
      rwa [← heq, List.take_length, heq, List.take_length] at hfollows
  rw [hends, Option.some.injEq, RecordedOutput.truthfulReason]
  by_cases hpositional : e₀.tokenSource.matcher.positional = true
  · have hstop : out.finishReason = some .stop := matchOut_stops hmatch hpositional
    have hle := hwithin hpositional
    rw [endingReason, if_pos hpositional, hstop]
    refine iff_of_true ?_ (Or.inl hpositional)
    by_cases heq : e.tokensOf k = out.tokenIds
    · rw [if_pos heq, if_pos (hexact.mp heq).ge]
      rfl
    · rw [if_neg heq, if_neg (fun hge => heq (hexact.mpr (le_antisymm hle hge)))]
  · rw [endingReason, if_neg hpositional]
    by_cases heq : e.tokensOf k = out.tokenIds
    · rw [if_pos heq]
      exact iff_of_true rfl (Or.inr (Or.inl (hexact.mp heq)))
    · rw [if_neg heq]
      constructor
      · exact fun hlength => Or.inr (Or.inr hlength)
      · rintro (hdataset | hcapped | hlength)
        · exact absurd hdataset hpositional
        · exact absurd (hexact.mpr hcapped) heq
        · exact hlength

deriving instance DecidableEq for RecordedOutput

/-- A recording of three tokens that stopped. -/
def stoppedRecord : TraceRecord where
  outputTokens := 3
  outputTokenIds := some [7, 8, 9]
  finishReason := some .stop

/-- An engine that replays it by index. -/
def stoppedEngine : SimEngine demoEnv :=
  (SimEngine.new demoEnv 0 { demoOpt with replayTokens := some "capture" }
    (.replay ([stoppedRecord].map .ofRecord) 1) none).toOption.get (by rfl)

theorem stoppedEngine_fresh : Fresh stoppedEngine ∧ stoppedEngine.tokenSource.Loaded :=
  ⟨⟨0, { demoOpt with replayTokens := some "capture" },
    .replay ([stoppedRecord].map .ofRecord) 1, none, rfl⟩, .replay [stoppedRecord] 1⟩

/-- The finishing outputs of ticket 0, with the tokens of its stream. -/
def endings (turns : List (Turn env)) : List (Option FinishReason) × List Token :=
  (((outputsFor 0 (coreOutputs turns)).filter
      (fun o => o.finishReason.isSome ∧ o.newTokenIds ≠ [])).map EngineCoreOutput.finishReason,
    (outputsFor 0 (coreOutputs turns)).flatMap EngineCoreOutput.newTokenIds)

/-- Asked for all three recorded tokens, it tells that the output stopped, as it did. -/
theorem wholeStream_truthful :
    ∃ (turns : List (Turn demoEnv)) (e : SimEngine demoEnv) (clock : Instant)
      (o : EngineCoreOutput), Run stoppedEngine turns e clock ∧
      o ∈ outputsFor 0 (coreOutputs turns) ∧ o.finishReason.isSome ∧
      o.finishReason = some ((RecordedOutput.ofRecord stoppedRecord).truthfulReason
        ((outputsFor 0 (coreOutputs turns)).flatMap EngineCoreOutput.newTokenIds)) := by
  have hplays : (stoppedEngine.play 20
      [(0, .input (.request (demoRequest "a-0" 3))), (1, .step)]).any
      (fun played => (endings played.1).1 = [some .stop] ∧ (0, 3) ∈ played.2.caps ∧
        (0, some (.ofRecord stoppedRecord)) ∈ matched stoppedEngine played.1 played.2) = true := by
    decide +kernel
  obtain ⟨turns, e, clock, hrun, _, hshown⟩ := Run.of_script
    (p := fun (turns : List (Turn demoEnv)) e => (endings turns).1 = [some .stop] ∧
      (0, 3) ∈ e.caps ∧ (0, some (.ofRecord stoppedRecord)) ∈ matched stoppedEngine turns e)
    hplays (by decide +kernel)
  obtain ⟨hends, hcap, hmatch⟩ := of_decide_eq_true hshown
  have hreasons : some FinishReason.stop ∈ (endings turns).1 := by
    rw [hends]
    exact List.mem_singleton_self _
  obtain ⟨o, ho, -⟩ := List.mem_map.mp hreasons
  obtain ⟨hmem, hfinishes⟩ := List.mem_filter.mp ho
  obtain ⟨hfin, hsome⟩ := of_decide_eq_true hfinishes
  exact ⟨turns, e, clock, o, hrun, hmem, hfin, (finish_truthful_iff stoppedEngine_fresh.1
    stoppedEngine_fresh.2 hrun hmatch hcap hmem hfin hsome).mpr (Or.inr (Or.inl rfl))⟩

/-- The request asks for two of the three recorded tokens, and is told that the output stopped. -/
theorem cutStream_untruthful :
    ¬ ∀ (env : Env) (e₀ e : SimEngine env) (turns : List (Turn env)) (clock : Instant) (k : ℕ)
        (out : RecordedOutput), Fresh e₀ → e₀.tokenSource.Loaded → Run e₀ turns e clock →
      (k, some out) ∈ matched e₀ turns e →
        ∀ o ∈ outputsFor k (coreOutputs turns), o.finishReason.isSome → o.newTokenIds ≠ [] →
          o.finishReason = some (out.truthfulReason
            ((outputsFor k (coreOutputs turns)).flatMap EngineCoreOutput.newTokenIds)) := by
  intro hclaim
  have hplays : (stoppedEngine.play 20
      [(0, .input (.request (demoRequest "a-0" 2))), (1, .step)]).any
      (fun played => endings played.1 = ([some .stop], [7, 8]) ∧
        (0, some (.ofRecord stoppedRecord)) ∈ matched stoppedEngine played.1 played.2) = true := by
    decide +kernel
  obtain ⟨turns, e, clock, hrun, _, hshown⟩ := Run.of_script
    (p := fun (turns : List (Turn demoEnv)) e => endings turns = ([some .stop], [7, 8]) ∧
      (0, some (.ofRecord stoppedRecord)) ∈ matched stoppedEngine turns e)
    hplays (by decide +kernel)
  obtain ⟨hends, hmatch⟩ := of_decide_eq_true hshown
  have hstream : (endings turns).2 = [7, 8] := congrArg Prod.snd hends
  have hreasons : some FinishReason.stop ∈ (endings turns).1 := by
    rw [hends]
    exact List.mem_singleton_self _
  obtain ⟨o, ho, hreason⟩ := List.mem_map.mp hreasons
  obtain ⟨hmem, hfinishes⟩ := List.mem_filter.mp ho
  obtain ⟨hfin, hsome⟩ := of_decide_eq_true hfinishes
  have htold := hclaim demoEnv stoppedEngine e turns clock 0 _ stoppedEngine_fresh.1
    stoppedEngine_fresh.2 hrun hmatch o hmem hfin hsome
  rw [show (outputsFor 0 (coreOutputs turns)).flatMap EngineCoreOutput.newTokenIds = [7, 8] from
    hstream, hreason] at htold
  exact absurd htold (by decide)

end VllmVcr
