import VllmVcr.Calibration
import VllmVcr.Watch

/-!
# Captures are read back

Which of the records written from observed output streams the reader accepts, and that the
schedule replayed from a captured record is the stream that was observed. A chunk is a
size and the time it arrived.
-/

namespace VllmVcr

/-- The chunks of every request in flight, and those of the requests that finished. -/
structure Sightings where
  requests : SortedMap String (List (ℕ × Instant))
  finished : List (List (ℕ × Instant))

namespace Sightings

def none : Sightings := ⟨SortedMap.empty, []⟩

/-- The chunks of a request after one more output. -/
def extend (arrival : Instant) (output : EngineCoreOutput) (chunks : List (ℕ × Instant)) :
    List (ℕ × Instant) :=
  if output.newTokenIds.isEmpty then chunks
  else chunks ++ [(output.newTokenIds.length, arrival)]

def seeOne (arrival : Instant) (seen : Sightings) (output : EngineCoreOutput) : Sightings :=
  match seen.requests.get? output.requestId with
  | .none => seen
  | some chunks =>
    if output.finishReason = some .abort then
      { seen with requests := seen.requests.erase output.requestId }
    else
      match output.finishReason with
      | some _ => ⟨seen.requests.erase output.requestId,
          seen.finished ++ [extend arrival output chunks]⟩
      | .none =>
          ⟨seen.requests.insert output.requestId (extend arrival output chunks), seen.finished⟩

def see (seen : Sightings) (message : Instant × TapMessage) : Sightings :=
  match message.2 with
  | .add req => { seen with requests := seen.requests.insert req.requestId [] }
  | .abort requestIds =>
      ⟨requestIds.foldl (fun requests id => requests.erase id) seen.requests, seen.finished⟩
  | .outputs envelope => envelope.requestOutputs.foldl (seeOne message.1) seen

/-- The chunks of a request, from none on. -/
def chunkListener : Listener (List (ℕ × Instant)) where
  begins _ _ := []
  hears := extend

/-- The sightings are what the listener to the chunks keeps. -/
theorem of_watch (messages : List (Instant × TapMessage)) :
    (chunkListener.watch messages).requests = (messages.foldl see none).requests ∧
      (chunkListener.watch messages).finished = (messages.foldl see none).finished := by
  have hone : ∀ (arrival : Instant) (w : Watch (List (ℕ × Instant))) (seen : Sightings)
      (output : EngineCoreOutput), w.requests = seen.requests ∧ w.finished = seen.finished →
      (chunkListener.hearOne arrival w output).requests = (seeOne arrival seen output).requests ∧
        (chunkListener.hearOne arrival w output).finished =
          (seeOne arrival seen output).finished := by
    rintro arrival w seen output ⟨hrequests, hfinished⟩
    unfold Listener.hearOne seeOne
    rw [hrequests]
    cases seen.requests.get? output.requestId with
    | none => exact ⟨hrequests, hfinished⟩
    | some chunks =>
        dsimp only
        split
        · exact ⟨rfl, hfinished⟩
        · cases output.finishReason with
          | none => exact ⟨rfl, hfinished⟩
          | some reason => exact ⟨rfl, congrArg (fun l => l ++ [extend arrival output chunks]) hfinished⟩
  induction messages using List.reverseRecOn with
  | nil => exact ⟨rfl, rfl⟩
  | append_singleton messages message ih =>
      rw [chunkListener.watch_append, List.foldl_append, List.foldl_cons, List.foldl_nil]
      unfold Listener.see see
      cases message.2 with
      | add req => exact ⟨congrArg (SortedMap.insert · _ _) ih.1, ih.2⟩
      | abort requestIds => exact ⟨congrArg (requestIds.foldl _) ih.1, ih.2⟩
      | outputs envelope =>
          exact List.foldl_rel
            (r := fun w seen => w.requests = seen.requests ∧ w.finished = seen.finished) ih
            (fun output _ w seen h => hone message.1 w seen output h)

/-- The chunks of the requests that these messages finish, in the order they finish. -/
def finishedIn (messages : List (Instant × TapMessage)) : List (List (ℕ × Instant)) :=
  (messages.foldl see none).finished

end Sightings

section Steps

variable {α β : Type} (f : α → α → β)

/-- `f` of each two neighbours. -/
def steps (l : List α) : List β := List.zipWith f l l.tail

theorem steps_snoc {l : List α} {last : α} (hlast : l.getLast? = some last) (a : α) :
    steps f (l ++ [a]) = steps f l ++ [f last a] := by
  induction l with
  | nil => cases hlast
  | cons b l ih =>
      cases l with
      | nil =>
          cases hlast
          rfl
      | cons c l =>
          have hrest := ih (by rwa [List.getLast?_cons_cons] at hlast)
          change f b c :: steps f (c :: l ++ [a]) = f b c :: (steps f (c :: l) ++ [f last a])
          rw [hrest]

end Steps

/-- What the state of a request in flight says of the chunks seen. -/
structure Holds (recordTokens : TokenRecording) (s : RequestState) (chunks : List (ℕ × Instant)) :
    Prop where
  last : s.lastOutput = chunks.getLast?.map Prod.snd
  total : s.outputTokens = (chunks.map Prod.fst).sum
  sizes : s.gaps.map GapSample.tokens = chunks.tail.map (fun c => c.1 % 2 ^ 32)
  delays : s.gaps.map GapSample.gapMs = steps (fun a b => msBetween a.2 b.2) chunks
  ids : recordTokens = .on → s.outputTokenIds.length = s.outputTokens
  positive : ∀ c ∈ chunks, 0 < c.1

namespace Holds

variable {recordTokens : TokenRecording} {s : RequestState} {chunks : List (ℕ × Instant)}

theorem new (req : EngineCoreRequest) (arrival : Instant) (blockSize concurrency : ℕ) :
    Holds recordTokens (.new req arrival blockSize concurrency) [] :=
  ⟨rfl, rfl, rfl, rfl, fun _ => rfl, by simp⟩

theorem length_gaps (h : Holds recordTokens s chunks) : s.gaps.length = chunks.tail.length := by
  have hlength := congrArg List.length h.sizes
  rwa [List.length_map, List.length_map] at hlength

theorem recordChunk {ids : List Token} {cachedTokens size : ℕ}
    (h : Holds recordTokens s chunks) (hsize : 0 < size)
    (hids : recordTokens = .on → ids.length = s.outputTokens + size)
    (arrival : Instant) (running prefillTokens : ℕ) :
    Holds recordTokens
      ({ s with outputTokenIds := ids, cachedTokens := cachedTokens }.recordChunk arrival size
        running prefillTokens) (chunks ++ [(size, arrival)]) := by
  have hpositive : ∀ c ∈ chunks ++ [(size, arrival)], 0 < c.1 := by
    intro c hc
    rcases List.mem_append.mp hc with hold | hnew
    · exact h.positive c hold
    · rw [List.mem_singleton.mp hnew]
      exact hsize
  have htotal : s.outputTokens + size = ((chunks ++ [(size, arrival)]).map Prod.fst).sum := by
    rw [h.total, List.map_append, List.sum_append]
    rfl
  cases hlast : chunks.getLast? with
  | none =>
      have hempty := List.getLast?_eq_none_iff.mp hlast
      have hnone : s.lastOutput = none := by rw [h.last, hlast, Option.map_none]
      have hgaps : s.gaps = [] := by
        rw [← List.length_eq_zero_iff, h.length_gaps, hempty, List.tail_nil, List.length_nil]
      subst hempty
      unfold RequestState.recordChunk
      rw [hnone]
      exact ⟨rfl, htotal, congrArg (List.map GapSample.tokens) hgaps,
        congrArg (List.map GapSample.gapMs) hgaps, hids, hpositive⟩
  | some last =>
      have hsome : s.lastOutput = some last.2 := by rw [h.last, hlast, Option.map_some]
      have htail : (chunks ++ [(size, arrival)]).tail = chunks.tail ++ [(size, arrival)] := by
        cases chunks with
        | nil => cases hlast
        | cons => rfl
      unfold RequestState.recordChunk
      rw [hsome]
      refine ⟨by rw [List.getLast?_append_of_ne_nil _ (by simp)]; rfl, htotal, ?_, ?_, hids,
        hpositive⟩
      · rw [htail, List.map_append, List.map_append, h.sizes]
        rfl
      · rw [steps_snoc _ hlast, List.map_append, h.delays]
        rfl

/-- One more output leaves the state of the request with its chunks. -/
theorem observed (h : Holds recordTokens s chunks) (arrival : Instant)
    (running prefillTokens : ℕ) (output : EngineCoreOutput) :
    Holds recordTokens (Tap.observed arrival running prefillTokens recordTokens output s)
      (Sightings.extend arrival output chunks) := by
  obtain ⟨ids, cachedTokens, hids, heq⟩ :=
    Tap.observed_eq arrival running prefillTokens recordTokens output s
  have hlength : recordTokens = .on → ids.length = s.outputTokens + output.newTokenIds.length := by
    intro hon
    rw [hids hon, List.length_append, h.ids hon]
  rw [heq, Sightings.extend]
  cases hempty : output.newTokenIds with
  | nil =>
      rw [hempty] at hlength
      exact ⟨h.last, h.total, h.sizes, h.delays, hlength, h.positive⟩
  | cons token tokens =>
      rw [hempty] at hlength
      exact h.recordChunk (Nat.succ_pos _) hlength arrival running prefillTokens

/-- The states of the tap and the chunks seen start and go on in step. -/
theorem keeps : Sightings.chunkListener.Keeps Holds where
  begins _ _ req arrival blockSize concurrency := Holds.new req arrival blockSize concurrency
  hears _ _ _ arrival running prefillTokens output h :=
    h.observed arrival running prefillTokens output

end Holds

/-! ## The records written -/

/-- The requests in flight hold their chunks, and the records written were made from the chunks of
the finished requests. -/
structure Tracks (tap : Tap) (seen : Sightings) : Prop where
  requests : ∀ id, Option.Rel (Holds tap.recordTokens) (tap.requests.get? id)
    (seen.requests.get? id)
  written : List.Forall₂ (fun r chunks => ∃ s reason, Holds tap.recordTokens s chunks ∧
    r = s.intoRecord tap.captureStart reason tap.recordTokens) tap.written seen.finished

namespace Tracks

variable {tap : Tap} {seen : Sightings}

theorem of_messages (captureStart : Instant) (blockSize : ℕ) (recordTokens : TokenRecording)
    (messages : List (Instant × TapMessage)) :
    Tracks ((Tap.new captureStart blockSize recordTokens).observeAll messages)
      (messages.foldl Sightings.see .none) := by
  have hmirrors := Mirrors.of_messages Holds.keeps captureStart blockSize recordTokens messages
  obtain ⟨hrequests, hfinished⟩ := Sightings.of_watch messages
  exact ⟨hrequests ▸ hmirrors.requests, hfinished ▸ hmirrors.written⟩

end Tracks

/-- The chunk sizes that a record can carry: a single chunk has at most one token, and when a later
chunk shows as a burst in 32 bits, every later chunk shows as positive. -/
def Recordable (sizes : List ℕ) : Prop :=
  (∀ n, sizes = [n] → n ≤ 1) ∧
    ((∃ n ∈ sizes.tail, 1 < n % 2 ^ 32) → ∀ n ∈ sizes.tail, n % 2 ^ 32 ≠ 0)

theorem sum_mod_le (l : List ℕ) : (l.map (fun n => n % 2 ^ 32)).sum ≤ l.sum :=
  (List.sum_le_sum (fun n _ => Nat.mod_le n _)).trans_eq (congrArg List.sum (List.map_id l))

/-- The record of a finished request is valid exactly when its chunk sizes can be carried. -/
theorem Holds.valid_iff {recordTokens : TokenRecording} {s : RequestState}
    {chunks : List (ℕ × Instant)} (h : Holds recordTokens s chunks) (captureStart : Instant)
    (reason : FinishReason) :
    (s.intoRecord captureStart reason recordTokens).Valid ↔
      Recordable (chunks.map Prod.fst) := by
  have hgaps : s.gaps = [] ↔ chunks.tail = [] := by
    rw [← List.length_eq_zero_iff, h.length_gaps, List.length_eq_zero_iff]
  have hnum : (s.intoRecord captureStart reason recordTokens).numGaps = s.gaps.length := by
    rw [TraceRecord.numGaps, RequestState.intoRecord_itlMs]
    cases s.gaps <;> simp
  have hfirst : (s.intoRecord captureStart reason recordTokens).outputTokens ≤ 1 ∨
      (s.intoRecord captureStart reason recordTokens).itlMs.isSome ∨
      (s.intoRecord captureStart reason recordTokens).itlSummary.isSome ↔
        ∀ n, chunks.map Prod.fst = [n] → n ≤ 1 := by
    have hsome : (s.intoRecord captureStart reason recordTokens).itlMs.isSome ↔
        chunks.tail ≠ [] := by
      rw [RequestState.intoRecord_itlMs, ne_eq, ← hgaps]
      cases s.gaps <;> simp
    have hnone : (s.intoRecord captureStart reason recordTokens).itlSummary.isSome = false := rfl
    rw [hsome, hnone, RequestState.intoRecord_outputTokens, h.total]
    match chunks with
    | [] => simp
    | [c] => simp
    | c :: d :: rest => simp
  have hlater : (∀ tokens, (s.intoRecord captureStart reason recordTokens).itlTokens =
      some tokens → tokens.length = (s.intoRecord captureStart reason recordTokens).numGaps ∧
        0 ∉ tokens ∧ tokens.sum < (s.intoRecord captureStart reason recordTokens).outputTokens) ↔
      ((∃ n ∈ (chunks.map Prod.fst).tail, 1 < n % 2 ^ 32) →
        ∀ n ∈ (chunks.map Prod.fst).tail, n % 2 ^ 32 ≠ 0) := by
    have htail : (chunks.map Prod.fst).tail = chunks.tail.map Prod.fst := (List.map_tail).symm
    have hany : (s.gaps.map GapSample.tokens).any (fun t => 1 < t) = true ↔
        ∃ n ∈ (chunks.map Prod.fst).tail, 1 < n % 2 ^ 32 := by
      rw [h.sizes, htail, List.any_map, List.any_eq_true]
      simp only [Function.comp_apply, decide_eq_true_eq, List.mem_map, exists_exists_and_eq_and]
    by_cases hburst : ∃ n ∈ (chunks.map Prod.fst).tail, 1 < n % 2 ^ 32
    · have hzero : 0 ∉ s.gaps.map GapSample.tokens ↔
          ∀ n ∈ (chunks.map Prod.fst).tail, n % 2 ^ 32 ≠ 0 := by
        rw [h.sizes, htail, List.forall_mem_map, List.mem_map, not_exists]
        exact forall_congr' (fun c => not_and)
      have hsum : (s.gaps.map GapSample.tokens).sum < s.outputTokens := by
        have hle := sum_mod_le (chunks.tail.map Prod.fst)
        rw [List.map_map] at hle
        have hsizes : (s.gaps.map GapSample.tokens).sum ≤ (chunks.tail.map Prod.fst).sum := by
          rw [h.sizes]
          exact hle
        cases hchunks : chunks with
        | nil => simp [hchunks] at hburst
        | cons c rest =>
            have hpos := h.positive c (by simp [hchunks])
            rw [h.total, hchunks, List.map_cons, List.sum_cons]
            rw [hchunks, List.tail_cons] at hsizes
            omega
      rw [RequestState.intoRecord_itlTokens, if_pos (hany.mpr hburst)]
      constructor
      · intro htokens _
        exact hzero.mp (htokens _ rfl).2.1
      · rintro hpositive tokens heq
        cases heq
        refine ⟨?_, hzero.mpr (hpositive hburst), hsum⟩
        rw [List.length_map]
        exact hnum.symm
    · rw [RequestState.intoRecord_itlTokens, if_neg (fun h => hburst (hany.mp h))]
      exact iff_of_true (fun _ h => by cases h) (fun h => absurd h hburst)
  constructor
  · exact fun hvalid => ⟨hfirst.mp hvalid.gaps, hlater.mp hvalid.tokens⟩
  · rintro ⟨hsingle, hbursts⟩
    refine ⟨hfirst.mpr hsingle, ?_, hlater.mpr hbursts, ?_⟩
    · intro ctx hctx
      rw [hnum]
      rw [RequestState.intoRecord_itlCtx] at hctx
      split at hctx
      · cases hctx
      · cases hctx
        exact ⟨List.length_map _, List.length_map _⟩
    · intro ids hids
      rw [RequestState.intoRecord_outputTokenIds] at hids
      split at hids
      · next hon =>
          cases hids
          exact h.ids hon
      · cases hids


/-! ## Reading back -/

theorem forall_mem_iff_of_forall₂ {α β : Type} {P : α → Prop} {Q : β → Prop} {l : List α}
    {l' : List β} (h : List.Forall₂ (fun a b => P a ↔ Q b) l l') :
    (∀ a ∈ l, P a) ↔ ∀ b ∈ l', Q b := by
  induction h with
  | nil => simp
  | cons hab _ ih => rw [List.forall_mem_cons, List.forall_mem_cons, hab, ih]

section Tapped

variable (captureStart : Instant) (blockSize : ℕ) (recordTokens : TokenRecording)
  (messages : List (Instant × TapMessage))

/-- What a tap holds after these messages. -/
def tapped : Tap := (Tap.new captureStart blockSize recordTokens).observeAll messages

theorem written_from_chunks :
    List.Forall₂ (fun r chunks => ∃ s reason, Holds (tapped captureStart blockSize recordTokens
        messages).recordTokens s chunks ∧
      r = s.intoRecord (tapped captureStart blockSize recordTokens messages).captureStart reason
        (tapped captureStart blockSize recordTokens messages).recordTokens)
      (tapped captureStart blockSize recordTokens messages).written
      (Sightings.finishedIn messages) :=
  (Tracks.of_messages captureStart blockSize recordTokens messages).written

theorem written_valid_iff :
    List.Forall₂ (fun r chunks => TraceRecord.Valid r ↔ Recordable (chunks.map Prod.fst))
      (tapped captureStart blockSize recordTokens messages).written
      (Sightings.finishedIn messages) := by
  apply (written_from_chunks captureStart blockSize recordTokens messages).imp
  rintro r chunks ⟨s, reason, hs, rfl⟩
  exact hs.valid_iff _ reason

end Tapped

/-- The chunk sizes, cut to 32 bits, that a measured record can carry. -/
def RecordableMeasured (sizes : List ℕ) : Prop :=
  (∀ n, sizes = [n] → n ≤ 1) ∧ ((∃ n ∈ sizes.tail, 1 < n) → 0 ∉ sizes)

theorem valid_iff_of_sizes {r : TraceRecord} {first : ℕ} {later : List ℕ}
    (htotal : r.outputTokens = (first :: later).sum)
    (hgaps : (r.itlMs.getD []).length = later.length)
    (hsome : r.itlMs.isSome ↔ later ≠ [])
    (htokens : r.itlTokens = if later.any (fun c => 1 < c) then some later else none)
    (hsummary : r.itlSummary = none) (hctx : r.itlCtx = none) (hids : r.outputTokenIds = none) :
    r.Valid ↔ RecordableMeasured (first :: later) := by
  have hsingle : r.outputTokens ≤ 1 ∨ r.itlMs.isSome ∨ r.itlSummary.isSome ↔
      ∀ n, first :: later = [n] → n ≤ 1 := by
    rw [hsome, hsummary, htotal]
    cases later with
    | nil => simp
    | cons second later => simp
  have hany : later.any (fun c => 1 < c) = true ↔ ∃ n ∈ later, 1 < n := by
    rw [List.any_eq_true]
    simp only [decide_eq_true_eq]
  have hburst : (∀ tokens, r.itlTokens = some tokens →
      tokens.length = r.numGaps ∧ 0 ∉ tokens ∧ tokens.sum < r.outputTokens) ↔
      ((∃ n ∈ later, 1 < n) → 0 ∉ first :: later) := by
    rw [htokens, htotal, List.sum_cons, List.mem_cons, not_or]
    by_cases hlater : ∃ n ∈ later, 1 < n
    · rw [if_pos (hany.mpr hlater)]
      constructor
      · intro htokens _
        obtain ⟨_, hzero, hsum⟩ := htokens later rfl
        exact ⟨by omega, hzero⟩
      · rintro hpositive tokens heq
        cases heq
        obtain ⟨hfirst, hzero⟩ := hpositive hlater
        exact ⟨hgaps.symm, hzero, by omega⟩
    · rw [if_neg (fun h => hlater (hany.mp h))]
      exact iff_of_true (fun _ h => by cases h) (fun h => absurd h hlater)
  constructor
  · exact fun hvalid => ⟨hsingle.mp hvalid.gaps, hburst.mp hvalid.tokens⟩
  · rintro ⟨h, h'⟩
    have hnoctx : ∀ ctx, r.itlCtx ≠ some ctx := by simp [hctx]
    have hnoids : ∀ ids, r.outputTokenIds ≠ some ids := by simp [hids]
    exact ⟨hsingle.mpr h, fun ctx heq => absurd heq (hnoctx ctx), hburst.mpr h',
      fun ids heq => absurd heq (hnoids ids)⟩

/-- A measured record is valid exactly when its chunk sizes, cut to 32 bits, can be carried. -/
theorem measuredRecord_valid_iff {source r : TraceRecord} {ttftMs timeScale : ℚ}
    {timedOut : Bool} {items : List StreamItem} {chunks : List (ℕ × ℚ)}
    (hchunks : collectStream items = some chunks)
    (hr : measuredRecord source ((measureOne ttftMs timedOut items).scaled timeScale) = some r) :
    r.Valid ↔ RecordableMeasured (chunks.map (fun c => c.1 % 2 ^ 32)) := by
  obtain ⟨ttft, httft, rfl⟩ := Option.map_eq_some_iff.mp hr
  clear hr
  cases timedOut with
  | true =>
      rw [measureOne, hchunks] at httft
      cases httft
  | false =>
      cases chunks with
      | nil =>
          rw [measureOne, hchunks] at httft
          cases httft
      | cons c rest =>
          obtain ⟨gaps, hgaps, heq⟩ : ∃ gaps : List ℚ, gaps.length = rest.length ∧
              (measureOne ttftMs false items).scaled timeScale =
                ⟨some (ttftMs * timeScale), gaps, (c :: rest).map (fun c => c.1 % 2 ^ 32)⟩ := by
            refine ⟨(List.zipWith (fun a b => (b.2 - a.2) * 1000) (c :: rest) rest).map
              (· * timeScale), by simp, ?_⟩
            rw [measureOne, hchunks]
            rfl
          rw [heq]
          have hempty : gaps = [] ↔ rest = [] := by
            rw [← List.length_eq_zero_iff, hgaps, List.length_eq_zero_iff]
          apply valid_iff_of_sizes rfl _ _ rfl rfl rfl rfl
          · rw [List.length_map, ← hgaps]
            cases gaps <;> rfl
          · rw [ne_eq, List.map_eq_nil_iff, ← hempty]
            cases gaps <;> simp

theorem readTrace_ok_iff_recordable (captureStart : Instant) (blockSize : ℕ)
    (recordTokens : TokenRecording) (messages : List (Instant × TapMessage)) :
    readTrace 1 (tapped captureStart blockSize recordTokens messages).trace =
        .ok (tapped captureStart blockSize recordTokens messages).written ↔
      ∀ chunks ∈ Sightings.finishedIn messages, Recordable (chunks.map Prod.fst) := by
  rw [Tap.trace, readTrace_eq_ok_iff]
  exact forall_mem_iff_of_forall₂ (written_valid_iff captureStart blockSize recordTokens messages)

/-- The tap's records, its trace and the measured records are accepted exactly when their chunk
sizes can be carried. -/
theorem captures_accepted_iff (captureStart : Instant) (blockSize : ℕ)
    (recordTokens : TokenRecording) (messages : List (Instant × TapMessage)) :
    (List.Forall₂ (fun r chunks => (∀ lineNum, TraceRecord.validate r lineNum = .ok ()) ↔
          Recordable (chunks.map Prod.fst))
        (tapped captureStart blockSize recordTokens messages).written
        (Sightings.finishedIn messages) ∧
      (readTrace 1 (tapped captureStart blockSize recordTokens messages).trace =
          .ok (tapped captureStart blockSize recordTokens messages).written ↔
        ∀ chunks ∈ Sightings.finishedIn messages, Recordable (chunks.map Prod.fst))) ∧
    ∀ (source r : TraceRecord) (ttftMs timeScale : ℚ) (timedOut : Bool) (items : List StreamItem)
      (chunks : List (ℕ × ℚ)), collectStream items = some chunks →
      measuredRecord source ((measureOne ttftMs timedOut items).scaled timeScale) = some r →
      ((∀ lineNum, r.validate lineNum = .ok ()) ↔
        RecordableMeasured (chunks.map (fun c => c.1 % 2 ^ 32))) := by
  have hvalidate : ∀ r : TraceRecord, (∀ lineNum, r.validate lineNum = .ok ()) ↔ r.Valid :=
    fun r => ⟨fun h => TraceRecord.validate_eq_ok_iff.mp (h 1),
      fun h _ => TraceRecord.validate_eq_ok_iff.mpr h⟩
  constructor
  · constructor
    · apply (written_valid_iff captureStart blockSize recordTokens messages).imp
      intro r chunks h
      rw [hvalidate, h]
    · exact readTrace_ok_iff_recordable captureStart blockSize recordTokens messages
  · intro source r ttftMs timeScale timedOut items chunks hchunks hr
    rw [hvalidate]
    exact measuredRecord_valid_iff hchunks hr

/-- A request measured over a burst of four tokens and a single one. -/
def burstItems : List StreamItem :=
  [.output [1, 2, 3, 4] none 1, .output [5] (some .length) 2]

theorem burstItems_accepted :
    ∃ r, measuredRecord {} ((measureOne 0 false burstItems).scaled 1) = some r ∧
      r.validate 2 = .ok () :=
  ⟨_, rfl, ((captures_accepted_iff 0 16 .off []).2 {} _ 0 1 false burstItems [(4, 1), (1, 2)] rfl rfl).mpr
    ⟨by simp, by simp⟩ 2⟩

/-- A request for four tokens. -/
def fourTokens : EngineCoreRequest where
  requestId := "a"
  clientIndex := 0
  promptTokenIds := none
  samplingParams := none
  arrivalTime := 0
  priority := 0
  loraRequest := none
  cacheSalt := none

/-- The request is answered by a single output. -/
def oneOutput : List (Instant × TapMessage) :=
  [(0, .add fourTokens),
    (1, .outputs (.requestBatch 0 [requestOutput "a" [1, 2, 3, 4] (some .length)] none 1 none))]

theorem oneOutput_unreadable :
    readTrace 1 (tapped 0 16 .off oneOutput).trace = .error
      "line 2: output_tokens=4 but neither itl_ms nor itl_summary is present" := by
  have hmap : (readTrace 1 (tapped 0 16 .off oneOutput).trace).map (fun _ => ()) = .error
      "line 2: output_tokens=4 but neither itl_ms nor itl_summary is present" := by
    decide +kernel
  cases hread : readTrace 1 (tapped 0 16 .off oneOutput).trace with
  | ok records =>
      rw [hread] at hmap
      cases hmap
  | error message =>
      rw [hread] at hmap
      cases hmap
      rfl

/-! ## Replaying a capture -/

theorem zipWith_steps {α β γ δ : Type} (f : α → α → β) (g : β → γ → δ) (k : α → γ) (l : List α) :
    List.zipWith g (steps f l) (l.tail.map k) = steps (fun a b => g (f a b) (k b)) l := by
  induction l with
  | nil => rfl
  | cons a l ih =>
      cases l with
      | nil => rfl
      | cons b l => exact congrArg (g (f a b) (k b) :: ·) ih

theorem steps_snd {α β : Type} (k : α → β) (l : List α) :
    steps (fun _ b => k b) l = l.tail.map k := by
  induction l with
  | nil => rfl
  | cons a l ih =>
      cases l with
      | nil => rfl
      | cons b l => exact congrArg (k b :: ·) ih

theorem steps_congr {α β : Type} {f g : α → α → β} {l : List α}
    (h : ∀ a, ∀ b ∈ l, f a b = g a b) : steps f l = steps g l := by
  induction l with
  | nil => rfl
  | cons a l ih =>
      cases l with
      | nil => rfl
      | cons b l =>
          change f a b :: steps f (b :: l) = g a b :: steps g (b :: l)
          rw [h a b (by simp), ih (fun a c hc => h a c (List.mem_cons_of_mem _ hc))]

theorem msBetween_div (start finish : Instant) :
    (max (msBetween start finish / 1000) 0).toNNRat = finish - start := by
  rw [msBetween, mul_div_cancel_right₀ _ (by decide), max_eq_left (NNRat.coe_nonneg _),
    NNRat.toNNRat_coe]

/-- The schedule of a captured record gives the chunks back. -/
theorem Holds.schedule {recordTokens : TokenRecording} {s : RequestState}
    {first : ℕ × Instant} {later : List (ℕ × Instant)}
    (h : Holds recordTokens s (first :: later)) (hlater : later ≠ [])
    (hsizes : ∀ c ∈ first :: later, c.1 < 2 ^ 32) (captureStart : Instant)
    (reason : FinishReason) :
    recordedSchedule (s.intoRecord captureStart reason recordTokens) =
      some ⟨first.1, steps (fun a b => ⟨b.2 - a.2, b.1⟩) (first :: later)⟩ := by
  have hne : s.gaps ≠ [] := by
    rw [← List.length_pos_iff, h.length_gaps]
    exact List.length_pos_iff.mpr hlater
  have htokens : s.gaps.map GapSample.tokens = later.map Prod.fst := by
    rw [h.sizes]
    exact List.map_congr_left
      (fun c hc => Nat.mod_eq_of_lt (hsizes c (List.mem_cons_of_mem _ hc)))
  have hitl : (s.intoRecord captureStart reason recordTokens).itlMs =
      some (s.gaps.map GapSample.gapMs) := by
    rw [RequestState.intoRecord_itlMs, if_neg (by simpa using hne)]
  have hgapTokens : gapTokens (s.intoRecord captureStart reason recordTokens)
      (s.gaps.map GapSample.gapMs) = some (later.map Prod.fst) := by
    unfold gapTokens
    rw [RequestState.intoRecord_itlTokens, htokens]
    by_cases hburst : (later.map Prod.fst).any (fun t => 1 < t)
    · rw [if_pos hburst]
      simp only
      rw [if_pos]
      rw [List.length_map, List.length_map, h.length_gaps, List.tail_cons]
    · rw [if_neg hburst]
      simp only
      rw [List.length_map, h.length_gaps, List.tail_cons, Option.some_inj, eq_comm,
        List.eq_replicate_iff, List.forall_mem_map]
      refine ⟨List.length_map _, fun c hc => ?_⟩
      have hpos := h.positive c (List.mem_cons_of_mem _ hc)
      have hle : ¬ 1 < c.1 := by
        intro hlt
        exact hburst (List.any_eq_true.mpr ⟨c.1, List.mem_map_of_mem hc, by simpa using hlt⟩)
      omega
  have hfirst : max (s.outputTokens - (later.map Prod.fst).sum) 1 % 2 ^ 32 = first.1 := by
    have hpos := h.positive first List.mem_cons_self
    have hlt := hsizes first List.mem_cons_self
    rw [h.total, List.map_cons, List.sum_cons, Nat.add_sub_cancel, max_eq_left hpos,
      Nat.mod_eq_of_lt hlt]
  have hsteps : recordedSteps (s.gaps.map GapSample.gapMs) (later.map Prod.fst) =
      steps (fun a b => ⟨b.2 - a.2, b.1⟩) (first :: later) := by
    rw [recordedSteps, h.delays]
    have hzip := zipWith_steps (fun a b : ℕ × Instant => msBetween a.2 b.2)
      (fun ms t => (⟨(max (ms / 1000) 0).toNNRat, max t 1⟩ : StepDraw)) Prod.fst (first :: later)
    rw [List.tail_cons] at hzip
    rw [hzip]
    apply steps_congr
    intro a b hb
    rw [msBetween_div, max_eq_left (h.positive b hb)]
  rw [recordedSchedule, hitl, Option.bind_some, hgapTokens, Option.bind_some,
    RequestState.intoRecord_outputTokens, hfirst, hsteps]

/-- A finished request of two or more chunks leaves a record whose schedule is these chunks; the
source builds it, the time between two arrivals being a `Duration`. -/
theorem capture_replays {captureStart : Instant} {blockSize : ℕ} {recordTokens : TokenRecording}
    {messages : List (Instant × TapMessage)} {i : ℕ} {first : ℕ × Instant}
    {later : List (ℕ × Instant)}
    (hfinished : (Sightings.finishedIn messages)[i]? = some (first :: later))
    (hlater : later ≠ []) (hsizes : ∀ c ∈ first :: later, c.1 < 2 ^ 32) :
    ∃ r schedule, (tapped captureStart blockSize recordTokens messages).written[i]? = some r ∧
      recordedSchedule r = some schedule ∧
      ((∀ step ∈ schedule.steps, step.delay < durationLimit) →
        scheduleFromRecord r = some (some schedule)) ∧
      schedule.firstChunkTokens = first.1 ∧
      schedule.steps = steps (fun a b => ⟨b.2 - a.2, b.1⟩) (first :: later) ∧
      schedule.outputTokens = ((first :: later).map Prod.fst).sum := by
  have hwritten := written_from_chunks captureStart blockSize recordTokens messages
  obtain ⟨hi, hget⟩ := List.getElem?_eq_some_iff.mp hfinished
  have hi' := hwritten.length_eq ▸ hi
  obtain ⟨s, reason, hs, hr⟩ := hwritten.get hi' hi
  rw [List.get_eq_getElem] at hs
  simp only [hget] at hs
  rw [List.get_eq_getElem] at hr
  have hschedule := hs.schedule hlater hsizes
    (tapped captureStart blockSize recordTokens messages).captureStart reason
  rw [← hr] at hschedule
  refine ⟨_, ⟨first.1, _⟩, List.getElem?_eq_getElem hi', hschedule, fun hdelays => ?_, rfl, rfl,
    ?_⟩
  · exact scheduleFromRecord_eq_some_iff.mpr ⟨hschedule, hdelays⟩
  · have htokens : (steps (fun a b : ℕ × Instant => (⟨b.2 - a.2, b.1⟩ : StepDraw))
        (first :: later)).map StepDraw.tokens = later.map Prod.fst := by
      rw [steps, List.map_zipWith]
      exact steps_snd Prod.fst (first :: later)
    rw [List.map_cons, List.sum_cons, ← htokens]
    rfl

/-- The request is answered by a burst of four tokens and then by single ones. -/
def burstThenSingles : List (Instant × TapMessage) :=
  [(0, .add fourTokens),
    (1, .outputs (.requestBatch 0 [requestOutput "a" [1, 2, 3, 4] none] none 1 none)),
    (3, .outputs (.requestBatch 0 [requestOutput "a" [5] none] none 3 none)),
    (4, .outputs (.requestBatch 0 [requestOutput "a" [6] (some .stop)] none 4 none))]

theorem burstThenSingles_replays :
    ∃ r schedule, (tapped 0 16 .on burstThenSingles).written[0]? = some r ∧
      scheduleFromRecord r = some (some schedule) ∧ schedule.firstChunkTokens = 4 ∧
      schedule.steps = [⟨2, 1⟩, ⟨1, 1⟩] ∧ schedule.outputTokens = 6 := by
  have hfinished : (Sightings.finishedIn burstThenSingles)[0]? =
      some [(4, 1), (1, 3), (1, 4)] := by
    decide +kernel
  obtain ⟨r, schedule, hr, -, hschedule, hfirst, hsteps, htotal⟩ :=
    @capture_replays 0 16 .on burstThenSingles 0 (4, 1) [(1, 3), (1, 4)] hfinished (by simp)
      (by simp)
  have hgaps : schedule.steps = [⟨2, 1⟩, ⟨1, 1⟩] := hsteps.trans (by decide +kernel)
  refine ⟨r, schedule, hr, hschedule ?_, hfirst, hgaps, htotal⟩
  rw [hgaps]
  decide +kernel

end VllmVcr
