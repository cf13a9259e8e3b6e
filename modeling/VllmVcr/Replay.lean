import VllmVcr.Latency

/-!
# Trace records and recorded decode schedules

Records resolve to requests by the trailing index of a request id, or by the deepest
block hash the prompt shares with a record, each record consumed by its first match.
A record with per-chunk timing yields the decode schedule of a request.
-/

namespace VllmVcr

structure ItlSummary where
  meanMs : ℚ
  count : ℕ
  deriving DecidableEq

/-- Per-gap batch context, parallel to `itlMs`. -/
structure ItlContext where
  numRunning : List ℕ
  prefillTokens : List ℕ
  deriving DecidableEq

structure TraceRecord where
  promptTokens : ℕ := 0
  cachedTokens : ℕ := 0
  outputTokens : ℕ := 0
  ttftMs : ℚ := 0
  itlMs : Option (List ℚ) := none
  itlTokens : Option (List ℕ) := none
  itlSummary : Option ItlSummary := none
  concurrency : ℕ := 1
  arrivalMs : Option ℚ := none
  itlCtx : Option ItlContext := none
  blockHashes : Option (List BlockHash) := none
  outputTokenIds : Option (List Token) := none
  finishReason : Option FinishReason := none
  deriving DecidableEq

/-- The chained hashes of a prompt's full blocks; `none` when it has no full block. -/
def promptBlockHashes (tokens : List Token) (blockSize : ℕ) : Option (List BlockHash) :=
  if blockSize = 0 ∨ tokens.length < blockSize then none
  else some (BlockPool.chainHashes fnvOffset none none 0 none
    (BlockPool.fullBlocks blockSize tokens))

def parseDigits (digits : List Char) : Option ℕ :=
  if digits ≠ [] ∧ digits.all Char.isDigit then
    let n := digits.foldl (fun n c => 10 * n + (c.toNat - '0'.toNat)) 0
    if n < 2 ^ 64 then some n else none
  else none

/-- The integer after the last dash of a request id, the whole id when it has none. -/
def recordIndex (requestId : String) : Option ℕ :=
  match (requestId.toList.reverse.takeWhile (fun c => c ≠ '-')).reverse with
  | '+' :: digits => parseDigits digits
  | digits => parseDigits digits

/-- Every hash of every chain, mapped to the ascending positions of the chains holding it. -/
abbrev HashIndex := SortedMap BlockHash (List ℕ)

namespace HashIndex

def push (index : HashIndex) (i : ℕ) (hash : BlockHash) : HashIndex :=
  index.insert hash ((index.get? hash).getD [] ++ [i])

def build (chains : List (List BlockHash × ℕ)) : HashIndex :=
  chains.foldl (fun index chain => chain.1.foldl (fun index hash => index.push chain.2 hash) index)
    SortedMap.empty

/-- The record a prompt claims: deepest indexed hash, first unconsumed candidate. -/
def claim (index : HashIndex) (consumed : List Bool) : List BlockHash → Option ℕ
  | [] => none
  | hash :: shallower =>
    match index.get? hash with
    | none => claim index consumed shallower
    | some candidates =>
        (candidates.find? (fun i => !consumed.getD i false)).or candidates.head?

/-- Every position in the index satisfies `p`. -/
def All (p : ℕ → Prop) (index : HashIndex) : Prop :=
  ∀ hash candidates, index.get? hash = some candidates → ∀ i ∈ candidates, p i

variable {p : ℕ → Prop} {index : HashIndex}

theorem All.push (h : All p index) {i : ℕ} (hi : p i) (hash : BlockHash) :
    All p (index.push i hash) := by
  intro k candidates hk j hj
  rw [HashIndex.push, SortedMap.get?_insert] at hk
  split_ifs at hk with hkey
  · cases hk
    rcases List.mem_append.mp hj with hold | hnew
    · cases hg : index.get? hash with
      | none => simp [hg] at hold
      | some old => exact h hash old hg j (by simpa [hg] using hold)
    · rwa [List.mem_singleton.mp hnew]
  · exact h k candidates hk j hj

theorem All.foldl_push (h : All p index) {i : ℕ} (hi : p i) (hashes : List BlockHash) :
    All p (hashes.foldl (fun index hash => index.push i hash) index) := by
  induction hashes generalizing index with
  | nil => exact h
  | cons hash hashes ih => exact ih (h.push hi hash)

theorem All.foldl_chains (h : All p index) (chains : List (List BlockHash × ℕ))
    (hp : ∀ c ∈ chains, p c.2) :
    All p (chains.foldl
      (fun index chain => chain.1.foldl (fun index hash => index.push chain.2 hash) index) index) := by
  induction chains generalizing index with
  | nil => exact h
  | cons c chains ih =>
      rw [List.forall_mem_cons] at hp
      exact ih (h.foldl_push hp.1 c.1) hp.2

theorem all_build (chains : List (List BlockHash × ℕ)) (hp : ∀ c ∈ chains, p c.2) :
    All p (build chains) :=
  All.foldl_chains (fun _ _ hk => by cases hk) chains hp

theorem All.claim (h : All p index) {consumed : List Bool} {chain : List BlockHash} {i : ℕ}
    (hc : index.claim consumed chain = some i) : p i := by
  induction chain with
  | nil => cases hc
  | cons hash chain ih =>
      simp only [HashIndex.claim] at hc
      split at hc
      · exact ih hc
      · next candidates hk =>
          refine h hash candidates hk i ?_
          rcases Option.or_eq_some_iff.mp hc with hfind | ⟨_, hhead⟩
          · exact List.mem_of_find?_eq_some hfind
          · exact List.mem_of_head? hhead

end HashIndex

/-- One request's recorded decode timeline, consumed step by step. -/
structure ScriptedDecode where
  firstChunkTokens : ℕ
  steps : List StepDraw
  deriving DecidableEq

def ScriptedDecode.outputTokens (s : ScriptedDecode) : ℕ :=
  s.firstChunkTokens + (s.steps.map StepDraw.tokens).sum

/-- The steps that gaps and chunk sizes are turned into. A gap that is no `Duration` panics. -/
def scheduleSteps (gaps : List ℚ) (tokens : List ℕ) : Option (List StepDraw) :=
  (gaps.zip tokens).mapM (fun g =>
    (fromSecsF64 (max (g.1 / 1000) 0)).map (fun delay => ⟨delay, max g.2 1⟩))

/-- The chunk sizes parallel to a record's gaps; absent means one token per gap. -/
def gapTokens (r : TraceRecord) (gaps : List ℚ) : Option (List ℕ) :=
  match r.itlTokens with
  | some t => if t.length = gaps.length then some t else none
  | none => some (List.replicate gaps.length 1)

/-- The decode schedule of a record, if it has per-chunk timing; nothing where the source panics.
The first chunk's size is cast to 32 bits. -/
def scheduleFromRecord (r : TraceRecord) : Option (Option ScriptedDecode) :=
  match r.itlMs with
  | none => some none
  | some gaps =>
    match gapTokens r gaps with
    | none => some none
    | some tokens => (scheduleSteps gaps tokens).map (fun steps => some {
        firstChunkTokens := max (r.outputTokens - tokens.sum) 1 % 2 ^ 32
        steps := steps })

def recordedSteps (gaps : List ℚ) (tokens : List ℕ) : List StepDraw :=
  List.zipWith (fun ms t => ⟨(max (ms / 1000) 0).toNNRat, max t 1⟩) gaps tokens

theorem recordedSteps_cons (ms : ℚ) (gaps : List ℚ) (t : ℕ) (tokens : List ℕ) :
    recordedSteps (ms :: gaps) (t :: tokens) =
      ⟨(max (ms / 1000) 0).toNNRat, max t 1⟩ :: recordedSteps gaps tokens := rfl

/-- What a record says of its decode steps, however long its gaps are. -/
def recordedSchedule (r : TraceRecord) : Option ScriptedDecode :=
  r.itlMs.bind fun gaps => (gapTokens r gaps).bind fun tokens => some {
    firstChunkTokens := max (r.outputTokens - tokens.sum) 1 % 2 ^ 32
    steps := recordedSteps gaps tokens }

theorem fromSecsF64_clamped (secs : ℚ) : fromSecsF64 (max secs 0) =
    if (max secs 0).toNNRat < durationLimit then some (max secs 0).toNNRat else none := by
  have hnonneg : 0 ≤ max secs 0 := le_max_right _ _
  have hlimit : (max secs 0).toNNRat < (durationLimit : Duration) ↔
      max secs 0 < (durationLimit : ℚ) := by
    rw [← NNRat.coe_lt_coe, Rat.coe_toNNRat _ hnonneg, NNRat.coe_natCast]
  exact if_congr (and_iff_right hnonneg |>.trans hlimit.symm) rfl rfl

theorem scheduleSteps_eq (gaps : List ℚ) (tokens : List ℕ) : scheduleSteps gaps tokens =
    if ∀ step ∈ recordedSteps gaps tokens, step.delay < durationLimit then
      some (recordedSteps gaps tokens) else none := by
  induction gaps generalizing tokens with
  | nil => rfl
  | cons ms gaps ih =>
      cases tokens with
      | nil => rfl
      | cons t tokens =>
          have hrest := ih tokens
          rw [scheduleSteps] at hrest ⊢
          rw [List.zip_cons_cons, List.mapM_cons, hrest, fromSecsF64_clamped, recordedSteps_cons]
          simp only [List.forall_mem_cons]
          by_cases hhead : (max (ms / 1000) 0).toNNRat < (durationLimit : Duration)
          · by_cases htail : ∀ step ∈ recordedSteps gaps tokens, step.delay < durationLimit
            · rw [if_pos hhead, if_pos htail, if_pos ⟨hhead, htail⟩]
              rfl
            · have hboth : ¬ ((max (ms / 1000) 0).toNNRat < (durationLimit : Duration) ∧
                  ∀ step ∈ recordedSteps gaps tokens, step.delay < durationLimit) :=
                fun h => htail h.2
              rw [if_pos hhead, if_neg htail, if_neg hboth]
              rfl
          · have hboth : ¬ ((max (ms / 1000) 0).toNNRat < (durationLimit : Duration) ∧
                ∀ step ∈ recordedSteps gaps tokens, step.delay < durationLimit) :=
              fun h => hhead h.1
            rw [if_neg hhead, if_neg hboth]
            rfl

/-- A schedule is handed out when its delays are durations. -/
theorem scheduleFromRecord_eq_some_iff {r : TraceRecord} {s : ScriptedDecode} :
    scheduleFromRecord r = some (some s) ↔
      recordedSchedule r = some s ∧ ∀ step ∈ s.steps, step.delay < durationLimit := by
  unfold scheduleFromRecord recordedSchedule
  cases r.itlMs with
  | none => simp
  | some gaps =>
      cases htokens : gapTokens r gaps with
      | none => simp [htokens]
      | some tokens =>
          simp only [htokens, scheduleSteps_eq, Option.bind_some, Option.some.injEq]
          split_ifs with hall
          · rw [Option.map_some, Option.some.injEq, Option.some.injEq]
            constructor
            · rintro rfl
              exact ⟨rfl, hall⟩
            · exact fun h => h.1
          · refine iff_of_false (fun h => by cases h) ?_
            rintro ⟨rfl, hdelays⟩
            exact hall hdelays

theorem gapTokens_length {r : TraceRecord} {gaps : List ℚ} {tokens : List ℕ}
    (h : gapTokens r gaps = some tokens) : tokens.length = gaps.length := by
  unfold gapTokens at h
  split at h
  · split_ifs at h with hl
    cases h
    exact hl
  · cases h
    exact List.length_replicate

/-- Configured speculative budget: the widest recorded burst less one. -/
def deriveSpecTokens (records : List TraceRecord) : Option ℕ :=
  let maxChunk := (records.filterMap TraceRecord.itlTokens).flatten.max?.getD 1
  if 1 < maxChunk then some (maxChunk - 1) else none

structure PrefixSteps where
  records : List TraceRecord
  byHash : HashIndex
  consumed : List Bool
  blockSize : ℕ

def PrefixSteps.fromRecords (records : List TraceRecord) (blockSize : ℕ) : PrefixSteps where
  records := records
  byHash := HashIndex.build ((records.zipIdx.filter (fun r => r.1.itlMs.isSome)).map
    (fun r => (r.1.blockHashes.getD [], r.2)))
  consumed := List.replicate records.length false
  blockSize := blockSize

/-- Match the prompt and take the record's decode schedule. A panic, which ends the source's engine,
hands out nothing. -/
def PrefixSteps.takeSchedule (s : PrefixSteps) (promptTokenIds : List Token) :
    PrefixSteps × Option ScriptedDecode :=
  match (promptBlockHashes promptTokenIds s.blockSize).bind
      (fun chain => s.byHash.claim s.consumed chain.reverse) with
  | none => (s, none)
  | some i =>
      ({ s with consumed := s.consumed.set i true },
        s.records[i]?.bind (fun r => (scheduleFromRecord r).join))

/-- The sources of verbatim decode schedules: `IndexSteps` and `PrefixSteps`. -/
inductive StepSource where
  | index (records : List TraceRecord)
  | prefixed (steps : PrefixSteps)

namespace StepSource

def records : StepSource → List TraceRecord
  | index records => records
  | prefixed steps => steps.records

def specTokens (s : StepSource) : Option ℕ := deriveSpecTokens s.records

def takeSchedule (s : StepSource) (requestId : String) (promptTokenIds : List Token) :
    StepSource × Option ScriptedDecode :=
  match s with
  | index records =>
      (s, ((recordIndex requestId).bind (fun i => records[i]?)).bind
        (fun r => (scheduleFromRecord r).join))
  | prefixed steps =>
      let (steps, schedule) := steps.takeSchedule promptTokenIds
      (prefixed steps, schedule)

end StepSource
end VllmVcr
