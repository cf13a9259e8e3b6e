import Mathlib.Data.String.Basic
import VllmVcr.Replay

/-!
# Token sources

What tokens a request emits: uniform draws, recorded outputs by request id, recorded
outputs by prompt prefix, or dataset rows. Every source returns exactly as many tokens
as it is asked for, and a length it pins a request to is positive.
-/

namespace VllmVcr

variable (env : Env)

structure TokenCtx where
  requestId : String
  promptTokenIds : List Token
  numGenerated : ℕ

/-- `RandomTokens::next_tokens`. -/
def randomTokens (vocabSize : ℕ) : ℕ → env.Rng → List Token × env.Rng
  | 0, rng => ([], rng)
  | n + 1, rng =>
    let (t, rng) := env.randomRange rng vocabSize
    let (rest, rng) := randomTokens vocabSize n rng
    (UInt32.ofNat t :: rest, rng)

@[simp] theorem randomTokens_length (vocabSize n : ℕ) (rng : env.Rng) :
    (randomTokens env vocabSize n rng).1.length = n := by
  induction n generalizing rng with
  | zero => rfl
  | succ n ih => simp [randomTokens, ih]

/-- `recorded`, padded to `n` tokens with random draws. -/
def padded (vocabSize n : ℕ) (recorded : List Token) (rng : env.Rng) : List Token × env.Rng :=
  if recorded.length < n then
    let (rest, rng) := randomTokens env vocabSize (n - recorded.length) rng
    (recorded ++ rest, rng)
  else (recorded, rng)

theorem padded_length {vocabSize n : ℕ} {recorded : List Token} (h : recorded.length ≤ n)
    (rng : env.Rng) : (padded env vocabSize n recorded rng).1.length = n := by
  unfold padded
  split_ifs with hlt
  · simp only [List.length_append, randomTokens_length]
    omega
  · exact le_antisymm h (not_lt.mp hlt)

structure RecordedOutput where
  tokenIds : List Token
  finishReason : Option FinishReason

namespace RecordedOutput

def ofRecord (r : TraceRecord) : RecordedOutput where
  tokenIds := r.outputTokenIds.getD []
  finishReason := r.finishReason

/-- The recorded tokens at positions `numGenerated ..< numGenerated + n`. -/
def slice (record : Option RecordedOutput) (numGenerated n : ℕ) : List Token :=
  match record with
  | some r => (r.tokenIds.drop numGenerated).take n
  | none => []

theorem slice_length (record : Option RecordedOutput) (numGenerated n : ℕ) :
    (slice record numGenerated n).length ≤ n := by
  cases record with
  | none => exact Nat.zero_le _
  | some r => exact List.length_take_le _ _

end RecordedOutput

/-- A source matching prompts by prefix; only records with tokens are indexed. -/
structure PrefixMatchTokens where
  records : List RecordedOutput
  byHash : HashIndex
  matchable : byHash.All (fun i => ∃ r, records[i]? = some r ∧ r.tokenIds ≠ [])
  assigned : SortedMap String ℕ
  consumed : List Bool
  blockSize : ℕ
  vocabSize : ℕ

namespace PrefixMatchTokens

def chains (records : List TraceRecord) : List (List BlockHash × ℕ) :=
  (records.zipIdx.filter (fun r => r.1.outputTokenIds.any (fun t => !t.isEmpty))).map
    (fun r => (r.1.blockHashes.getD [], r.2))

theorem chains_matchable (records : List TraceRecord) :
    ∀ c ∈ chains records, ∃ r, (records.map RecordedOutput.ofRecord)[c.2]? = some r ∧
      r.tokenIds ≠ [] := by
  intro c hc
  obtain ⟨⟨r, i⟩, hr, rfl⟩ := List.mem_map.mp hc
  obtain ⟨hmem, htok⟩ := List.mem_filter.mp hr
  refine ⟨.ofRecord r, ?_, ?_⟩
  · rw [List.getElem?_map, List.mem_zipIdx_iff_getElem?.mp hmem, Option.map_some]
  · cases hout : r.outputTokenIds with
    | none => simp [hout] at htok
    | some t => simpa [RecordedOutput.ofRecord, hout] using htok

def fromRecords (records : List TraceRecord) (blockSize vocabSize : ℕ) : PrefixMatchTokens where
  records := records.map RecordedOutput.ofRecord
  byHash := HashIndex.build (chains records)
  matchable := HashIndex.all_build _ (chains_matchable records)
  assigned := SortedMap.empty
  consumed := List.replicate records.length false
  blockSize := blockSize
  vocabSize := vocabSize

def record (s : PrefixMatchTokens) (requestId : String) : Option RecordedOutput :=
  (s.assigned.get? requestId).bind (fun i => s.records[i]?)

def onRequestAdded (s : PrefixMatchTokens) (requestId : String) (promptTokenIds : List Token) :
    PrefixMatchTokens × Option ℕ :=
  match (promptBlockHashes promptTokenIds s.blockSize).bind
      (fun chain => s.byHash.claim s.consumed chain.reverse) with
  | none => (s, none)
  | some i =>
      ({ s with consumed := s.consumed.set i true, assigned := s.assigned.insert requestId i },
        s.records[i]?.map (fun r => r.tokenIds.length))

end PrefixMatchTokens

structure DatasetRow where
  blockHashes : Option (List BlockHash)
  responseTokens : List Token

/-- A dataset in memory; rows with an empty response were skipped at load. -/
structure HFDatasetTokens where
  rows : List DatasetRow
  nonempty : ∀ row ∈ rows, row.responseTokens ≠ []
  assignments : SortedMap String ℕ
  positions : SortedMap String ℕ
  byHash : HashIndex
  consumed : List Bool
  replayMatch : ReplayMatch
  blockSize : ℕ
  vocabSize : ℕ

namespace HFDatasetTokens

/-- The source over tokenized rows, as `from_file` assembles it once the tokenizer has run. -/
def fromRows (tokenized : List DatasetRow) (blockSize vocabSize : ℕ) (replayMatch : ReplayMatch) :
    HFDatasetTokens where
  rows := tokenized.filter (fun row => !row.responseTokens.isEmpty)
  nonempty := fun row hrow => by simpa using (List.mem_filter.mp hrow).2
  assignments := SortedMap.empty
  positions := SortedMap.empty
  byHash :=
    match replayMatch with
    | .index => SortedMap.empty
    | .prefixed => HashIndex.build
        ((tokenized.filter (fun row => !row.responseTokens.isEmpty)).zipIdx.map
          (fun row => (row.1.blockHashes.getD [], row.2)))
  consumed := (tokenized.filter (fun row => !row.responseTokens.isEmpty)).map (fun _ => false)
  replayMatch := replayMatch
  blockSize := blockSize
  vocabSize := vocabSize

def row (s : HFDatasetTokens) (requestId : String) : Option DatasetRow :=
  (s.assignments.get? requestId).bind (fun i => s.rows[i]?)

def assign (s : HFDatasetTokens) (requestId : String) (i : ℕ) : HFDatasetTokens :=
  { s with
    assignments := s.assignments.insert requestId i
    positions := s.positions.insert requestId 0 }

def onRequestAdded (s : HFDatasetTokens) (requestId : String) (promptTokenIds : List Token) :
    HFDatasetTokens × Option ℕ :=
  match s.replayMatch with
  | .index =>
      match (recordIndex requestId).bind (fun i => s.rows[i]?.map (fun row => (i, row))) with
      | none => (s, none)
      | some (i, row) => (s.assign requestId i, some row.responseTokens.length)
  | .prefixed =>
      match (promptBlockHashes promptTokenIds s.blockSize).bind
          (fun chain => s.byHash.claim s.consumed chain.reverse) with
      | none => (s, none)
      | some i =>
          ({ s.assign requestId i with consumed := s.consumed.set i true },
            s.rows[i]?.map (fun row => row.responseTokens.length))

def position (s : HFDatasetTokens) (requestId : String) : ℕ :=
  (s.positions.get? requestId).getD 0

/-- Move the request's row position past the tokens served. -/
def advance (s : HFDatasetTokens) (requestId : String) (count : ℕ) : HFDatasetTokens :=
  match s.positions.get? requestId with
  | none => s
  | some p => { s with positions := s.positions.insert requestId (p + count) }

def nextTokens (s : HFDatasetTokens) (ctx : TokenCtx) (n : ℕ) (rng : env.Rng) :
    List Token × env.Rng × HFDatasetTokens :=
  match s.row ctx.requestId with
  | none =>
      let (tokens, rng) := randomTokens env s.vocabSize n rng
      (tokens, rng, s)
  | some row =>
      let served := (row.responseTokens.drop (s.position ctx.requestId)).take n
      let (tokens, rng) := padded env s.vocabSize n served rng
      (tokens, rng, s.advance ctx.requestId served.length)

def onRequestFinished (s : HFDatasetTokens) (requestId : String) : HFDatasetTokens :=
  { s with
    assignments := s.assignments.erase requestId
    positions := s.positions.erase requestId }

def finishReason (s : HFDatasetTokens) (requestId : String) : Option FinishReason :=
  (s.row requestId).bind fun row =>
    if row.responseTokens.length ≤ s.position requestId then some .stop else none

end HFDatasetTokens

/-- The implementations of the `TokenSource` trait. -/
inductive TokenSource where
  | random (vocabSize : ℕ)
  | replay (records : List RecordedOutput) (vocabSize : ℕ)
  | prefixMatch (s : PrefixMatchTokens)
  | dataset (s : HFDatasetTokens)

namespace TokenSource

def nextTokens (s : TokenSource) (ctx : TokenCtx) (n : ℕ) (rng : env.Rng) :
    List Token × env.Rng × TokenSource :=
  match s with
  | random vocabSize =>
      let (tokens, rng) := randomTokens env vocabSize n rng
      (tokens, rng, s)
  | replay records vocabSize =>
      let record := (recordIndex ctx.requestId).bind (fun i => records[i]?)
      let (tokens, rng) := padded env vocabSize n (RecordedOutput.slice record ctx.numGenerated n) rng
      (tokens, rng, s)
  | prefixMatch p =>
      let (tokens, rng) := padded env p.vocabSize n
        (RecordedOutput.slice (p.record ctx.requestId) ctx.numGenerated n) rng
      (tokens, rng, s)
  | dataset d =>
      let (tokens, rng, d) := d.nextTokens env ctx n rng
      (tokens, rng, dataset d)

def onRequestAdded (s : TokenSource) (requestId : String) (promptTokenIds : List Token) :
    TokenSource × Option ℕ :=
  match s with
  | random _ => (s, none)
  | replay _ _ => (s, none)
  | prefixMatch p =>
      let (p, len) := p.onRequestAdded requestId promptTokenIds
      (prefixMatch p, len)
  | dataset d =>
      let (d, len) := d.onRequestAdded requestId promptTokenIds
      (dataset d, len)

def onRequestFinished (s : TokenSource) (requestId : String) : TokenSource :=
  match s with
  | random _ => s
  | replay _ _ => s
  | prefixMatch p => prefixMatch { p with assigned := p.assigned.erase requestId }
  | dataset d => dataset (d.onRequestFinished requestId)

def finishReason (s : TokenSource) (requestId : String) : Option FinishReason :=
  match s with
  | random _ => none
  | replay records _ =>
      ((recordIndex requestId).bind (fun i => records[i]?)).bind RecordedOutput.finishReason
  | prefixMatch p => (p.record requestId).bind RecordedOutput.finishReason
  | dataset d => d.finishReason requestId

/-- A source serves exactly the tokens asked for. -/
theorem nextTokens_length (s : TokenSource) (ctx : TokenCtx) (n : ℕ) (rng : env.Rng) :
    (s.nextTokens env ctx n rng).1.length = n := by
  cases s with
  | random vocabSize => exact randomTokens_length env vocabSize n rng
  | replay records vocabSize => exact padded_length env (RecordedOutput.slice_length _ _ _) rng
  | prefixMatch p => exact padded_length env (RecordedOutput.slice_length _ _ _) rng
  | dataset d =>
      simp only [nextTokens, HFDatasetTokens.nextTokens]
      split
      · exact randomTokens_length env _ n rng
      · exact padded_length env (List.length_take_le _ _) rng

/-- A source pins a request only to a recorded stream that has tokens. -/
theorem onRequestAdded_pos {s : TokenSource} {requestId : String} {promptTokenIds : List Token}
    {len : ℕ} (h : (s.onRequestAdded requestId promptTokenIds).2 = some len) : 0 < len := by
  cases s with
  | random vocabSize => cases h
  | replay records vocabSize => cases h
  | prefixMatch p =>
      simp only [onRequestAdded, PrefixMatchTokens.onRequestAdded] at h
      split at h
      · cases h
      · next i hi =>
          obtain ⟨chain, _, hclaim⟩ := Option.bind_eq_some_iff.mp hi
          obtain ⟨r, hr, hne⟩ := p.matchable.claim hclaim
          rw [hr] at h
          cases h
          exact List.length_pos_iff.mpr hne
  | dataset d =>
      have hrow : ∀ i : ℕ, d.rows[i]?.map (fun row => row.responseTokens.length) = some len →
          0 < len := by
        intro i hi
        obtain ⟨row, hr, rfl⟩ := Option.map_eq_some_iff.mp hi
        exact List.length_pos_iff.mpr (d.nonempty row (List.mem_of_getElem? hr))
      simp only [onRequestAdded, HFDatasetTokens.onRequestAdded] at h
      split at h
      · split at h
        · cases h
        · next i row hi =>
            obtain ⟨j, _, hj⟩ := Option.bind_eq_some_iff.mp hi
            obtain ⟨row', hr, heq⟩ := Option.map_eq_some_iff.mp hj
            cases heq
            refine hrow i (Eq.trans ?_ h)
            rw [hr, Option.map_some]
      · split at h
        · cases h
        · exact hrow _ h

end TokenSource
end VllmVcr
