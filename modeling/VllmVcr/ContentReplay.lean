import VllmVcr.Engine.Run

/-!
# Content replay under any chunking

A request that admission resolves to a recorded output is served that output, however its
generation is split into calls and whatever other requests do in between.
-/

namespace VllmVcr

variable {env : Env}

/-- A call of a `TokenSource`. -/
inductive SourceCall (env : Env) where
  | added (requestId : String) (promptTokenIds : List Token)
  | next (ctx : TokenCtx) (n : ℕ) (rng : env.Rng)
  | finished (requestId : String)

namespace TokenSource

/-- The recorded output that a live request is served. -/
def recorded (s : TokenSource) (requestId : String) : Option (List Token) :=
  match s with
  | random _ => none
  | replay records _ =>
      ((recordIndex requestId).bind (fun i => records[i]?)).map RecordedOutput.tokenIds
  | prefixMatch p => (p.record requestId).map RecordedOutput.tokenIds
  | dataset d => (d.row requestId).map DatasetRow.responseTokens

/-- The source after a call, and the tokens it returns. -/
def call (s : TokenSource) : SourceCall env → TokenSource × List Token
  | .added requestId promptTokenIds => ((s.onRequestAdded requestId promptTokenIds).1, [])
  | .next ctx n rng => ((s.nextTokens env ctx n rng).2.2, (s.nextTokens env ctx n rng).1)
  | .finished requestId => (s.onRequestFinished requestId, [])

/-- The chunks that a sequence of calls serves one request, each with the size asked for. -/
def serves (requestId : String) : TokenSource → List (SourceCall env) → List (ℕ × List Token)
  | _, [] => []
  | s, c :: rest =>
    match c with
    | .next ctx n _ =>
        if ctx.requestId = requestId then (n, (s.call c).2) :: serves requestId (s.call c).1 rest
        else serves requestId (s.call c).1 rest
    | _ => serves requestId (s.call c).1 rest

theorem serves_next (requestId : String) (s : TokenSource) (ctx : TokenCtx) (n : ℕ) (rng : env.Rng)
    (rest : List (SourceCall env)) :
    s.serves requestId (.next ctx n rng :: rest) =
      if ctx.requestId = requestId then
        (n, (s.nextTokens env ctx n rng).1) ::
          (s.nextTokens env ctx n rng).2.2.serves requestId rest
      else (s.nextTokens env ctx n rng).2.2.serves requestId rest := rfl

end TokenSource

/-- The request is neither admitted again nor finished, and its calls report `generated` and what
they have asked for since. -/
def Generates (requestId : String) : ℕ → List (SourceCall env) → Prop
  | _, [] => True
  | generated, .added other _ :: rest => other ≠ requestId ∧ Generates requestId generated rest
  | generated, .finished other :: rest => other ≠ requestId ∧ Generates requestId generated rest
  | generated, .next ctx n _ :: rest =>
    if ctx.requestId = requestId then
      ctx.numGenerated = generated ∧ Generates requestId (generated + n) rest
    else Generates requestId generated rest

/-- What a source keeps about a request it serves `output`. -/
def Serving (output : List Token) (requestId : String) (generated : ℕ) : TokenSource → Prop
  | .random _ => False
  | .replay records v => (TokenSource.replay records v).recorded requestId = some output
  | .prefixMatch p => (p.record requestId).map RecordedOutput.tokenIds = some output
  | .dataset d => (d.row requestId).map DatasetRow.responseTokens = some output ∧
      d.positions.get? requestId = some (min generated output.length)

theorem padded_take (vocabSize n : ℕ) (recorded : List Token) (rng : env.Rng) :
    (padded env vocabSize n recorded rng).1.take recorded.length = recorded := by
  unfold padded
  split
  · exact List.take_left' rfl
  · exact List.take_length

namespace Serving

variable {output : List Token} {requestId : String} {generated : ℕ} {s : TokenSource}

/-- A call about another request leaves what is served alone. -/
theorem added (h : Serving output requestId generated s) {other : String} (hne : other ≠ requestId)
    (promptTokenIds : List Token) :
    Serving output requestId generated (s.onRequestAdded other promptTokenIds).1 := by
  cases s with
  | random vocabSize => exact h
  | replay records vocabSize => exact h
  | prefixMatch p =>
      simp only [TokenSource.onRequestAdded, PrefixMatchTokens.onRequestAdded]
      split
      · exact h
      · rw [Serving, PrefixMatchTokens.record] at h ⊢
        simp only [SortedMap.get?_insert_of_ne _ _ _ _ hne.symm]
        exact h
  | dataset d =>
      have hassign : ∀ i consumed, Serving output requestId generated
          (.dataset { d.assign other i with consumed := consumed }) := by
        intro i consumed
        refine ⟨?_, ?_⟩
        · rw [← h.1, HFDatasetTokens.row, HFDatasetTokens.row]
          simp only [HFDatasetTokens.assign, SortedMap.get?_insert_of_ne _ _ _ _ hne.symm]
        · rw [← h.2]
          simp only [HFDatasetTokens.assign, SortedMap.get?_insert_of_ne _ _ _ _ hne.symm]
      simp only [TokenSource.onRequestAdded, HFDatasetTokens.onRequestAdded]
      split
      · split
        · exact h
        · exact hassign _ d.consumed
      · split
        · exact h
        · exact hassign _ _

theorem finished (h : Serving output requestId generated s) {other : String}
    (hne : other ≠ requestId) :
    Serving output requestId generated (s.onRequestFinished other) := by
  cases s with
  | random vocabSize => exact h
  | replay records vocabSize => exact h
  | prefixMatch p =>
      simp only [TokenSource.onRequestFinished]
      rw [Serving, PrefixMatchTokens.record] at h ⊢
      simp only [SortedMap.get?_erase_of_ne _ _ _ hne.symm]
      exact h
  | dataset d =>
      obtain ⟨hrow, hposition⟩ := h
      constructor
      · rw [← hrow, HFDatasetTokens.row, HFDatasetTokens.row]
        simp only [HFDatasetTokens.onRequestFinished, SortedMap.get?_erase_of_ne _ _ _ hne.symm]
      · rw [← hposition]
        simp only [HFDatasetTokens.onRequestFinished, SortedMap.get?_erase_of_ne _ _ _ hne.symm]

theorem next_other (h : Serving output requestId generated s) {ctx : TokenCtx}
    (hne : ctx.requestId ≠ requestId) (n : ℕ) (rng : env.Rng) :
    Serving output requestId generated (s.nextTokens env ctx n rng).2.2 := by
  cases s with
  | random vocabSize => exact h
  | replay records vocabSize => exact h
  | prefixMatch p => exact h
  | dataset d =>
      obtain ⟨hrow, hposition⟩ := h
      simp only [TokenSource.nextTokens, HFDatasetTokens.nextTokens]
      split
      · exact ⟨hrow, hposition⟩
      · unfold HFDatasetTokens.advance
        split
        · exact ⟨hrow, hposition⟩
        · refine ⟨hrow, ?_⟩
          rw [← hposition]
          exact SortedMap.get?_insert_of_ne _ _ _ _ hne.symm

/-- A call of the request is served its next recorded tokens first. -/
theorem next (h : Serving output requestId generated s) {ctx : TokenCtx}
    (hid : ctx.requestId = requestId) (hgenerated : ctx.numGenerated = generated) (n : ℕ)
    (rng : env.Rng) :
    (s.nextTokens env ctx n rng).1.take (output.length - generated) =
        (output.drop generated).take n ∧
      Serving output requestId (generated + n) (s.nextTokens env ctx n rng).2.2 := by
  have htake : ∀ (v : ℕ), (padded env v n ((output.drop generated).take n) rng).1.take
      (output.length - generated) = (output.drop generated).take n := by
    intro v
    by_cases hle : n ≤ output.length - generated
    · have hlength : (padded env v n ((output.drop generated).take n) rng).1.length = n :=
        padded_length env (List.length_take_le _ _) rng
      rw [List.take_of_length_le (by omega)]
      unfold padded
      rw [if_neg (by simp; omega)]
    · have hall : (output.drop generated).take n = output.drop generated :=
        List.take_of_length_le (by simp; omega)
      have hpad := padded_take v n (output.drop generated) rng
      rw [List.length_drop] at hpad
      rw [hall, hpad]
  subst hid
  cases s with
  | random vocabSize => exact h.elim
  | replay records vocabSize =>
      refine ⟨?_, h⟩
      obtain ⟨r, hr, rfl⟩ := Option.map_eq_some_iff.mp h
      simp only [TokenSource.nextTokens, hr, RecordedOutput.slice, hgenerated]
      exact htake vocabSize
  | prefixMatch p =>
      refine ⟨?_, h⟩
      obtain ⟨r, hr, rfl⟩ := Option.map_eq_some_iff.mp h
      simp only [TokenSource.nextTokens, hr, RecordedOutput.slice, hgenerated]
      exact htake p.vocabSize
  | dataset d =>
      obtain ⟨hrow, hposition⟩ := h
      obtain ⟨row, hget, rfl⟩ := Option.map_eq_some_iff.mp hrow
      have hdrop : row.responseTokens.drop (min generated row.responseTokens.length) =
          row.responseTokens.drop generated := by
        by_cases hle : generated ≤ row.responseTokens.length
        · rw [Nat.min_eq_left hle]
        · rw [Nat.min_eq_right (by omega), List.drop_length,
            List.drop_eq_nil_of_le (by omega)]
      simp only [TokenSource.nextTokens, HFDatasetTokens.nextTokens, hget,
        HFDatasetTokens.position, hposition, Option.getD_some, hdrop]
      refine ⟨htake d.vocabSize, ?_⟩
      unfold HFDatasetTokens.advance
      rw [hposition]
      refine ⟨hrow, ?_⟩
      rw [SortedMap.get?_insert_self, List.length_take, List.length_drop, Option.some.injEq]
      omega

/-- However the generation is split, the chunks are the recorded output as far as it goes. -/
theorem serves (calls : List (SourceCall env)) (h : Serving output requestId generated s)
    (hcalls : Generates requestId generated calls) :
    (∀ chunk ∈ s.serves requestId calls, chunk.2.length = chunk.1) ∧
      ((s.serves requestId calls).flatMap Prod.snd).take (output.length - generated) =
        (output.drop generated).take ((s.serves requestId calls).flatMap Prod.snd).length := by
  induction calls generalizing s generated with
  | nil => simp [TokenSource.serves]
  | cons c calls ih =>
      cases c with
      | added other prompt => exact ih (h.added hcalls.1 prompt) hcalls.2
      | finished other => exact ih (h.finished hcalls.1) hcalls.2
      | next ctx n rng =>
          rw [TokenSource.serves_next]
          unfold Generates at hcalls
          by_cases hid : ctx.requestId = requestId
          · rw [if_pos hid] at hcalls ⊢
            have hlength : (s.nextTokens env ctx n rng).1.length = n :=
              s.nextTokens_length env ctx n rng
            obtain ⟨hchunk, hnext⟩ := h.next hid hcalls.1 n rng
            obtain ⟨hsizes, hrest⟩ := ih hnext hcalls.2
            refine ⟨?_, ?_⟩
            · intro chunk hmem
              rcases List.mem_cons.mp hmem with rfl | hmem
              · exact hlength
              · exact hsizes chunk hmem
            · rw [List.flatMap_cons]
              change ((s.nextTokens env ctx n rng).1 ++ _).take _ =
                List.take ((s.nextTokens env ctx n rng).1 ++ _).length _
              rw [List.take_append, List.length_append, hlength, hchunk, List.take_add,
                List.drop_drop, Nat.sub_sub, hrest]
          · rw [if_neg hid] at hcalls ⊢
            exact ih (h.next_other hid n rng) hcalls

end Serving

end VllmVcr
