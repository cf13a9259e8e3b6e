import VllmVcr.Replay

/-!
# Trace files

What `read_trace` accepts: an optional meta line first, then records, each of which passes
`validate_record`. Lines enter parsed; the reader stops at the first record it refuses.
-/

namespace VllmVcr

inductive TraceLine where
  | blank
  | header
  | record (r : TraceRecord)

namespace TraceRecord

variable (r : TraceRecord)

def numGaps : ℕ := (r.itlMs.getD []).length

/-- Gap data is present when more than one token was output. -/
def checkGaps (lineNum : ℕ) : Except String Unit :=
  if 1 < r.outputTokens ∧ r.itlMs.isNone ∧ r.itlSummary.isNone then
    .error (s!"line {lineNum}: output_tokens={r.outputTokens} " ++
      "but neither itl_ms nor itl_summary is present")
  else .ok ()

def checkContext (lineNum : ℕ) : Except String Unit :=
  match r.itlCtx with
  | none => .ok ()
  | some ctx =>
    if ctx.numRunning.length ≠ r.numGaps ∨ ctx.prefillTokens.length ≠ r.numGaps then
      .error (s!"line {lineNum}: itl_ctx arrays (running={ctx.numRunning.length}, " ++
        s!"prefill={ctx.prefillTokens.length}) must parallel itl_ms (len={r.numGaps})")
    else .ok ()

/-- The chunk sizes parallel the gaps, are positive and leave some tokens to the first chunk. -/
def checkTokens (lineNum : ℕ) : Except String Unit :=
  match r.itlTokens with
  | none => .ok ()
  | some tokens =>
    if tokens.length ≠ r.numGaps then
      .error (s!"line {lineNum}: itl_tokens (len={tokens.length}) " ++
        s!"must parallel itl_ms (len={r.numGaps})")
    else if 0 ∈ tokens ∨ r.outputTokens ≤ tokens.sum then
      .error (s!"line {lineNum}: itl_tokens must be positive and sum below " ++
        s!"output_tokens={r.outputTokens} (the first chunk owns the remainder), " ++
        s!"got sum={tokens.sum}")
    else .ok ()

def checkIds (lineNum : ℕ) : Except String Unit :=
  match r.outputTokenIds with
  | none => .ok ()
  | some ids =>
    if ids.length ≠ r.outputTokens then
      .error (s!"line {lineNum}: output_token_ids has {ids.length} ids " ++
        s!"but output_tokens={r.outputTokens}")
    else .ok ()

def validate (lineNum : ℕ) : Except String Unit := do
  r.checkGaps lineNum
  r.checkContext lineNum
  r.checkTokens lineNum
  r.checkIds lineNum

/-- The schema that `validate` enforces. -/
structure Valid : Prop where
  gaps : r.outputTokens ≤ 1 ∨ r.itlMs.isSome ∨ r.itlSummary.isSome
  context : ∀ ctx, r.itlCtx = some ctx →
    ctx.numRunning.length = r.numGaps ∧ ctx.prefillTokens.length = r.numGaps
  tokens : ∀ tokens, r.itlTokens = some tokens →
    tokens.length = r.numGaps ∧ 0 ∉ tokens ∧ tokens.sum < r.outputTokens
  ids : ∀ ids, r.outputTokenIds = some ids → ids.length = r.outputTokens

variable {r}

theorem except_bind_ok {ε : Type*} {x y : Except ε Unit} :
    (x >>= fun _ => y) = .ok () ↔ x = .ok () ∧ y = .ok () := by
  cases x with
  | error => exact iff_of_false (fun h => by cases h) (fun h => by cases h.1)
  | ok => exact ⟨fun h => ⟨rfl, h⟩, fun h => h.2⟩

theorem validate_eq_ok_iff {lineNum : ℕ} : r.validate lineNum = .ok () ↔ r.Valid := by
  have hgaps : r.checkGaps lineNum = .ok () ↔
      r.outputTokens ≤ 1 ∨ r.itlMs.isSome ∨ r.itlSummary.isSome := by
    unfold checkGaps
    cases r.itlMs <;> cases r.itlSummary <;> simp
  have hcontext : r.checkContext lineNum = .ok () ↔ ∀ ctx, r.itlCtx = some ctx →
      ctx.numRunning.length = r.numGaps ∧ ctx.prefillTokens.length = r.numGaps := by
    unfold checkContext
    cases r.itlCtx with
    | none => simp
    | some ctx =>
        simp only [Option.some.injEq, forall_eq']
        by_cases h : ctx.numRunning.length ≠ r.numGaps ∨ ctx.prefillTokens.length ≠ r.numGaps
        · rw [if_pos h]
          exact iff_of_false (fun h => by cases h) (by omega)
        · rw [if_neg h]
          exact iff_of_true rfl (by omega)
  have htokens : r.checkTokens lineNum = .ok () ↔ ∀ tokens, r.itlTokens = some tokens →
      tokens.length = r.numGaps ∧ 0 ∉ tokens ∧ tokens.sum < r.outputTokens := by
    unfold checkTokens
    cases r.itlTokens with
    | none => simp
    | some tokens =>
        simp only [Option.some.injEq, forall_eq']
        by_cases hlength : tokens.length ≠ r.numGaps
        · rw [if_pos hlength]
          exact iff_of_false (fun h => by cases h) (fun h => hlength h.1)
        · rw [if_neg hlength]
          by_cases h : 0 ∈ tokens ∨ r.outputTokens ≤ tokens.sum
          · rw [if_pos h]
            apply iff_of_false (fun h => by cases h)
            rintro ⟨_, hzero, hsum⟩
            rcases h with h | h
            · exact hzero h
            · omega
          · rw [if_neg h]
            rw [not_or, not_le] at h
            exact iff_of_true rfl ⟨not_not.mp hlength, h⟩
  have hids : r.checkIds lineNum = .ok () ↔
      ∀ ids, r.outputTokenIds = some ids → ids.length = r.outputTokens := by
    unfold checkIds
    cases r.outputTokenIds with
    | none => simp
    | some ids => simp
  rw [validate, except_bind_ok, except_bind_ok, except_bind_ok, hgaps, hcontext, htokens, hids]
  exact ⟨fun h => ⟨h.1, h.2.1, h.2.2.1, h.2.2.2⟩,
    fun h => ⟨h.gaps, h.context, h.tokens, h.ids⟩⟩

end TraceRecord

/-- The records of the remaining lines, the next of which has this number. -/
def readRecords : ℕ → List TraceLine → Except String (List TraceRecord)
  | _, [] => .ok []
  | lineNum, .blank :: rest => readRecords (lineNum + 1) rest
  | lineNum, .header :: _ => .error s!"line {lineNum}: invalid trace record"
  | lineNum, .record r :: rest => do
      r.validate lineNum
      let records ← readRecords (lineNum + 1) rest
      .ok (r :: records)

/-- The records of a trace, whose first non-blank line may be the meta line. -/
def readTrace : ℕ → List TraceLine → Except String (List TraceRecord)
  | lineNum, .blank :: rest => readTrace (lineNum + 1) rest
  | lineNum, .header :: rest => readRecords (lineNum + 1) rest
  | lineNum, lines => readRecords lineNum lines

theorem readRecords_eq_ok_iff {lineNum : ℕ} {records : List TraceRecord} :
    readRecords lineNum (records.map .record) = .ok records ↔ ∀ r ∈ records, r.Valid := by
  induction records generalizing lineNum with
  | nil => simp [readRecords]
  | cons r records ih =>
      rw [List.forall_mem_cons, List.map_cons, ← @ih (lineNum + 1),
        ← @TraceRecord.validate_eq_ok_iff r lineNum, readRecords]
      cases r.validate lineNum with
      | error => exact iff_of_false (fun h => by cases h) (fun h => by cases h.1)
      | ok =>
          cases hrest : readRecords (lineNum + 1) (records.map .record) with
          | error => exact iff_of_false (fun h => by cases h) (fun h => by cases h.2)
          | ok rest =>
              constructor
              · intro h
                cases h
                exact ⟨rfl, rfl⟩
              · rintro ⟨_, h⟩
                cases h
                rfl

/-- A written trace, its meta line first, is read back when all its records are valid. -/
theorem readTrace_eq_ok_iff {records : List TraceRecord} :
    readTrace 1 (.header :: records.map .record) = .ok records ↔ ∀ r ∈ records, r.Valid :=
  readRecords_eq_ok_iff

end VllmVcr
