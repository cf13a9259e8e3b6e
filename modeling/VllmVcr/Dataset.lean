import VllmVcr.Protocol
import VllmVcr.ContentReplay
import Mathlib.Data.List.Basic

/-!
# Replaying a dataset file

Prompt and response texts are taken from each parsed row and tokenized, and rows without
response tokens are dropped. Under index matching a request id is resolved against the rows that
are left.
-/

namespace VllmVcr

variable {env : Env}

def firstStringField (row : JsonValue) (keys : List String) : Option String :=
  keys.findSome? (fun key => (row.get? key).bind JsonValue.asStr)

/-- The text of a chat message that `format_chat_messages` keeps. -/
def chatContent (userOnly : Bool) : JsonValue → Option String
  | msg@(.object _) =>
      let role := (((msg.get? "role").bind JsonValue.asStr).getD "").toLower
      let content := ((msg.get? "content").bind JsonValue.asStr).getD ""
      if content = "" then none
      else if userOnly then if role = "user" ∨ role = "system" then some content else none
      else if role = "assistant" then some content else none
  | _ => none

def formatChatMessages (messages : List JsonValue) (userOnly : Bool) : String :=
  "\n".intercalate (messages.filterMap (chatContent userOnly))

def extractPrompt : JsonValue → Except String String
  | row@(.object _) =>
      match firstStringField row
          ["prompt", "instruction", "question", "query", "input_text", "context"] with
      | some text =>
          let input := (firstStringField row ["input", "inputs"]).getD ""
          .ok (if input = "" then text else text ++ "\n" ++ input)
      | none =>
        match (row.get? "messages").bind JsonValue.asArray with
        | some messages => .ok (formatChatMessages messages true)
        | none =>
          match firstStringField row ["text", "content"] with
          | some text => .ok text
          | none => .error "dataset row has no recognizable prompt field"
  | _ => .error "dataset row must be a JSON object"

def extractResponse : JsonValue → Except String String
  | row@(.object _) =>
      match firstStringField row
          ["output", "response", "completion", "answer", "target", "label"] with
      | some text => .ok text
      | none =>
        let assistant := (((row.get? "messages").bind JsonValue.asArray).map
          (fun messages => formatChatMessages messages false)).getD ""
        if assistant = "" then .error "dataset row has no recognizable response field"
        else .ok assistant
  | _ => .error "dataset row must be a JSON object"

/-- The tokenizer of the served model, which is not part of the repository. -/
structure Tokenizer where
  encode : String → Except String (List Token)
  vocabSize : ℕ

def withContext {α : Type} (context : String) : Except String α → Except String α :=
  Except.mapError (fun e => s!"{context}: {e}")

namespace HFDatasetTokens

variable (tokenizer : Tokenizer) (blockSize : ℕ)

/-- A row as the loading loop tokenizes it; `idx` is its place in the parsed file. -/
def tokenizeRow (idx : ℕ) (row : JsonValue) : Except String DatasetRow := do
  let promptText ← withContext s!"extracting prompt from row {idx}" (extractPrompt row)
  let responseText ← withContext s!"extracting response from row {idx}" (extractResponse row)
  let promptTokenIds ← withContext s!"tokenizing prompt for row {idx}"
    (tokenizer.encode promptText)
  let responseTokens ← withContext s!"tokenizing response for row {idx}"
    (tokenizer.encode responseText)
  return { blockHashes := promptBlockHashes promptTokenIds blockSize, responseTokens }

def tokenizeRows : ℕ → List JsonValue → Except String (List DatasetRow)
  | _, [] => return []
  | idx, row :: rest => do
      let row ← tokenizeRow tokenizer blockSize idx row
      let rows ← tokenizeRows (idx + 1) rest
      return row :: rows

/-- `from_file`, once the file is parsed and the tokenizer is loaded. -/
def fromFile (path : String) (jsonRows : List JsonValue) (replayMatch : ReplayMatch) :
    Except String HFDatasetTokens := do
  if jsonRows.isEmpty then throw s!"dataset {path} contains no rows"
  let tokenized ← tokenizeRows tokenizer blockSize 0 jsonRows
  let loaded := fromRows tokenized blockSize (tokenizer.vocabSize % 2 ^ 32) replayMatch
  if loaded.rows.isEmpty then throw s!"dataset {path} has no rows with tokenizable responses"
  if replayMatch = .prefixed ∧ loaded.byHash.isEmpty then
    throw (s!"dataset {path} has no rows with a full prompt block (block_size={blockSize}); " ++
      "prefix matching requires at least one block of prompt tokens per row")
  return loaded

/-- The response tokens of the row at a place of the parsed file. -/
def rowResponse (jsonRows : List JsonValue) (i : ℕ) : Option (List Token) :=
  jsonRows[i]?.bind (fun row => (extractResponse row >>= tokenizer.encode).toOption)

theorem tokenizeRow_response {idx : ℕ} {row : JsonValue} {r : DatasetRow}
    (h : tokenizeRow tokenizer blockSize idx row = .ok r) :
    (extractResponse row >>= tokenizer.encode).toOption = some r.responseTokens := by
  unfold tokenizeRow at h
  cases hprompt : extractPrompt row with
  | error e => simp [hprompt, withContext, Except.mapError, bind, Except.bind] at h
  | ok promptText =>
    cases hresponse : extractResponse row with
    | error e => simp [hprompt, hresponse, withContext, Except.mapError, bind, Except.bind] at h
    | ok responseText =>
      cases hids : tokenizer.encode promptText with
      | error e =>
          simp [hprompt, hresponse, hids, withContext, Except.mapError, bind, Except.bind] at h
      | ok ids =>
        cases htokens : tokenizer.encode responseText with
        | error e =>
            simp [hprompt, hresponse, hids, htokens, withContext, Except.mapError, bind,
              Except.bind] at h
        | ok tokens =>
            simp only [hprompt, hresponse, hids, htokens, withContext, Except.mapError, bind,
              Except.bind, pure, Except.pure, Except.ok.injEq] at h
            subst h
            simp [bind, Except.bind, htokens, Except.toOption]

/-- Every row of a loaded file was tokenized. -/
theorem tokenizeRows_response {idx : ℕ} {jsonRows : List JsonValue} {rows : List DatasetRow}
    (h : tokenizeRows tokenizer blockSize idx jsonRows = .ok rows) (i : ℕ) :
    rowResponse tokenizer jsonRows i = (rows[i]?).map DatasetRow.responseTokens := by
  induction jsonRows generalizing idx rows i with
  | nil =>
      cases h
      simp [rowResponse]
  | cons row rest ih =>
      rw [tokenizeRows] at h
      cases hrow : tokenizeRow tokenizer blockSize idx row with
      | error e => simp [hrow, bind, Except.bind] at h
      | ok r =>
        cases hrest : tokenizeRows tokenizer blockSize (idx + 1) rest with
        | error e => simp [hrow, hrest, bind, Except.bind] at h
        | ok rs =>
            simp only [hrow, hrest, bind, Except.bind, pure, Except.pure, Except.ok.injEq] at h
            subst h
            cases i with
            | zero => simpa [rowResponse] using tokenizeRow_response tokenizer blockSize hrow
            | succ i => simpa [rowResponse] using ih hrest i

theorem fromFile_ok {path : String} {jsonRows : List JsonValue} {replayMatch : ReplayMatch}
    {d : HFDatasetTokens}
    (h : fromFile tokenizer blockSize path jsonRows replayMatch = .ok d) :
    ∃ tokenized, tokenizeRows tokenizer blockSize 0 jsonRows = .ok tokenized ∧
      d = fromRows tokenized blockSize (tokenizer.vocabSize % 2 ^ 32) replayMatch := by
  unfold fromFile at h
  cases htokenized : tokenizeRows tokenizer blockSize 0 jsonRows with
  | error e =>
      simp only [htokenized, bind, Except.bind, throw, throwThe, MonadExceptOf.throw] at h
      split at h <;> cases h
  | ok tokenized =>
      refine ⟨tokenized, rfl, ?_⟩
      simp only [htokenized, bind, Except.bind, throw, throwThe, MonadExceptOf.throw, pure,
        Except.pure] at h
      split_ifs at h
      exact (Except.ok.inj h).symm

end HFDatasetTokens

/-- The places of the kept elements stay as they were exactly when every dropped one comes last. -/
theorem filter_getElem?_iff {α : Type*} (p : α → Bool) (l : List α) (n : ℕ) :
    (∀ i < n, (l.filter p)[i]? = l[i]?.filter p) ↔
      ∀ i < n, ∀ j > i, ∀ a ∈ l[i]?, ∀ b ∈ l[j]?, p a = false → p b = false := by
  induction l generalizing n with
  | nil => simp
  | cons a l ih =>
      cases n with
      | zero => simp
      | succ n =>
          by_cases ha : p a = true
          · rw [List.filter_cons_of_pos ha]
            constructor
            · intro h i hi j hj x hx y hy hfalse
              obtain ⟨j, rfl⟩ := Nat.exists_eq_succ_of_ne_zero (by omega : j ≠ 0)
              cases i with
              | zero =>
                  obtain rfl : a = x := by simpa using hx
                  simp [ha] at hfalse
              | succ i =>
                  have htail : ∀ k < n, (l.filter p)[k]? = l[k]?.filter p :=
                    fun k hk => by simpa using h (k + 1) (by omega)
                  exact (ih n).mp htail i (by omega) j (by omega) x (by simpa using hx) y
                    (by simpa using hy) hfalse
            · intro h i hi
              cases i with
              | zero => simp [Option.filter, ha]
              | succ i =>
                  have htail : ∀ k < n, ∀ j > k, ∀ x ∈ l[k]?, ∀ y ∈ l[j]?, p x = false →
                      p y = false := by
                    intro k hk j hj x hx y hy
                    exact h (k + 1) (by omega) (j + 1) (by omega) x (by simpa using hx) y
                      (by simpa using hy)
                  simpa using (ih n).mpr htail i (by omega)
          · rw [List.filter_cons_of_neg ha]
            rw [Bool.not_eq_true] at ha
            constructor
            · intro h i hi j hj x hx y hy hfalse
              obtain ⟨j, rfl⟩ := Nat.exists_eq_succ_of_ne_zero (by omega : j ≠ 0)
              have hnone : l.filter p = [] := by
                have hhead := h 0 (by omega)
                simpa [Option.filter, ha] using hhead
              have hmem : y ∈ l := List.mem_of_getElem? (by simpa using hy)
              simpa using List.filter_eq_nil_iff.mp hnone y hmem
            · intro h i hi
              have hnone : ∀ y ∈ l, p y = false := by
                intro y hy
                obtain ⟨j, hj⟩ := List.mem_iff_getElem?.mp hy
                exact h 0 (by omega) (j + 1) (by omega) a (by simp) y (by simpa using hj) ha
              rw [List.filter_eq_nil_iff.mpr (by simpa using hnone), List.getElem?_nil]
              cases i with
              | zero => simp [Option.filter, ha]
              | succ i =>
                  rw [List.getElem?_cons_succ]
                  cases hl : l[i]? with
                  | none => rfl
                  | some y => simp [Option.filter, hnone y (List.mem_of_getElem? hl)]

/-- An integer that fits a `usize` is read back from the end of a request id. -/
theorem recordIndex_repr {i : ℕ} (h : i < 2 ^ 64) (name : String) :
    recordIndex (name ++ "-" ++ i.repr) = some i := by
  have hdigit : ∀ c ∈ Nat.toDigits 10 i, c.isDigit = true :=
    fun c hc => Nat.isDigit_of_mem_toDigits (by omega) (by omega) hc
  have htail : (((name ++ "-" ++ i.repr).toList.reverse.takeWhile (fun c => c ≠ '-')).reverse) =
      Nat.toDigits 10 i := by
    have hkept : ∀ c ∈ (Nat.toDigits 10 i).reverse, (decide (c ≠ '-')) = true := by
      intro c hc
      have := hdigit c (List.mem_reverse.mp hc)
      by_contra hdash
      obtain rfl : c = '-' := by simpa using hdash
      exact absurd this (by decide)
    have hid : (name ++ "-" ++ i.repr).toList.reverse =
        (Nat.toDigits 10 i).reverse ++ '-' :: name.toList.reverse := by
      simp [Nat.toList_repr]
    rw [hid, List.takeWhile_append_of_pos hkept]
    simp
  have hparse : parseDigits (Nat.toDigits 10 i) = some i := by
    have hvalue : (Nat.toDigits 10 i).foldl (fun n c => 10 * n + (c.toNat - '0'.toNat)) 0 = i := by
      rw [← Nat.ofDigitChars_eq_foldl, Nat.ofDigitChars_ten_toDigits]
    rw [parseDigits, if_pos ⟨Nat.toDigits_ne_nil, List.all_eq_true.mpr hdigit⟩]
    dsimp only
    rw [hvalue, if_pos h]
  unfold recordIndex
  rw [htail]
  split
  · next digits hplus =>
      have := hdigit '+' (hplus ▸ List.mem_cons_self)
      exact absurd this (by decide)
  · exact hparse

theorem recordIndex_lt {requestId : String} {i : ℕ} (h : recordIndex requestId = some i) :
    i < 2 ^ 64 := by
  have hparse : ∀ digits, parseDigits digits = some i → i < 2 ^ 64 := by
    intro digits hdigits
    unfold parseDigits at hdigits
    split at hdigits
    · dsimp only at hdigits
      split_ifs at hdigits with hlt
      exact Option.some.inj hdigits ▸ hlt
    · cases hdigits
  unfold recordIndex at h
  split at h
  · exact hparse _ h
  · exact hparse _ h

namespace TokenSource

/-- The source after a sequence of calls. -/
def after (s : TokenSource) (calls : List (SourceCall env)) : TokenSource :=
  calls.foldl (fun s c => (s.call c).1) s

/-- A dataset under index matching, each request assigned the row its id names. -/
def Indexed (rows : List DatasetRow) : TokenSource → Prop
  | dataset d => d.rows = rows ∧ d.replayMatch = .index ∧
      ∀ requestId k, d.assignments.get? requestId = some k → recordIndex requestId = some k
  | _ => False

namespace Indexed

variable {rows : List DatasetRow} {s : TokenSource}

theorem added (h : Indexed rows s) (requestId : String) (promptTokenIds : List Token) :
    Indexed rows (s.onRequestAdded requestId promptTokenIds).1 := by
  cases s with
  | random vocabSize => exact h.elim
  | replay records vocabSize => exact h.elim
  | prefixMatch p => exact h.elim
  | dataset d =>
      obtain ⟨hrows, hmatch, hassigned⟩ := h
      simp only [onRequestAdded, HFDatasetTokens.onRequestAdded, hmatch]
      split
      · exact ⟨hrows, hmatch, hassigned⟩
      · next k row hfound =>
          obtain ⟨i, hi, hrow⟩ := Option.bind_eq_some_iff.mp hfound
          obtain ⟨_, _, heq⟩ := Option.map_eq_some_iff.mp hrow
          obtain ⟨rfl, rfl⟩ := Prod.mk.inj heq
          refine ⟨hrows, hmatch, ?_⟩
          intro other k hget
          simp only [HFDatasetTokens.assign] at hget
          by_cases hsame : other = requestId
          · rw [hsame, SortedMap.get?_insert_self, Option.some.injEq] at hget
            rw [hsame, hi, hget]
          · rw [SortedMap.get?_insert_of_ne _ _ _ _ hsame] at hget
            exact hassigned other k hget

theorem call (h : Indexed rows s) (c : SourceCall env) : Indexed rows (s.call c).1 := by
  cases c with
  | added requestId promptTokenIds => exact h.added requestId promptTokenIds
  | next ctx n rng =>
      cases s with
      | random vocabSize => exact h.elim
      | replay records vocabSize => exact h.elim
      | prefixMatch p => exact h.elim
      | dataset d =>
          simp only [TokenSource.call, nextTokens, HFDatasetTokens.nextTokens]
          split
          · exact h
          · unfold HFDatasetTokens.advance
            split
            · exact h
            · exact h
  | finished requestId =>
      cases s with
      | random vocabSize => exact h.elim
      | replay records vocabSize => exact h.elim
      | prefixMatch p => exact h.elim
      | dataset d =>
          obtain ⟨hrows, hmatch, hassigned⟩ := h
          refine ⟨hrows, hmatch, ?_⟩
          intro other k hget
          simp only [HFDatasetTokens.onRequestFinished, SortedMap.get?_erase] at hget
          split at hget
          · cases hget
          · exact hassigned other k hget

theorem after (h : Indexed rows s) (calls : List (SourceCall env)) :
    Indexed rows (s.after calls) := by
  induction calls generalizing s with
  | nil => exact h
  | cons c calls ih => exact ih (h.call c)

/-- A request is served the row, among those kept, that its id names. -/
theorem recorded (h : Indexed rows s) {requestId : String} {i : ℕ}
    (hi : recordIndex requestId = some i) (promptTokenIds : List Token) :
    (s.onRequestAdded requestId promptTokenIds).1.recorded requestId =
      rows[i]?.map DatasetRow.responseTokens := by
  cases s with
  | random vocabSize => exact h.elim
  | replay records vocabSize => exact h.elim
  | prefixMatch p => exact h.elim
  | dataset d =>
      obtain ⟨rfl, hmatch, hassigned⟩ := h
      simp only [onRequestAdded, HFDatasetTokens.onRequestAdded, hmatch, hi, Option.bind_some]
      cases hrow : d.rows[i]? with
      | none =>
          simp only [Option.map_none, TokenSource.recorded, HFDatasetTokens.row]
          cases hget : d.assignments.get? requestId with
          | none => rfl
          | some k =>
              obtain rfl : i = k := by simpa [hi] using hassigned requestId k hget
              simp [hrow]
      | some row =>
          simp [TokenSource.recorded, HFDatasetTokens.row, HFDatasetTokens.assign, hrow]

end Indexed
end TokenSource

/-- A row that has no response tokens stands before one that has some, where an id can name it. -/
def DropsEarlier (tokenizer : Tokenizer) (jsonRows : List JsonValue) : Prop :=
  ∃ i < 2 ^ 64, ∃ j > i, HFDatasetTokens.rowResponse tokenizer jsonRows i = some [] ∧
    ∃ tokens, HFDatasetTokens.rowResponse tokenizer jsonRows j = some tokens ∧ tokens ≠ []

/-- A request is served the response of the row its id names, and none if that row has no tokens,
whatever the source was called with before. -/
def KeepsRows (env : Env) (tokenizer : Tokenizer) (jsonRows : List JsonValue)
    (d : HFDatasetTokens) : Prop :=
  ∀ (calls : List (SourceCall env)) (requestId : String) (promptTokenIds : List Token) (i : ℕ),
    recordIndex requestId = some i →
      (((TokenSource.dataset d).after calls).onRequestAdded requestId
          promptTokenIds).1.recorded requestId =
        (HFDatasetTokens.rowResponse tokenizer jsonRows i).filter (fun t => !t.isEmpty)

/-- Requests are served the rows their ids name exactly when no dropped row precedes a kept one. -/
theorem keepsRows_iff {tokenizer : Tokenizer} {blockSize : ℕ} {path : String}
    {jsonRows : List JsonValue} {d : HFDatasetTokens}
    (hload : HFDatasetTokens.fromFile tokenizer blockSize path jsonRows .index = .ok d) :
    KeepsRows env tokenizer jsonRows d ↔ ¬ DropsEarlier tokenizer jsonRows := by
  obtain ⟨tokenized, htokenized, rfl⟩ := HFDatasetTokens.fromFile_ok tokenizer blockSize hload
  have hindexed : TokenSource.Indexed (tokenized.filter (fun row => !row.responseTokens.isEmpty))
      (.dataset (HFDatasetTokens.fromRows tokenized blockSize (tokenizer.vocabSize % 2 ^ 32)
        .index)) := ⟨rfl, rfl, fun _ _ hget => by simp [HFDatasetTokens.fromRows] at hget⟩
  have hresponse : ∀ i, HFDatasetTokens.rowResponse tokenizer jsonRows i =
      (tokenized.map DatasetRow.responseTokens)[i]? := by
    intro i
    rw [HFDatasetTokens.tokenizeRows_response tokenizer blockSize htokenized i, List.getElem?_map]
  have hkept : ∀ i : ℕ, (tokenized.filter (fun row => !row.responseTokens.isEmpty))[i]?.map
      DatasetRow.responseTokens =
        ((tokenized.map DatasetRow.responseTokens).filter (fun t => !t.isEmpty))[i]? := by
    intro i
    rw [List.filter_map, List.getElem?_map]
    rfl
  have hlaw := filter_getElem?_iff (fun t : List Token => !t.isEmpty)
    (tokenized.map DatasetRow.responseTokens) (2 ^ 64)
  constructor
  · rintro h ⟨i, hi, j, hj, hempty, tokens, htokens, hne⟩
    refine hne (List.isEmpty_iff.mp ?_)
    have hall := hlaw.mp ?_ i hi j hj [] (by rw [← hresponse, hempty]; rfl) tokens
      (by rw [← hresponse, htokens]; rfl) rfl
    · simpa using hall
    · intro k hk
      rw [← hkept, ← hresponse, ← h [] _ [] k (recordIndex_repr hk "x")]
      exact (hindexed.recorded (recordIndex_repr hk "x") []).symm
  · intro hlate calls requestId promptTokenIds i hi
    rw [(hindexed.after calls).recorded hi promptTokenIds, hkept, hresponse]
    refine hlaw.mpr ?_ i (recordIndex_lt hi)
    intro k hk j hj x hx y hy hempty
    by_contra hfull
    refine hlate ⟨k, hk, j, hj, ?_, y, ?_, ?_⟩
    · rw [hresponse]
      simpa [show x = [] by simpa using hempty] using hx
    · rw [hresponse]
      exact hy
    · simpa using hfull

/-- A tokenizer that gives each character its code point. -/
def charTokenizer : Tokenizer where
  encode text := .ok (text.toList.map (fun c => UInt32.ofNat c.toNat))
  vocabSize := 256

def chatRow (prompt response : String) : JsonValue :=
  .object [("prompt", .string prompt), ("response", .string response)]

/-- Loading drops the first row, and the request that names it is served the second. -/
theorem dropped_row_shifts :
    ∃ d, HFDatasetTokens.fromFile charTokenizer 16 "d.json" [chatRow "a" "", chatRow "b" "hi"]
        .index = .ok d ∧
      HFDatasetTokens.rowResponse charTokenizer [chatRow "a" "", chatRow "b" "hi"] 0 = some [] ∧
      ((TokenSource.dataset d).onRequestAdded "x-0" []).1.recorded "x-0" = some [104, 105] ∧
      ((TokenSource.dataset d).onRequestAdded "x-1" []).1.recorded "x-1" = none ∧
      ¬ KeepsRows demoEnv charTokenizer [chatRow "a" "", chatRow "b" "hi"] d := by
  refine ⟨_, rfl, by decide +kernel, by decide +kernel, by decide +kernel, ?_⟩
  intro h
  have hfirst := h [] "x-0" [] 0 (by decide +kernel)
  exact absurd hfirst (by decide +kernel)

/-- Rows without a response at the end of the file shift none. -/
theorem trailing_empty_keeps :
    ∃ d, HFDatasetTokens.fromFile charTokenizer 16 "d.json" [chatRow "b" "hi", chatRow "a" ""]
        .index = .ok d ∧
      KeepsRows demoEnv charTokenizer [chatRow "b" "hi", chatRow "a" ""] d := by
  have hload : HFDatasetTokens.fromFile charTokenizer 16 "d.json"
      [chatRow "b" "hi", chatRow "a" ""] .index = .ok _ := rfl
  refine ⟨_, hload, (keepsRows_iff hload).mpr ?_⟩
  rintro ⟨i, hi, j, hj, hempty, tokens, htokens, hne⟩
  have hlast : j < 2 := by
    by_contra hpast
    simp [HFDatasetTokens.rowResponse,
      List.getElem?_eq_none (show [chatRow "b" "hi", chatRow "a" ""].length ≤ j by simp; omega)]
      at htokens
  obtain rfl : i = 0 := by omega
  exact absurd hempty (by decide +kernel)

end VllmVcr
