import Mathlib.Data.List.TakeWhile
import VllmVcr.Dataset
import VllmVcr.JsonText

/-!
# Dataset files

`parse_dataset`: a `.json` file is read as one value or, when it looks like it, as one value a line.
-/

namespace VllmVcr

open JsonText

/-! ## Parsing -/

/-- `char::is_whitespace`. -/
def isWhitespace (c : Char) : Bool :=
  (9 ≤ c.toNat && c.toNat ≤ 13) || (0x2000 ≤ c.toNat && c.toNat ≤ 0x200a) ||
    c.toNat ∈ [0x20, 0x85, 0xa0, 0x1680, 0x2028, 0x2029, 0x202f, 0x205f, 0x3000]

def trim (line : List Char) : List Char :=
  ((line.dropWhile isWhitespace).reverse.dropWhile isWhitespace).reverse

/-- The lines, each without its newline; a carriage return before it is left to `trim`. -/
def lines : List Char → List (List Char)
  | [] => []
  | c :: rest =>
    if c = '\n' then [] :: lines rest
    else match lines rest with
      | [] => [[c]]
      | line :: more => (c :: line) :: more

def nonEmptyLines (text : List Char) : List (List Char) :=
  ((lines text).map trim).filter (fun line => !line.isEmpty)

def looksLikeJsonl (text : List Char) : Bool :=
  match nonEmptyLines text with
  | [] => false
  | first :: rest => first.head? = some '{' && !rest.isEmpty

def rowsFromJsonValue : JsonValue → Except String (List JsonValue)
  | .array rows => .ok rows
  | .object fields =>
    match ["train", "validation", "test", "data"].findSome?
        (fun key => (fields.lookup key).bind JsonValue.asArray) with
    | some rows => .ok rows
    | none =>
      match fields.findSome? (fun field => field.2.asArray) with
      | some rows => .ok rows
      | none => .error "JSON dataset object has no array split to convert"
  | _ => .error "JSON dataset must be an array or split object"

/-- A dataset file; its text is what is left of the bytes once decoded. -/
structure DatasetFile where
  path : String
  extension : String
  text : List Char

/-- The parsers of the formats, which are not part of the repository. -/
structure FormatReaders where
  fromStr : List Char → Except String JsonValue
  csv : DatasetFile → Except String (List JsonValue)
  parquet : DatasetFile → Except String (List JsonValue)

section Readers

variable (readers : FormatReaders)

/-- One value for each line that is not blank; `lineNum` is the number of the next. -/
def parseJsonLines : ℕ → List (List Char) → Except String (List JsonValue)
  | _, [] => .ok []
  | lineNum, line :: more =>
    if trim line = [] then parseJsonLines (lineNum + 1) more
    else
      match withContext s!"line {lineNum}: invalid JSON" (readers.fromStr (trim line)) with
      | .error message => .error message
      | .ok row => (parseJsonLines (lineNum + 1) more).map (row :: ·)

def parseJsonDataset (file : DatasetFile) : Except String (List JsonValue) :=
  if file.text = [] then .ok []
  else if file.extension.toLower = "jsonl" ∨ looksLikeJsonl file.text then
    parseJsonLines readers 1 (lines file.text)
  else
    match withContext "parsing JSON dataset" (readers.fromStr file.text) with
    | .error message => .error message
    | .ok value => rowsFromJsonValue value

def parseDataset (file : DatasetFile) : Except String (List JsonValue) :=
  match file.extension.toLower with
  | "json" | "jsonl" => parseJsonDataset readers file
  | "csv" => readers.csv file
  | "parquet" => readers.parquet file
  | other => .error (s!"unsupported dataset extension {other.quote} in {file.path}; " ++
      "expected json, jsonl, csv, or parquet")

end Readers

/-- A JSON parser takes nothing but JSON documents, and reads what they say. -/
def Reads (fromStr : List Char → Except String JsonValue) : Prop :=
  ∀ text value, fromStr text = .ok value → Document value text

/-! ## Lines -/

theorem isWhitespace_of_isSpace {c : Char} (h : isSpace c) : isWhitespace c := by
  simp only [isSpace, Bool.or_eq_true, decide_eq_true_eq] at h
  rcases h with ((rfl | rfl) | rfl) | rfl <;> decide

/-- A line is its trimmed self between whitespace. -/
theorem trim_spec (line : List Char) :
    ∃ before after, line = before ++ trim line ++ after ∧ (∀ c ∈ before, isWhitespace c) ∧
      (∀ c ∈ after, isWhitespace c) ∧ ∀ c ∈ (trim line).head?, ¬ isWhitespace c := by
  have hright : line.dropWhile isWhitespace = trim line ++
      ((line.dropWhile isWhitespace).reverse.takeWhile isWhitespace).reverse := by
    rw [trim, ← List.reverse_append, List.takeWhile_append_dropWhile, List.reverse_reverse]
  refine ⟨line.takeWhile isWhitespace,
    ((line.dropWhile isWhitespace).reverse.takeWhile isWhitespace).reverse, ?_, ?_, ?_, ?_⟩
  · rw [List.append_assoc, ← hright, List.takeWhile_append_dropWhile]
  · exact fun c hc => List.mem_takeWhile_imp hc
  · exact fun c hc => List.mem_takeWhile_imp (List.mem_reverse.mp hc)
  · intro c hc
    have hhead : (line.dropWhile isWhitespace).head? = some c := by
      rw [hright, List.head?_append, hc]
      rfl
    have hnot := List.head?_dropWhile_not isWhitespace line
    rw [hhead] at hnot
    simpa using hnot

theorem lines_flatten (text : List Char) :
    ∃ tail, text ++ tail = (lines text).flatMap (· ++ ['\n']) ∧ (tail = [] ∨ tail = ['\n']) := by
  induction text with
  | nil => exact ⟨[], rfl, .inl rfl⟩
  | cons c rest ih =>
      obtain ⟨tail, hrest, htail⟩ := ih
      rw [lines]
      by_cases hc : c = '\n'
      · subst hc
        exact ⟨tail, by simp [hrest], htail⟩
      · rw [if_neg hc]
        cases hlines : lines rest with
        | nil =>
            rw [hlines] at hrest
            have hnil : rest = [] := (List.append_eq_nil_iff.mp hrest).1
            exact ⟨['\n'], by simp [hnil], .inr rfl⟩
        | cons line more =>
            rw [hlines] at hrest
            exact ⟨tail, by simpa using hrest, htail⟩

/-- Before the first line that is not blank there is whitespace only, and after it nothing else
when it is the only one. -/
theorem first_line {rows : List (List Char)} {first : List Char} {rest : List (List Char)}
    (h : (rows.map trim).filter (fun line => !line.isEmpty) = first :: rest) :
    ∃ before after, rows.flatMap (· ++ ['\n']) = before ++ first ++ after ∧
      (∀ c ∈ before, isWhitespace c) ∧ (∀ c ∈ first.head?, ¬ isWhitespace c) ∧ first ≠ [] ∧
      (rest ≠ [] → ∃ c ∈ after, ¬ isWhitespace c) := by
  induction rows generalizing first rest with
  | nil => cases h
  | cons line rows ih =>
      obtain ⟨a, b, hline, ha, hb, hhead⟩ := trim_spec line
      rw [List.map_cons] at h
      by_cases hblank : trim line = []
      · rw [List.filter_cons_of_neg (by simp [hblank])] at h
        obtain ⟨before, after, hflat, hbefore, hrest⟩ := ih h
        refine ⟨line ++ ['\n'] ++ before, after, ?_, ?_, hrest⟩
        · rw [List.flatMap_cons, hflat]
          simp
        · intro c hc
          rw [hline, hblank] at hc
          simp only [List.append_nil, List.mem_append, List.mem_singleton] at hc
          rcases hc with ((hc | hc) | rfl) | hc
          · exact ha c hc
          · exact hb c hc
          · decide
          · exact hbefore c hc
      · rw [List.filter_cons_of_pos (by simp [hblank])] at h
        obtain ⟨rfl, hrest⟩ := List.cons.inj h
        refine ⟨a, b ++ ['\n'] ++ rows.flatMap (· ++ ['\n']), ?_, ha, hhead, hblank, fun hne => ?_⟩
        · rw [List.flatMap_cons]
          nth_rewrite 1 [hline]
          simp
        · obtain ⟨second, hsecond⟩ := List.exists_mem_of_ne_nil rest hne
          rw [← hrest] at hsecond
          obtain ⟨hmem, hsome⟩ := List.mem_filter.mp hsecond
          obtain ⟨row, hrow, rfl⟩ := List.mem_map.mp hmem
          obtain ⟨a', b', hrow', -, -, hhead'⟩ := trim_spec row
          cases htrim : trim row with
          | nil => simp [htrim] at hsome
          | cons c cs =>
              refine ⟨c, List.mem_append_right _ (List.mem_flatMap.mpr ⟨row, hrow, ?_⟩),
                hhead' c (by rw [htrim]; rfl)⟩
              rw [hrow', htrim]
              simp

/-- Past the whitespace before it, a text goes on in one way. -/
theorem past_whitespace {before before' rest rest' : List Char} {c : Char}
    (hbefore : ∀ c ∈ before, isWhitespace c) (hbefore' : ∀ c ∈ before', isWhitespace c)
    (hhead : ∀ c ∈ rest.head?, ¬ isWhitespace c) (hc : ¬ isWhitespace c)
    (h : before ++ rest = before' ++ c :: rest') : rest = c :: rest' := by
  have hskip : ∀ {s t : List Char}, (∀ c ∈ s, isWhitespace c) →
      (∀ c ∈ t.head?, ¬ isWhitespace c) → (s ++ t).dropWhile isWhitespace = t := by
    intro s t hs ht
    rw [List.dropWhile_append_of_pos hs]
    cases t with
    | nil => rfl
    | cons d t => exact List.dropWhile_cons_of_neg (ht d rfl)
  calc rest = (before ++ rest).dropWhile isWhitespace := (hskip hbefore hhead).symm
    _ = (before' ++ c :: rest').dropWhile isWhitespace := by rw [h]
    _ = c :: rest' := hskip hbefore' (by simpa using hc)

/-! ## Layouts -/

section Layout

variable {text : List Char} {value : JsonValue} {first : List Char} {rest : List (List Char)}

/-- The first line that is not blank starts where the document's value does. -/
theorem first_of_document {c : Char} (hopens : ∀ body, Text value body → ∃ cs, body = c :: cs)
    (hc : ¬ isWhitespace c) (hvalue : Document value text)
    (hlines : nonEmptyLines text = first :: rest) :
    ∃ body after tail, Text value (c :: body) ∧ Space after ∧ first ++ tail = c :: body ++ after ∧
      first ≠ [] ∧ (rest ≠ [] → ∃ d ∈ tail, ¬ isWhitespace d) := by
  obtain ⟨ending, hflat, hending⟩ := lines_flatten text
  obtain ⟨before, tail, hfirst, hbefore, hhead, hne, hmore⟩ := first_line hlines
  obtain ⟨before', body, after, rfl, hbefore', hafter, hbody⟩ := hvalue
  obtain ⟨cs, rfl⟩ := hopens body hbody
  refine ⟨cs, after ++ ending, tail, hbody, ?_, ?_, hne, hmore⟩
  · intro d hd
    rcases List.mem_append.mp hd with hd | hd
    · exact hafter d hd
    · rcases hending with rfl | rfl
      · cases hd
      · rw [List.mem_singleton.mp hd]
        rfl
  · have hwhole : before ++ (first ++ tail) = before' ++ c :: (cs ++ (after ++ ending)) := by
      rw [← List.append_assoc, ← hfirst, ← hflat]
      simp
    refine past_whitespace hbefore (fun d hd => isWhitespace_of_isSpace (hbefore' d hd)) ?_ hc
      hwhole
    rw [List.head?_append_of_ne_nil first hne]
    exact hhead

/-- A line that is not blank and no value is refused. -/
theorem parseJsonLines_error {readers : FormatReaders} {rows : List (List Char)} {n : ℕ}
    (h : (rows.map trim).filter (fun line => !line.isEmpty) = first :: rest)
    (hrefused : ∀ v, readers.fromStr first ≠ .ok v) (values : List JsonValue) :
    parseJsonLines readers n rows ≠ .ok values := by
  induction rows generalizing n with
  | nil => cases h
  | cons line rows ih =>
      rw [List.map_cons] at h
      rw [parseJsonLines]
      by_cases hblank : trim line = []
      · rw [List.filter_cons_of_neg (by simp [hblank])] at h
        rw [if_pos hblank]
        exact ih h
      · rw [List.filter_cons_of_pos (by simp [hblank])] at h
        obtain ⟨rfl, -⟩ := List.cons.inj h
        rw [if_neg hblank]
        cases hparse : readers.fromStr (trim line) with
        | ok v => exact absurd hparse (hrefused v)
        | error message =>
            intro h
            cases h

/-- The first of several lines of an object is not itself a document. -/
theorem object_line_refused {readers : FormatReaders} (hreads : Reads readers.fromStr)
    {fields : List (String × JsonValue)} (hvalue : Document (.object fields) text)
    (hlines : nonEmptyLines text = first :: rest) (hmore : rest ≠ []) (v : JsonValue) :
    readers.fromStr first ≠ .ok v := by
  intro hparse
  obtain ⟨body, after, tail, hbody, hafter, hsame, hne, htail⟩ := first_of_document
    (fun body h => h.object_opens) (by decide) hvalue hlines
  obtain ⟨inner, rfl, hinner⟩ := hbody.object_of_brace
  obtain ⟨before', text', after', rfl, hlead, htrail, htext'⟩ := hreads _ _ hparse
  have hbrace : ¬ isSpace '{' := by decide
  obtain ⟨rest', rfl, rfl⟩ : ∃ rest', before' = [] ∧ text' = '{' :: rest' := by
    cases before' with
    | cons d ds =>
        obtain rfl : d = '{' := (List.cons.inj hsame).1
        exact absurd (hlead '{' List.mem_cons_self) hbrace
    | nil =>
        cases text' with
        | cons d ds =>
            obtain rfl : d = '{' := (List.cons.inj hsame).1
            exact ⟨ds, rfl, rfl⟩
        | nil =>
            cases after' with
            | nil => exact absurd rfl hne
            | cons d ds =>
                obtain rfl : d = '{' := (List.cons.inj hsame).1
                exact absurd (htrail '{' List.mem_cons_self) hbrace
  obtain ⟨inner', rfl, hinner'⟩ := htext'.object_of_brace
  have hrest : after' ++ tail = after := by
    refine brace_unique hinner' hinner ?_
    simpa using hsame
  obtain ⟨d, hd, hdark⟩ := htail hmore
  exact hdark (isWhitespace_of_isSpace (hafter d (hrest ▸ List.mem_append_right _ hd)))

theorem looksLikeJsonl_of_array {items : List JsonValue} (hvalue : Document (.array items) text) :
    looksLikeJsonl text = false := by
  unfold looksLikeJsonl
  cases hlines : nonEmptyLines text with
  | nil => rfl
  | cons first rest =>
      obtain ⟨body, after, tail, -, -, hsame, hne, -⟩ := first_of_document
        (fun body h => h.array_opens) (by decide) hvalue hlines
      cases first with
      | nil => exact absurd rfl hne
      | cons d ds =>
          obtain rfl : d = '[' := (List.cons.inj hsame).1
          rfl

theorem looksLikeJsonl_of_object {fields : List (String × JsonValue)}
    (hvalue : Document (.object fields) text) :
    looksLikeJsonl text = decide (1 < (nonEmptyLines text).length) := by
  unfold looksLikeJsonl
  cases hlines : nonEmptyLines text with
  | nil => rfl
  | cons first rest =>
      obtain ⟨body, after, tail, -, -, hsame, hne, -⟩ := first_of_document
        (fun body h => h.object_opens) (by decide) hvalue hlines
      cases first with
      | nil => exact absurd rfl hne
      | cons d ds =>
          obtain rfl : d = '{' := (List.cons.inj hsame).1
          cases rest with
          | nil => rfl
          | cons line more => simp

end Layout

/-- A `.json` file is read as its one value exactly when that is an array, or an object on one
line. -/
theorem parseDataset_layout_iff {readers : FormatReaders} (hreads : Reads readers.fromStr)
    {file : DatasetFile} (hjson : file.extension.toLower = "json") {value : JsonValue}
    {rows : List JsonValue} (hvalue : readers.fromStr file.text = .ok value)
    (hrows : rowsFromJsonValue value = .ok rows) :
    parseDataset readers file = .ok rows ↔
      (∃ items, value = .array items) ∨ (nonEmptyLines file.text).length ≤ 1 := by
  have hdoc : Document value file.text := hreads _ _ hvalue
  have hformat : parseDataset readers file = parseJsonDataset readers file := by
    unfold parseDataset
    rw [hjson]
    rfl
  have hwhole : looksLikeJsonl file.text = false → parseJsonDataset readers file = .ok rows := by
    intro hlooks
    unfold parseJsonDataset
    rw [if_neg hdoc.ne_nil, hjson, hlooks, if_neg (by decide), hvalue]
    exact hrows
  rw [hformat]
  cases value with
  | array items => exact iff_of_true (hwhole (looksLikeJsonl_of_array hdoc)) (.inl ⟨items, rfl⟩)
  | object fields =>
      have hlooks := looksLikeJsonl_of_object hdoc
      by_cases hone : (nonEmptyLines file.text).length ≤ 1
      · exact iff_of_true (hwhole (by rw [hlooks]; simpa using hone)) (.inr hone)
      · refine iff_of_false (fun hok => ?_) (by simp [hone])
        unfold parseJsonDataset at hok
        rw [if_neg hdoc.ne_nil, if_pos (.inr (by rw [hlooks]; simpa using hone))] at hok
        cases hlines : nonEmptyLines file.text with
        | nil => simp [hlines] at hone
        | cons first rest =>
            have hmore : rest ≠ [] := by
              rintro rfl
              simp [hlines] at hone
            exact parseJsonLines_error hlines
              (fun v => object_line_refused hreads hdoc hlines hmore v) rows hok
  | null => cases hrows
  | bool b => cases hrows
  | number n => cases hrows
  | float q => cases hrows
  | string s => cases hrows

/-- A parser that knows one document. -/
def oneDocument (text : List Char) (value : JsonValue) : FormatReaders where
  fromStr t := if t = text then .ok value else .error "expected value"
  csv _ := .error "no CSV"
  parquet _ := .error "no parquet"

theorem oneDocument_reads {text : List Char} {value : JsonValue} (h : Document value text) :
    Reads (oneDocument text value).fromStr := by
  intro t v hparse
  unfold oneDocument at hparse
  dsimp only at hparse
  split_ifs at hparse with ht
  cases hparse
  rwa [ht]

theorem oneDocument_fromStr (text : List Char) (value : JsonValue) :
    (oneDocument text value).fromStr text = .ok value :=
  if_pos rfl

/-- Two rows, and the split that holds them. -/
def sampleRows : List JsonValue :=
  [.object [("question", .string "a"), ("answer", .number 1)], .object [("question", .string "b")]]

def sampleSplit : JsonValue := .object [("data", .array sampleRows)]

/-- An array with each element on a line of its own. -/
def prettyText (items : List JsonValue) : List Char :=
  '[' :: [','].intercalate ((items.map (fun v => (⟨v, ['\n', ' ', ' '], compactText v,
    ['\n']⟩ : Item))).map Item.padded) ++ [']']

theorem document_of_text {v : JsonValue} {t : List Char} (h : Text v t) : Document v t :=
  ⟨[], t, [], by simp, List.forall_mem_nil _, List.forall_mem_nil _, h⟩

theorem prettyText_document {items : List JsonValue} (hne : items ≠ [])
    (h : ∀ v ∈ items, unescaped v = true) : Document (.array items) (prettyText items) := by
  have hspaced : ∀ v ∈ items, (⟨v, ['\n', ' ', ' '], compactText v, ['\n']⟩ : Item).Spaced :=
    fun v _ => ⟨by simp [Space, isSpace], by simp [Space, isSpace]⟩
  have htext := Text.array (items.map (fun v => ⟨v, ['\n', ' ', ' '], compactText v, ['\n']⟩))
    (by simpa using hne) (List.forall_mem_map.mpr hspaced)
    (List.forall_mem_map.mpr (fun v hv => compactText_text v (h v hv)))
  rw [List.map_map, List.map_id''] at htext
  · exact document_of_text htext
  · exact fun v => rfl

/-- The split is read from one line, and an array of its rows from several. -/
theorem sampleRows_read :
    parseDataset (oneDocument (compactText sampleSplit) sampleSplit)
      ⟨"rows.json", "json", compactText sampleSplit⟩ = .ok sampleRows ∧
    1 < (nonEmptyLines (prettyText sampleRows)).length ∧
    parseDataset (oneDocument (prettyText sampleRows) (.array sampleRows))
      ⟨"rows.json", "json", prettyText sampleRows⟩ = .ok sampleRows := by
  have hsplit : Document sampleSplit (compactText sampleSplit) :=
    document_of_text (compactText_text _ (by decide +kernel))
  have hpretty : Document (.array sampleRows) (prettyText sampleRows) :=
    prettyText_document (by simp [sampleRows]) (by decide +kernel)
  refine ⟨?_, by decide +kernel, ?_⟩
  · exact (parseDataset_layout_iff (oneDocument_reads hsplit) (by decide +kernel)
      (oneDocument_fromStr _ _) rfl).mpr (.inr (by decide +kernel))
  · exact (parseDataset_layout_iff (oneDocument_reads hpretty) (by decide +kernel)
      (oneDocument_fromStr _ _) rfl).mpr (.inl ⟨sampleRows, rfl⟩)

/-- An object whose array of rows is empty, with this whitespace after its brace. -/
def emptySplit (space : List Char) : List Char :=
  '{' :: space ++ ['"', 'd', 'a', 't', 'a', '"', ':', '[', ']', '}']

theorem emptySplit_document {space : List Char} (h : Space space) :
    Document (.object [("data", .array [])]) (emptySplit space) := by
  have hbody : StringBody ['d', 'a', 't', 'a'] :=
    .plain 'd' _ (by decide) (by decide) (by decide) (.plain 'a' _ (by decide) (by decide)
      (by decide) (.plain 't' _ (by decide) (by decide) (by decide) (.plain 'a' _ (by decide)
        (by decide) (by decide) .nil)))
  have hobject := Text.object
    [⟨"data", space, ['d', 'a', 't', 'a'], [], ⟨.array [], [], ['[', ']'], []⟩⟩] (by simp)
    (by
      intro m hm
      obtain rfl := List.mem_singleton.mp hm
      exact ⟨h, hbody, by simp [Space], by simp [Item.Spaced, Space]⟩)
    (by
      intro m hm
      obtain rfl := List.mem_singleton.mp hm
      exact .emptyArray [] (by simp [Space]))
  refine ⟨[], emptySplit space, [], by simp, by simp [Space], by simp [Space], ?_⟩
  simpa [emptySplit, Member.padded, Item.padded, insertMember] using hobject

/-- With a line break after the brace it is not read. -/
theorem emptySplit_twoLines :
    ¬ ∀ (readers : FormatReaders) (file : DatasetFile) (value : JsonValue)
      (rows : List JsonValue), Reads readers.fromStr → file.extension.toLower = "json" →
      readers.fromStr file.text = .ok value → rowsFromJsonValue value = .ok rows →
      parseDataset readers file = .ok rows := by
  intro hclaim
  have hdoc : Document (.object [("data", .array [])]) (emptySplit ['\n']) :=
    emptySplit_document (by simp [Space, isSpace])
  have hread := hclaim (oneDocument (emptySplit ['\n']) (.object [("data", .array [])]))
    ⟨"rows.json", "json", emptySplit ['\n']⟩ _ [] (oneDocument_reads hdoc) (by decide +kernel)
    (oneDocument_fromStr _ _) rfl
  have hrefused : (parseDataset (oneDocument (emptySplit ['\n']) (.object [("data", .array [])]))
      ⟨"rows.json", "json", emptySplit ['\n']⟩).toOption.isSome = false := by decide +kernel
  rw [hread] at hrefused
  cases hrefused

end VllmVcr
