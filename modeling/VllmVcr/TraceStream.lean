import VllmVcr.DatasetFile
import VllmVcr.TraceJson

/-!
# Trace files as text

`write_trace` and `append_record` leave one JSON text a line. `read_trace` takes the lines of a
stream that may end without the trailer of its compression, and `read_meta` only the first of
them that is not blank. How values become text is left to the JSON library.
-/

namespace VllmVcr

open JsonText

/-- The JSON library, which is not part of the repository: the text of a value, the value of a
text with its repeated members, and the float it reads in the text of one. -/
structure SerdeJson where
  toText : JsonValue → List Char
  fromStr : List Char → Option JsonValue
  reread : ℚ → ℚ

namespace SerdeJson

/-- Nothing but a JSON document is read. -/
def Sound (json : SerdeJson) : Prop := ∀ t v, json.fromStr t = some v → ∃ w, Document w t

/-- The object is written on one line, and read back up to its floats. -/
structure Writes (json : SerdeJson) (v : JsonValue) : Prop where
  reads : json.fromStr (json.toText v) = some (v.mapFloats json.reread)
  text : ∃ fields, Text (.object fields) (json.toText v)
  line : '\n' ∉ json.toText v

end SerdeJson

/-! ## Streams -/

inductive StreamEnd where
  | finished
  | unfinalized
  | failed

inductive ReadError where
  | unexpectedEof
  | other

/-- What is read of a file, and how the reading of it ends. -/
structure TraceStream where
  text : List Char
  ends : StreamEnd

/-- The lines that end in a newline. -/
def completeLines (text : List Char) : List (List Char) :=
  if text.getLast? = some '\n' then lines text else (lines text).dropLast

namespace TraceStream

/-- `BufRead::lines`: the line that an error interrupts is lost. -/
def items (stream : TraceStream) : List (Except ReadError (List Char)) :=
  match stream.ends with
  | .finished => (lines stream.text).map .ok
  | .unfinalized => (completeLines stream.text).map .ok ++ [.error .unexpectedEof]
  | .failed => (completeLines stream.text).map .ok ++ [.error .other]

end TraceStream

section Files

variable (json : SerdeJson)

/-! ## Writing -/

/-- The text of `MetaWrapper` around the meta object. -/
def metaText (header : JsonValue) : List Char := json.toText (.object [("meta", header)])

def recordText (r : FileRecord) : List Char := json.toText (FileRecord.record.codec.write r)

def appendRecord (r : FileRecord) : List Char := recordText json r ++ ['\n']

/-- A meta line, and the records appended to it. -/
def fileText (header : JsonValue) (records : List FileRecord) : List Char :=
  metaText json header ++ ['\n'] ++ records.flatMap (appendRecord json)

def writeTrace (fileMeta : FileMeta) (records : List FileRecord) : List Char :=
  fileText json fileMeta.write records

/-! ## Reading -/

namespace TraceStream

/-- The records of the remaining lines, the next of which has this number. -/
def readRest : ℕ → List (Except ReadError (List Char)) → Except String (List FileRecord)
  | _, [] => .ok []
  | _, .error .unexpectedEof :: _ => .ok []
  | lineNum, .error .other :: _ => .error s!"reading line {lineNum}"
  | lineNum, .ok line :: rest =>
    if trim line = [] then readRest (lineNum + 1) rest
    else
      match (json.fromStr (trim line)).bind FileRecord.record.codec.read with
      | none => .error s!"line {lineNum}: invalid trace record"
      | some r => do
        r.validate lineNum
        let records ← readRest (lineNum + 1) rest
        .ok (r :: records)

/-- The first line that is not blank may be the meta line. -/
def readFirst : ℕ → List (Except ReadError (List Char)) → Except String (FileMeta × List FileRecord)
  | _, [] => .ok (FileMeta.default, [])
  | _, .error .unexpectedEof :: _ => .ok (FileMeta.default, [])
  | lineNum, .error .other :: _ => .error s!"reading line {lineNum}"
  | lineNum, .ok line :: rest =>
    if trim line = [] then readFirst (lineNum + 1) rest
    else
      match json.fromStr (trim line) with
      | none => .error s!"line {lineNum}: invalid JSON"
      | some value =>
        match value.toValue.get? "meta" with
        | some inner =>
          match FileMeta.read inner with
          | none => .error s!"line {lineNum}: invalid meta object"
          | some fileMeta => do
            let records ← readRest json (lineNum + 1) rest
            .ok (fileMeta, records)
        | none =>
          match FileRecord.record.codec.read value.toValue with
          | none => .error s!"line {lineNum}: invalid trace record"
          | some r => do
            r.validate lineNum
            let records ← readRest json (lineNum + 1) rest
            .ok (FileMeta.default, r :: records)

def readTrace (stream : TraceStream) : Except String (FileMeta × List FileRecord) :=
  readFirst json 1 stream.items

def readMetaLines : ℕ → List (Except ReadError (List Char)) → Except String FileMeta
  | _, [] => .ok FileMeta.default
  | lineNum, .error _ :: _ => .error s!"reading line {lineNum}"
  | lineNum, .ok line :: rest =>
    if trim line = [] then readMetaLines (lineNum + 1) rest
    else
      match json.fromStr (trim line) with
      | none => .error s!"line {lineNum}: invalid JSON"
      | some value =>
        match value.toValue.get? "meta" with
        | some inner =>
          match FileMeta.read inner with
          | none => .error s!"line {lineNum}: invalid meta object"
          | some fileMeta => .ok fileMeta
        | none => .ok FileMeta.default

def readMeta (stream : TraceStream) : Except String FileMeta := readMetaLines json 1 stream.items

end TraceStream

end Files

/-! ## Lines -/

theorem lines_line {t : List Char} (h : '\n' ∉ t) (rest : List Char) :
    lines (t ++ '\n' :: rest) = t :: lines rest := by
  induction t with
  | nil => rw [List.nil_append, lines, if_pos rfl]
  | cons c t ih =>
      rw [List.mem_cons, not_or] at h
      rw [List.cons_append, lines, if_neg (Ne.symm h.1), ih h.2]

theorem lines_part {part : List Char} (h : '\n' ∉ part) (hne : part ≠ []) :
    lines part = [part] := by
  induction part with
  | nil => exact absurd rfl hne
  | cons c part ih =>
      rw [List.mem_cons, not_or] at h
      rw [lines, if_neg (Ne.symm h.1)]
      by_cases hpart : part = []
      · rw [hpart, lines]
      · rw [ih h.2 hpart]

theorem lines_texts {texts : List (List Char)} (h : ∀ t ∈ texts, '\n' ∉ t) (rest : List Char) :
    lines (texts.flatMap (· ++ ['\n']) ++ rest) = texts ++ lines rest := by
  induction texts with
  | nil => rfl
  | cons t texts ih =>
      obtain ⟨ht, htexts⟩ := List.forall_mem_cons.mp h
      rw [List.flatMap_cons, List.append_assoc, List.append_assoc, List.singleton_append,
        lines_line ht, ih htexts, List.cons_append]

theorem completeLines_texts {texts : List (List Char)} (h : ∀ t ∈ texts, '\n' ∉ t)
    {part : List Char} (hpart : '\n' ∉ part) :
    completeLines (texts.flatMap (· ++ ['\n']) ++ part) = texts := by
  by_cases hnil : part = []
  · subst hnil
    have hlines := lines_texts h []
    rw [List.append_nil] at hlines
    rw [completeLines, List.append_nil, hlines, lines, List.append_nil]
    by_cases htexts : texts = []
    · simp [htexts]
    · obtain ⟨before, last, rfl⟩ := List.eq_nil_or_concat' texts |>.resolve_left htexts
      rw [if_pos (by simp)]
  · have hlast : (texts.flatMap (· ++ ['\n']) ++ part).getLast? ≠ some '\n' := by
      rw [List.getLast?_append_of_ne_nil _ hnil]
      intro heq
      exact hpart (List.mem_of_getLast? heq)
    rw [completeLines, if_neg hlast, lines_texts h, lines_part hpart hnil, List.dropLast_concat]

/-- However many characters are taken of some lines, they are whole lines and a part of the next. -/
theorem take_texts (texts : List (List Char)) (n : ℕ) :
    ∃ k ≤ texts.length, ∃ part, (texts.flatMap (· ++ ['\n'])).take n =
        (texts.take k).flatMap (· ++ ['\n']) ++ part ∧
      (part ≠ [] → ∃ next, texts[k]? = some next ∧ part <+: next) := by
  induction texts generalizing n with
  | nil => exact ⟨0, le_refl 0, [], by simp, fun h => absurd rfl h⟩
  | cons t texts ih =>
      by_cases hn : n ≤ t.length
      · refine ⟨0, Nat.zero_le _, t.take n, ?_, fun _ => ⟨t, rfl, List.take_prefix n t⟩⟩
        rw [List.flatMap_cons, List.append_assoc, List.take_append_of_le_length hn]
        rfl
      · obtain ⟨k, hk, part, htake, hpart⟩ := ih (n - (t.length + 1))
        refine ⟨k + 1, Nat.succ_le_succ hk, part, ?_, hpart⟩
        have hlength : (t ++ ['\n']).length = t.length + 1 := by simp
        rw [List.flatMap_cons, List.take_append, hlength, htake, List.take_of_length_le (by omega),
          List.take_succ_cons, List.flatMap_cons]
        simp only [List.append_assoc]

/-! ## Texts of objects -/

section Objects

variable {fields : List (String × JsonValue)} {t : List Char}

theorem object_enclosed (h : Text (.object fields) t) :
    ∃ inner, t = '{' :: (inner ++ ['}']) ∧ JsonText.Balanced inner := by
  obtain ⟨rest, rfl⟩ := h.object_opens
  obtain ⟨inner, rfl, hinner⟩ := h.object_of_brace
  exact ⟨inner, rfl, hinner⟩

theorem trim_object (h : Text (.object fields) t) : trim t = t := by
  obtain ⟨inner, rfl, -⟩ := object_enclosed h
  rw [trim, List.dropWhile_cons_of_neg (by decide), List.reverse_cons, List.reverse_append,
    List.reverse_singleton, List.singleton_append, List.cons_append,
    List.dropWhile_cons_of_neg (by decide)]
  simp

/-- No document is a proper part of an object's text that starts with it. -/
theorem document_of_prefix (h : Text (.object fields) t) {part : List Char} (hpart : part <+: t)
    {w : JsonValue} (hw : Document w part) : part = t := by
  obtain ⟨inner, rfl, hinner⟩ := object_enclosed h
  obtain ⟨before, text, after, rfl, hbefore, -, htext⟩ := hw
  obtain ⟨tail, htail⟩ := hpart
  have hstart : before = [] := by
    cases before with
    | nil => rfl
    | cons c before =>
        rw [List.cons_append, List.cons_append, List.cons_append] at htail
        have hspace := hbefore c List.mem_cons_self
        rw [(List.cons.inj htail).1] at hspace
        cases hspace
  subst hstart
  cases text with
  | nil => exact absurd rfl htext.ne_nil
  | cons c text =>
      rw [List.nil_append, List.cons_append, List.cons_append] at htail
      obtain ⟨rfl, hinside⟩ := List.cons.inj htail
      obtain ⟨inner', rfl, hinner'⟩ := htext.object_of_brace
      have hrest : after ++ tail = [] := by
        apply brace_unique hinner' hinner
        rw [← hinside]
        simp
      rw [List.append_eq_nil_iff.mp hrest |>.2] at hinside
      rw [List.nil_append, List.cons_append, ← hinside, List.append_nil]

end Objects

/-- A proper part of an object's text is no JSON, and no blank line. -/
theorem part_refused {json : SerdeJson} (hsound : json.Sound) {fields : List (String × JsonValue)}
    {t part : List Char} (h : Text (.object fields) t) (hpart : part <+: t) (hne : part ≠ [])
    (hproper : part ≠ t) : trim part ≠ [] ∧ json.fromStr (trim part) = none := by
  obtain ⟨inner, ht, -⟩ := object_enclosed h
  obtain ⟨before, after, hsplit, hbefore, hafter, -⟩ := trim_spec part
  have hopen : ∃ rest, part = '{' :: rest := by
    cases part with
    | nil => exact absurd rfl hne
    | cons c rest =>
        obtain ⟨tail, htail⟩ := hpart
        rw [ht, List.cons_append] at htail
        exact ⟨rest, by rw [(List.cons.inj htail).1]⟩
  obtain ⟨rest, hrest⟩ := hopen
  have hnil : before = [] := by
    cases before with
    | nil => rfl
    | cons c before =>
        rw [hrest, List.cons_append, List.cons_append] at hsplit
        have hwhite := hbefore c List.mem_cons_self
        rw [← (List.cons.inj hsplit).1] at hwhite
        exact absurd hwhite (by decide)
  rw [hnil, List.nil_append] at hsplit
  have hshort : trim part <+: part := ⟨after, hsplit.symm⟩
  constructor
  · intro hblank
    have hwhite := hafter '{' (by
      rw [hblank, List.nil_append] at hsplit
      rw [← hsplit, hrest]
      exact List.mem_cons_self)
    exact absurd hwhite (by decide)
  · cases hread : json.fromStr (trim part) with
    | none => rfl
    | some v =>
        obtain ⟨w, hw⟩ := hsound _ v hread
        have hwhole := document_of_prefix h (hshort.trans hpart) hw
        have hle := hshort.length_le
        have hle' := hpart.length_le
        rw [hwhole] at hle
        exact absurd (hpart.eq_of_length (by omega)) hproper

/-! ## Reading what was written -/

theorem except_bind {ε α β : Type} {x : Except ε α} {f : α → Except ε β} {b : β}
    (h : x >>= f = .ok b) : ∃ a, x = .ok a ∧ f a = .ok b := by
  cases x with
  | error e => cases h
  | ok a => exact ⟨a, rfl, h⟩

namespace FileRecord

variable {r : FileRecord}

theorem roundFloats_id (r : FileRecord) : r.roundFloats id = r := by
  have hgaps : r.itlMs.map (List.map id) = r.itlMs := by
    rw [List.map_id_fun, Option.map_id]
    rfl
  have hround : ItlSummary.record.round id = id := rfl
  have hsummary : r.itlSummary.map (ItlSummary.record.round id) = r.itlSummary := by
    rw [hround, Option.map_id]
    rfl
  have harrival : r.arrivalMs.map id = r.arrivalMs := by
    rw [Option.map_id]
    rfl
  rw [roundFloats, hgaps, hsummary, harrival]
  rfl

theorem valid_roundFloats {f : ℚ → ℚ} : (r.roundFloats f).Valid ↔ r.Valid := by
  have hgaps : (r.roundFloats f).numGaps = r.numGaps := by
    cases hitl : r.itlMs <;> simp [TraceRecord.numGaps, roundFloats, hitl]
  have hitl : (r.roundFloats f).itlMs.isSome = r.itlMs.isSome := Option.isSome_map
  have hsummary : (r.roundFloats f).itlSummary.isSome = r.itlSummary.isSome := Option.isSome_map
  constructor
  · intro h
    have hdata := h.gaps
    rw [hitl, hsummary] at hdata
    exact ⟨hdata, hgaps ▸ h.context, hgaps ▸ h.tokens, h.ids⟩
  · intro h
    have hdata := h.gaps
    rw [← hitl, ← hsummary] at hdata
    exact ⟨hdata, hgaps.symm ▸ h.context, hgaps.symm ▸ h.tokens, h.ids⟩

end FileRecord

section Files

variable {json : SerdeJson} {header : JsonValue} {fileMeta : FileMeta} {records : List FileRecord}

/-- The lines of a trace can be written by the library, and its counts by the source's types. -/
structure TraceStream.Writable (json : SerdeJson) (header : JsonValue)
    (records : List FileRecord) : Prop where
  header : json.Writes (.object [("meta", header)])
  record : ∀ r ∈ records, json.Writes (FileRecord.record.codec.write r)
  range : ∀ r ∈ records, r.InRange

namespace TraceStream

theorem line_reads {r : FileRecord} (hw : json.Writes (FileRecord.record.codec.write r))
    (hr : r.InRange) : trim (recordText json r) = recordText json r ∧ recordText json r ≠ [] ∧
      (json.fromStr (recordText json r)).bind FileRecord.record.codec.read =
        some (r.roundFloats json.reread) := by
  obtain ⟨fields, htext⟩ := hw.text
  refine ⟨trim_object htext, htext.ne_nil, ?_⟩
  have hread : json.fromStr (recordText json r) = _ := hw.reads
  rw [hread]
  exact FileRecord.record_lawful.codec.read_write json.reread r hr

theorem readRest_record {r : FileRecord} (hw : json.Writes (FileRecord.record.codec.write r))
    (hr : r.InRange) (lineNum : ℕ) (rest : List (Except ReadError (List Char))) :
    readRest json lineNum (.ok (recordText json r) :: rest) =
      ((r.roundFloats json.reread).validate lineNum >>= fun _ =>
        readRest json (lineNum + 1) rest >>= fun more =>
          .ok (r.roundFloats json.reread :: more)) := by
  obtain ⟨htrim, hne, hread⟩ := line_reads hw hr
  rw [readRest, htrim, if_neg hne, hread]

theorem readRest_records (hw : ∀ r ∈ records, json.Writes (FileRecord.record.codec.write r))
    (hr : ∀ r ∈ records, r.InRange) (hvalid : ∀ r ∈ records, r.Valid) (lineNum : ℕ)
    (rest : List (Except ReadError (List Char))) :
    readRest json lineNum (records.map (fun r => .ok (recordText json r)) ++ rest) =
      (readRest json (lineNum + records.length) rest).map
        (records.map (FileRecord.roundFloats json.reread) ++ ·) := by
  induction records generalizing lineNum with
  | nil =>
      cases hrest : readRest json lineNum rest with
      | error message => simp [hrest, Except.map]
      | ok more => simp [hrest, Except.map]
  | cons r records ih =>
      obtain ⟨hwr, hws⟩ := List.forall_mem_cons.mp hw
      obtain ⟨hrr, hrs⟩ := List.forall_mem_cons.mp hr
      obtain ⟨hvr, hvs⟩ := List.forall_mem_cons.mp hvalid
      have hchecked : (r.roundFloats json.reread).validate lineNum = .ok () :=
        TraceRecord.validate_eq_ok_iff.mpr (FileRecord.valid_roundFloats.mpr hvr)
      have hnumber : lineNum + (r :: records).length = lineNum + 1 + records.length := by
        rw [List.length_cons]
        omega
      rw [List.map_cons, List.cons_append, readRest_record hwr hrr, hchecked, ih hws hrs hvs,
        hnumber]
      cases readRest json (lineNum + 1 + records.length) rest with
      | error message => rfl
      | ok more => rfl

theorem valid_of_readRest (hw : ∀ r ∈ records, json.Writes (FileRecord.record.codec.write r))
    (hr : ∀ r ∈ records, r.InRange) {lineNum : ℕ} {read : List FileRecord}
    (h : readRest json lineNum (records.map (fun r => .ok (recordText json r))) = .ok read) :
    ∀ r ∈ records, r.Valid := by
  induction records generalizing lineNum read with
  | nil => exact List.forall_mem_nil _
  | cons r records ih =>
      obtain ⟨hwr, hws⟩ := List.forall_mem_cons.mp hw
      obtain ⟨hrr, hrs⟩ := List.forall_mem_cons.mp hr
      rw [List.map_cons, readRest_record hwr hrr] at h
      cases hchecked : (r.roundFloats json.reread).validate lineNum with
      | error message =>
          rw [hchecked] at h
          cases h
      | ok _ =>
          rw [hchecked] at h
          have hvalid := FileRecord.valid_roundFloats.mp
            (TraceRecord.validate_eq_ok_iff.mp hchecked)
          cases hrest : readRest json (lineNum + 1)
              (records.map (fun r => .ok (recordText json r))) with
          | error message =>
              rw [hrest] at h
              cases h
          | ok more => exact List.forall_mem_cons.mpr ⟨hvalid, ih hws hrs hrest⟩

theorem get_header (header : JsonValue) (f : ℚ → ℚ) :
    (((JsonValue.object [("meta", header)]).mapFloats f).toValue).get? "meta" =
      some (header.toValue.mapFloats f) := by
  rw [JsonValue.toValue_mapFloats]
  rfl

theorem readFirst_header (hw : json.Writes (.object [("meta", header)]))
    (rest : List (Except ReadError (List Char))) :
    readFirst json 1 (.ok (metaText json header) :: rest) =
      match FileMeta.read (header.toValue.mapFloats json.reread) with
      | none => .error s!"line {1}: invalid meta object"
      | some m => (readRest json 2 rest).map (m, ·) := by
  obtain ⟨fields, htext⟩ := hw.text
  have htrim : trim (metaText json header) = metaText json header := trim_object htext
  have hne : metaText json header ≠ [] := htext.ne_nil
  have hread : json.fromStr (metaText json header) = _ := hw.reads
  rw [readFirst, htrim, if_neg hne, hread]
  dsimp only
  rw [get_header]
  dsimp only
  cases FileMeta.read (header.toValue.mapFloats json.reread) with
  | none => rfl
  | some m =>
      cases readRest json (1 + 1) rest with
      | error message => rfl
      | ok more => rfl

theorem read_plain (hplain : fileMeta.Plain) (f : ℚ → ℚ) :
    FileMeta.read (fileMeta.write.toValue.mapFloats f) = some (fileMeta.roundFloats f) := by
  have hsettled : fileMeta.write.toValue = fileMeta.write := FileMeta.write_settled hplain
  rw [hsettled, FileMeta.read_write hplain]

theorem fileText_eq (json : SerdeJson) (header : JsonValue) (records : List FileRecord) :
    fileText json header records =
      (metaText json header :: records.map (recordText json)).flatMap (· ++ ['\n']) := by
  rw [fileText, List.flatMap_cons, List.flatMap_map]
  rfl

theorem lines_whole (h : Writable json header records) :
    ∀ t ∈ metaText json header :: records.map (recordText json), '\n' ∉ t := by
  rw [List.forall_mem_cons]
  refine ⟨h.header.line, fun t ht => ?_⟩
  obtain ⟨r, hr, rfl⟩ := List.mem_map.mp ht
  exact (h.record r hr).line

theorem items_written (h : Writable json header records) :
    items ⟨fileText json header records, .finished⟩ =
      .ok (metaText json header) :: records.map (fun r => .ok (recordText json r)) := by
  have hlines := lines_texts (lines_whole h) []
  rw [List.append_nil, ← fileText_eq] at hlines
  rw [items, hlines, lines, List.append_nil, List.map_cons, List.map_map]
  rfl

theorem readTrace_written (h : Writable json fileMeta.write records) (hplain : fileMeta.Plain)
    (hvalid : ∀ r ∈ records, r.Valid) :
    readTrace json ⟨writeTrace json fileMeta records, .finished⟩ =
      .ok (fileMeta.roundFloats json.reread,
        records.map (FileRecord.roundFloats json.reread)) := by
  have hall := readRest_records h.record h.range hvalid 2 []
  rw [List.append_nil] at hall
  rw [readTrace, writeTrace, items_written h, readFirst_header h.header, read_plain hplain]
  dsimp only
  rw [hall]
  simp [readRest, Except.map]

/-- What is written reads back, up to the floats of its text, exactly when no extra member of the
meta line goes by another's name and every record is valid. -/
theorem round_trip (h : Writable json fileMeta.write records) :
    readTrace json ⟨writeTrace json fileMeta records, .finished⟩ =
        .ok (fileMeta.roundFloats json.reread,
          records.map (FileRecord.roundFloats json.reread)) ↔
      fileMeta.Plain ∧ ∀ r ∈ records, r.Valid := by
  constructor
  · intro hread
    rw [readTrace, writeTrace, items_written h, readFirst_header h.header] at hread
    cases hmeta : FileMeta.read (fileMeta.write.toValue.mapFloats json.reread) with
    | none =>
        rw [hmeta] at hread
        cases hread
    | some m =>
        rw [hmeta] at hread
        dsimp only at hread
        cases hrest : readRest json 2 (records.map (fun r => .ok (recordText json r))) with
        | error message =>
            rw [hrest] at hread
            cases hread
        | ok more =>
            rw [hrest] at hread
            obtain ⟨hsame, -⟩ := Prod.mk.inj (Except.ok.inj hread)
            exact ⟨FileMeta.plain_roundFloats.mp (hsame ▸ FileMeta.read_plain hmeta),
              valid_of_readRest h.record h.range hrest⟩
  · exact fun ⟨hplain, hvalid⟩ => readTrace_written h hplain hvalid

/-! ## What is accepted -/

theorem readRest_line {lineNum : ℕ} {line : List Char} {rest : List (Except ReadError (List Char))}
    (hline : trim line ≠ []) (h : readRest json lineNum (.ok line :: rest) = .ok records) :
    ∃ v r more, FileRecord.record.codec.read v = some r ∧ r.Valid ∧
      readRest json (lineNum + 1) rest = .ok more ∧ records = r :: more := by
  rw [readRest, if_neg hline] at h
  cases hread : (json.fromStr (trim line)).bind FileRecord.record.codec.read with
  | none =>
      rw [hread] at h
      cases h
  | some r =>
      rw [hread] at h
      obtain ⟨v, -, hv⟩ := Option.bind_eq_some_iff.mp hread
      obtain ⟨_, hchecked, h⟩ := except_bind h
      obtain ⟨more, hmore, heq⟩ := except_bind h
      cases heq
      exact ⟨v, r, more, hv, TraceRecord.validate_eq_ok_iff.mp hchecked, hmore, rfl⟩

/-- What the first line that is not blank says, when the trace is accepted. -/
theorem readFirst_line {lineNum : ℕ} {line : List Char}
    {rest : List (Except ReadError (List Char))} (hline : trim line ≠ [])
    (h : readFirst json lineNum (.ok line :: rest) = .ok (fileMeta, records)) :
    ∃ value, json.fromStr (trim line) = some value ∧
      ((∃ inner, value.toValue.get? "meta" = some inner ∧ FileMeta.read inner = some fileMeta ∧
          readRest json (lineNum + 1) rest = .ok records) ∨
        (value.toValue.get? "meta" = none ∧ fileMeta = FileMeta.default ∧
          ∃ v r more, FileRecord.record.codec.read v = some r ∧ r.Valid ∧
            readRest json (lineNum + 1) rest = .ok more ∧ records = r :: more)) := by
  rw [readFirst, if_neg hline] at h
  cases hread : json.fromStr (trim line) with
  | none =>
      rw [hread] at h
      cases h
  | some value =>
      rw [hread] at h
      dsimp only at h
      refine ⟨value, rfl, ?_⟩
      cases hmeta : value.toValue.get? "meta" with
      | some inner =>
          rw [hmeta] at h
          dsimp only at h
          cases hinner : FileMeta.read inner with
          | none =>
              rw [hinner] at h
              cases h
          | some m =>
              rw [hinner] at h
              obtain ⟨more, hmore, heq⟩ := except_bind h
              cases heq
              exact .inl ⟨inner, rfl, hinner, hmore⟩
      | none =>
          rw [hmeta] at h
          dsimp only at h
          cases hrecord : FileRecord.record.codec.read value.toValue with
          | none =>
              rw [hrecord] at h
              cases h
          | some r =>
              rw [hrecord] at h
              obtain ⟨_, hchecked, h⟩ := except_bind h
              obtain ⟨more, hmore, heq⟩ := except_bind h
              cases heq
              exact .inr ⟨rfl, rfl, _, r, more, hrecord,
                TraceRecord.validate_eq_ok_iff.mp hchecked, hmore, rfl⟩

theorem readRest_accepts {lineNum : ℕ} {items : List (Except ReadError (List Char))}
    (h : readRest json lineNum items = .ok records) : ∀ r ∈ records, r.Valid ∧ r.InRange := by
  induction items generalizing lineNum records with
  | nil =>
      cases h
      exact List.forall_mem_nil _
  | cons item items ih =>
      cases item with
      | error e =>
          cases e with
          | unexpectedEof =>
              cases h
              exact List.forall_mem_nil _
          | other => cases h
      | ok line =>
          by_cases hblank : trim line = []
          · rw [readRest, if_pos hblank] at h
            exact ih h
          · obtain ⟨v, r, more, hread, hvalid, hmore, rfl⟩ := readRest_line hblank h
            have hrange := FileRecord.record_lawful.codec.writable v r hread
            exact List.forall_mem_cons.mpr ⟨⟨hvalid, hrange⟩, ih hmore⟩

theorem plain_default : FileMeta.default.Plain := List.forall_mem_nil _

/-- What is accepted, from a stream of any text, can be written. -/
theorem readFirst_accepts {lineNum : ℕ} {items : List (Except ReadError (List Char))}
    (h : readFirst json lineNum items = .ok (fileMeta, records)) :
    fileMeta.Plain ∧ ∀ r ∈ records, r.Valid ∧ r.InRange := by
  induction items generalizing lineNum with
  | nil =>
      cases h
      exact ⟨plain_default, List.forall_mem_nil _⟩
  | cons item items ih =>
      cases item with
      | error e =>
          cases e with
          | unexpectedEof =>
              cases h
              exact ⟨plain_default, List.forall_mem_nil _⟩
          | other => cases h
      | ok line =>
          by_cases hblank : trim line = []
          · rw [readFirst, if_pos hblank] at h
            exact ih h
          · obtain ⟨value, -, ⟨inner, -, hmeta, hrest⟩ | ⟨-, rfl, v, r, more, hread, hvalid, hmore,
              rfl⟩⟩ := readFirst_line hblank h
            · exact ⟨FileMeta.read_plain hmeta, readRest_accepts hrest⟩
            · have hrange := FileRecord.record_lawful.codec.writable v r hread
              exact ⟨plain_default,
                List.forall_mem_cons.mpr ⟨⟨hvalid, hrange⟩, readRest_accepts hmore⟩⟩

/-- A trace accepted from any text can be written again, and reads back as it was read. -/
theorem rewritten {stream : TraceStream} (h : readTrace json stream = .ok (fileMeta, records))
    (hheader : json.Writes (.object [("meta", fileMeta.write)]))
    (hrecords : ∀ r ∈ records, json.Writes (FileRecord.record.codec.write r)) :
    readTrace json ⟨writeTrace json fileMeta records, .finished⟩ =
      .ok (fileMeta.roundFloats json.reread,
        records.map (FileRecord.roundFloats json.reread)) := by
  obtain ⟨hplain, hall⟩ := readFirst_accepts h
  exact readTrace_written ⟨hheader, hrecords, fun r hr => (hall r hr).2⟩ hplain
    (fun r hr => (hall r hr).1)

/-! ## The meta line alone -/

theorem readMetaLines_agrees {lineNum : ℕ} {items : List (Except ReadError (List Char))}
    (h : readFirst json lineNum items = .ok (fileMeta, records)) :
    readMetaLines json lineNum items = .ok fileMeta ∨
      (∃ n : ℕ, readMetaLines json lineNum items = .error s!"reading line {n}") ∧
        fileMeta = FileMeta.default ∧ records = [] := by
  induction items generalizing lineNum with
  | nil =>
      cases h
      exact .inl rfl
  | cons item items ih =>
      cases item with
      | error e =>
          cases e with
          | unexpectedEof =>
              cases h
              exact .inr ⟨⟨lineNum, rfl⟩, rfl, rfl⟩
          | other => cases h
      | ok line =>
          by_cases hblank : trim line = []
          · rw [readFirst, if_pos hblank] at h
            rw [readMetaLines, if_pos hblank]
            exact ih h
          · rw [readMetaLines, if_neg hblank]
            obtain ⟨value, hvalue, ⟨inner, hget, hmeta, -⟩ | ⟨hget, rfl, -⟩⟩ :=
              readFirst_line hblank h
            · rw [hvalue]
              dsimp only
              rw [hget]
              dsimp only
              rw [hmeta]
              exact .inl rfl
            · rw [hvalue]
              dsimp only
              rw [hget]
              exact .inl rfl

/-! ## A capture cut short -/

/-- The lines of a trace. -/
def texts (json : SerdeJson) (header : JsonValue) (records : List FileRecord) :
    List (List Char) :=
  metaText json header :: records.map (recordText json)

/-- What the first lines of a trace say. -/
def sofar (f : ℚ → ℚ) (fileMeta : FileMeta) (records : List FileRecord) :
    ℕ → FileMeta × List FileRecord
  | 0 => (FileMeta.default, [])
  | k + 1 => (fileMeta, (records.take k).map (FileRecord.roundFloats f))

/-- How a line is refused that follows the first ones of a trace. -/
def refusal : ℕ → String
  | 0 => s!"line {1}: invalid JSON"
  | k + 1 => s!"line {k + 2}: invalid trace record"

theorem read_texts (h : Writable json header records)
    (hmeta : FileMeta.read (header.toValue.mapFloats json.reread) = some fileMeta)
    (hvalid : ∀ r ∈ records, r.Valid) {k : ℕ} (hk : k ≤ records.length)
    (rest : List (Except ReadError (List Char))) :
    readFirst json 1 (((texts json header records).take (k + 1)).map .ok ++ rest) =
      (readRest json (k + 2) rest).map (fun more => (fileMeta,
        (records.take k).map (FileRecord.roundFloats json.reread) ++ more)) := by
  have hmem : ∀ r ∈ records.take k, r ∈ records := fun r hr => List.mem_of_mem_take hr
  have hrecords := readRest_records (fun r hr => h.record r (hmem r hr))
    (fun r hr => h.range r (hmem r hr)) (fun r hr => hvalid r (hmem r hr)) 2 rest
  rw [List.length_take_of_le hk, Nat.add_comm 2 k] at hrecords
  rw [texts, List.take_succ_cons, List.map_cons, List.cons_append, ← List.map_take, List.map_map,
    readFirst_header h.header, hmeta]
  dsimp only
  have hlines : (records.take k).map (Except.ok ∘ recordText json) =
      (records.take k).map (fun r => (.ok (recordText json r) : Except ReadError (List Char))) :=
    rfl
  rw [hlines, hrecords]
  cases readRest json (k + 2) rest with
  | error message => rfl
  | ok more => rfl

theorem read_sofar (h : Writable json header records)
    (hmeta : FileMeta.read (header.toValue.mapFloats json.reread) = some fileMeta)
    (hvalid : ∀ r ∈ records, r.Valid) {k : ℕ} (hk : k ≤ records.length + 1)
    {rest : List (Except ReadError (List Char))} (hrest : rest = [] ∨
      rest = [.error .unexpectedEof]) :
    readFirst json 1 (((texts json header records).take k).map .ok ++ rest) =
      .ok (sofar json.reread fileMeta records k) := by
  have hnone : ∀ n, readRest json n rest = .ok [] := by
    intro n
    rcases hrest with rfl | rfl <;> rfl
  cases k with
  | zero => rcases hrest with rfl | rfl <;> rfl
  | succ k =>
      rw [read_texts h hmeta hvalid (by omega), hnone, Except.map, List.append_nil, sofar]

/-- A part of the line after the first ones is refused, the whole of it is not. -/
theorem read_part (hsound : json.Sound) (h : Writable json header records)
    (hmeta : FileMeta.read (header.toValue.mapFloats json.reread) = some fileMeta)
    (hvalid : ∀ r ∈ records, r.Valid) {k : ℕ} {part next : List Char}
    (hne : part ≠ []) (hnext : (texts json header records)[k]? = some next)
    (hpart : part <+: next) :
    readFirst json 1 (((texts json header records).take k).map .ok ++ [.ok part]) =
      if (texts json header records)[k]? = some part then
        .ok (sofar json.reread fileMeta records (k + 1))
      else .error (refusal k) := by
  obtain ⟨hlt, hget⟩ := List.getElem?_eq_some_iff.mp hnext
  have hlength : k < records.length + 1 := by simpa [texts] using hlt
  by_cases hwhole : part = next
  · have htake : (texts json header records).take (k + 1) =
        (texts json header records).take k ++ [part] := by
      rw [List.take_add_one, hnext, hwhole]
      rfl
    have hread := read_sofar h hmeta hvalid (k := k + 1) (by omega) (.inl rfl)
    rw [htake, List.map_append, List.append_nil] at hread
    rw [if_pos (hnext.trans (congrArg some hwhole.symm))]
    exact hread
  · have hother : (texts json header records)[k]? ≠ some part :=
      fun heq => hwhole (Option.some.inj (heq.symm.trans hnext))
    rw [if_neg hother]
    cases k with
    | zero =>
        obtain ⟨fields, htext⟩ := h.header.text
        cases hnext
        obtain ⟨hblank, hrefused⟩ := part_refused hsound htext hpart hne hwhole
        change readFirst json 1 [.ok part] = _
        rw [readFirst, if_neg hblank, hrefused, refusal]
    | succ k =>
        rw [texts, List.getElem?_cons_succ, List.getElem?_map] at hnext
        obtain ⟨r, hr, rfl⟩ := Option.map_eq_some_iff.mp hnext
        obtain ⟨fields, htext⟩ := (h.record r (List.mem_of_getElem? hr)).text
        obtain ⟨hblank, hrefused⟩ := part_refused hsound htext hpart hne hwhole
        rw [read_texts h hmeta hvalid (by omega), readRest, if_neg hblank, hrefused]
        rfl

/-- A trace cut after any number of characters is cut within one of its lines. Without the trailer
of its compression it reads as the lines before that one. As a finished file it does too when
nothing is left of that line, it reads that line too when only its newline is gone, and it is
refused by that line's number otherwise. -/
theorem cut_reads (hsound : json.Sound) (h : Writable json header records)
    (hmeta : FileMeta.read (header.toValue.mapFloats json.reread) = some fileMeta)
    (hvalid : ∀ r ∈ records, r.Valid) (n : ℕ) :
    ∃ k ≤ records.length + 1, ∃ part,
      (fileText json header records).take n =
        ((texts json header records).take k).flatMap (· ++ ['\n']) ++ part ∧
      (part ≠ [] → ∃ next, (texts json header records)[k]? = some next ∧ part <+: next) ∧
      readTrace json ⟨(fileText json header records).take n, .unfinalized⟩ =
        .ok (sofar json.reread fileMeta records k) ∧
      readTrace json ⟨(fileText json header records).take n, .finished⟩ =
        if part = [] then .ok (sofar json.reread fileMeta records k)
        else if (texts json header records)[k]? = some part then
          .ok (sofar json.reread fileMeta records (k + 1))
        else .error (refusal k) := by
  obtain ⟨k, hk, part, htake, hpart⟩ := take_texts (texts json header records) n
  rw [texts, ← fileText_eq] at htake
  have hlines : ∀ t ∈ (texts json header records).take k, '\n' ∉ t :=
    fun t ht => lines_whole h t (List.mem_of_mem_take ht)
  have hunbroken : '\n' ∉ part := by
    by_cases hne : part = []
    · simp [hne]
    · obtain ⟨next, hnext, hinitial⟩ := hpart hne
      exact fun hmem => lines_whole h next (List.mem_of_getElem? hnext) (hinitial.subset hmem)
  have hbound : k ≤ records.length + 1 := by simpa [texts] using hk
  refine ⟨k, hbound, part, htake, hpart, ?_, ?_⟩
  · rw [readTrace, htake, items]
    dsimp only
    rw [← texts, completeLines_texts hlines hunbroken]
    exact read_sofar h hmeta hvalid hbound (.inr rfl)
  · rw [readTrace, htake, items]
    dsimp only
    rw [← texts, lines_texts hlines, List.map_append]
    by_cases hne : part = []
    · rw [if_pos hne, hne]
      exact read_sofar h hmeta hvalid hbound (.inl rfl)
    · obtain ⟨next, hnext, hinitial⟩ := hpart hne
      rw [if_neg hne, lines_part hunbroken hne]
      exact read_part hsound h hmeta hvalid hne hnext hinitial

end TraceStream

end Files

/-! ## A library that knows some values -/

/-- Values are written compactly, and the texts of the known ones are read. -/
def knownJson (known : List JsonValue) : SerdeJson where
  toText := compactText
  fromStr t := known.find? (fun v => compactText v = t)
  reread := id

/-- Each of the values goes on a line, and no two have the same text. -/
structure KnownLines (known : List JsonValue) : Prop where
  unescaped : ∀ v ∈ known, unescaped v = true
  line : ∀ v ∈ known, '\n' ∉ compactText v
  distinct : (known.map compactText).Nodup

section Known

variable {known : List JsonValue}

theorem KnownLines.sound (h : KnownLines known) : (knownJson known).Sound := by
  intro t v hread
  have hmem := List.mem_of_find?_eq_some hread
  have htext : compactText v = t := by simpa using List.find?_some hread
  refine ⟨v, [], t, [], by simp, List.forall_mem_nil _, List.forall_mem_nil _, ?_⟩
  exact htext ▸ compactText_text v (h.unescaped v hmem)

theorem KnownLines.writes (h : KnownLines known) {fields : List (String × JsonValue)}
    (hmem : .object fields ∈ known) : (knownJson known).Writes (.object fields) where
  reads := by
    rw [show (knownJson known).reread = id from rfl, JsonValue.mapFloats_id]
    change known.find? (fun v => compactText v = compactText (.object fields)) = _
    cases hread : known.find? (fun v => compactText v = compactText (.object fields)) with
    | none =>
        have hnone := List.find?_eq_none.mp hread _ hmem
        simp at hnone
    | some v =>
        have hv := List.mem_of_find?_eq_some hread
        have hsame : compactText v = compactText (.object fields) :=
          by simpa using List.find?_some hread
        rw [List.inj_on_of_nodup_map h.distinct hv hmem hsame]
  text := ⟨fields, compactText_text _ (h.unescaped _ hmem)⟩
  line := h.line _ hmem

end Known

/-! ## A file of two records -/

def notedMeta : FileMeta :=
  { FileMeta.default with
    model := some "llama"
    blockSize := some 16
    extra := ⟨[("operator", .string "ci"), ("seed", .number 7)], by decide, by
      simp [JsonValue.Settled, JsonValue.toValue]⟩ }

def chunkedRecord : FileRecord where
  promptTokens := 3
  outputTokens := 4
  ttftMs := 25 / 2
  itlMs := some [5 / 2, 3]
  itlTokens := some [2, 1]
  concurrency := 2
  arrivalMs := some 0
  itlCtx := some ⟨[2, 1], [0, 3]⟩
  blockHashes := some [7]
  mmHashes := some ["a"]
  outputTokenIds := some [5, 6, 7, 8]
  finishReason := some .length

def summedRecord : FileRecord where
  promptTokens := 1
  outputTokens := 3
  ttftMs := 1
  itlSummary := some ⟨4, 2⟩

/-- One id is left of four. -/
def shortRecord : FileRecord := { chunkedRecord with outputTokenIds := some [5] }

def notedJson : SerdeJson :=
  knownJson (.object [("meta", notedMeta.write)] ::
    [chunkedRecord, summedRecord, shortRecord].map FileRecord.record.codec.write)

theorem notedLines : KnownLines (.object [("meta", notedMeta.write)] ::
    [chunkedRecord, summedRecord, shortRecord].map FileRecord.record.codec.write) where
  unescaped := by decide +kernel
  line := by decide +kernel
  distinct := by decide +kernel

theorem u32s_writable {tokens : List ℕ} (h : ∀ n ∈ tokens, n < 2 ^ 32) : u32s.Writable tokens := h

theorem chunkedRecord_inRange : chunkedRecord.InRange where
  promptTokens := by decide
  cachedTokens := by decide
  outputTokens := by decide
  itlTokens := by
    rintro tokens ⟨⟩
    exact u32s_writable (by decide)
  itlSummary := fun _ h => by cases h
  concurrency := by decide
  itlCtx := by
    rintro ctx ⟨⟩
    exact ⟨u32s_writable (by decide), u32s_writable (by decide)⟩

theorem summedRecord_inRange : summedRecord.InRange where
  promptTokens := by decide
  cachedTokens := by decide
  outputTokens := by decide
  itlTokens := fun _ h => by cases h
  itlSummary := by
    rintro summary ⟨⟩
    exact (by decide : 2 < 2 ^ 64)
  concurrency := by decide
  itlCtx := fun _ h => by cases h

theorem shortRecord_inRange : shortRecord.InRange :=
  { chunkedRecord_inRange with }

theorem notedRecords_inRange : ∀ r ∈ [chunkedRecord, summedRecord, shortRecord], r.InRange := by
  simp only [List.forall_mem_cons]
  exact ⟨chunkedRecord_inRange, summedRecord_inRange, shortRecord_inRange, List.forall_mem_nil _⟩

theorem notedFile_writable {records : List FileRecord}
    (h : ∀ r ∈ records, r ∈ [chunkedRecord, summedRecord, shortRecord]) :
    TraceStream.Writable notedJson notedMeta.write records where
  header := notedLines.writes List.mem_cons_self
  record r hr := notedLines.writes (List.mem_cons_of_mem _ (List.mem_map_of_mem (h r hr)))
  range r hr := notedRecords_inRange r (h r hr)

/-- A record that breaks the schema keeps the whole file from being read. -/
theorem notedFile_reads :
    TraceStream.readTrace notedJson
        ⟨writeTrace notedJson notedMeta [chunkedRecord, summedRecord], .finished⟩ =
      .ok (notedMeta, [chunkedRecord, summedRecord]) ∧
    TraceStream.readTrace notedJson
        ⟨writeTrace notedJson notedMeta [chunkedRecord, shortRecord], .finished⟩ ≠
      .ok (notedMeta, [chunkedRecord, shortRecord]) := by
  have hplain : ∀ e ∈ notedMeta.extra.entries, e.1 ∉ FileMeta.ownNames := by decide
  have hchunked : chunkedRecord.validate 2 = .ok () := rfl
  have hsummed : summedRecord.validate 3 = .ok () := rfl
  have hshort : shortRecord.validate 3 ≠ .ok () := by decide
  constructor
  · have hwritable : TraceStream.Writable notedJson notedMeta.write [chunkedRecord, summedRecord] :=
      notedFile_writable (by simp)
    refine (TraceStream.round_trip hwritable).mpr ⟨hplain, ?_⟩
    simp only [List.forall_mem_cons]
    exact ⟨TraceRecord.validate_eq_ok_iff.mp hchunked, TraceRecord.validate_eq_ok_iff.mp hsummed,
      List.forall_mem_nil _⟩
  · have hwritable : TraceStream.Writable notedJson notedMeta.write [chunkedRecord, shortRecord] :=
      notedFile_writable (by simp)
    intro hread
    obtain ⟨-, hvalid⟩ := (TraceStream.round_trip hwritable).mp hread
    exact hshort (TraceRecord.validate_eq_ok_iff.mpr (hvalid shortRecord (by simp)))

end VllmVcr
