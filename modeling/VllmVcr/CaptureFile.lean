import Mathlib.Data.List.Sort
import VllmVcr.Capture
import VllmVcr.ConfigHash
import VllmVcr.TapProxy
import VllmVcr.TraceStream

/-!
# The file of a capture

The tap stamps a meta line from its settings and the handshake, and appends each record as its
request finishes. A replay may ask that its traces carry a configuration hash before it loads
them.
-/

namespace VllmVcr

open JsonText

/-! ## The meta line of a capture -/

structure TapMetaConfig where
  model : String
  gpu : Option String
  tp : Option UInt32
  maxNumSeqs : Option UInt64
  blockSize : UInt64
  configHash : Option String
  vllmTag : Option String
  engineConfig : String

def hexDigit (n : ℕ) : Char := "0123456789abcdef".toList.getD n '0'

def hexEncode (bytes : List UInt8) : String :=
  String.ofList (bytes.flatMap (fun b => [hexDigit (b.toNat / 16), hexDigit (b.toNat % 16)]))

namespace TapMetaConfig

/-- The deployment a capture is made under. -/
def fingerprint (config : TapMetaConfig) (engineVllmVersion : String) : ConfigFingerprint where
  gpu := config.gpu.getD ""
  vllmTag := config.vllmTag.getD engineVllmVersion
  engineConfig := config.engineConfig

def stamp (sha256Hex : String → String) (config : TapMetaConfig) (engineVllmVersion : String) :
    String :=
  config.configHash.getD ((config.fingerprint engineVllmVersion).hash sha256Hex)

def buildMeta (sha256Hex : String → String) (config : TapMetaConfig) (engineVllmVersion : String)
    (readyResponsePayload : List UInt8) : FileMeta where
  source := some "tap"
  model := if config.model = "" then none else some config.model
  gpu := config.gpu
  tp := config.tp
  maxNumSeqs := config.maxNumSeqs
  blockSize := some config.blockSize
  configHash := some (config.stamp sha256Hex engineVllmVersion)
  vllmVersion := some engineVllmVersion
  readyResponseHex := some (hexEncode readyResponsePayload)
  extra := ExtraFields.empty

end TapMetaConfig

/-- The meta object as `write_meta_line` has it: it is made a value first, and the library's
features decide in which order a value keeps its members. -/
def FileMeta.LineValue (m : FileMeta) (v : JsonValue) : Prop :=
  ∃ members, members.Perm (m.ownMembers ++ m.extra.entries) ∧ v = .object members

theorem FileMeta.lineValue_write (m : FileMeta) : m.LineValue m.write := ⟨_, List.Perm.refl _, rfl⟩

theorem hexDigit_injective {m n : ℕ} (hm : m < 16) (hn : n < 16)
    (h : hexDigit m = hexDigit n) : m = n := by
  revert h hm hn
  have hall : ∀ m < 16, ∀ n < 16, hexDigit m = hexDigit n → m = n := by decide
  exact fun hm hn h => hall m hm n hn h

/-- No two payloads are stamped alike. -/
theorem hexEncode_injective : Function.Injective hexEncode := by
  have hlist : ∀ a b : List UInt8,
      a.flatMap (fun b => [hexDigit (b.toNat / 16), hexDigit (b.toNat % 16)]) =
        b.flatMap (fun b => [hexDigit (b.toNat / 16), hexDigit (b.toNat % 16)]) → a = b := by
    intro a
    induction a with
    | nil =>
        intro b h
        cases b with
        | nil => rfl
        | cons y b => simp at h
    | cons x a ih =>
        intro b h
        cases b with
        | nil => simp at h
        | cons y b =>
            simp only [List.flatMap_cons, List.cons_append, List.nil_append, List.cons.injEq] at h
            obtain ⟨hhigh, hlow, hrest⟩ := h
            have hx := x.toNat_lt
            have hy := y.toNat_lt
            have hdiv := hexDigit_injective (by omega) (by omega) hhigh
            have hmod := hexDigit_injective (by omega) (by omega) hlow
            have hbyte : x = y := UInt8.toNat_inj.mp (by omega)
            rw [hbyte, ih b hrest]
  intro a b h
  exact hlist a b (String.ofList_injective h)

namespace FileMeta

variable {m : FileMeta}

theorem read_perm {fields fields' : List (String × JsonValue)} (h : fields.Perm fields')
    (hnodup : (fields.map Prod.fst).Nodup) (hown : ∀ e ∈ fields, e.1 ∈ ownNames) :
    read (.object fields') = read (.object fields) := by
  have hnone : ∀ l : List (String × JsonValue), (∀ e ∈ l, e.1 ∈ ownNames) →
      l.filter (fun e => e.1 ∉ ownNames) = [] := by
    intro l hl
    rw [List.filter_eq_nil_iff]
    simpa using hl
  have hown' : ∀ e ∈ fields', e.1 ∈ ownNames := fun e he => hown e (h.mem_iff.mpr he)
  have hread : MetaFields.record.codec.read (.object fields') =
      MetaFields.record.codec.read (.object fields) :=
    congrArg (Option.bind · MetaFields.record.ofMembers) (JsonValue.membersOf_perm h hnodup _)
  rw [read, read, hnone fields hown, hnone fields' hown', hread]

theorem roundFloats_of_plain (hextra : m.extra.entries = []) (f : ℚ → ℚ) :
    m.roundFloats f = m := by
  obtain ⟨fields, entries, distinct, settled⟩ := m
  change entries = [] at hextra
  subst hextra
  rfl

/-- The meta line of a capture reads back as it was built, in whatever order its members are. -/
theorem read_lineValue {v : JsonValue} (hv : m.LineValue v) (hextra : m.extra.entries = [])
    (f : ℚ → ℚ) : read (v.toValue.mapFloats f) = some m := by
  obtain ⟨members, hperm, rfl⟩ := hv
  have hplain : m.Plain := by
    intro e he
    rw [hextra] at he
    cases he
  have hsettled : (JsonValue.object members).toValue = .object members := by
    obtain ⟨hnodup, hvalues⟩ := m.members_settled hplain
    apply JsonValue.object_settled
    · exact (hperm.symm.map Prod.fst).nodup hnodup
    · exact fun e he => hvalues e (hperm.mem_iff.mp he)
  have hmap := hperm.symm.map (fun e : String × JsonValue => (e.1, e.2.mapFloats f))
  rw [← JsonValue.mapMembers_eq_map, ← JsonValue.mapMembers_eq_map] at hmap
  have hwhole : read (m.write.mapFloats f) = some m := by
    rw [read_write hplain, roundFloats_of_plain hextra]
  rw [hsettled, JsonValue.mapFloats, ← hwhole, write, JsonValue.mapFloats]
  apply read_perm hmap
  · rw [JsonValue.names_mapMembers]
    exact (m.members_settled hplain).1
  · intro e he
    rw [JsonValue.mapMembers_eq_map, hextra, List.append_nil] at he
    obtain ⟨e', he', rfl⟩ := List.mem_map.mp he
    exact m.names_ownMembers e' he'

end FileMeta

/-! ## Captures, whole and cut -/

section Captures

open TraceStream

variable {json : SerdeJson} {sha256Hex : String → String} {config : TapMetaConfig}
  {engineVllmVersion : String} {readyResponsePayload : List UInt8}

/-- The file of a run of the proxy, as far as it has been written and wherever it is cut, reads as
the meta line and the records before the cut, unless a record of it cannot be carried. -/
theorem TapRun.capture_reads {identity : List UInt8} {decoders : TapDecoders}
    {engine : List ZmqMessage → ZmqMessage → Prop} {captureStart : Instant} {blockSize : ℕ}
    {recordTokens : TokenRecording} {events : List ProxyEvent} {s : TapProxy}
    (hrun : TapRun identity decoders engine (Tap.new captureStart blockSize recordTokens) events s)
    {records : List FileRecord} (hrecords : records.map FileRecord.toTraceRecord = s.tap.written)
    {fileMeta : FileMeta}
    (hmeta : fileMeta = config.buildMeta sha256Hex engineVllmVersion readyResponsePayload)
    {header : JsonValue} (hheader : fileMeta.LineValue header)
    (hsound : json.Sound) (hw : Writable json header records)
    (hrecordable : ∀ chunks ∈ Sightings.finishedIn (s.observed.filterMap decoders.read),
      Recordable (chunks.map Prod.fst)) (n : ℕ) :
    ∃ k ≤ records.length + 1, ∃ part,
      (fileText json header records).take n =
        ((texts json header records).take k).flatMap (· ++ ['\n']) ++ part ∧
      (part ≠ [] → ∃ next, (texts json header records)[k]? = some next ∧ part <+: next) ∧
      TraceStream.readTrace json ⟨(fileText json header records).take n, .unfinalized⟩ =
        .ok (sofar json.reread fileMeta records k) ∧
      TraceStream.readTrace json ⟨(fileText json header records).take n, .finished⟩ =
        if part = [] then .ok (sofar json.reread fileMeta records k)
        else if (texts json header records)[k]? = some part then
          .ok (sofar json.reread fileMeta records (k + 1))
        else .error (refusal k) := by
  subst hmeta
  have hread := FileMeta.read_lineValue hheader rfl json.reread
  have htap : s.tap = tapped captureStart blockSize recordTokens
      (s.observed.filterMap decoders.read) := hrun.keepsPace.tap
  have hall := written_valid_iff captureStart blockSize recordTokens
    (s.observed.filterMap decoders.read)
  rw [← htap, ← hrecords] at hall
  have hvalid : ∀ r ∈ records.map FileRecord.toTraceRecord, r.Valid :=
    (forall_mem_iff_of_forall₂ hall).mpr hrecordable
  exact cut_reads hsound hw hread
    (fun r hr => hvalid _ (List.mem_map_of_mem hr)) n

end Captures

/-! ## Replaying under a configuration hash -/

/-- Drops the repetitions of a sorted list. -/
def dedupAdjacent : List String → List String
  | a :: b :: rest => if a = b then dedupAdjacent (b :: rest) else a :: dedupAdjacent (b :: rest)
  | l => l

/-- The hash a trace was captured under, beside the one that is asked for. -/
def checkFound (expectConfigHash path : String) : Option String → Except String Unit
  | some found =>
    if found = expectConfigHash then .ok ()
    else .error (s!"config-hash mismatch for trace {path}: expected {expectConfigHash}, " ++
      s!"trace was captured under {found}")
  | none => .error (s!"trace {path} has no config_hash but --expect-config-hash " ++
      s!"{expectConfigHash} was set (recapture with the tap's --config-hash, or drop the check)")

section Replays

variable (json : SerdeJson) (openTrace : String → Option TraceStream)

def readTraceMeta (path : String) : Except String FileMeta :=
  match openTrace path with
  | none => .error s!"opening trace file: {path}"
  | some stream => withContext s!"reading trace meta: {path}" (stream.readMeta json)

def readTraceFile (path : String) : Except String (FileMeta × List FileRecord) :=
  match openTrace path with
  | none => .error s!"opening trace file: {path}"
  | some stream => withContext s!"parsing trace file: {path}" (stream.readTrace json)

def checkConfigHash (expectConfigHash path : String) : Except String Unit := do
  let fileMeta ← readTraceMeta json openTrace path
  checkFound expectConfigHash path fileMeta.configHash

def checkAll (expectConfigHash : String) : List String → Except String Unit
  | [] => .ok ()
  | path :: paths => do
    checkConfigHash json openTrace expectConfigHash path
    checkAll expectConfigHash paths

/-- Each of the replay inputs is checked once. -/
def verifyConfigHash (expectConfigHash : String) (paths : List String) : Except String Unit :=
  if expectConfigHash = "" then .ok ()
  else checkAll json openTrace expectConfigHash (dedupAdjacent (paths.insertionSort (· ≤ ·)))

end Replays

section Replays

variable {json : SerdeJson} {openTrace : String → Option TraceStream} {expectConfigHash : String}
  {paths : List String}

theorem mem_dedupAdjacent {path : String} : path ∈ dedupAdjacent paths ↔ path ∈ paths := by
  induction paths using dedupAdjacent.induct with
  | case1 b rest ih =>
      rw [dedupAdjacent, if_pos rfl, ih, List.mem_cons (l := b :: rest)]
      constructor
      · exact .inr
      · rintro (rfl | h)
        · exact List.mem_cons_self
        · exact h
  | case2 a b rest hne ih => rw [dedupAdjacent, if_neg hne, List.mem_cons, ih, ← List.mem_cons]
  | case3 l h => rw [dedupAdjacent.eq_2 l h]

theorem checkFound_ok_iff {path : String} {found : Option String} :
    checkFound expectConfigHash path found = .ok () ↔ found = some expectConfigHash := by
  cases found with
  | none => exact iff_of_false (fun h => by cases h) (fun h => by cases h)
  | some found =>
      rw [checkFound, Option.some.injEq]
      by_cases hfound : found = expectConfigHash
      · rw [if_pos hfound]
        exact iff_of_true rfl hfound
      · rw [if_neg hfound]
        exact iff_of_false (fun h => by cases h) hfound

theorem checkConfigHash_ok_iff {path : String} :
    checkConfigHash json openTrace expectConfigHash path = .ok () ↔
      ∃ fileMeta, readTraceMeta json openTrace path = .ok fileMeta ∧
        fileMeta.configHash = some expectConfigHash := by
  rw [checkConfigHash]
  cases readTraceMeta json openTrace path with
  | error message =>
      apply iff_of_false (fun h => by cases h)
      rintro ⟨m, hm, -⟩
      cases hm
  | ok fileMeta =>
      apply checkFound_ok_iff.trans
      constructor
      · exact fun h => ⟨fileMeta, rfl, h⟩
      · rintro ⟨m, hm, hhash⟩
        cases hm
        exact hhash

theorem checkAll_ok_iff : checkAll json openTrace expectConfigHash paths = .ok () ↔
    ∀ path ∈ paths, checkConfigHash json openTrace expectConfigHash path = .ok () := by
  induction paths with
  | nil => exact iff_of_true rfl (List.forall_mem_nil _)
  | cons path paths ih =>
      rw [checkAll, TraceRecord.except_bind_ok, ih, List.forall_mem_cons]

theorem verifyConfigHash_ok_iff (hexpect : expectConfigHash ≠ "") :
    verifyConfigHash json openTrace expectConfigHash paths = .ok () ↔
      ∀ path ∈ paths, ∃ fileMeta, readTraceMeta json openTrace path = .ok fileMeta ∧
        fileMeta.configHash = some expectConfigHash := by
  have hmem : ∀ path, path ∈ dedupAdjacent (paths.insertionSort (· ≤ ·)) ↔ path ∈ paths := by
    intro path
    rw [mem_dedupAdjacent, (List.perm_insertionSort _ paths).mem_iff]
  rw [verifyConfigHash, if_neg hexpect, checkAll_ok_iff]
  simp only [hmem, checkConfigHash_ok_iff]

/-- The meta line read by itself is that of the trace, when there is any line. -/
theorem readTraceMeta_agrees {path : String} {fileMeta : FileMeta} {records : List FileRecord}
    (h : readTraceFile json openTrace path = .ok (fileMeta, records)) :
    readTraceMeta json openTrace path = .ok fileMeta ∨
      (∃ message, readTraceMeta json openTrace path = .error message) ∧
        fileMeta = FileMeta.default := by
  rw [readTraceFile] at h
  rw [readTraceMeta]
  cases hopen : openTrace path with
  | none =>
      rw [hopen] at h
      cases h
  | some stream =>
      rw [hopen] at h
      dsimp only at h ⊢
      cases hread : stream.readTrace json with
      | error message =>
          rw [hread] at h
          cases h
      | ok read =>
          rw [hread] at h
          cases h
          rcases TraceStream.readMetaLines_agrees hread with hmeta | ⟨⟨n, hmeta⟩, hdefault, -⟩
          · rw [TraceStream.readMeta, hmeta]
            exact .inl rfl
          · rw [TraceStream.readMeta, hmeta]
            exact .inr ⟨⟨_, rfl⟩, hdefault⟩

/-- A whole capture loads as it was written. -/
theorem readTraceFile_written {path : String} {header : JsonValue} {fileMeta : FileMeta}
    {records : List FileRecord}
    (hopen : openTrace path = some ⟨fileText json header records, .finished⟩)
    (hw : TraceStream.Writable json header records)
    (hmeta : FileMeta.read (header.toValue.mapFloats json.reread) = some fileMeta)
    (hvalid : ∀ r ∈ records, r.Valid) : readTraceFile json openTrace path =
      .ok (fileMeta, records.map (FileRecord.roundFloats json.reread)) := by
  have hread := TraceStream.read_sofar hw hmeta hvalid (le_refl (records.length + 1)) (.inl rfl)
  have hall : (TraceStream.texts json header records).take (records.length + 1) =
      TraceStream.texts json header records := List.take_of_length_le (by simp [TraceStream.texts])
  rw [hall, TraceStream.sofar, List.take_length] at hread
  rw [readTraceFile, hopen]
  dsimp only
  rw [TraceStream.readTrace, TraceStream.items_written hw]
  rw [List.append_nil, TraceStream.texts, List.map_cons, List.map_map] at hread
  exact congrArg (withContext s!"parsing trace file: {path}") hread

/-- Once the check passes, whatever is loaded of a checked trace was captured under the hash. -/
theorem verified_loads (hexpect : expectConfigHash ≠ "")
    (hverified : verifyConfigHash json openTrace expectConfigHash paths = .ok ()) :
    ∀ path ∈ paths, ∀ fileMeta records,
      readTraceFile json openTrace path = .ok (fileMeta, records) →
      fileMeta.configHash = some expectConfigHash := by
  intro path hpath fileMeta records hload
  obtain ⟨m, hm, hhash⟩ := (verifyConfigHash_ok_iff hexpect).mp hverified path hpath
  rcases readTraceMeta_agrees hload with hmeta | ⟨⟨message, herror⟩, -⟩
  · rw [hm] at hmeta
    cases hmeta
    exact hhash
  · rw [hm] at herror
    cases herror

/-- A trace of the path was captured by these settings, without a hash of their own. -/
structure CapturedBy (json : SerdeJson) (openTrace : String → Option TraceStream)
    (sha256Hex : String → String) (path : String) (deployment : ConfigFingerprint) : Prop where
  file : ∃ (config : TapMetaConfig) (engineVllmVersion : String) (payload : List UInt8)
    (records : List FileRecord), config.configHash = none ∧
    config.fingerprint engineVllmVersion = deployment ∧ readTraceFile json openTrace path =
      .ok (config.buildMeta sha256Hex engineVllmVersion payload, records)

theorem CapturedBy.stamped {sha256Hex : String → String} {path : String}
    {deployment : ConfigFingerprint} (h : CapturedBy json openTrace sha256Hex path deployment) :
    ∃ fileMeta, readTraceMeta json openTrace path = .ok fileMeta ∧
      fileMeta.configHash = some (deployment.hash sha256Hex) := by
  obtain ⟨config, version, payload, records, hnone, rfl, hload⟩ := h.file
  rcases readTraceMeta_agrees hload with hmeta | ⟨-, hdefault⟩
  · refine ⟨_, hmeta, ?_⟩
    change some (config.stamp sha256Hex version) = _
    rw [TapMetaConfig.stamp, hnone, Option.getD_none]
  · exact absurd (congrArg (fun m => m.source) hdefault) (fun h => by cases h)

/-- Captures are accepted for a deployment exactly when they were all made under it. -/
theorem replay_accepts_iff {sha256Hex : String → String} {deployment : ConfigFingerprint}
    (hplain : deployment.Plain) (hhash : deployment.hash sha256Hex ≠ "")
    {captured : String → ConfigFingerprint}
    (hcaptured : ∀ path ∈ paths, CapturedBy json openTrace sha256Hex path (captured path))
    (hsha : ∀ path ∈ paths, (captured path).hash sha256Hex = deployment.hash sha256Hex →
      (captured path).canonical = deployment.canonical) :
    verifyConfigHash json openTrace (deployment.hash sha256Hex) paths = .ok () ↔
      ∀ path ∈ paths, captured path = deployment := by
  rw [verifyConfigHash_ok_iff hhash]
  constructor
  · intro h path hpath
    obtain ⟨m, hm, hfound⟩ := h path hpath
    obtain ⟨m', hm', hstamp⟩ := (hcaptured path hpath).stamped
    rw [hm] at hm'
    cases hm'
    rw [hstamp] at hfound
    have hcanonical := hsha path hpath (Option.some.inj hfound)
    exact (deployment.canonical_unique_iff.mpr hplain _ hcanonical.symm).symm
  · intro h path hpath
    rw [← h path hpath]
    exact (hcaptured path hpath).stamped

end Replays

/-! ## Captures of one request each -/

def sampleConfig : TapMetaConfig where
  model := "llama"
  gpu := some "H200"
  tp := some 1
  maxNumSeqs := some 256
  blockSize := 16
  configHash := none
  vllmTag := some "v0.23.0"
  engineConfig := "block_size=16;enforce_eager=true"

/-- The capture of a request, and on the same deployment and on another those of more. -/
def captureConfig : String → TapMetaConfig
  | "first" => sampleConfig
  | "second" => { sampleConfig with model := "qwen", tp := some 2 }
  | _ => { sampleConfig with gpu := some "H100" }

def captureMeta (path : String) : FileMeta :=
  (captureConfig path).buildMeta ConfigFingerprint.sampleSha256 "0.23.0" [0x81, 0xA1]

def crossedFileRecord : FileRecord := { crossedRecord with }

def captureRecords : String → List FileRecord
  | "first" => [crossedFileRecord]
  | "second" => [crossedFileRecord, summedRecord]
  | _ => [summedRecord]

def captureJson : SerdeJson :=
  knownJson (["first", "second", "third"].map (fun path =>
      .object [("meta", (captureMeta path).write)]) ++
    [crossedFileRecord, summedRecord].map FileRecord.record.codec.write)

theorem captureLines : KnownLines (["first", "second", "third"].map (fun path =>
      .object [("meta", (captureMeta path).write)]) ++
    [crossedFileRecord, summedRecord].map FileRecord.record.codec.write) where
  unescaped := by decide +kernel
  line := by decide +kernel
  distinct := by decide +kernel

theorem crossedFileRecord_inRange : crossedFileRecord.InRange where
  promptTokens := by decide
  cachedTokens := by decide
  outputTokens := by decide
  itlTokens := by
    rintro tokens ⟨⟩
    exact u32s_writable (by decide)
  itlSummary := fun _ h => by cases h
  concurrency := by decide
  itlCtx := by
    rintro ctx ⟨⟩
    exact ⟨u32s_writable (by decide), u32s_writable (by decide)⟩

theorem capture_inRange : ∀ r ∈ [crossedFileRecord, summedRecord], r.InRange := by
  simp only [List.forall_mem_cons]
  exact ⟨crossedFileRecord_inRange, summedRecord_inRange, List.forall_mem_nil _⟩

theorem capture_valid : ∀ r ∈ [crossedFileRecord, summedRecord], r.Valid := by
  have hcrossed : crossedFileRecord.validate 2 = .ok () := rfl
  have hsummed : summedRecord.validate 2 = .ok () := rfl
  simp only [List.forall_mem_cons]
  exact ⟨TraceRecord.validate_eq_ok_iff.mp hcrossed, TraceRecord.validate_eq_ok_iff.mp hsummed,
    List.forall_mem_nil _⟩

theorem captureRecords_known {path : String} :
    ∀ r ∈ captureRecords path, r ∈ [crossedFileRecord, summedRecord] := by
  unfold captureRecords
  split
  · simp
  · simp
  · simp

theorem capture_writable {path : String} (hpath : path ∈ ["first", "second", "third"]) :
    TraceStream.Writable captureJson (captureMeta path).write (captureRecords path) where
  header := captureLines.writes (List.mem_append_left _ (List.mem_map_of_mem
    (f := fun path => JsonValue.object [("meta", (captureMeta path).write)]) hpath))
  record r hr := captureLines.writes
    (List.mem_append_right _ (List.mem_map_of_mem (captureRecords_known r hr)))
  range r hr := capture_inRange r (captureRecords_known r hr)

/-- A file of two lines, cut behind the first newline and before the second line's end. -/
theorem cut_second {first second part : List Char} {k n : ℕ} (hk : k ≤ 2)
    (hlength : n = (([first, second].take k).flatMap (· ++ ['\n'])).length + part.length)
    (hpart : part ≠ [] → ∃ next, [first, second][k]? = some next ∧ part <+: next)
    (hbehind : first.length + 1 < n) (hbefore : n < first.length + 1 + second.length) :
    k = 1 ∧ part.length = n - (first.length + 1) := by
  have hcases : k = 0 ∨ k = 1 ∨ k = 2 := by omega
  rcases hcases with rfl | rfl | rfl
  · have hlong : n = part.length := by simpa using hlength
    obtain ⟨next, hnext, hinitial⟩ := hpart (List.ne_nil_of_length_pos (by omega))
    cases hnext
    have hle := hinitial.length_le
    omega
  · have hshort : n = first.length + 1 + part.length := by simpa using hlength
    exact ⟨rfl, by omega⟩
  · rw [List.take_of_length_le (by simp), List.flatMap_cons, List.flatMap_singleton,
      List.length_append, List.length_append, List.length_append, List.length_singleton] at hlength
    omega

/-- The first capture is that of a run in which the request crosses the tap, here cut within its
record. -/
theorem oneCrossing_cut : ∃ s, TapRun [0, 0] oneTapDecoders oneEngine (Tap.new 0 16 .off)
    oneCrossing s ∧ s.tap.written = [crossedRecord] ∧ ∃ text part, part.length = 20 ∧
      text = metaText captureJson (captureMeta "first").write ++ '\n' :: part ∧
      TraceStream.readTrace captureJson ⟨text, .unfinalized⟩ = .ok (captureMeta "first", []) ∧
      TraceStream.readTrace captureJson ⟨text, .finished⟩ =
        .error "line 2: invalid trace record" := by
  obtain ⟨s, hrun, hwritten, hobserved⟩ := oneCrossing_run
  have hmetaLength : (metaText captureJson (captureMeta "first").write).length = 229 := by
    decide +kernel
  have hrecordLength : (recordText captureJson crossedFileRecord).length = 219 := by
    decide +kernel
  have hfinished : Sightings.finishedIn (s.observed.filterMap oneTapDecoders.read) =
      [[(2, 2), (2, 4)]] := by
    rw [hobserved]
    decide +kernel
  have hrecordable : ∀ chunks ∈ Sightings.finishedIn (s.observed.filterMap oneTapDecoders.read),
      Recordable (chunks.map Prod.fst) := by
    rw [hfinished, List.forall_mem_singleton]
    simp [Recordable]
  have hrecords : [crossedFileRecord].map FileRecord.toTraceRecord = s.tap.written :=
    hwritten.symm
  have hsound : captureJson.Sound := captureLines.sound
  have hwritable := capture_writable (by decide : "first" ∈ ["first", "second", "third"])
  obtain ⟨k, hk, part, htake, hpart, hunfinalized, hread⟩ := TapRun.capture_reads hrun hrecords rfl
    (captureMeta "first").lineValue_write hsound hwritable hrecordable 250
  have hlength : 250 = (((TraceStream.texts captureJson (captureMeta "first").write
      [crossedFileRecord]).take k).flatMap (· ++ ['\n'])).length + part.length := by
    rw [← List.length_append, ← htake, List.length_take, TraceStream.fileText_eq]
    simp [hmetaLength, hrecordLength]
  obtain ⟨rfl, hpartLength⟩ := cut_second hk hlength hpart (by omega) (by omega)
  rw [hmetaLength] at hpartLength
  have hne : part ≠ [] := List.ne_nil_of_length_eq_add_one hpartLength
  have hother : (TraceStream.texts captureJson (captureMeta "first").write
      [crossedFileRecord])[1]? ≠ some part := by
    intro heq
    have hsame : recordText captureJson crossedFileRecord = part := Option.some.inj heq
    rw [hsame, hpartLength] at hrecordLength
    cases hrecordLength
  rw [if_neg hne, if_neg hother] at hread
  refine ⟨s, hrun, hwritten, _, part, hpartLength, ?_, hunfinalized, hread⟩
  rw [htake]
  simp [TraceStream.texts]

def openCaptures (path : String) : Option TraceStream :=
  if path ∈ ["first", "second", "third"] then
    some ⟨fileText captureJson (captureMeta path).write (captureRecords path), .finished⟩
  else none

theorem captures_load {path : String} (hpath : path ∈ ["first", "second", "third"]) :
    readTraceFile captureJson openCaptures path = .ok (captureMeta path, captureRecords path) := by
  have hsame : (captureRecords path).map (FileRecord.roundFloats captureJson.reread) =
      captureRecords path := List.map_id'' FileRecord.roundFloats_id _
  have hopen : openCaptures path = some ⟨fileText captureJson (captureMeta path).write
      (captureRecords path), .finished⟩ := if_pos hpath
  have hload := readTraceFile_written hopen (capture_writable hpath)
    (FileMeta.read_lineValue (captureMeta path).lineValue_write rfl _)
    (fun r hr => capture_valid r (captureRecords_known r hr))
  rwa [hsame] at hload

def captureFingerprint (path : String) : ConfigFingerprint :=
  (captureConfig path).fingerprint "0.23.0"

theorem captures_captured {path : String} (hpath : path ∈ ["first", "second", "third"]) :
    CapturedBy captureJson openCaptures ConfigFingerprint.sampleSha256 path
      (captureFingerprint path) := by
  have hnone : (captureConfig path).configHash = none := by
    unfold captureConfig
    split
    · rfl
    · rfl
    · rfl
  exact ⟨_, "0.23.0", [0x81, 0xA1], _, hnone, rfl, captures_load hpath⟩

/-- The captures of the first two paths were made under the sample. -/
theorem captures_sampled : ∀ path ∈ ["first", "second"],
    path ∈ ["first", "second", "third"] ∧ captureFingerprint path = ConfigFingerprint.sample := by
  decide +kernel

theorem captures_verified :
    (captureMeta "first").configHash =
        some (ConfigFingerprint.sample.hash ConfigFingerprint.sampleSha256) ∧
      (captureMeta "second").configHash =
        some (ConfigFingerprint.sample.hash ConfigFingerprint.sampleSha256) := by
  have hnonempty : ConfigFingerprint.sample.hash ConfigFingerprint.sampleSha256 ≠ "" := by
    decide +kernel
  have hverified : verifyConfigHash captureJson openCaptures
      (ConfigFingerprint.sample.hash ConfigFingerprint.sampleSha256) ["first", "second"] =
        .ok () := by
    rw [verifyConfigHash_ok_iff hnonempty]
    intro path hpath
    obtain ⟨hmem, hsample⟩ := captures_sampled path hpath
    exact hsample ▸ (captures_captured hmem).stamped
  have hloaded : ∀ path ∈ ["first", "second"], (captureMeta path).configHash =
      some (ConfigFingerprint.sample.hash ConfigFingerprint.sampleSha256) :=
    fun path hpath => verified_loads hnonempty hverified path hpath _ _
      (captures_load (captures_sampled path hpath).1)
  exact ⟨hloaded "first" (by decide), hloaded "second" (by decide)⟩

/-- Two captures of the deployment are accepted, and not along with a third of another. -/
theorem captures_accepted :
    verifyConfigHash captureJson openCaptures
      (ConfigFingerprint.sample.hash ConfigFingerprint.sampleSha256) ["first", "second"] = .ok () ∧
    verifyConfigHash captureJson openCaptures
      (ConfigFingerprint.sample.hash ConfigFingerprint.sampleSha256) ["first", "second", "third"] ≠
        .ok () := by
  have hplain : ConfigFingerprint.sample.Plain := ConfigFingerprint.sample_plain
  have hnonempty : ConfigFingerprint.sample.hash ConfigFingerprint.sampleSha256 ≠ "" := by
    decide +kernel
  have hsha : ∀ path ∈ ["first", "second", "third"],
      (captureFingerprint path).hash ConfigFingerprint.sampleSha256 =
        ConfigFingerprint.sample.hash ConfigFingerprint.sampleSha256 →
      (captureFingerprint path).canonical = ConfigFingerprint.sample.canonical := by
    decide +kernel
  have hother : captureFingerprint "third" ≠ ConfigFingerprint.sample := by decide +kernel
  constructor
  · have hcaptured := fun path hpath => captures_captured (captures_sampled path hpath).1
    exact (replay_accepts_iff hplain hnonempty hcaptured
      (fun path hpath => hsha path (captures_sampled path hpath).1)).mpr
        (fun path hpath => (captures_sampled path hpath).2)
  · intro haccepted
    have hall := (replay_accepts_iff hplain hnonempty (fun path => captures_captured) hsha).mp
      haccepted
    exact hother (hall "third" (by decide))

end VllmVcr
