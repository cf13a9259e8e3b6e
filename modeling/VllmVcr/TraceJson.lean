import VllmVcr.JsonCodec
import VllmVcr.Perfetto
import VllmVcr.TraceFile

/-!
# The JSON of a trace

The members of a record and of the meta line: which must be there, what stands for one that is
not, and in what range each is read. What is written is read back, up to its floats.
-/

namespace VllmVcr

open JsonValue JsonCodec

def usize : JsonCodec ℕ := uint (2 ^ 64)

theorem usize_lawful : usize.Lawful := uint_lawful _

/-- A list of `u32`. -/
def u32s : JsonCodec (List ℕ) := (uint (2 ^ 32)).list

theorem u32s_lawful : u32s.Lawful := list_lawful (uint_lawful _)

theorem u32s_round (f : ℚ → ℚ) : u32s.round f = id := list_round rfl

/-! ## Parts of a record -/

namespace FinishReason

def wireName : FinishReason → String
  | stop => "stop"
  | length => "length"
  | abort => "abort"
  | error => "error"
  | repetition => "repetition"

def ofWireName : String → Option FinishReason
  | "stop" => some stop
  | "length" => some length
  | "abort" => some abort
  | "error" => some error
  | "repetition" => some repetition
  | _ => none

/-- By its name, alone or as the only member of an object. -/
def codec : JsonCodec FinishReason where
  write := fun reason => .string reason.wireName
  read
    | .string name => ofWireName name
    | .object [(name, .null)] => ofWireName name
    | _ => none
  round := fun _ reason => reason
  Writable := fun _ => True

theorem codec_lawful : codec.Lawful where
  read_write := by
    intro f reason _
    cases reason <;> rfl
  settled := fun _ => rfl
  writable := fun _ _ _ => trivial
  read_null := rfl

end FinishReason

namespace ItlSummary

def record : RecordCodec ItlSummary where
  names := ["mean_ms", "count"]
  slots := fun s =>
    [("mean_ms", some (f64.write s.meanMs)),
      ("count", some (usize.write s.count))]
  ofMembers := fun member => do
    let meanMs ← f64.required (member "mean_ms")
    let count ← usize.required (member "count")
    some { meanMs := meanMs, count := count }
  round := fun f s => { s with meanMs := f s.meanMs }
  Writable := fun s => s.count < 2 ^ 64

theorem record_lawful : record.Lawful where
  names := fun _ => rfl
  nodup := by decide
  ofMembers := by
    intro f s member h hmember
    simp only [record, List.forall_mem_cons] at hmember
    obtain ⟨hmean, hcount, _⟩ := hmember
    exact bind_read (f64_lawful.required_write hmean trivial) <|
      bind_read (usize_lawful.required_write hcount h) rfl
  settled := by
    intro s
    simp only [record, List.forall_mem_cons]
    exact ⟨f64_lawful.settled_some _, usize_lawful.settled_some _, List.forall_mem_nil _⟩
  writable := by
    intro member s h
    obtain ⟨meanMs, -, h⟩ := Option.bind_eq_some_iff.mp h
    obtain ⟨count, hcount, h⟩ := Option.bind_eq_some_iff.mp h
    cases h
    exact usize_lawful.required_writable hcount

end ItlSummary

namespace ItlContext

def record : RecordCodec ItlContext where
  names := ["num_running", "prefill_tokens"]
  slots := fun ctx =>
    [("num_running", some (u32s.write ctx.numRunning)),
      ("prefill_tokens", some (u32s.write ctx.prefillTokens))]
  ofMembers := fun member => do
    let numRunning ← u32s.required (member "num_running")
    let prefillTokens ← u32s.required (member "prefill_tokens")
    some { numRunning := numRunning, prefillTokens := prefillTokens }
  round := fun _ ctx => ctx
  Writable := fun ctx => u32s.Writable ctx.numRunning ∧ u32s.Writable ctx.prefillTokens

theorem record_lawful : record.Lawful where
  names := fun _ => rfl
  nodup := by decide
  ofMembers := by
    intro f ctx member h hmember
    simp only [record, List.forall_mem_cons] at hmember
    obtain ⟨hrunning, hprefill, _⟩ := hmember
    have hrunning := u32s_lawful.required_write hrunning h.1
    have hprefill := u32s_lawful.required_write hprefill h.2
    rw [u32s_round] at hrunning hprefill
    exact bind_read hrunning <| bind_read hprefill rfl
  settled := by
    intro ctx
    simp only [record, List.forall_mem_cons]
    exact ⟨u32s_lawful.settled_some _, u32s_lawful.settled_some _, List.forall_mem_nil _⟩
  writable := by
    intro member ctx h
    obtain ⟨numRunning, hrunning, h⟩ := Option.bind_eq_some_iff.mp h
    obtain ⟨prefillTokens, hprefill, h⟩ := Option.bind_eq_some_iff.mp h
    cases h
    exact ⟨u32s_lawful.required_writable hrunning, u32s_lawful.required_writable hprefill⟩

end ItlContext

/-! ## Records -/

/-- `TraceRecord` with the hashes of the multimodal inputs, which only the file carries. -/
structure FileRecord extends TraceRecord where
  mmHashes : Option (List String) := none

namespace FileRecord

/-- The counts fit the types the source gives them. -/
structure InRange (r : FileRecord) : Prop where
  promptTokens : r.promptTokens < 2 ^ 64
  cachedTokens : r.cachedTokens < 2 ^ 64
  outputTokens : r.outputTokens < 2 ^ 64
  itlTokens : ∀ tokens ∈ r.itlTokens, u32s.Writable tokens
  itlSummary : ∀ s ∈ r.itlSummary, ItlSummary.record.Writable s
  concurrency : r.concurrency < 2 ^ 64
  itlCtx : ∀ ctx ∈ r.itlCtx, ItlContext.record.Writable ctx

def roundFloats (f : ℚ → ℚ) (r : FileRecord) : FileRecord :=
  { r with
    ttftMs := f r.ttftMs
    itlMs := r.itlMs.map (List.map f)
    itlSummary := r.itlSummary.map (ItlSummary.record.round f)
    arrivalMs := r.arrivalMs.map f }

def record : RecordCodec FileRecord where
  names := ["prompt_tokens", "cached_tokens", "output_tokens", "ttft_ms", "itl_ms", "itl_tokens",
    "itl_summary", "concurrency", "arrival_ms", "itl_ctx", "block_hashes", "mm_hashes",
    "output_token_ids", "finish_reason"]
  slots := fun r =>
    [("prompt_tokens", some (usize.write r.promptTokens)),
      ("cached_tokens", some (usize.write r.cachedTokens)),
      ("output_tokens", some (usize.write r.outputTokens)),
      ("ttft_ms", some (f64.write r.ttftMs)),
      ("itl_ms", r.itlMs.map f64.list.write),
      ("itl_tokens", r.itlTokens.map u32s.write),
      ("itl_summary", r.itlSummary.map ItlSummary.record.codec.write),
      ("concurrency", some (usize.write r.concurrency)),
      ("arrival_ms", r.arrivalMs.map f64.write),
      ("itl_ctx", r.itlCtx.map ItlContext.record.codec.write),
      ("block_hashes", r.blockHashes.map u64.list.write),
      ("mm_hashes", r.mmHashes.map text.list.write),
      ("output_token_ids", r.outputTokenIds.map u32.list.write),
      ("finish_reason", r.finishReason.map FinishReason.codec.write)]
  ofMembers := fun member => do
    let promptTokens ← usize.required (member "prompt_tokens")
    let cachedTokens ← usize.defaulted 0 (member "cached_tokens")
    let outputTokens ← usize.required (member "output_tokens")
    let ttftMs ← f64.required (member "ttft_ms")
    let itlMs ← f64.list.optional (member "itl_ms")
    let itlTokens ← u32s.optional (member "itl_tokens")
    let itlSummary ← ItlSummary.record.codec.optional (member "itl_summary")
    let concurrency ← usize.defaulted 1 (member "concurrency")
    let arrivalMs ← f64.optional (member "arrival_ms")
    let itlCtx ← ItlContext.record.codec.optional (member "itl_ctx")
    let blockHashes ← u64.list.optional (member "block_hashes")
    let mmHashes ← text.list.optional (member "mm_hashes")
    let outputTokenIds ← u32.list.optional (member "output_token_ids")
    let finishReason ← FinishReason.codec.optional (member "finish_reason")
    some {
      promptTokens := promptTokens
      cachedTokens := cachedTokens
      outputTokens := outputTokens
      ttftMs := ttftMs
      itlMs := itlMs
      itlTokens := itlTokens
      itlSummary := itlSummary
      concurrency := concurrency
      arrivalMs := arrivalMs
      itlCtx := itlCtx
      blockHashes := blockHashes
      mmHashes := mmHashes
      outputTokenIds := outputTokenIds
      finishReason := finishReason }
  round := roundFloats
  Writable := InRange

theorem record_lawful : record.Lawful where
  names := fun _ => rfl
  nodup := by decide
  ofMembers := by
    intro f r member h hmember
    simp only [record, List.forall_mem_cons] at hmember
    obtain ⟨hprompt, hcached, houtput, httft, hitl, htokens, hsummary, hconcurrency, harrival, hctx,
      hblocks, hmm, hids, hreason, -⟩ := hmember
    have hprompt := usize_lawful.required_write hprompt h.promptTokens
    have hcached := usize_lawful.defaulted_write 0 hcached h.cachedTokens
    have houtput := usize_lawful.required_write houtput h.outputTokens
    have httft := f64_lawful.required_write httft trivial
    have hitl := (list_lawful f64_lawful).optional_write hitl (fun _ _ _ _ => trivial)
    have htokens := u32s_lawful.optional_write htokens h.itlTokens
    have hsummary := ItlSummary.record_lawful.codec.optional_write hsummary h.itlSummary
    have hconcurrency := usize_lawful.defaulted_write 1 hconcurrency h.concurrency
    have harrival := f64_lawful.optional_write harrival (fun _ _ => trivial)
    have hctx := ItlContext.record_lawful.codec.optional_write hctx h.itlCtx
    have hblocks := (list_lawful u64_lawful).optional_write hblocks (fun _ _ _ _ => trivial)
    have hmm := (list_lawful text_lawful).optional_write hmm (fun _ _ _ _ => trivial)
    have hids := (list_lawful u32_lawful).optional_write hids (fun _ _ _ _ => trivial)
    have hreason := FinishReason.codec_lawful.optional_write hreason (fun _ _ => trivial)
    rw [u32s_round, Option.map_id] at htokens
    rw [show u64.list.round f = id from list_round rfl, Option.map_id] at hblocks
    rw [show text.list.round f = id from list_round rfl, Option.map_id] at hmm
    rw [show u32.list.round f = id from list_round rfl, Option.map_id] at hids
    rw [show ItlContext.record.codec.round f = id from rfl, Option.map_id] at hctx
    rw [show FinishReason.codec.round f = id from rfl, Option.map_id] at hreason
    exact bind_read hprompt <| bind_read hcached <| bind_read houtput <| bind_read httft <|
      bind_read hitl <| bind_read htokens <| bind_read hsummary <| bind_read hconcurrency <|
      bind_read harrival <| bind_read hctx <| bind_read hblocks <| bind_read hmm <|
      bind_read hids <| bind_read hreason rfl
  settled := by
    intro r
    simp only [record, List.forall_mem_cons]
    exact ⟨usize_lawful.settled_some _, usize_lawful.settled_some _, usize_lawful.settled_some _,
      f64_lawful.settled_some _, (list_lawful f64_lawful).settled_map _,
      u32s_lawful.settled_map _, ItlSummary.record_lawful.codec.settled_map _,
      usize_lawful.settled_some _, f64_lawful.settled_map _,
      ItlContext.record_lawful.codec.settled_map _, (list_lawful u64_lawful).settled_map _,
      (list_lawful text_lawful).settled_map _, (list_lawful u32_lawful).settled_map _,
      FinishReason.codec_lawful.settled_map _, List.forall_mem_nil _⟩
  writable := by
    intro member r h
    obtain ⟨promptTokens, hprompt, h⟩ := Option.bind_eq_some_iff.mp h
    obtain ⟨cachedTokens, hcached, h⟩ := Option.bind_eq_some_iff.mp h
    obtain ⟨outputTokens, houtput, h⟩ := Option.bind_eq_some_iff.mp h
    obtain ⟨ttftMs, -, h⟩ := Option.bind_eq_some_iff.mp h
    obtain ⟨itlMs, -, h⟩ := Option.bind_eq_some_iff.mp h
    obtain ⟨itlTokens, htokens, h⟩ := Option.bind_eq_some_iff.mp h
    obtain ⟨itlSummary, hsummary, h⟩ := Option.bind_eq_some_iff.mp h
    obtain ⟨concurrency, hconcurrency, h⟩ := Option.bind_eq_some_iff.mp h
    obtain ⟨arrivalMs, -, h⟩ := Option.bind_eq_some_iff.mp h
    obtain ⟨itlCtx, hctx, h⟩ := Option.bind_eq_some_iff.mp h
    obtain ⟨blockHashes, -, h⟩ := Option.bind_eq_some_iff.mp h
    obtain ⟨mmHashes, -, h⟩ := Option.bind_eq_some_iff.mp h
    obtain ⟨outputTokenIds, -, h⟩ := Option.bind_eq_some_iff.mp h
    obtain ⟨finishReason, -, h⟩ := Option.bind_eq_some_iff.mp h
    cases h
    have hzero : usize.Writable 0 := Nat.two_pow_pos 64
    have hone : usize.Writable 1 := Nat.one_lt_two_pow (by decide)
    exact {
      promptTokens := usize_lawful.required_writable hprompt
      cachedTokens := usize_lawful.defaulted_writable hzero hcached
      outputTokens := usize_lawful.required_writable houtput
      itlTokens := u32s_lawful.optional_writable htokens
      itlSummary := ItlSummary.record_lawful.codec.optional_writable hsummary
      concurrency := usize_lawful.defaulted_writable hone hconcurrency
      itlCtx := ItlContext.record_lawful.codec.optional_writable hctx }

end FileRecord

/-! ## The meta line -/

/-- The members of no name of its own that the meta line carries. -/
structure ExtraFields where
  entries : List (String × JsonValue)
  distinct : (entries.map Prod.fst).Nodup
  settled : ∀ m ∈ entries, m.2.Settled

namespace ExtraFields

theorem nil_distinct : (([] : List (String × JsonValue)).map Prod.fst).Nodup := List.nodup_nil

theorem nil_settled : ∀ m ∈ ([] : List (String × JsonValue)), m.2.Settled :=
  List.forall_mem_nil _

def empty : ExtraFields := ⟨[], nil_distinct, nil_settled⟩

def ofMembers (fields : List (String × JsonValue)) : ExtraFields :=
  ⟨toMembers fields, nodup_toMembers fields, settled_toMembers fields⟩

theorem distinct_roundFloats (extra : ExtraFields) (f : ℚ → ℚ) :
    ((mapMembers f extra.entries).map Prod.fst).Nodup := by
  rw [names_mapMembers]
  exact extra.distinct

theorem settled_roundFloats (extra : ExtraFields) (f : ℚ → ℚ) :
    ∀ m ∈ mapMembers f extra.entries, m.2.Settled := by
  intro m hm
  rw [mapMembers_eq_map] at hm
  obtain ⟨e, he, rfl⟩ := List.mem_map.mp hm
  exact (extra.settled e he).mapFloats f

def roundFloats (f : ℚ → ℚ) (extra : ExtraFields) : ExtraFields :=
  ⟨mapMembers f extra.entries, extra.distinct_roundFloats f, extra.settled_roundFloats f⟩

theorem ofMembers_roundFloats (extra : ExtraFields) (f : ℚ → ℚ) :
    ofMembers (mapMembers f extra.entries) = extra.roundFloats f := by
  have hself := toMembers_eq_self (extra.distinct_roundFloats f) (extra.settled_roundFloats f)
  simp only [ofMembers, roundFloats, hself]

end ExtraFields

/-- The members of the meta line that have a name of their own. -/
structure MetaFields extends Perfetto.TraceMeta where
  gpu : Option String
  tp : Option UInt32
  maxNumSeqs : Option UInt64
  source : Option String
  blockSize : Option UInt64
  configHash : Option String
  vllmVersion : Option String
  readyResponseHex : Option String

namespace MetaFields

def record : RecordCodec MetaFields where
  names := ["model", "gpu", "tp", "max_num_seqs", "source", "block_size", "config_hash",
    "vllm_version", "ready_response_hex"]
  slots := fun m =>
    [("model", m.model.map text.write),
      ("gpu", m.gpu.map text.write),
      ("tp", m.tp.map u32.write),
      ("max_num_seqs", m.maxNumSeqs.map u64.write),
      ("source", m.source.map text.write),
      ("block_size", m.blockSize.map u64.write),
      ("config_hash", m.configHash.map text.write),
      ("vllm_version", m.vllmVersion.map text.write),
      ("ready_response_hex", m.readyResponseHex.map text.write)]
  ofMembers := fun member => do
    let model ← text.optional (member "model")
    let gpu ← text.optional (member "gpu")
    let tp ← u32.optional (member "tp")
    let maxNumSeqs ← u64.optional (member "max_num_seqs")
    let source ← text.optional (member "source")
    let blockSize ← u64.optional (member "block_size")
    let configHash ← text.optional (member "config_hash")
    let vllmVersion ← text.optional (member "vllm_version")
    let readyResponseHex ← text.optional (member "ready_response_hex")
    some {
      model := model
      gpu := gpu
      tp := tp
      maxNumSeqs := maxNumSeqs
      source := source
      blockSize := blockSize
      configHash := configHash
      vllmVersion := vllmVersion
      readyResponseHex := readyResponseHex }
  round := fun _ m => m
  Writable := fun _ => True

theorem record_lawful : record.Lawful where
  names := fun _ => rfl
  nodup := by decide
  ofMembers := by
    intro f m member _ hmember
    simp only [record, List.forall_mem_cons] at hmember
    obtain ⟨hmodel, hgpu, htp, hseqs, hsource, hblock, hhash, hversion, hready, -⟩ := hmember
    have hmodel := text_lawful.optional_write hmodel (fun _ _ => trivial)
    have hgpu := text_lawful.optional_write hgpu (fun _ _ => trivial)
    have htp := u32_lawful.optional_write htp (fun _ _ => trivial)
    have hseqs := u64_lawful.optional_write hseqs (fun _ _ => trivial)
    have hsource := text_lawful.optional_write hsource (fun _ _ => trivial)
    have hblock := u64_lawful.optional_write hblock (fun _ _ => trivial)
    have hhash := text_lawful.optional_write hhash (fun _ _ => trivial)
    have hversion := text_lawful.optional_write hversion (fun _ _ => trivial)
    have hready := text_lawful.optional_write hready (fun _ _ => trivial)
    rw [show text.round f = id from rfl, Option.map_id] at hmodel hgpu hsource hhash hversion hready
    rw [show u32.round f = id from rfl, Option.map_id] at htp
    rw [show u64.round f = id from rfl, Option.map_id] at hseqs hblock
    exact bind_read hmodel <| bind_read hgpu <| bind_read htp <| bind_read hseqs <|
      bind_read hsource <| bind_read hblock <| bind_read hhash <| bind_read hversion <|
      bind_read hready rfl
  settled := by
    intro m
    simp only [record, List.forall_mem_cons]
    exact ⟨text_lawful.settled_map _, text_lawful.settled_map _, u32_lawful.settled_map _,
      u64_lawful.settled_map _, text_lawful.settled_map _, u64_lawful.settled_map _,
      text_lawful.settled_map _, text_lawful.settled_map _, text_lawful.settled_map _,
      List.forall_mem_nil _⟩
  writable := fun _ _ _ => trivial

end MetaFields

/-- `TraceMeta` with all that the file carries. -/
structure FileMeta extends MetaFields where
  extra : ExtraFields

namespace FileMeta

def default : FileMeta where
  model := none
  gpu := none
  tp := none
  maxNumSeqs := none
  source := none
  blockSize := none
  configHash := none
  vllmVersion := none
  readyResponseHex := none
  extra := ExtraFields.empty

def ownNames : List String := MetaFields.record.names

def ownMembers (m : FileMeta) : List (String × JsonValue) :=
  present (MetaFields.record.slots m.toMetaFields)

def write (m : FileMeta) : JsonValue := .object (m.ownMembers ++ m.extra.entries)

def read : JsonValue → Option FileMeta
  | .object fields => do
    let own ← MetaFields.record.codec.read (.object fields)
    some { own with
      extra := ExtraFields.ofMembers (fields.filter (fun e => e.1 ∉ ownNames)) }
  | _ => none

def roundFloats (f : ℚ → ℚ) (m : FileMeta) : FileMeta := { m with extra := m.extra.roundFloats f }

/-- No extra member goes by a name of the others. -/
def Plain (m : FileMeta) : Prop := ∀ e ∈ m.extra.entries, e.1 ∉ ownNames

variable {m : FileMeta}

theorem plain_roundFloats {f : ℚ → ℚ} : (m.roundFloats f).Plain ↔ m.Plain := by
  have hnames := names_mapMembers f m.extra.entries
  have hplain : ∀ entries : List (String × JsonValue), (∀ e ∈ entries, e.1 ∉ ownNames) ↔
      ∀ name ∈ entries.map Prod.fst, name ∉ ownNames := fun entries => by simp
  rw [Plain, Plain, hplain, hplain, ← hnames]
  rfl

theorem names_ownMembers (m : FileMeta) : ∀ e ∈ m.ownMembers, e.1 ∈ ownNames :=
  fun _ he => (names_present _).subset (List.mem_map_of_mem he)

theorem write_mapFloats (m : FileMeta) (f : ℚ → ℚ) : m.write.mapFloats f =
    .object (mapMembers f m.ownMembers ++ (m.roundFloats f).extra.entries) := by
  rw [write, mapFloats, mapMembers_eq_map, List.map_append, ← mapMembers_eq_map,
    ← mapMembers_eq_map]
  rfl

theorem filter_members (h : m.Plain) (f : ℚ → ℚ) :
    (mapMembers f m.ownMembers ++ (m.roundFloats f).extra.entries).filter
      (fun e => e.1 ∉ ownNames) = (m.roundFloats f).extra.entries := by
  have hown : ∀ e ∈ mapMembers f m.ownMembers, e.1 ∈ ownNames := by
    intro e he
    rw [mapMembers_eq_map] at he
    obtain ⟨e', he', rfl⟩ := List.mem_map.mp he
    exact m.names_ownMembers e' he'
  have hextra : (m.roundFloats f).Plain := plain_roundFloats.mpr h
  rw [List.filter_append, List.filter_eq_nil_iff.mpr, List.filter_eq_self.mpr, List.nil_append]
  · simpa [Plain] using hextra
  · simpa using hown

theorem read_write (h : m.Plain) (f : ℚ → ℚ) :
    read (m.write.mapFloats f) = some (m.roundFloats f) := by
  obtain ⟨member, hmembers, hmember⟩ := MetaFields.record_lawful.membersOf_write f m.toMetaFields
    (plain_roundFloats.mpr h)
  have hread := MetaFields.record_lawful.ofMembers f m.toMetaFields member trivial hmember
  rw [write_mapFloats, read, filter_members h f]
  apply bind_read ((congrArg (Option.bind · MetaFields.record.ofMembers) hmembers).trans hread)
  exact congrArg (fun extra => some { m with extra := extra }) (m.extra.ofMembers_roundFloats f)

theorem read_plain {v : JsonValue} (h : read v = some m) : m.Plain := by
  cases v with
  | object fields =>
      obtain ⟨own, -, h⟩ := Option.bind_eq_some_iff.mp h
      cases h
      intro e he
      obtain ⟨e', he', hname⟩ := List.mem_map.mp (mem_names_toMembers.mp (List.mem_map_of_mem he))
      rw [← hname]
      simpa using (List.mem_filter.mp he').2
  | null => cases h
  | bool b => cases h
  | number n => cases h
  | float q => cases h
  | string s => cases h
  | array items => cases h

theorem members_settled (m : FileMeta) (h : m.Plain) :
    ((m.ownMembers ++ m.extra.entries).map Prod.fst).Nodup ∧
      ∀ e ∈ m.ownMembers ++ m.extra.entries, e.2.Settled := by
  constructor
  · rw [List.map_append, List.nodup_append']
    refine ⟨MetaFields.record_lawful.nodup_write _, m.extra.distinct, ?_⟩
    intro name hown hextra
    obtain ⟨e, he, rfl⟩ := List.mem_map.mp hown
    obtain ⟨e', he', hname⟩ := List.mem_map.mp hextra
    exact h e' he' (hname ▸ m.names_ownMembers e he)
  · intro e he
    rcases List.mem_append.mp he with hown | hextra
    · exact present_settled (MetaFields.record_lawful.settled _) e hown
    · exact m.extra.settled e hextra

theorem write_settled (h : m.Plain) : m.write.Settled :=
  object_settled (m.members_settled h).1 (m.members_settled h).2

end FileMeta

end VllmVcr
