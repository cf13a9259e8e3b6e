import VllmVcr.Capture
import VllmVcr.Perfetto

/-!
# Captured chunks on the timeline

The timeline and the replay both rebuild the first chunk's size, which a record does not store.
They agree, and every span shows the ids of its chunk, except for a burst followed by single
tokens.
-/

namespace VllmVcr

open Perfetto

/-! ## The ids of every chunk -/

/-- The ids of the chunks of a request. -/
def idListener : Listener (List (List Token)) where
  begins _ _ := []
  hears _ output chunks :=
    if output.newTokenIds.isEmpty then chunks else chunks ++ [output.newTokenIds]

/-- The chunks of the requests that these messages finish, in the order they finish. -/
def deliveredIn (messages : List (Instant × TapMessage)) : List (List (List Token)) :=
  (idListener.watch messages).finished

/-- What the state of a request in flight says of the chunks delivered. -/
structure Delivered (recordTokens : TokenRecording) (s : RequestState)
    (chunks : List (List Token)) : Prop where
  total : s.outputTokens = chunks.flatten.length
  sizes : s.gaps.map GapSample.tokens = chunks.tail.map (fun c => c.length % 2 ^ 32)
  ids : recordTokens = .on → s.outputTokenIds = chunks.flatten
  nonempty : ∀ c ∈ chunks, c ≠ []
  last : s.lastOutput = none ↔ chunks = []

namespace Delivered

variable {recordTokens : TokenRecording} {s : RequestState} {chunks : List (List Token)}

theorem recordChunk {ids chunk : List Token} {cachedTokens : ℕ}
    (h : Delivered recordTokens s chunks) (hchunk : chunk ≠ [])
    (hids : recordTokens = .on → ids = chunks.flatten ++ chunk) (arrival : Instant)
    (running prefillTokens : ℕ) :
    Delivered recordTokens
      ({ s with outputTokenIds := ids, cachedTokens := cachedTokens }.recordChunk arrival
        chunk.length running prefillTokens) (chunks ++ [chunk]) := by
  have htotal : s.outputTokens + chunk.length = (chunks ++ [chunk]).flatten.length := by
    rw [h.total, List.flatten_append, List.flatten_singleton, List.length_append]
  have hall : ∀ c ∈ chunks ++ [chunk], c ≠ [] := by
    intro c hc
    rcases List.mem_append.mp hc with hold | hnew
    · exact h.nonempty c hold
    · exact List.mem_singleton.mp hnew ▸ hchunk
  have hflat : recordTokens = .on → ids = (chunks ++ [chunk]).flatten := by
    rwa [List.flatten_append, List.flatten_singleton]
  cases hlast : s.lastOutput with
  | none =>
      have hempty := h.last.mp hlast
      subst hempty
      have hgaps : s.gaps.map GapSample.tokens = [] := h.sizes
      exact ⟨htotal, hgaps, hflat, hall, by simp [RequestState.recordChunk]⟩
  | some prev =>
      have hne : chunks ≠ [] := fun hnil => by simp [h.last.mpr hnil] at hlast
      have htail : (chunks ++ [chunk]).tail = chunks.tail ++ [chunk] := by
        cases chunks with
        | nil => exact absurd rfl hne
        | cons => rfl
      refine ⟨htotal, ?_, hflat, hall, by simp [RequestState.recordChunk]⟩
      rw [htail, List.map_append, ← h.sizes]
      exact List.map_append

theorem keeps : idListener.Keeps Delivered where
  begins _ _ _ _ _ _ := ⟨rfl, rfl, fun _ => rfl, by simp [idListener], iff_of_true rfl rfl⟩
  hears recordTokens s chunks arrival running prefillTokens output h := by
    obtain ⟨ids, cachedTokens, hids, heq⟩ :=
      Tap.observed_eq arrival running prefillTokens recordTokens output s
    rw [heq]
    by_cases hempty : output.newTokenIds = []
    · have hhears : idListener.hears arrival output chunks = chunks := by simp [idListener, hempty]
      rw [hhears, if_pos (by simp [hempty])]
      refine ⟨h.total, h.sizes, fun hon => ?_, h.nonempty, h.last⟩
      exact (hids hon).trans (by rw [hempty, List.append_nil, h.ids hon])
    · have hhears : idListener.hears arrival output chunks = chunks ++ [output.newTokenIds] := by
        simp [idListener, hempty]
      rw [hhears, if_neg (by simp [hempty])]
      exact h.recordChunk hempty (fun hon => by rw [hids hon, h.ids hon]) arrival running
        prefillTokens

end Delivered

/-! ## Slices -/

namespace Perfetto

/-- The token ids that a span carries. -/
def TraceEvent.tokenIds (e : TraceEvent) : Option JsonValue :=
  e.args.bind (fun args => args.lookup "token_ids")

theorem jsonIds_injective {ids ids' : List Token} (h : jsonIds ids = jsonIds ids') : ids = ids' := by
  have hmap := JsonValue.array.inj h
  refine List.map_injective_iff.mpr (fun a b hab => ?_) hmap
  exact UInt32.toNat_inj.mp (Int.ofNat.inj (JsonValue.number.inj hab))

theorem prefillEvent_tokenIds (record : TraceRecord) (tid index : ℕ) :
    (prefillEvent record tid index).tokenIds =
      (tokenSlice record 0 (firstChunkTokens record)).map jsonIds := by
  simp only [TraceEvent.tokenIds, prefillEvent, Option.bind_some]
  cases record.finishReason <;> cases tokenSlice record 0 (firstChunkTokens record) <;>
    simp [List.lookup_cons]

theorem decodeEvent_tokenIds (record : TraceRecord) (tid index i : ℕ) (gapMs clock : ℚ)
    (cursor : ℕ) :
    (decodeEvent record tid index i gapMs clock cursor).tokenIds =
      (tokenSlice record cursor (chunkTokens record i)).map jsonIds := by
  simp only [TraceEvent.tokenIds, decodeEvent, Option.bind_some]
  cases record.itlCtx.bind (fun ctx => ctx.numRunning[i]?) <;>
    cases record.itlCtx.bind (fun ctx => ctx.prefillTokens[i]?) <;>
    cases tokenSlice record cursor (chunkTokens record i) <;> simp [List.lookup_cons]

/-- The slices of the decode spans from the `i`-th on. -/
def slicesFrom (record : TraceRecord) : ℕ → ℕ → ℕ → List (Option JsonValue)
  | _, _, 0 => []
  | i, cursor, n + 1 => (tokenSlice record cursor (chunkTokens record i)).map jsonIds ::
      slicesFrom record (i + 1) (cursor + chunkTokens record i) n

theorem decodeEvents_tokenIds (record : TraceRecord) (tid index : ℕ) (gaps : List ℚ) (i : ℕ)
    (clock : ℚ) (cursor : ℕ) :
    (decodeEvents record tid index i clock cursor gaps).1.map TraceEvent.tokenIds =
      slicesFrom record i cursor gaps.length := by
  induction gaps generalizing i clock cursor with
  | nil => rfl
  | cons g gaps ih =>
      rw [List.length_cons, slicesFrom, ← ih (i + 1) (clock + g), ← decodeEvent_tokenIds record tid
        index i g clock cursor]
      rfl

theorem emitRequest_tokenIds (record : TraceRecord) (tid index : ℕ) :
    (emitRequest record tid index).1.map TraceEvent.tokenIds =
      (tokenSlice record 0 (firstChunkTokens record)).map jsonIds ::
        slicesFrom record 0 (firstChunkTokens record) (record.itlMs.getD []).length := by
  rw [← decodeEvents_tokenIds record tid index _ 0 (arrival record + record.ttftMs),
    ← prefillEvent_tokenIds record tid index]
  rfl

theorem tokenSlice_append {record : TraceRecord} {front chunk back : List Token}
    (hids : record.outputTokenIds = some (front ++ chunk ++ back)) :
    tokenSlice record front.length chunk.length = some chunk := by
  have hmin : min (front.length + chunk.length) (front ++ chunk ++ back).length =
      (front ++ chunk).length := by
    simp only [List.length_append]
    omega
  rw [tokenSlice, hids, Option.bind_some, hmin, if_pos (by rw [List.length_append]; omega),
    List.take_left, List.drop_left]

theorem length_tokenSlice {record : TraceRecord} {start len : ℕ} {ids : List Token}
    (h : tokenSlice record start len = some ids) : ids.length ≤ len := by
  obtain ⟨all, _, hslice⟩ := Option.bind_eq_some_iff.mp h
  split at hslice
  · cases hslice
    rw [List.length_drop, List.length_take]
    omega
  · cases hslice

/-- With the right sizes the slices are the chunks. -/
theorem slicesFrom_eq {record : TraceRecord} {front : List Token} {chunks : List (List Token)}
    {i : ℕ} (hids : record.outputTokenIds = some (front ++ chunks.flatten))
    (hsizes : ∀ (j : ℕ) (c : List Token), chunks[j]? = some c →
      chunkTokens record (i + j) = c.length) :
    slicesFrom record i front.length chunks.length =
      chunks.map (fun c => some (jsonIds c)) := by
  induction chunks generalizing front i with
  | nil => rfl
  | cons c chunks ih =>
      have hc : chunkTokens record i = c.length := hsizes 0 c rfl
      have hsplit : record.outputTokenIds = some (front ++ c ++ chunks.flatten) := by
        rw [hids, List.flatten_cons, List.append_assoc]
      have hrest := ih hsplit (i := i + 1) (fun j d hd => by
        rw [Nat.add_assoc, Nat.add_comm 1 j]
        exact hsizes (j + 1) d hd)
      rw [List.length_append] at hrest
      rw [List.length_cons, slicesFrom, hc, tokenSlice_append hsplit, hrest]
      rfl

/-- A slice is no longer than its chunk is taken to be. -/
theorem slicesFrom_le {record : TraceRecord} {chunks : List (List Token)} {i cursor n : ℕ}
    (h : slicesFrom record i cursor n = chunks.map (fun c => some (jsonIds c))) {j : ℕ}
    {c : List Token} (hc : chunks[j]? = some c) : c.length ≤ chunkTokens record (i + j) := by
  induction n generalizing chunks i cursor j with
  | zero =>
      have hnil : chunks = [] := List.map_eq_nil_iff.mp h.symm
      simp [hnil] at hc
  | succ n ih =>
      cases chunks with
      | nil => simp at hc
      | cons d chunks =>
          obtain ⟨hhead, hrest⟩ := List.cons.inj h
          cases j with
          | zero =>
              obtain rfl : d = c := Option.some.inj hc
              obtain ⟨ids, hslice, hids⟩ := Option.map_eq_some_iff.mp hhead
              exact jsonIds_injective hids ▸ length_tokenSlice hslice
          | succ j =>
              have hle := ih hrest hc
              rwa [Nat.add_assoc, Nat.add_comm 1 j] at hle

end Perfetto

/-! ## The captured record -/

/-- The timeline and the schedule give the record the same first chunk, and the spans carry the
ids of the chunks. -/
def ShowsChunks (r : TraceRecord) (chunks : List (List Token)) : Prop :=
  (∃ schedule, recordedSchedule r = some schedule ∧
    firstChunkTokens r = schedule.firstChunkTokens) ∧
  ∀ tid index, (emitRequest r tid index).1.map TraceEvent.tokenIds =
    chunks.map (fun ids => some (jsonIds ids))

/-- No chunk's size needs more than 32 bits, and a first chunk of several tokens is followed by
another. -/
def Telling (first : List Token) (later : List (List Token)) : Prop :=
  (∀ c ∈ first :: later, c.length < 2 ^ 32) ∧ (first.length = 1 ∨ ∃ c ∈ later, 1 < c.length)

theorem mod_lengths {chunks : List (List Token)} (h : ∀ c ∈ chunks, c.length < 2 ^ 32) :
    chunks.map (fun c => c.length % 2 ^ 32) = chunks.map List.length :=
  List.map_congr_left (fun c hc => Nat.mod_eq_of_lt (h c hc))

/-- What a record written with token ids says of the chunks it was made from. -/
structure Chunked (r : TraceRecord) (first : List Token) (later : List (List Token)) : Prop where
  ids : r.outputTokenIds = some (first ++ later.flatten)
  gaps : ∃ gaps, r.itlMs = some gaps ∧ gaps.length = later.length
  total : r.outputTokens = first.length + (later.map List.length).sum
  tokens : r.itlTokens = if ∃ c ∈ later, 1 < c.length % 2 ^ 32 then
    some (later.map (fun c => c.length % 2 ^ 32)) else none
  positive : ∀ c ∈ first :: later, 0 < c.length

theorem Delivered.chunked {s : RequestState} {first : List Token} {later : List (List Token)}
    (h : Delivered .on s (first :: later)) (hlater : later ≠ []) (captureStart : Instant)
    (reason : FinishReason) : Chunked (s.intoRecord captureStart reason .on) first later := by
  have hsizes : s.gaps.map GapSample.tokens = later.map (fun c => c.length % 2 ^ 32) := h.sizes
  have hlength : s.gaps.length = later.length := by
    simpa using congrArg List.length hsizes
  have hne : s.gaps ≠ [] := by
    rw [← List.length_pos_iff, hlength]
    exact List.length_pos_iff.mpr hlater
  constructor
  · rw [RequestState.intoRecord_outputTokenIds, if_pos rfl, h.ids rfl, List.flatten_cons]
  · refine ⟨s.gaps.map GapSample.gapMs, ?_, by rw [List.length_map, hlength]⟩
    rw [RequestState.intoRecord_itlMs, if_neg (by simpa using hne)]
  · rw [RequestState.intoRecord_outputTokens, h.total, List.flatten_cons, List.length_append,
      List.length_flatten]
  · rw [RequestState.intoRecord_itlTokens, hsizes]
    simp only [List.any_map, List.any_eq_true, Function.comp_apply, decide_eq_true_eq]
  · exact fun c hc => List.length_pos_iff.mpr (h.nonempty c hc)

namespace Chunked

variable {r : TraceRecord} {first : List Token} {later : List (List Token)}

theorem spans (h : Chunked r first later) (tid index : ℕ) :
    (emitRequest r tid index).1.map TraceEvent.tokenIds =
      (tokenSlice r 0 (firstChunkTokens r)).map jsonIds ::
        slicesFrom r 0 (firstChunkTokens r) later.length := by
  obtain ⟨gaps, hgaps, hlength⟩ := h.gaps
  rw [emitRequest_tokenIds, hgaps, Option.getD_some, hlength]

/-- With the right sizes the spans carry the ids of the chunks. -/
theorem shown (h : Chunked r first later) (hfirst : firstChunkTokens r = first.length)
    (hlater : ∀ (j : ℕ) (c : List Token), later[j]? = some c → chunkTokens r j = c.length)
    (tid index : ℕ) : (emitRequest r tid index).1.map TraceEvent.tokenIds =
      (first :: later).map (fun ids => some (jsonIds ids)) := by
  have hhead := @tokenSlice_append r [] first later.flatten h.ids
  have hrest := @slicesFrom_eq r first later 0 h.ids (fun j c hc => by
    rw [Nat.zero_add]
    exact hlater j c hc)
  rw [List.length_nil] at hhead
  rw [h.spans, hfirst, hhead, hrest, Option.map_some, List.map_cons]

/-- No chunk shown is longer than the spans take it to be. -/
theorem bounded (h : Chunked r first later)
    (hshown : ∀ tid index, (emitRequest r tid index).1.map TraceEvent.tokenIds =
      (first :: later).map (fun ids => some (jsonIds ids))) :
    first.length ≤ firstChunkTokens r ∧
      ∀ (j : ℕ) (c : List Token), later[j]? = some c → c.length ≤ chunkTokens r j := by
  obtain ⟨hhead, hrest⟩ := List.cons.inj ((h.spans 0 0).symm.trans (hshown 0 0))
  obtain ⟨ids, hslice, hids⟩ := Option.map_eq_some_iff.mp hhead
  refine ⟨jsonIds_injective hids ▸ length_tokenSlice hslice, fun j c hc => ?_⟩
  have hle := slicesFrom_le hrest hc
  rwa [Nat.zero_add] at hle

theorem firstChunk_of_burst (h : Chunked r first later) (hsizes : ∀ c ∈ later, c.length < 2 ^ 32)
    (hburst : ∃ c ∈ later, 1 < c.length % 2 ^ 32) : firstChunkTokens r = first.length := by
  rw [firstChunkTokens, h.tokens, if_pos hburst, h.total]
  simp only [mod_lengths hsizes, Nat.add_sub_cancel]

theorem chunk_of_burst (h : Chunked r first later) (hburst : ∃ c ∈ later, 1 < c.length % 2 ^ 32)
    {j : ℕ} {c : List Token} (hc : later[j]? = some c) : chunkTokens r j = c.length % 2 ^ 32 := by
  rw [chunkTokens, h.tokens, if_pos hburst, Option.bind_some, List.getElem?_map, hc,
    Option.map_some, Option.getD_some]

theorem firstChunk_of_single (h : Chunked r first later)
    (hsingle : ¬ ∃ c ∈ later, 1 < c.length % 2 ^ 32) : firstChunkTokens r = 1 := by
  have hfirst := h.positive first List.mem_cons_self
  rw [firstChunkTokens, h.tokens, if_neg hsingle, h.total]
  simp only
  omega

theorem chunk_of_single (h : Chunked r first later)
    (hsingle : ¬ ∃ c ∈ later, 1 < c.length % 2 ^ 32) (j : ℕ) : chunkTokens r j = 1 := by
  rw [chunkTokens, h.tokens, if_neg hsingle]
  rfl

/-- The schedule takes the first chunk to be what the later ones leave. -/
theorem schedule (h : Chunked r first later) (hsizes : ∀ c ∈ later, c.length < 2 ^ 32) :
    ∃ schedule, recordedSchedule r = some schedule ∧
      schedule.firstChunkTokens = first.length % 2 ^ 32 := by
  obtain ⟨gaps, hgaps, hlength⟩ := h.gaps
  have hfirst := h.positive first List.mem_cons_self
  have htokens : gapTokens r gaps = some (later.map List.length) := by
    rw [gapTokens, h.tokens]
    by_cases hburst : ∃ c ∈ later, 1 < c.length % 2 ^ 32
    · rw [if_pos hburst, mod_lengths hsizes]
      simp only
      rw [if_pos (by rw [List.length_map, hlength])]
    · rw [if_neg hburst]
      simp only
      rw [Option.some_inj, eq_comm, List.eq_replicate_iff, List.length_map, List.forall_mem_map]
      refine ⟨hlength.symm, fun c hc => ?_⟩
      have hpositive := h.positive c (List.mem_cons_of_mem _ hc)
      have hsize := hsizes c hc
      by_contra hmany
      exact hburst ⟨c, hc, by rw [Nat.mod_eq_of_lt hsize]; omega⟩
  refine ⟨⟨_, recordedSteps gaps (later.map List.length)⟩, ?_, rfl⟩
  rw [recordedSchedule, hgaps, Option.bind_some, htokens, Option.bind_some, h.total,
    Nat.add_sub_cancel, max_eq_left hfirst]

theorem shows_iff (h : Chunked r first later) :
    ShowsChunks r (first :: later) ↔ Telling first later := by
  constructor
  · rintro ⟨⟨schedule, hschedule, hagree⟩, hshown⟩
    obtain ⟨hfirst, hrest⟩ := h.bounded hshown
    have hsizes : ∀ c ∈ later, c.length < 2 ^ 32 := by
      intro c hc
      obtain ⟨j, hj⟩ := List.mem_iff_getElem?.mp hc
      have hle := hrest j c hj
      by_cases hburst : ∃ c ∈ later, 1 < c.length % 2 ^ 32
      · rw [h.chunk_of_burst hburst hj] at hle
        omega
      · rw [h.chunk_of_single hburst] at hle
        omega
    obtain ⟨schedule', hschedule', hcount⟩ := h.schedule hsizes
    obtain rfl := Option.some.inj (hschedule.symm.trans hschedule')
    refine ⟨List.forall_mem_cons.mpr ⟨by omega, hsizes⟩, ?_⟩
    by_cases hburst : ∃ c ∈ later, 1 < c.length % 2 ^ 32
    · obtain ⟨c, hc, hmany⟩ := hburst
      exact .inr ⟨c, hc, hmany.trans_le (Nat.mod_le _ _)⟩
    · have hpositive := h.positive first List.mem_cons_self
      rw [h.firstChunk_of_single hburst] at hfirst
      exact .inl (by omega)
  · rintro ⟨hall, htelling⟩
    obtain ⟨hfirst, hsizes⟩ := List.forall_mem_cons.mp hall
    obtain ⟨schedule, hschedule, hcount⟩ := h.schedule hsizes
    rw [Nat.mod_eq_of_lt hfirst] at hcount
    by_cases hburst : ∃ c ∈ later, 1 < c.length % 2 ^ 32
    · have hsame := h.firstChunk_of_burst hsizes hburst
      refine ⟨⟨schedule, hschedule, hsame.trans hcount.symm⟩, h.shown hsame (fun j c hc => ?_)⟩
      rw [h.chunk_of_burst hburst hc, Nat.mod_eq_of_lt (hsizes c (List.mem_of_getElem? hc))]
    · have hone : first.length = 1 := by
        rcases htelling with hone | ⟨c, hc, hmany⟩
        · exact hone
        · exact absurd ⟨c, hc, by rwa [Nat.mod_eq_of_lt (hsizes c hc)]⟩ hburst
      have hsame : firstChunkTokens r = first.length :=
        (h.firstChunk_of_single hburst).trans hone.symm
      refine ⟨⟨schedule, hschedule, hsame.trans hcount.symm⟩, h.shown hsame (fun j c hc => ?_)⟩
      have hmem := List.mem_of_getElem? hc
      have hpositive := h.positive c (List.mem_cons_of_mem _ hmem)
      have hsize := hsizes c hmem
      have hle : ¬ 1 < c.length := fun hmany =>
        hburst ⟨c, hmem, by rwa [Nat.mod_eq_of_lt hsize]⟩
      rw [h.chunk_of_single hburst]
      omega

end Chunked

/-- The timeline decodes a record of two chunks or more as the replay does exactly when the sizes
tell how long the first chunk is. -/
theorem timeline_decodes_iff (captureStart : Instant) (blockSize : ℕ)
    {messages : List (Instant × TapMessage)} {i : ℕ} {first : List Token}
    {later : List (List Token)} (hfinished : (deliveredIn messages)[i]? = some (first :: later))
    (hlater : later ≠ []) :
    ∃ r, (tapped captureStart blockSize .on messages).written[i]? = some r ∧
      r.outputTokenIds = some (first :: later).flatten ∧
      (ShowsChunks r (first :: later) ↔ Telling first later) := by
  have hmirrors := Mirrors.of_messages Delivered.keeps captureStart blockSize .on messages
  obtain ⟨hi, hget⟩ := List.getElem?_eq_some_iff.mp hfinished
  have hi' := hmirrors.written.length_eq ▸ hi
  obtain ⟨s, reason, hs, hr⟩ := hmirrors.written.get hi' hi
  rw [Tap.observeAll_recordTokens] at hs hr
  rw [List.get_eq_getElem] at hs hr
  have hdelivered : Delivered .on s (first :: later) := hget ▸ hs
  have hchunked := hdelivered.chunked hlater
    ((Tap.new captureStart blockSize .on).observeAll messages).captureStart reason
  exact ⟨_, (List.getElem?_eq_getElem hi').trans (congrArg some hr), hchunked.ids,
    hchunked.shows_iff⟩

/-- Two bursts of two tokens. -/
def twoBursts : List (Instant × TapMessage) :=
  [(0, .add fourTokens),
    (1, .outputs (.requestBatch 0 [requestOutput "a" [1, 2] none] none 1 none)),
    (3, .outputs (.requestBatch 0 [requestOutput "a" [3, 4] (some .length)] none 3 none))]

theorem twoBursts_shown :
    ∃ r, (tapped 0 16 .on twoBursts).written[0]? = some r ∧
      ShowsChunks r [[1, 2], [3, 4]] := by
  have hfinished : (deliveredIn twoBursts)[0]? = some [[1, 2], [3, 4]] := by decide +kernel
  obtain ⟨r, hr, -, hshows⟩ := timeline_decodes_iff 0 16 hfinished (by simp)
  exact ⟨r, hr, hshows.mpr ⟨by simp, .inr ⟨[3, 4], by simp, by simp⟩⟩⟩

/-- The timeline gives the burst of four tokens a single one. -/
theorem burstThenSingles_shown :
    (deliveredIn burstThenSingles)[0]? = some [[1, 2, 3, 4], [5], [6]] ∧
      ∃ r, (tapped 0 16 .on burstThenSingles).written[0]? = some r ∧ firstChunkTokens r = 1 ∧
        (scheduleFromRecord r).join.map ScriptedDecode.firstChunkTokens = some 4 ∧
        (emitRequest r 1 0).1.map TraceEvent.tokenIds =
          [[1], [2], [3]].map (fun ids => some (jsonIds ids)) ∧
        ¬ ShowsChunks r [[1, 2, 3, 4], [5], [6]] := by
  refine ⟨by decide +kernel, _, rfl, by decide +kernel, by decide +kernel, ?_, ?_⟩
  · rw [emitRequest_tokenIds]
    rfl
  · rintro ⟨⟨schedule, hschedule, hagree⟩, -⟩
    have hone := congrArg (Option.map ScriptedDecode.firstChunkTokens) hschedule
    rw [Option.map_some, ← hagree] at hone
    exact absurd hone (by decide +kernel)

end VllmVcr
