import VllmVcr.Engine.Lives
import VllmVcr.Engine.ClientOrder
import VllmVcr.TraceFile

/-!
# Replayed framing

A request that replays a recorded schedule shows the recorded chunk sizes: the first chunk at
the end of its prefill, then one chunk for each recorded step, until its cap cuts them off.
-/

namespace VllmVcr

variable {env : Env} {now : Instant}

/-! ## Chunk sizes within a cap -/

/-- The sizes `ts`, cut off at a total of `m`. -/
def cut : ℕ → List ℕ → List ℕ
  | _, [] => []
  | m, t :: ts => if m = 0 then [] else min m t :: cut (m - t) ts

theorem cut_zero (ts : List ℕ) : cut 0 ts = [] := by
  cases ts with
  | nil => rfl
  | cons t ts => rfl

theorem cut_append (m : ℕ) (ts ts' : List ℕ) :
    cut m (ts ++ ts') = cut m ts ++ cut (m - ts.sum) ts' := by
  induction ts generalizing m with
  | nil => rfl
  | cons t ts ih =>
      rw [List.cons_append, cut, cut, List.sum_cons, ← Nat.sub_sub]
      by_cases hm : m = 0
      · subst hm
        simp [cut_zero]
      · rw [if_neg hm, if_neg hm, ih, List.cons_append]

theorem cut_snoc (m : ℕ) (ts : List ℕ) {t : ℕ} (ht : t ≠ 0) :
    cut m (ts ++ [t]) = cut m ts ++
      if min (m - ts.sum) t = 0 then [] else [min (m - ts.sum) t] := by
  rw [cut_append, cut]
  by_cases hm : m - ts.sum = 0
  · simp [hm]
  · rw [if_neg hm, if_neg (by omega), cut]

theorem cut_take (m : ℕ) (ts : List ℕ) (n : ℕ) : cut m (ts.take n) <+: cut m ts := by
  conv_rhs => rw [← List.take_append_drop n ts]
  rw [cut_append]
  exact List.prefix_append _ _

theorem sum_cut (m : ℕ) (ts : List ℕ) : (cut m ts).sum = min m ts.sum := by
  induction ts generalizing m with
  | nil => simp [cut]
  | cons t ts ih =>
      rw [cut]
      by_cases hm : m = 0
      · simp [hm]
      · rw [if_neg hm, List.sum_cons, List.sum_cons, ih]
        omega

/-- Once the cap is reached, nothing more is cut off. -/
theorem cut_take_of_sum {m : ℕ} {ts : List ℕ} {n : ℕ} (h : (cut m (ts.take n)).sum = m) :
    cut m (ts.take n) = cut m ts := by
  conv_rhs => rw [← List.take_append_drop n ts]
  rw [sum_cut] at h
  have hreached : m - (ts.take n).sum = 0 := by omega
  rw [cut_append, hreached, cut_zero, List.append_nil]

/-- A cap that leaves room for all the sizes cuts nothing off. -/
theorem cut_of_sum_le {m : ℕ} {ts : List ℕ} (hpos : 0 ∉ ts) (h : ts.sum ≤ m) : cut m ts = ts := by
  induction ts generalizing m with
  | nil => rfl
  | cons t ts ih =>
      rw [List.mem_cons, not_or] at hpos
      rw [List.sum_cons] at h
      have ht : 0 < t := Nat.pos_of_ne_zero (Ne.symm hpos.1)
      rw [cut, if_neg (by omega), ih hpos.2 (by omega), min_eq_right (by omega)]

open SimEngine

/-! ## The life of a replaying request -/

/-- Whether the source leaves the lengths of its requests alone. -/
def TokenSource.Unpinned : TokenSource → Prop
  | .random _ => True
  | .replay _ _ => True
  | _ => False

/-- Replaying engines with this chunk size, whose token source is unpinned if `unpinned`. -/
def replaying (env : Env) (outputTokenChunkSize : ℕ) (unpinned : Prop) : Settings env where
  allows _ opt _ source := opt.outputTokenChunkSize = outputTokenChunkSize ∧
    opt.replaySteps.isSome ∧ (unpinned → source.Unpinned)
  serves := by
    rintro i opt latency source ctx n rng ⟨hsize, hreplay, hsource⟩
    refine ⟨hsize, hreplay, fun h => ?_⟩
    have hun := hsource h
    cases source with
    | random => trivial
    | replay => trivial
    | prefixMatch => cases hun
    | dataset => cases hun
  adds := by
    rintro i opt latency source id prompt ⟨hsize, hreplay, hsource⟩
    refine ⟨hsize, hreplay, fun h => ?_⟩
    have hun := hsource h
    cases source with
    | random => trivial
    | replay => trivial
    | prefixMatch => cases hun
    | dataset => cases hun
  finishes := by
    rintro i opt latency source id ⟨hsize, hreplay, hsource⟩
    refine ⟨hsize, hreplay, fun h => ?_⟩
    have hun := hsource h
    cases source with
    | random => trivial
    | replay => trivial
    | prefixMatch => cases hun
    | dataset => cases hun

theorem Move.replaying {outputTokenChunkSize : ℕ} {unpinned : Prop} {e e' : SimEngine env}
    {effect : Effect} (h : Move now e effect e')
    (he : e.Under (replaying env outputTokenChunkSize unpinned)) :
    e'.Under (VllmVcr.replaying env outputTokenChunkSize unpinned) := by
  by_cases hpatch : ∃ patch, effect = .configured patch
  · obtain ⟨patch, rfl⟩ := hpatch
    cases h
    exact he
  · exact h.under (fun patch heq => hpatch ⟨patch, heq⟩) he

namespace Life

/-- Where a life stands in the replay of its schedule. -/
inductive Replays (m first : ℕ) (tokens : List ℕ) : Life env → Prop
  | prefilling (r : ActiveRequest env) (n : ℕ) (steps : List StepDraw) (hcap : r.maxTokens = m)
      (hphase : r.phase = .prefill n) (hgenerated : r.generated = 0)
      (hscript : r.scriptedDecode = some ⟨first, steps⟩)
      (hsteps : steps.map StepDraw.tokens = tokens) : Replays m first tokens ⟨r, [], none⟩
  | decoding (r : ActiveRequest env) (chunks : List PendingEmit) (n : ℕ) (steps : List StepDraw)
      (drawn : Option ℕ) (hcap : r.maxTokens = m) (hphase : r.phase = .decode)
      (hgenerated : r.generated = min m (first + (tokens.take n).sum))
      (hchunks : chunks.map (fun emit => emit.tokens.length) = cut m (first :: tokens.take n))
      (hscript : r.scriptedDecode = some ⟨first, steps⟩)
      (hsteps : drawn.toList ++ steps.map StepDraw.tokens = tokens.drop n) :
      Replays m first tokens ⟨r, chunks, drawn⟩

/-- Generating adds a chunk of the size that the cap leaves, or none. -/
theorem generates_sizes (l : Life env) (e : SimEngine env) (stepEnd : Instant) (n : ℕ) :
    (l.generates e stepEnd n).request.maxTokens = l.request.maxTokens ∧
    (l.generates e stepEnd n).request.phase = l.request.phase ∧
    (l.generates e stepEnd n).request.scriptedDecode = l.request.scriptedDecode ∧
    (l.generates e stepEnd n).request.generated = l.request.generated + l.request.chunkLen n ∧
    (l.generates e stepEnd n).chunks.map (fun emit => emit.tokens.length) =
      l.chunks.map (fun emit => emit.tokens.length) ++
        if l.request.chunkLen n = 0 then [] else [l.request.chunkLen n] := by
  simp only [generates]
  rcases l.request.generate_eq e.tokenSource stepEnd n e.opt.effectiveTimeScale e.emitSeq with
    ⟨hzero, heq⟩ | ⟨rng, source, emit, hpos, hlen, _, _, heq⟩
  · rw [heq, hzero]
    simp
  · rw [heq, if_neg (by omega)]
    simp [hlen]

/-- A cap that the schedule reaches, and before which a recorded step of one token is only met
when the configured chunk size gives it one token as well. -/
structure Replayable (outputTokenChunkSize m first : ℕ) (tokens : List ℕ) : Prop where
  opens : first ≠ 0
  positive : 0 ∉ tokens
  total : m ≤ first + tokens.sum
  ones : ∀ i, tokens[i]? = some 1 → outputTokenChunkSize = 1 ∨
    m ≤ first + (tokens.take i).sum + min outputTokenChunkSize 1

theorem sum_take_succ {tokens : List ℕ} {n t : ℕ} (h : tokens[n]? = some t) :
    (tokens.take (n + 1)).sum = (tokens.take n).sum + t := by
  obtain ⟨hlt, rfl⟩ := List.getElem?_eq_some_iff.mp h
  exact List.sum_take_succ tokens n hlt

/-- A step of a life replays its schedule. -/
theorem Step.replays {outputTokenChunkSize m first : ℕ} {tokens : List ℕ} {unpinned : Prop}
    {l l' : Life env} (h : Step (replaying env outputTokenChunkSize unpinned) l l')
    (hr : Replayable outputTokenChunkSize m first tokens) (hl : Replays m first tokens l) :
    Replays m first tokens l' := by
  cases h with
  | @draws r chunks e he hdecoding =>
      rw [ActiveRequest.isDecoding, Bool.and_eq_true, decide_eq_true_eq,
        ActiveRequest.isGenerating, decide_eq_true_eq] at hdecoding
      obtain ⟨hdecodes, hless⟩ := hdecoding
      cases hl with
      | prefilling _ n steps _ hphase =>
          rw [hphase] at hdecodes
          cases hdecodes
      | decoding _ _ n steps _ hcap hphase hgenerated hchunks hscript hsteps =>
          rw [hcap, hgenerated] at hless
          rw [Option.toList_none, List.nil_append] at hsteps
          rcases steps with _ | ⟨draw, rest⟩
          · -- The recorded steps are used up, so the cap is reached.
            have htotal := hr.total
            have hsum : (tokens.take n).sum = tokens.sum := by
              rw [List.take_of_length_le (List.drop_eq_nil_iff.mp hsteps.symm)]
            omega
          · have hdraw : e.drawFor r =
                (draw, { r with scriptedDecode := some ⟨first, rest⟩, asked := none }) := by
              simp only [drawFor, ActiveRequest.drawStep, hscript]
            rw [hdraw]
            exact .decoding _ _ n rest _ hcap hphase hgenerated hchunks rfl hsteps
  | @decodes r chunks t e he stepEnd =>
      obtain ⟨hsize, _, _⟩ := he
      cases hl with
      | decoding _ _ n steps _ hcap hphase hgenerated hchunks hscript hsteps =>
          have ht : tokens[n]? = some t := by
            have hhead := congrArg List.head? hsteps
            rw [List.head?_drop] at hhead
            exact hhead.symm
          have hrest : steps.map StepDraw.tokens = tokens.drop (n + 1) := by
            have htail := congrArg List.tail hsteps
            rw [List.tail_drop] at htail
            exact htail
          have hpos : 0 < t := by
            apply Nat.pos_of_ne_zero
            rintro rfl
            exact hr.positive (List.mem_of_getElem? ht)
          obtain ⟨hmax, hstands, hkept, hcount, hsizes⟩ :=
            generates_sizes ⟨r, chunks, some t⟩ e stepEnd (e.decoderChunk t)
          have hlen : r.chunkLen (e.decoderChunk t) =
              min (m - (first + (tokens.take n).sum)) t := by
            rw [ActiveRequest.chunkLen, hcap, hgenerated, decoderChunk, hsize]
            by_cases hburst : 1 < t
            · rw [if_pos hburst]
              omega
            · have hone : t = 1 := by omega
              subst hone
              rw [if_neg hburst]
              have := hr.ones n ht
              omega
          apply Replays.decoding _ _ (n + 1) steps _ (hmax.trans hcap) (hstands.trans hphase)
          · rw [hcount, hlen, sum_take_succ ht, hgenerated]
            omega
          · apply hsizes.trans
            rw [List.take_add_one, ht, Option.toList_some, ← List.cons_append,
              cut_snoc m _ hpos.ne', List.sum_cons, hchunks, hlen]
          · exact hkept.trans hscript
          · exact hrest
  | @prefills r chunks remaining n hprefill =>
      cases hl with
      | prefilling _ _ steps hcap _ hgenerated hscript hsteps =>
          exact .prefilling _ n steps hcap rfl hgenerated hscript hsteps
      | decoding _ _ _ _ _ _ hphase =>
          rw [hprefill] at hphase
          cases hphase
  | @starts r chunks remaining e he numRunning stepEnd hprefill =>
      cases hl with
      | prefilling _ _ steps hcap _ hgenerated hscript hsteps =>
          have hfirst : e.firstChunk (e.startDecode numRunning r) = first := by
            have hsame : (e.startDecode numRunning r).scriptedDecode = r.scriptedDecode := rfl
            simp only [firstChunk, hsame, hscript]
          obtain ⟨hmax, hstands, hkept, hcount, hsizes⟩ :=
            generates_sizes ⟨e.startDecode numRunning r, [], none⟩ e stepEnd
              (e.firstChunk (e.startDecode numRunning r))
          have hlen : (e.startDecode numRunning r).chunkLen
              (e.firstChunk (e.startDecode numRunning r)) = min m first := by
            have hsame : (e.startDecode numRunning r).chunkLen first = r.chunkLen first := rfl
            rw [hfirst, hsame, ActiveRequest.chunkLen, hcap, hgenerated, Nat.sub_zero]
          have hcount₀ : (e.startDecode numRunning r).generated = 0 := hgenerated
          apply Replays.decoding _ _ 0 steps _ (hmax.trans hcap) hstands
          · rw [hcount, hlen, hcount₀, List.take_zero, List.sum_nil, Nat.zero_add, Nat.add_zero]
          · apply hsizes.trans
            rw [hlen, List.take_zero]
            exact (cut_snoc m [] hr.opens).symm
          · exact hkept.trans hscript
          · exact hsteps
      | decoding _ _ _ _ _ _ hphase =>
          rw [hprefill] at hphase
          cases hphase
  | shows emitted events pending =>
      cases hl with
      | prefilling _ n steps hcap hphase hgenerated hscript hsteps =>
          exact .prefilling _ n steps hcap hphase hgenerated hscript hsteps
      | decoding _ _ n steps _ hcap hphase hgenerated hchunks hscript hsteps =>
          exact .decoding _ _ n steps _ hcap hphase hgenerated hchunks hscript hsteps

end Life

theorem Lived.replays {outputTokenChunkSize m first : ℕ} {tokens : List ℕ} {unpinned : Prop}
    {r₀ : ActiveRequest env} {l : Life env}
    (h : Lived (replaying env outputTokenChunkSize unpinned) r₀ l)
    (hr : Life.Replayable outputTokenChunkSize m first tokens)
    (hl : Life.Replays m first tokens ⟨r₀, [], none⟩) : Life.Replays m first tokens l := by
  induction h with
  | refl => exact hl
  | tail _ hstep ih => exact hstep.replays hr ih

/-- The chunks of a replaying life are some first ones of its schedule's, within the cap. -/
theorem Life.Replays.sizes {m first : ℕ} {tokens : List ℕ} {l : Life env}
    (h : l.Replays m first tokens) :
    ∃ n, l.chunks.map (fun emit => emit.tokens.length) = cut m ((first :: tokens).take n) := by
  cases h with
  | prefilling => exact ⟨0, rfl⟩
  | decoding _ _ n _ _ _ _ _ hchunks => exact ⟨n + 1, hchunks⟩

/-! ## The schedule of a record -/

/-- What the reader accepts is replayed as recorded. -/
theorem TraceRecord.Valid.schedule {r : TraceRecord} {gaps : List ℚ} {tokens : List ℕ}
    {s : ScriptedDecode} (h : r.Valid) (hgaps : r.itlMs = some gaps)
    (htokens : gapTokens r gaps = some tokens) (hs : recordedSchedule r = some s) :
    s.steps.map StepDraw.tokens = tokens ∧ 0 ∉ tokens := by
  have hpos : 0 ∉ tokens := by
    unfold gapTokens at htokens
    split at htokens
    · next recorded hrecorded =>
        split_ifs at htokens
        cases htokens
        exact (h.tokens tokens hrecorded).2.1
    · cases htokens
      intro hmem
      have hone := List.eq_of_mem_replicate hmem
      omega
  refine ⟨?_, hpos⟩
  have hlen := gapTokens_length htokens
  rw [recordedSchedule, hgaps, Option.bind_some, htokens, Option.bind_some] at hs
  cases hs
  simp only [recordedSteps, List.map_zipWith]
  apply List.ext_getElem
  · rw [List.length_zipWith, hlen, min_self]
  · intro i hi hi'
    rw [List.getElem_zipWith]
    apply max_eq_left
    apply Nat.pos_of_ne_zero
    intro hzero
    exact hpos (hzero ▸ List.getElem_mem hi')

/-- The tokens that a record's gaps bring, after its first chunk. -/
def TraceRecord.laterTokens (r : TraceRecord) (gaps : List ℚ) : ℕ :=
  (r.itlTokens.getD (List.replicate gaps.length 1)).sum

theorem recordedSteps_delays {gaps : List ℚ} {tokens : List ℕ}
    (h : tokens.length = gaps.length) :
    (∀ step ∈ recordedSteps gaps tokens, step.delay < durationLimit) ↔ ∀ ms ∈ gaps, ms < msLimit := by
  have hms : ∀ ms : ℚ, (max (ms / 1000) 0).toNNRat < (durationLimit : Duration) ↔ ms < msLimit := by
    intro ms
    have hpos : (0 : ℚ) < durationLimit := Nat.cast_pos.mpr (Nat.two_pow_pos 64)
    rw [← NNRat.coe_lt_coe, Rat.coe_toNNRat _ (le_max_right _ _), NNRat.coe_natCast, max_lt_iff,
      and_iff_left hpos, div_lt_iff₀ Nat.ofNat_pos, msLimit, mul_comm]
  have hdelays : (recordedSteps gaps tokens).map StepDraw.delay =
      gaps.map (fun ms => (max (ms / 1000) 0).toNNRat) := by
    apply List.ext_getElem
    · simp [recordedSteps, h]
    · intro i hi hi'
      simp [recordedSteps]
  rw [← List.forall_mem_map (f := StepDraw.delay) (P := (· < (durationLimit : Duration))), hdelays,
    List.forall_mem_map]
  exact forall₂_congr (fun ms _ => hms ms)

/-- The schedule of an accepted record has the recorded length, and clamps a request to it, exactly
when the gaps are durations and leave something for the first chunk that fits its 32 bits. -/
theorem schedule_accounts_iff (env : Env) {r : TraceRecord} {gaps : List ℚ} {lineNum : ℕ}
    (hvalid : r.validate lineNum = .ok ()) (hgaps : r.itlMs = some gaps) :
    (∃ s, scheduleFromRecord r = some (some s) ∧ s.outputTokens = r.outputTokens ∧
      ∀ active : ActiveRequest env,
        (active.script (some s)).maxTokens = min active.maxTokens r.outputTokens) ↔
      (∀ ms ∈ gaps, ms < msLimit) ∧ r.laterTokens gaps < r.outputTokens ∧
        r.outputTokens - r.laterTokens gaps < 2 ^ 32 := by
  have hr := TraceRecord.validate_eq_ok_iff.mp hvalid
  obtain ⟨tokens, htokens, hsum⟩ : ∃ tokens, gapTokens r gaps = some tokens ∧
      tokens.sum = r.laterTokens gaps := by
    rw [gapTokens, TraceRecord.laterTokens]
    cases hrecorded : r.itlTokens with
    | none => exact ⟨_, rfl, rfl⟩
    | some recorded =>
        have hlen := (hr.tokens recorded hrecorded).1
        rw [TraceRecord.numGaps, hgaps] at hlen
        exact ⟨recorded, if_pos hlen, rfl⟩
  have hschedule : recordedSchedule r = some
      { firstChunkTokens := max (r.outputTokens - tokens.sum) 1 % 2 ^ 32
        steps := recordedSteps gaps tokens } := by
    rw [recordedSchedule, hgaps, Option.bind_some, htokens, Option.bind_some]
  have htotal := (hr.schedule hgaps htokens hschedule).1
  have hdelays := recordedSteps_delays (gapTokens_length htokens)
  have hlength : ∀ s, recordedSchedule r = some s →
      s.outputTokens = max (r.outputTokens - r.laterTokens gaps) 1 % 2 ^ 32 +
        r.laterTokens gaps := by
    intro s hs
    rw [hschedule, Option.some.injEq] at hs
    rw [← hs, ScriptedDecode.outputTokens]
    simp only at htotal ⊢
    rw [htotal, hsum]
  constructor
  · rintro ⟨s, hs, heq, _⟩
    obtain ⟨hrecorded, hfit⟩ := scheduleFromRecord_eq_some_iff.mp hs
    rw [hlength s hrecorded] at heq
    rw [hschedule, Option.some.injEq] at hrecorded
    subst hrecorded
    exact ⟨hdelays.mp hfit, by omega, by omega⟩
  · rintro ⟨hfit, hless, hfits⟩
    refine ⟨_, scheduleFromRecord_eq_some_iff.mpr ⟨hschedule, hdelays.mpr hfit⟩, ?_⟩
    have heq := hlength _ hschedule
    have hsame : max (r.outputTokens - r.laterTokens gaps) 1 % 2 ^ 32 + r.laterTokens gaps =
        r.outputTokens := by
      omega
    rw [hsame] at heq
    exact ⟨heq, fun active => congrArg (min active.maxTokens) heq⟩

/-- A record with as many gaps as tokens, one too many. -/
def overlongRecord : TraceRecord where
  outputTokens := 3
  itlMs := some [10, 10, 10]
  itlTokens := none

theorem overlongRecord_outlasts :
    ¬ ∀ (r : TraceRecord) (gaps : List ℚ) (lineNum : ℕ), r.validate lineNum = .ok () →
      r.itlMs = some gaps → 1 ≤ r.outputTokens →
        ∃ s, scheduleFromRecord r = some (some s) ∧ s.outputTokens = r.outputTokens := by
  intro hclaim
  obtain ⟨s, hs, heq⟩ := hclaim overlongRecord [10, 10, 10] 2 rfl rfl (by decide)
  have hfour : (scheduleFromRecord overlongRecord).join.map ScriptedDecode.outputTokens =
      some 4 := by
    decide +kernel
  rw [hs, Option.join_some, Option.map_some, heq] at hfour
  cases hfour

/-- A local request enters with its phase, count and schedule ready to be replayed. -/
theorem Entered.replays {outputTokenChunkSize k : ℕ} {unpinned : Prop}
    {requests : List EngineCoreRequest} {handed : List (ℕ × Option ScriptedDecode)}
    {r₀ : ActiveRequest env} {request : EngineCoreRequest} {s : ScriptedDecode}
    (h : Entered (replaying env outputTokenChunkSize unpinned) requests handed k r₀)
    (hk : requests[k]? = some request) (hlocal : request.prefilledRemotely = false)
    (honly : ∀ schedule, (k, schedule) ∈ handed → schedule = some s) :
    Life.Replays r₀.maxTokens s.firstChunkTokens (s.steps.map StepDraw.tokens) ⟨r₀, [], none⟩ ∧
      ∃ maxTokens params, r₀.maxTokens = min maxTokens s.outputTokens ∧
        request.samplingParams = some params ∧ maxTokens ≤ params.maxTokens ∧
        (unpinned → maxTokens = params.maxTokens) := by
  obtain ⟨e, now, request', admission, active, schedule, ⟨_, hreplay, hsource⟩, hrequest, hmem,
    hbuild, rfl⟩ := h
  rw [hk, Option.some.injEq] at hrequest
  subst hrequest
  obtain rfl := honly schedule hmem
  have hbuilt := ActiveRequest.new_ok hbuild
  simp only [ActiveRequest.new] at hbuild
  split at hbuild
  · cases hbuild
  · next params hparams =>
      split at hbuild
      · cases hbuild
      · have hflag : request.extractKvParams.any (fun kv => kvFlag kv "do_remote_prefill") =
            false := hlocal
        have hcap : ∀ rng, ActiveRequest.capTokens e.opt e.latency request.prompt.length params rng =
            (params.maxTokens, rng) := by
          intro rng
          simp [ActiveRequest.capTokens, hreplay]
        rw [hflag, hcap] at hbuild
        cases hbuild
        constructor
        · cases (e.tokenSource.onRequestAdded request.requestId request.prompt).2 with
          | none => exact .prefilling _ _ s.steps rfl rfl rfl rfl rfl
          | some len => exact .prefilling _ _ s.steps rfl rfl rfl rfl rfl
        · cases hpin : (e.tokenSource.onRequestAdded request.requestId request.prompt).2 with
          | none => exact ⟨params.maxTokens, params, rfl, hparams, le_rfl, fun _ => rfl⟩
          | some len =>
              refine ⟨min params.maxTokens len, params, rfl, hparams, min_le_left _ _, ?_⟩
              intro hunpinned
              have hun := hsource hunpinned
              cases htokens : e.tokenSource with
              | random => simp [htokens, TokenSource.onRequestAdded] at hpin
              | replay => simp [htokens, TokenSource.onRequestAdded] at hpin
              | prefixMatch =>
                  rw [htokens] at hun
                  cases hun
              | dataset =>
                  rw [htokens] at hun
                  cases hun

/-! ## Runs -/

/-- The sizes of the chunks that a run shows for a ticket. -/
def chunkSizes (k : ℕ) (turns : List (Turn env)) : List ℕ :=
  ((outputsFor k (coreOutputs turns)).map (fun o => o.newTokenIds.length)).filter (· ≠ 0)

/-- The run shows the last chunk of a ticket. -/
def Finishes (k : ℕ) (turns : List (Turn env)) : Prop :=
  ∃ o ∈ outputsFor k (coreOutputs turns), o.newTokenIds ≠ [] ∧ o.finishReason.isSome

instance (k : ℕ) (turns : List (Turn env)) : Decidable (Finishes k turns) :=
  inferInstanceAs (Decidable (∃ o ∈ outputsFor k (coreOutputs turns), _))

theorem Framed.chunkSizes {k : ℕ} {turns : List (Turn env)}
    (h : Framed (outputsFor k (coreOutputs turns))) : chunkSizes k turns =
      ((outputsFor k (coreOutputs turns)).filterMap EngineCoreOutput.chunk).map
        (fun emit => emit.tokens.length) := by
  rw [VllmVcr.chunkSizes, List.filter_map, ← List.filterMap_eq_map, List.filterMap_filter,
    List.map_filterMap]
  apply List.filterMap_congr
  intro o ho
  cases hemission : o.emission with
  | none => simp [(h.bare o ho hemission).1, EngineCoreOutput.chunk, hemission]
  | some em =>
      have hsome := h.tokens o ho (by rw [hemission]; rfl)
      simp [hsome, EngineCoreOutput.chunk, hemission]

/-- A request that replays a recorded schedule shows the recorded chunk sizes within its cap,
provided it prefills locally, the recorded first chunk is not empty and a recorded step of one
token is only met when the configured chunk size gives it one token. -/
theorem verbatim_framing {k m : ℕ} {e₀ e : SimEngine env} {turns : List (Turn env)}
    {clock : Instant} {request : EngineCoreRequest} {s : ScriptedDecode} {r : TraceRecord}
    {gaps : List ℚ} {tokens : List ℕ} (hfresh : Fresh e₀) (hreplay : e₀.opt.replaySteps.isSome)
    (hrun : Run e₀ turns e clock) (hk : (issued turns)[k]? = some request)
    (hschedule : (k, some s) ∈ schedules e₀ turns e) (hvalid : r.Valid)
    (hgaps : r.itlMs = some gaps) (htokens : gapTokens r gaps = some tokens)
    (hs : scheduleFromRecord r = some (some s)) (hcap : (k, m) ∈ e.caps)
    (hlocal : request.prefilledRemotely = false) (hintruded : e.intruded k = false)
    (hopens : s.firstChunkTokens ≠ 0)
    (hones : ∀ i, tokens[i]? = some 1 → e₀.opt.outputTokenChunkSize = 1 ∨
      m ≤ s.firstChunkTokens + (tokens.take i).sum + min e₀.opt.outputTokenChunkSize 1) :
    (∃ maxTokens params, m = min maxTokens s.outputTokens ∧
      request.samplingParams = some params ∧ maxTokens ≤ params.maxTokens ∧
      (e₀.tokenSource.Unpinned → maxTokens = params.maxTokens)) ∧
    chunkSizes k turns <+: cut m (s.firstChunkTokens :: tokens) ∧
    (Finishes k turns → chunkSizes k turns = cut m (s.firstChunkTokens :: tokens) ∧
      (m = s.outputTokens → chunkSizes k turns = s.firstChunkTokens :: tokens)) := by
  obtain ⟨hsteps, hpositive⟩ :=
    hvalid.schedule hgaps htokens (scheduleFromRecord_eq_some_iff.mp hs).1
  have hunder : e₀.Under (replaying env e₀.opt.outputTokenChunkSize e₀.tokenSource.Unpinned) :=
    ⟨rfl, hreplay, id⟩
  obtain ⟨hst, _, halive⟩ := hrun.alive (Q := fun _ => True) hfresh hunder (by simp)
    (fun now e effect e' _ he hmove => hmove.replaying he)
  have hadmitted : k ∈ e.admissions :=
    (handOut_tickets _ _ _).subset (List.mem_map_of_mem (f := Prod.fst) hschedule)
  have honly : ∀ schedule, (k, schedule) ∈ schedules e₀ turns e → schedule = some s := by
    intro schedule hmem
    have hnodup := hst.enrolled.once.sublist (handOut_tickets (issued turns) e₀.stepSource _)
    exact congrArg Prod.snd (List.inj_on_of_nodup_map hnodup hmem hschedule rfl)
  obtain ⟨r₀, hentered, hcap', l, hlived, hchunks, _⟩ := halive.lives k hadmitted hintruded
  obtain rfl := caps_unique hst.enrolled hcap hcap'
  obtain ⟨hentry, hpins⟩ := hentered.replays hk hlocal honly
  rw [hsteps] at hentry
  have hpinned := hpins
  obtain ⟨maxTokens, params, hm, _⟩ := hpinned
  have houtput : s.outputTokens = s.firstChunkTokens + tokens.sum := by
    rw [ScriptedDecode.outputTokens, hsteps]
  have hreplayable : Life.Replayable e₀.opt.outputTokenChunkSize r₀.maxTokens s.firstChunkTokens
      tokens := by
    refine ⟨hopens, hpositive, ?_, hones⟩
    omega
  obtain ⟨n, hsizes⟩ := (hlived.replays hreplayable hentry).sizes
  rw [hchunks] at hsizes
  obtain ⟨hframed, hshown, hfinished⟩ := hrun.stream hfresh k
  have hshow := hframed.chunkSizes
  refine ⟨hpins, ?_, ?_⟩
  · rw [hshow]
    apply List.IsPrefix.trans _ (cut_take r₀.maxTokens _ n)
    rw [← hsizes]
    exact hshown.map _
  · rintro ⟨o, ho, hsome, hfin⟩
    obtain ⟨hall, hlength⟩ := hfinished o ho hfin hsome
    rw [hall, hsizes] at hshow
    have hsum : (cut r₀.maxTokens ((s.firstChunkTokens :: tokens).take n)).sum = r₀.maxTokens := by
      rw [← hsizes, ← caps_unique hst.enrolled hlength hcap, hframed.flatMap_tokens, hall,
        List.length_flatMap]
    rw [cut_take_of_sum hsum] at hshow
    refine ⟨hshow, fun hwhole => ?_⟩
    rw [hshow]
    apply cut_of_sum_le
    · rw [List.mem_cons, not_or]
      exact ⟨hopens.symm, hpositive⟩
    · rw [List.sum_cons, hwhole, houtput]

/-- A record of a chunk of two tokens, then one of one token and one of three. -/
def burstRecord : TraceRecord where
  outputTokens := 6
  itlMs := some [10, 10]
  itlTokens := some [1, 3]
  arrivalMs := some 0

theorem burstRecord_accounted :
    ∃ s, scheduleFromRecord burstRecord = some (some s) ∧ s.outputTokens = 6 ∧
      ∀ active : ActiveRequest demoEnv, (active.script (some s)).maxTokens =
        min active.maxTokens 6 :=
  (@schedule_accounts_iff demoEnv burstRecord _ 2 rfl rfl).mpr (by decide +kernel)

def burstSchedule : ScriptedDecode := ⟨2, [⟨1 / 100, 1⟩, ⟨1 / 100, 3⟩]⟩

def replayDemo (outputTokenChunkSize : ℕ) : SimEngine demoEnv :=
  demo { demoOpt with outputTokenChunkSize := outputTokenChunkSize, replaySteps := some "trace" }
    (some (.index [burstRecord]))

def replayScript (request : EngineCoreRequest) : List (Instant × Op) :=
  [(0, .input (.request request)), (1, .step)]

theorem replayScript_verbatim :
    ∃ turns e clock, Run (replayDemo 1) turns e clock ∧ Finishes 0 turns ∧
      chunkSizes 0 turns = [2, 1, 3] := by
  have hplays : ((replayDemo 1).play 20 (replayScript (demoRequest "replay-0" 9))).any
      (fun played => (issued played.1).length = 1 ∧
        (0, some burstSchedule) ∈ schedules (replayDemo 1) played.1 played.2 ∧
        (0, 6) ∈ played.2.caps ∧ played.2.intruded 0 = false ∧ Finishes 0 played.1) = true := by
    decide +kernel
  obtain ⟨turns, e, clock, hrun, hops, hshown⟩ :=
    Run.of_script (p := fun (turns : List (Turn demoEnv)) e => (issued turns).length = 1 ∧
      (0, some burstSchedule) ∈ schedules (replayDemo 1) turns e ∧ (0, 6) ∈ e.caps ∧
        e.intruded 0 = false ∧ Finishes 0 turns) hplays (by decide +kernel)
  obtain ⟨hlen, hschedule, hcap, hintruded, hfinishes⟩ := of_decide_eq_true hshown
  have hk : (issued turns)[0]? = some (demoRequest "replay-0" 9) := by
    rw [issued_of_ops hops hlen]
    rfl
  have hvalid : burstRecord.Valid := (@TraceRecord.validate_eq_ok_iff _ 1).mp rfl
  have hverbatim := verbatim_framing (demo_fresh _ _ _) rfl hrun hk hschedule hvalid rfl rfl
    (by decide +kernel) hcap rfl hintruded (by decide) (fun _ _ => Or.inl rfl)
  exact ⟨turns, e, clock, hrun, hfinishes, (hverbatim.2.2 hfinishes).2 rfl⟩

/-- The request whose prompt was prefilled elsewhere. -/
def pulledRequest : EngineCoreRequest :=
  { demoRequest "replay-0" 9 with
    samplingParams := some ⟨9, 0, none,
      some [("kv_transfer_params", .object [("do_remote_prefill", .bool true)])]⟩ }

/-- A request prefilled elsewhere never shows its first chunk, and with a chunk size of two a
recorded step of one token shows two. -/
theorem replayScript_reframed :
    (∃ turns e clock, Run (replayDemo 1) turns e clock ∧ issued turns = [pulledRequest] ∧
      (0, some burstSchedule) ∈ schedules (replayDemo 1) turns e ∧ (0, 6) ∈ e.caps ∧
      Finishes 0 turns ∧ chunkSizes 0 turns ≠ [2, 1, 3]) ∧
    ∃ turns e clock, Run (replayDemo 2) turns e clock ∧
      issued turns = [demoRequest "replay-0" 9] ∧
      (0, some burstSchedule) ∈ schedules (replayDemo 2) turns e ∧ (0, 6) ∈ e.caps ∧
      Finishes 0 turns ∧ chunkSizes 0 turns ≠ [2, 1, 3] := by
  constructor
  · have hplays : ((replayDemo 1).play 20 (replayScript pulledRequest)).any (fun played =>
        (issued played.1).length = 1 ∧
          (0, some burstSchedule) ∈ schedules (replayDemo 1) played.1 played.2 ∧
          (0, 6) ∈ played.2.caps ∧ Finishes 0 played.1 ∧ chunkSizes 0 played.1 ≠ [2, 1, 3]) =
          true := by
      decide +kernel
    obtain ⟨turns, e, clock, hrun, hops, hshown⟩ :=
      Run.of_script (p := fun (turns : List (Turn demoEnv)) e => (issued turns).length = 1 ∧
        (0, some burstSchedule) ∈ schedules (replayDemo 1) turns e ∧ (0, 6) ∈ e.caps ∧
          Finishes 0 turns ∧ chunkSizes 0 turns ≠ [2, 1, 3]) hplays (by decide +kernel)
    obtain ⟨hlen, hrest⟩ := of_decide_eq_true hshown
    exact ⟨turns, e, clock, hrun, issued_of_ops hops hlen, hrest⟩
  · have hplays : ((replayDemo 2).play 20 (replayScript (demoRequest "replay-0" 9))).any
        (fun played => (issued played.1).length = 1 ∧
          (0, some burstSchedule) ∈ schedules (replayDemo 2) played.1 played.2 ∧
          (0, 6) ∈ played.2.caps ∧ Finishes 0 played.1 ∧ chunkSizes 0 played.1 ≠ [2, 1, 3]) =
          true := by
      decide +kernel
    obtain ⟨turns, e, clock, hrun, hops, hshown⟩ :=
      Run.of_script (p := fun (turns : List (Turn demoEnv)) e => (issued turns).length = 1 ∧
        (0, some burstSchedule) ∈ schedules (replayDemo 2) turns e ∧ (0, 6) ∈ e.caps ∧
          Finishes 0 turns ∧ chunkSizes 0 turns ≠ [2, 1, 3]) hplays (by decide +kernel)
    obtain ⟨hlen, hrest⟩ := of_decide_eq_true hshown
    exact ⟨turns, e, clock, hrun, issued_of_ops hops hlen, hrest⟩

end VllmVcr
