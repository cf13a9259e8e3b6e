import VllmVcr.DataPlane
import VllmVcr.Engine.Run

/-!
# Prefilled requests in the paged pool

An engine over the paged data plane, its registered pool and the descriptors it has given out.
A descriptor names slots, not bytes: a slot shared by two requests, or taken over by a later one,
carries the byte of the request that was advertised last.
-/

namespace VllmVcr

variable {env : Env} {cfg : NixlConfig}

/-- A pull on its own thread: the slots it fills and the descriptor it reads. -/
structure PullThread where
  blockIds : List ℕ
  remote : RemoteKv

def PendingPull.thread (pending : PendingPull) : Option PullThread :=
  (pending.queued.request.extractKvParams.bind parseRemoteKv).map (⟨pending.blockIds, ·⟩)

namespace SimEngine

/-- The pulls spawned on the way from `e` to `e'`. -/
def spawned (e e' : SimEngine env) : List PullThread :=
  (e'.pullTasks.filter (· ∉ e.pullTasks)).filterMap
    (fun task => (e'.pendingPulls.get? task.requestId).bind PendingPull.thread)

/-- What an operation advertises, in the order of the data-plane calls. -/
def advertised (fuel : ℕ) (now : Instant) (op : Op) (e : SimEngine env) : List Advert :=
  match op with
  | .step => (catchUp now fuel e.clearSpec).toList.flatMap (fun caughtUp =>
      caughtUp.1.activeRequests.values.flatMap (fun r => r.adverts caughtUp.1.tokenSource now))
  | _ => []

end SimEngine

/-- A prefill engine with its pool: `toAdvertise` is what is left of the adverts of the operation
under way, `descriptors` are those given out so far. -/
structure Prefiller (env : Env) (cfg : NixlConfig) where
  engine : SimEngine (env.withNixl cfg)
  clock : Instant
  memory : KvMemory
  toAdvertise : List Advert
  descriptors : List RemoteKv
  pulls : List PullThread

namespace Prefiller

def start (e : SimEngine (env.withNixl cfg)) : Prefiller env cfg := ⟨e, 0, fun _ => 0, [], [], []⟩

/-- Every descriptor given out still names the bytes of its request. -/
def Holds (s : Prefiller env cfg) : Prop := ∀ d ∈ s.descriptors, cfg.Carries s.memory d

/-- No decode peer that pulls a descriptor given out finds a wrong byte. -/
def Serves (s : Prefiller env cfg) : Prop :=
  ∀ d ∈ s.descriptors, ∀ (peer : NixlConfig) (blockIds : List ℕ) (memory : KvMemory),
    ∃ moved, (peer.doPull s.memory cfg.kvBlockBytes d blockIds memory).2 = .ok moved

end Prefiller

inductive PrefillerAct where
  | turn (now : Instant) (op : Op)
  | advertise (advert : Advert)
  | land (pull : PullThread) (peer : KvMemory) (blockBytes : ℕ)

/-- The slots that an act writes and the byte it writes. -/
def PrefillerAct.writes : PrefillerAct → Option (List ℕ × UInt8)
  | turn _ _ => none
  | advertise advert => some (advert.blockIds, patternFor advert.requestId)
  | land pull peer blockBytes =>
      some (NixlConfig.pulledSlots peer blockBytes pull.remote pull.blockIds,
        patternFor pull.remote.requestId)

/-- An operation of the engine, the next data-plane call of the last one, or the end of a pull of
the engine's own, which reads a pool `peer`. -/
inductive PrefillerStep : Prefiller env cfg → PrefillerAct → Prefiller env cfg → Prop
  | turn {s : Prefiller env cfg} {fuel : ℕ} {now : Instant} {op : Op}
      {e' : SimEngine (env.withNixl cfg)} {outs : List EngineOutput} (hidle : s.toAdvertise = [])
      (hclock : s.clock ≤ now) (hperform : s.engine.perform fuel now op = some (e', outs)) :
      PrefillerStep s (.turn now op) { s with
        engine := e'
        clock := now
        toAdvertise := s.engine.advertised fuel now op
        pulls := s.pulls ++ s.engine.spawned e' }
  | advertise {s : Prefiller env cfg} {advert : Advert} {rest : List Advert}
      (hnext : s.toAdvertise = advert :: rest) :
      PrefillerStep s (.advertise advert) { s with
        memory := (cfg.doAdvertise s.memory advert.requestId advert.blockIds).1
        toAdvertise := rest
        descriptors := s.descriptors ++
          [(cfg.doAdvertise s.memory advert.requestId advert.blockIds).2] }
  | land {s : Prefiller env cfg} {pull : PullThread} {before after : List PullThread}
      (hpull : s.pulls = before ++ pull :: after) (peer : KvMemory) (blockBytes : ℕ) :
      PrefillerStep s (.land pull peer blockBytes) { s with
        memory := (cfg.doPull peer blockBytes pull.remote pull.blockIds s.memory).1
        pulls := before ++ after }

/-- An act with what it did. -/
structure PrefillerTick (env : Env) (cfg : NixlConfig) where
  before : Prefiller env cfg
  act : PrefillerAct
  after : Prefiller env cfg

namespace PrefillerTick

def Takes (s : Prefiller env cfg) (t : PrefillerTick env cfg) (u : Prefiller env cfg) : Prop :=
  t.before = s ∧ t.after = u ∧ PrefillerStep t.before t.act t.after

/-- No slot of a descriptor given out before is written with another byte. -/
def Spares (t : PrefillerTick env cfg) : Prop :=
  cfg.kvBlockBytes = 0 ∨ ∀ d ∈ t.before.descriptors, ∀ blockId ∈ d.blockIds, ∀ w ∈ t.act.writes,
    blockId.toNat ∈ w.1 → w.2 = patternFor d.requestId

end PrefillerTick

/-! ## One act -/

section Act

variable {s u : Prefiller env cfg} {act : PrefillerAct}

theorem PrefillerStep.memory (h : PrefillerStep s act u) :
    u.memory = act.writes.elim s.memory (fun w => cfg.fillSlots s.memory w.1 w.2) := by
  cases h with
  | turn => rfl
  | advertise => rfl
  | land => exact NixlConfig.doPull_memory _ _ _ _ _

/-- A new descriptor names slots just filled with its byte. -/
theorem PrefillerStep.descriptors (h : PrefillerStep s act u) :
    ∃ more, u.descriptors = s.descriptors ++ more ∧ ∀ d ∈ more, ∃ w ∈ act.writes,
      d.blockIds = w.1.map Int.ofNat ∧ w.2 = patternFor d.requestId := by
  cases h with
  | turn | land => exact ⟨[], (List.append_nil _).symm, fun _ h => absurd h List.not_mem_nil⟩
  | advertise =>
      refine ⟨_, rfl, ?_⟩
      intro d hd
      obtain rfl := List.mem_singleton.mp hd
      exact ⟨_, rfl, rfl, rfl⟩

theorem PrefillerStep.holds (h : PrefillerStep s act u) (hs : s.Holds)
    (hspares : PrefillerTick.Spares ⟨s, act, u⟩) : u.Holds := by
  intro d hd blockId hblock i hi
  obtain ⟨more, hdescriptors, hmore⟩ := h.descriptors
  rw [h.memory]
  rw [hdescriptors] at hd
  rcases List.mem_append.mp hd with hold | hnew
  · have hcarries := hs d hold blockId hblock i hi
    cases hwrites : act.writes with
    | none => exact hcarries
    | some w =>
        rw [Option.elim_some, NixlConfig.fillSlots_apply _ _ _ _ hi]
        split
        · next hmem =>
            rcases hspares with hzero | hspares
            · omega
            · exact hspares d hold blockId hblock w hwrites hmem
        · exact hcarries
  · obtain ⟨w, hw, hblocks, hpattern⟩ := hmore d hnew
    rw [Option.mem_def.mp hw, Option.elim_some, NixlConfig.fillSlots_apply _ _ _ _ hi]
    rw [hblocks] at hblock
    obtain ⟨slot, hslot, rfl⟩ := List.mem_map.mp hblock
    have hfilled : (Int.ofNat slot).toNat ∈ w.1 := hslot
    rw [if_pos hfilled, hpattern]

theorem PrefillerStep.spares (h : PrefillerStep s act u) (hu : u.Holds) :
    PrefillerTick.Spares ⟨s, act, u⟩ := by
  by_cases hzero : cfg.kvBlockBytes = 0
  · exact Or.inl hzero
  · refine Or.inr ?_
    intro d hd blockId hblock w hw hmem
    obtain ⟨more, hdescriptors, _⟩ := h.descriptors
    have hi : 0 < cfg.kvBlockBytes := Nat.pos_of_ne_zero hzero
    have hcarries := hu d (hdescriptors ▸ List.mem_append_left _ hd) blockId hblock 0 hi
    rw [h.memory, Option.mem_def.mp hw, Option.elim_some, NixlConfig.fillSlots_apply _ _ _ _ hi,
      if_pos hmem] at hcarries
    exact hcarries

end Act

/-! ## Runs -/

theorem Prefiller.Holds.serves {s : Prefiller env cfg} (h : s.Holds) : s.Serves :=
  fun d hd decode blockIds memory => (h d hd).doPull_ok decode blockIds memory

section Runs

variable {e : SimEngine (env.withNixl cfg)} {ticks : List (PrefillerTick env cfg)}
  {s : Prefiller env cfg}

theorem prefiller_steps (h : Path PrefillerTick.Takes (Prefiller.start e) ticks s) :
    ∀ t ∈ ticks, PrefillerStep t.before t.act t.after := by
  refine h.history (P := fun ticks _ => ∀ t ∈ ticks, PrefillerStep t.before t.act t.after)
    (fun _ ht => absurd ht List.not_mem_nil) ?_
  rintro ticks s t u ih ⟨rfl, rfl, hstep⟩ t' ht'
  rcases List.mem_append.mp ht' with hold | hnew
  · exact ih t' hold
  · obtain rfl := List.mem_singleton.mp hnew
    exact hstep

theorem prefiller_holds (h : Path PrefillerTick.Takes (Prefiller.start e) ticks s) :
    (∀ t ∈ ticks, t.Spares) → s.Holds ∧ ∀ t ∈ ticks, t.after.Holds := by
  refine h.history
    (P := fun ticks s => (∀ t ∈ ticks, t.Spares) → s.Holds ∧ ∀ t ∈ ticks, t.after.Holds)
    (fun _ => ⟨fun _ hd => absurd hd List.not_mem_nil, fun _ ht => absurd ht List.not_mem_nil⟩) ?_
  rintro ticks s t u ih ⟨rfl, rfl, hstep⟩ hspares
  obtain ⟨hbefore, hall⟩ := ih (fun t' ht' => hspares t' (List.mem_append_left _ ht'))
  have hafter := hstep.holds hbefore (hspares t (List.mem_append_right _ List.mem_cons_self))
  refine ⟨hafter, ?_⟩
  intro t' ht'
  rcases List.mem_append.mp ht' with hold | hnew
  · exact hall t' hold
  · obtain rfl := List.mem_singleton.mp hnew
    exact hafter

/-- In every run the descriptors given out keep the bytes of their requests, and every pull of one
verifies, exactly when no act writes another byte into a slot of an earlier descriptor. -/
theorem descriptors_hold_iff (h : Path PrefillerTick.Takes (Prefiller.start e) ticks s) :
    (∀ t ∈ ticks, t.after.Holds ∧ t.after.Serves) ↔ ∀ t ∈ ticks, t.Spares := by
  constructor
  · intro hholds t ht
    exact (prefiller_steps h t ht).spares (hholds t ht).1
  · intro hspares t ht
    have hafter := (prefiller_holds h hspares).2 t ht
    exact ⟨hafter, hafter.serves⟩

end Runs

/-! ## Two requests with a block in common -/

def pdConfig : NixlConfig := ⟨4, "prefill-0", "127.0.0.1", 5600⟩

def pdEngine : SimEngine (demoEnv.withNixl pdConfig) :=
  (SimEngine.new _ 0 { demoOpt with tokensPerBlock := 1 } (.random 1) none).toOption.get (by rfl)

/-- A request for a remote decode, of one prompt block and one token. -/
def pdRequest (requestId : String) (token : Token) : EngineCoreRequest :=
  { demoRequest requestId 1 with
    promptTokenIds := some [token]
    samplingParams := some ⟨1, 0, none,
      some [("kv_transfer_params", .object [("do_remote_decode", .bool true)])]⟩ }

namespace Prefiller

/-- An operation of the engine, once the calls of the last one are made. -/
def operate (fuel : ℕ) (now : Instant) (op : Op) (s : Prefiller env cfg) :
    Option (PrefillerTick env cfg) :=
  if s.toAdvertise = [] ∧ s.clock ≤ now then
    (s.engine.perform fuel now op).map (fun result => ⟨s, .turn now op, { s with
      engine := result.1
      clock := now
      toAdvertise := s.engine.advertised fuel now op
      pulls := s.pulls ++ s.engine.spawned result.1 }⟩)
  else none

/-- The next data-plane call. -/
def callNext (s : Prefiller env cfg) : Option (PrefillerTick env cfg) :=
  match s.toAdvertise with
  | [] => none
  | advert :: rest => some ⟨s, .advertise advert, { s with
      memory := (cfg.doAdvertise s.memory advert.requestId advert.blockIds).1
      toAdvertise := rest
      descriptors := s.descriptors ++
        [(cfg.doAdvertise s.memory advert.requestId advert.blockIds).2] }⟩

/-- Plays a script of operations, with `none` for the next data-plane call. -/
def play (fuel : ℕ) : List (Option (Instant × Op)) → Prefiller env cfg →
    Option (List (PrefillerTick env cfg) × Prefiller env cfg)
  | [], s => some ([], s)
  | entry :: rest, s =>
    (entry.elim s.callNext (fun entry => s.operate fuel entry.1 entry.2)).bind
      (fun t => (play fuel rest t.after).map (fun played => (t :: played.1, played.2)))

theorem operate_takes {s : Prefiller env cfg} {fuel : ℕ} {now : Instant} {op : Op}
    {t : PrefillerTick env cfg} (h : s.operate fuel now op = some t) :
    PrefillerTick.Takes s t t.after ∧ t.act = .turn now op := by
  unfold operate at h
  split at h
  · next hready =>
      obtain ⟨⟨e', outs⟩, hperform, rfl⟩ := Option.map_eq_some_iff.mp h
      exact ⟨⟨rfl, rfl, .turn hready.1 hready.2 hperform⟩, rfl⟩
  · cases h

theorem callNext_takes {s : Prefiller env cfg} {t : PrefillerTick env cfg}
    (h : s.callNext = some t) :
    PrefillerTick.Takes s t t.after ∧ ∃ advert, t.act = .advertise advert := by
  unfold callNext at h
  split at h
  · cases h
  · next advert rest hnext =>
      cases h
      exact ⟨⟨rfl, rfl, .advertise hnext⟩, advert, rfl⟩

theorem play_path {script : List (Option (Instant × Op))} {s u : Prefiller env cfg} {fuel : ℕ}
    {ticks : List (PrefillerTick env cfg)} (h : s.play fuel script = some (ticks, u)) :
    Path PrefillerTick.Takes s ticks u ∧ ∀ t ∈ ticks,
      (∃ entry, some entry ∈ script ∧ t.act = .turn entry.1 entry.2) ∨
        ∃ advert, t.act = .advertise advert := by
  induction script generalizing s ticks with
  | nil =>
      cases h
      exact ⟨Path.nil _, fun _ ht => absurd ht List.not_mem_nil⟩
  | cons entry rest ih =>
      obtain ⟨t, htick, hplayed⟩ := Option.bind_eq_some_iff.mp h
      obtain ⟨⟨more, v⟩, hrest, heq⟩ := Option.map_eq_some_iff.mp hplayed
      cases heq
      have hfirst : PrefillerTick.Takes s t t.after ∧
          ((∃ e, some e ∈ entry :: rest ∧ t.act = .turn e.1 e.2) ∨
            ∃ advert, t.act = .advertise advert) := by
        cases entry with
        | none => exact ⟨(callNext_takes htick).1, .inr (callNext_takes htick).2⟩
        | some e =>
            exact ⟨(operate_takes htick).1, .inl ⟨e, List.mem_cons_self, (operate_takes htick).2⟩⟩
      obtain ⟨hpath, hacts⟩ := ih hrest
      refine ⟨Path.cons hfirst.1 hpath, fun t' ht' => ?_⟩
      rcases List.mem_cons.mp ht' with rfl | hlater
      · exact hfirst.2
      · rcases hacts t' hlater with ⟨e, he, hact⟩ | hadvert
        · exact .inl ⟨e, List.mem_cons_of_mem _ he, hact⟩
        · exact .inr hadvert

end Prefiller

def pdScript : List (Option (Instant × Op)) :=
  [some (0, .input (.request (pdRequest "A" 1))), some (1, .step), none,
    some (1, .input (.request (pdRequest "C" 1))), some (2, .step), none]

/-- Both requests occupy slot 0; the second is advertised over the first, and a peer that pulls
the first then finds the byte of the second. -/
theorem shared_block_fails : ∃ (ticks : List (PrefillerTick demoEnv pdConfig))
    (s : Prefiller demoEnv pdConfig) (d : RemoteKv),
    Path PrefillerTick.Takes (Prefiller.start pdEngine) ticks s ∧
      (∀ t ∈ ticks, ∀ now request, t.act ≠ .turn now (.input (.utility request))) ∧
      d ∈ s.descriptors ∧ ¬ pdConfig.Carries s.memory d ∧
      (pdConfig.doPull s.memory pdConfig.kvBlockBytes d [0] (fun _ => 0)).2 =
        .error (.verifyFailed 0 (patternFor "A") (patternFor "C")) := by
  have hplays : ((@Prefiller.start demoEnv _ pdEngine).play 5 pdScript).any (fun played =>
      played.2.descriptors.head?.any (fun d =>
        match (pdConfig.doPull played.2.memory pdConfig.kvBlockBytes d [0] (fun _ => 0)).2 with
        | .error (.verifyFailed block expected got) =>
            block == 0 && expected == patternFor "A" && got == patternFor "C"
        | .ok _ => false)) = true := by decide +kernel
  obtain ⟨⟨ticks, s⟩, hplay, hpull⟩ := (Option.any_eq_true _ _).mp hplays
  obtain ⟨d, hhead, hresult⟩ := (Option.any_eq_true _ _).mp hpull
  obtain ⟨hpath, hticks⟩ := Prefiller.play_path hplay
  have hd : d ∈ s.descriptors := List.mem_of_mem_head? hhead
  have hfails : (pdConfig.doPull s.memory pdConfig.kvBlockBytes d [0] (fun _ => 0)).2 =
      .error (.verifyFailed 0 (patternFor "A") (patternFor "C")) := by
    split at hresult
    · next block expected got heq =>
        simp only [Bool.and_eq_true, beq_iff_eq] at hresult
        obtain ⟨⟨rfl, rfl⟩, rfl⟩ := hresult
        exact heq
    · cases hresult
  refine ⟨ticks, s, d, hpath, ?_, hd, ?_, hfails⟩
  · intro t ht now request hact
    rcases hticks t ht with ⟨entry, hentry, hturn⟩ | ⟨advert, hadvert⟩
    · rw [hturn] at hact
      injection hact with _ hop
      simp only [pdScript, List.mem_cons, List.not_mem_nil, or_false, Option.some.injEq,
        reduceCtorEq, false_or] at hentry
      rcases hentry with rfl | rfl | rfl | rfl <;> simp at hop
    · rw [hadvert] at hact
      cases hact
  · intro hcarries
    obtain ⟨moved, hmoved⟩ := hcarries.doPull_ok pdConfig [0] (fun _ => 0)
    rw [hfails] at hmoved
    cases hmoved

/-- Two requests in slots of their own. -/
def pdPair : List (Option (Instant × Op)) :=
  [some (0, .input (.request (pdRequest "A" 1))), some (0, .input (.request (pdRequest "B" 2))),
    some (1, .step), none, none]

instance (t : PrefillerTick env cfg) : Decidable t.Spares := instDecidableOr

/-- Each keeps its descriptor while the other's is given out. -/
theorem pair_holds : ∃ (ticks : List (PrefillerTick demoEnv pdConfig))
    (s : Prefiller demoEnv pdConfig), s.descriptors.map RemoteKv.blockIds = [[0], [1]] ∧
      (∀ t ∈ ticks, t.Spares) ∧ ∀ t ∈ ticks, t.after.Holds ∧ t.after.Serves := by
  have hplays : ((@Prefiller.start demoEnv _ pdEngine).play 5 pdPair).any (fun played =>
      played.2.descriptors.map RemoteKv.blockIds = [[0], [1]] ∧ ∀ t ∈ played.1, t.Spares) =
        true := by
    decide +kernel
  obtain ⟨⟨ticks, s⟩, hplay, hchecks⟩ := (Option.any_eq_true _ _).mp hplays
  obtain ⟨hslots, hspares⟩ := of_decide_eq_true hchecks
  obtain ⟨hpath, _⟩ := Prefiller.play_path hplay
  exact ⟨ticks, s, hslots, hspares, (descriptors_hold_iff hpath).mpr hspares⟩

end VllmVcr
