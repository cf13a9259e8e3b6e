import VllmVcr.Latency

/-!
# The paged data plane

One registered pool of bytes, a slot of `kvBlockBytes` for each block. Advertising a request fills
its slots with the byte of the request; a pull reads the slots of a descriptor and compares the
first byte of each with the byte it expects.
-/

namespace VllmVcr

structure NixlConfig where
  kvBlockBytes : ℕ
  engineId : String
  sideChannelHost : String
  sideChannelPort : ℕ

/-- The fill byte of a request; it is odd, so never that of an unwritten slot. -/
def patternFor (requestId : String) : UInt8 :=
  requestId.toUTF8.toList.foldl (· + ·) 0xa5 ||| 1

/-- The registered pool, by offset from its base. -/
abbrev KvMemory := ℕ → UInt8

inductive PullError where
  | verifyFailed (block : ℕ) (expected got : UInt8)
  deriving DecidableEq

namespace NixlConfig

variable (cfg : NixlConfig)

def fillSlot (memory : KvMemory) (blockId : ℕ) (pattern : UInt8) : KvMemory := fun offset =>
  if blockId * cfg.kvBlockBytes ≤ offset ∧ offset < blockId * cfg.kvBlockBytes + cfg.kvBlockBytes
  then pattern else memory offset

def fillSlots (memory : KvMemory) (blockIds : List ℕ) (pattern : UInt8) : KvMemory :=
  blockIds.foldl (fun memory blockId => cfg.fillSlot memory blockId pattern) memory

/-- The descriptor of a prefilled request. -/
def remoteKv (requestId : String) (blockIds : List ℕ) : RemoteKv where
  engineId := cfg.engineId
  host := cfg.sideChannelHost
  port := cfg.sideChannelPort
  blockIds := blockIds.map Int.ofNat
  requestId := requestId

def doAdvertise (memory : KvMemory) (requestId : String) (blockIds : List ℕ) :
    KvMemory × RemoteKv :=
  (cfg.fillSlots memory blockIds (patternFor requestId), cfg.remoteKv requestId blockIds)

/-- The first byte that a READ of the `j`-th block of a descriptor lands. -/
def landed (peer : KvMemory) (blockBytes : ℕ) (remote : RemoteKv) (j : ℕ) : UInt8 :=
  peer ((remote.blockIds.getD j 0).toNat * blockBytes)

/-- Compare the landed blocks from the `j`-th on and copy them into the slots `blockIds`. -/
def verifyBlocks (pattern : UInt8) (got : ℕ → UInt8) : ℕ → List ℕ → KvMemory →
    KvMemory × Except PullError Unit
  | _, [], memory => (memory, .ok ())
  | j, blockId :: rest, memory =>
    if got j = pattern then
      verifyBlocks pattern got (j + 1) rest (cfg.fillSlot memory blockId pattern)
    else (memory, .error (.verifyFailed j pattern (got j)))

/-- Pull `remote` out of the pool `peer` with slots of `blockBytes`, into the slots `blockIds`. -/
def doPull (peer : KvMemory) (blockBytes : ℕ) (remote : RemoteKv) (blockIds : List ℕ)
    (memory : KvMemory) : KvMemory × Except PullError ℕ :=
  if remote.blockIds.length = 0 ∨ blockBytes = 0 then (memory, .ok 0)
  else
    let pulled := cfg.verifyBlocks (patternFor remote.requestId) (landed peer blockBytes remote) 0
      (blockIds.take remote.blockIds.length) memory
    (pulled.1, pulled.2.map (fun _ => remote.blockIds.length * blockBytes))

/-- The blocks that come before the first landed one with a wrong byte. -/
def verifiedSlots (pattern : UInt8) (got : ℕ → UInt8) : ℕ → List ℕ → List ℕ
  | _, [] => []
  | j, blockId :: rest =>
    if got j = pattern then blockId :: verifiedSlots pattern got (j + 1) rest else []

/-- The slots that a pull fills. -/
def pulledSlots (peer : KvMemory) (blockBytes : ℕ) (remote : RemoteKv) (blockIds : List ℕ) :
    List ℕ :=
  if blockBytes = 0 then []
  else verifiedSlots (patternFor remote.requestId) (landed peer blockBytes remote) 0
    (blockIds.take remote.blockIds.length)

end NixlConfig

/-- An environment whose data plane is the paged one. -/
def Env.withNixl (env : Env) (cfg : NixlConfig) : Env :=
  { env with advertisePrefilled := fun requestId _ blockIds => .ok (cfg.remoteKv requestId blockIds) }

namespace NixlConfig

variable {cfg : NixlConfig}

/-- Every block of the descriptor still carries the byte of its request. -/
def Carries (cfg : NixlConfig) (memory : KvMemory) (remote : RemoteKv) : Prop :=
  ∀ blockId ∈ remote.blockIds, ∀ i < cfg.kvBlockBytes,
    memory (blockId.toNat * cfg.kvBlockBytes + i) = patternFor remote.requestId

theorem fillSlot_apply (memory : KvMemory) (blockId slot : ℕ) (pattern : UInt8) {i : ℕ}
    (hi : i < cfg.kvBlockBytes) : cfg.fillSlot memory blockId pattern (slot * cfg.kvBlockBytes + i) =
      if slot = blockId then pattern else memory (slot * cfg.kvBlockBytes + i) := by
  unfold fillSlot
  congr 1
  apply propext
  constructor
  · rintro ⟨hle, hlt⟩
    by_contra hne
    rcases Nat.lt_or_gt_of_ne hne with hless | hmore
    · have hstep := Nat.mul_le_mul_right cfg.kvBlockBytes (Nat.succ_le_of_lt hless)
      rw [Nat.succ_mul] at hstep
      omega
    · have hstep := Nat.mul_le_mul_right cfg.kvBlockBytes (Nat.succ_le_of_lt hmore)
      rw [Nat.succ_mul] at hstep
      omega
  · rintro rfl
    omega

theorem fillSlots_apply (memory : KvMemory) (blockIds : List ℕ) (slot : ℕ) (pattern : UInt8) {i : ℕ}
    (hi : i < cfg.kvBlockBytes) :
    cfg.fillSlots memory blockIds pattern (slot * cfg.kvBlockBytes + i) =
      if slot ∈ blockIds then pattern else memory (slot * cfg.kvBlockBytes + i) := by
  induction blockIds generalizing memory with
  | nil => rfl
  | cons blockId rest ih =>
      change cfg.fillSlots (cfg.fillSlot memory blockId pattern) rest pattern _ = _
      rw [ih, fillSlot_apply _ _ _ _ hi]
      by_cases hrest : slot ∈ rest
      · simp [hrest]
      · simp [hrest]

theorem verifyBlocks_memory (pattern : UInt8) (got : ℕ → UInt8) (j : ℕ) (blockIds : List ℕ)
    (memory : KvMemory) : (cfg.verifyBlocks pattern got j blockIds memory).1 =
      cfg.fillSlots memory (verifiedSlots pattern got j blockIds) pattern := by
  induction blockIds generalizing j memory with
  | nil => rfl
  | cons blockId rest ih =>
      unfold verifyBlocks verifiedSlots
      split
      · exact ih (j + 1) (cfg.fillSlot memory blockId pattern)
      · rfl

/-- A pull writes the byte of the descriptor into the slots it fills, and nothing else. -/
theorem doPull_memory (peer : KvMemory) (blockBytes : ℕ) (remote : RemoteKv) (blockIds : List ℕ)
    (memory : KvMemory) : (cfg.doPull peer blockBytes remote blockIds memory).1 =
      cfg.fillSlots memory (pulledSlots peer blockBytes remote blockIds)
        (patternFor remote.requestId) := by
  unfold doPull pulledSlots
  by_cases hbytes : blockBytes = 0
  · simp [hbytes, fillSlots]
  · by_cases hblocks : remote.blockIds.length = 0
    · simp [hbytes, hblocks, verifiedSlots, fillSlots]
    · simp only [hbytes, hblocks, or_self, if_false]
      exact verifyBlocks_memory _ _ _ _ _

theorem verifyBlocks_ok {pattern : UInt8} {got : ℕ → UInt8} {j : ℕ} {blockIds : List ℕ}
    (memory : KvMemory) (h : ∀ k < blockIds.length, got (j + k) = pattern) :
    (cfg.verifyBlocks pattern got j blockIds memory).2 = .ok () := by
  induction blockIds generalizing j memory with
  | nil => rfl
  | cons blockId rest ih =>
      unfold verifyBlocks
      have hfirst : got j = pattern := h 0 (Nat.succ_pos _)
      rw [if_pos hfirst]
      apply ih
      intro k hk
      rw [Nat.add_assoc, Nat.add_comm 1 k]
      exact h (k + 1) (Nat.succ_lt_succ hk)

/-- A pull of a descriptor whose blocks carry their byte moves all of them. -/
theorem Carries.doPull_ok (cfg : NixlConfig) {peer : NixlConfig} {source : KvMemory}
    {remote : RemoteKv} (h : peer.Carries source remote) (blockIds : List ℕ) (memory : KvMemory) :
    ∃ moved, (cfg.doPull source peer.kvBlockBytes remote blockIds memory).2 = .ok moved := by
  unfold doPull
  split
  · exact ⟨0, rfl⟩
  · next hmoves =>
      have hok : (cfg.verifyBlocks (patternFor remote.requestId)
          (landed source peer.kvBlockBytes remote) 0 (blockIds.take remote.blockIds.length)
            memory).2 = .ok () := by
        apply verifyBlocks_ok
        intro k hk
        have hlt : k < remote.blockIds.length := by
          rw [List.length_take] at hk
          omega
        have hbyte := h remote.blockIds[k] (List.getElem_mem hlt) 0 (by omega)
        simpa [landed, List.getD_eq_getElem?_getD, List.getElem?_eq_getElem hlt] using hbyte
      refine ⟨remote.blockIds.length * peer.kvBlockBytes, ?_⟩
      dsimp only
      rw [hok]
      rfl

end NixlConfig
end VllmVcr
