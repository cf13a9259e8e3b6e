import Mathlib.Data.List.MinMax
import Mathlib.Algebra.Order.Ring.Rat
import Mathlib.Algebra.Field.Rat
import VllmVcr.SortedMap

/-!
# The KV-cache block pool

Prefix-cache accounting, slot allocation and KV-cache events, as `blockpool.rs`
computes them. Counters are natural numbers; hashes and tokens keep their widths.
The hash map of cached blocks is kept in key order: its only order-sensitive use is
the eviction victim, which the distinct `lastUsed` ticks determine.
-/

instance UInt64.linearOrder : LinearOrder UInt64 where
  le_refl := UInt64.le_refl
  le_trans _ _ _ := UInt64.le_trans
  le_antisymm _ _ := UInt64.le_antisymm
  le_total := UInt64.le_total
  lt_iff_le_not_ge a b := by rw [UInt64.le_iff_toNat_le, UInt64.le_iff_toNat_le,
    UInt64.lt_iff_toNat_lt]; omega
  toDecidableLE := inferInstance
  toDecidableLT := inferInstance

namespace VllmVcr

abbrev Token := UInt32
abbrev BlockHash := UInt64

def fnvOffset : UInt64 := 0xcbf29ce484222325
def fnvPrime : UInt64 := 0x00000100000001b3

def leBytes (width : ℕ) (x : ℕ) : List UInt8 :=
  (List.range width).map (fun i => UInt8.ofNat (x / 2 ^ (8 * i)))

def mix (h : UInt64) (bytes : List UInt8) : UInt64 :=
  bytes.foldl (fun h b => (h ^^^ b.toUInt64) * fnvPrime) h

/-- Chained FNV-1a over the parent (or the seed), the tokens and the length-delimited keys. -/
def hashBlock (noneSeed : BlockHash) (parent : Option BlockHash) (tokens : List Token)
    (extraKeys : List String) : BlockHash :=
  let h := mix fnvOffset (leBytes 8 (parent.getD noneSeed).toNat)
  let h := tokens.foldl (fun h t => mix h (leBytes 4 t.toNat)) h
  extraKeys.foldl (fun h key => mix (mix h (leBytes 8 key.utf8ByteSize)) key.toUTF8.data.toList) h

inductive KvCacheEvent where
  | stored (blockHashes : List BlockHash) (parentHash : Option BlockHash) (tokenIds : List Token)
      (blockSize : ℕ) (loraName : Option String)
  | removed (blockHashes : List BlockHash)
  | allCleared
  deriving DecidableEq

structure Slot where
  blockId : ℕ
  refcnt : ℕ
  lastUsed : ℕ
  deriving DecidableEq

structure CacheOutcome where
  numCachedTokens : ℕ
  blockIds : List ℕ
  events : List KvCacheEvent

@[ext] structure PrefixStatsSnapshot where
  requests : ℕ
  queries : ℕ
  hits : ℕ
  deriving DecidableEq

/-- `freeSlots` is a stack: its head is the back of the source's vector. -/
structure BlockPool where
  blockSize : ℕ
  capacity : ℕ
  noneSeed : BlockHash
  cached : SortedMap BlockHash Slot
  freeSlots : List ℕ
  tick : ℕ
  queries : ℕ
  hits : ℕ
  requests : ℕ

namespace BlockPool

def new (blockSize capacity : ℕ) (noneSeed : BlockHash) : BlockPool where
  blockSize := max blockSize 1
  capacity := max capacity 1
  noneSeed := noneSeed
  cached := SortedMap.empty
  freeSlots := List.range (max capacity 1)
  tick := 0
  queries := 0
  hits := 0
  requests := 0

def referencedBlocks (p : BlockPool) : ℕ :=
  (p.cached.values.filter (fun slot => 0 < slot.refcnt)).length

def usage (p : BlockPool) : ℚ≥0 := p.referencedBlocks / p.capacity

/-- The least recently used block that no request pins. -/
def victim (p : BlockPool) : Option (BlockHash × Slot) :=
  (p.cached.entries.filter (fun e => e.2.refcnt = 0)).argmin (fun e => e.2.lastUsed)

def allocateSlot (p : BlockPool) : Option (ℕ × Option KvCacheEvent × BlockPool) :=
  match p.freeSlots with
  | id :: rest => some (id, none, { p with freeSlots := rest })
  | [] =>
    match p.victim with
    | none => none
    | some (hash, slot) =>
        some (slot.blockId, some (.removed [hash]), { p with cached := p.cached.erase hash })

/-- The prompt's full blocks, in order; a partial tail is dropped. -/
def fullBlocks (blockSize : ℕ) (tokens : List Token) : List (List Token) :=
  (List.range (tokens.length / blockSize)).map
    (fun i => (tokens.drop (i * blockSize)).take blockSize)

/-- LoRA name on every block, cache salt on the first only. -/
def extraKeys (loraName cacheSalt : Option String) (i : ℕ) : List String :=
  loraName.toList ++ if i = 0 then cacheSalt.toList else []

/-- The chained hashes of consecutive blocks, the first of them at index `i` under `parent`. -/
def chainHashes (noneSeed : BlockHash) (loraName cacheSalt : Option String) :
    ℕ → Option BlockHash → List (List Token) → List BlockHash
  | _, _, [] => []
  | i, parent, toks :: rest =>
    let hash := hashBlock noneSeed parent toks (extraKeys loraName cacheSalt i)
    hash :: chainHashes noneSeed loraName cacheSalt (i + 1) (some hash) rest

def effectiveSalt (cacheSalt : Option String) : Option String :=
  cacheSalt.filter (fun s => !s.isEmpty)

/-- The hashes `cachePrompt` computes for a prompt. -/
def promptHashes (p : BlockPool) (tokens : List Token) (loraName cacheSalt : Option String) :
    List BlockHash :=
  chainHashes p.noneSeed loraName (effectiveSalt cacheSalt) 0 none (fullBlocks p.blockSize tokens)

/-- The local variables of the block loop of `cachePrompt`. -/
structure CacheLoop where
  pool : BlockPool
  blockIds : List ℕ
  events : List KvCacheEvent
  parent : Option BlockHash
  inPrefix : Bool
  numCachedBlocks : ℕ
  runHashes : List BlockHash
  runTokens : List Token
  runParent : Option BlockHash
  prevWasMiss : Bool

namespace CacheLoop

variable (s : CacheLoop) (loraName : Option String)

def init (pool : BlockPool) : CacheLoop where
  pool := pool
  blockIds := []
  events := []
  parent := none
  inPrefix := true
  numCachedBlocks := 0
  runHashes := []
  runTokens := []
  runParent := none
  prevWasMiss := false

/-- Emit the pending miss run, if any. -/
def flushRun : CacheLoop :=
  if s.runHashes.isEmpty then s
  else { s with
    events := s.events ++
      [.stored s.runHashes s.runParent s.runTokens s.pool.blockSize loraName]
    runHashes := []
    runTokens := [] }

def hit (hash : BlockHash) (slot : Slot) : CacheLoop :=
  let s := if s.prevWasMiss then s.flushRun loraName else s
  { s with
    pool := { s.pool with
      tick := s.pool.tick + 1
      cached := s.pool.cached.insert hash
        { slot with refcnt := slot.refcnt + 1, lastUsed := s.pool.tick + 1 } }
    blockIds := s.blockIds ++ [slot.blockId]
    parent := some hash
    numCachedBlocks := s.numCachedBlocks + if s.inPrefix then 1 else 0
    prevWasMiss := false }

/-- The bookkeeping of a miss before its slot is allocated. -/
def miss (hash : BlockHash) : CacheLoop :=
  { s with
    inPrefix := false
    runParent := if s.prevWasMiss then s.runParent else s.parent
    prevWasMiss := true
    parent := some hash }

def store (hash : BlockHash) (toks : List Token) (blockId : ℕ) (removed : Option KvCacheEvent)
    (pool : BlockPool) : CacheLoop :=
  { s with
    pool := { pool with
      tick := pool.tick + 1
      cached := pool.cached.insert hash
        { blockId := blockId, refcnt := 1, lastUsed := pool.tick + 1 } }
    events := s.events ++ removed.toList
    blockIds := s.blockIds ++ [blockId]
    runHashes := s.runHashes ++ [hash]
    runTokens := s.runTokens ++ toks }

end CacheLoop

def cacheBlocks (loraName cacheSalt : Option String) :
    ℕ → List (List Token) → CacheLoop → CacheLoop
  | _, [], s => s
  | i, toks :: rest, s =>
    let hash := hashBlock s.pool.noneSeed s.parent toks (extraKeys loraName cacheSalt i)
    match s.pool.cached.get? hash with
    | some slot => cacheBlocks loraName cacheSalt (i + 1) rest (s.hit loraName hash slot)
    | none =>
      match s.pool.allocateSlot with
      -- Pool fully pinned: the loop stops, the caller keeps what was pinned so far.
      | none => s.miss hash
      | some (blockId, removed, pool) =>
          cacheBlocks loraName cacheSalt (i + 1) rest
            ((s.miss hash).store hash toks blockId removed pool)

def cachePrompt (p : BlockPool) (tokens : List Token) (loraName cacheSalt : Option String) :
    BlockPool × CacheOutcome :=
  let blocks := fullBlocks p.blockSize tokens
  let p := { p with requests := p.requests + 1, queries := p.queries + blocks.length }
  let s := cacheBlocks loraName (effectiveSalt cacheSalt) 0 blocks (CacheLoop.init p)
  let hits := s.numCachedBlocks
  let s := s.flushRun loraName
  ({ s.pool with hits := s.pool.hits + hits },
    { numCachedTokens := hits * p.blockSize
      blockIds := s.blockIds
      events := s.events })

def unpin (p : BlockPool) (blockIds : List ℕ) : BlockPool :=
  { p with cached := p.cached.mapValues (fun _ slot =>
      if slot.blockId ∈ blockIds ∧ 0 < slot.refcnt then { slot with refcnt := slot.refcnt - 1 }
      else slot) }

def reset (p : BlockPool) : BlockPool × Option KvCacheEvent :=
  if p.cached.isEmpty then (p, none)
  else ({ p with cached := SortedMap.empty, freeSlots := List.range p.capacity }, some .allCleared)

def takeStats (p : BlockPool) : BlockPool × PrefixStatsSnapshot :=
  ({ p with requests := 0, queries := 0, hits := 0 }, ⟨p.requests, p.queries, p.hits⟩)

/-! ## What allocation can do -/

theorem victim_spec {p : BlockPool} {hash : BlockHash} {slot : Slot}
    (h : p.victim = some (hash, slot)) : p.cached.get? hash = some slot ∧ slot.refcnt = 0 := by
  have hm := List.mem_filter.mp (List.argmin_mem h)
  exact ⟨SortedMap.mem_entries.mp hm.1, by simpa using hm.2⟩

/-- A slot comes off the free stack, or from the evicted block of an unpinned slot. -/
theorem allocateSlot_cases {p p' : BlockPool} {id : ℕ} {removed : Option KvCacheEvent}
    (h : p.allocateSlot = some (id, removed, p')) :
    (∃ rest, p.freeSlots = id :: rest ∧ removed = none ∧ p' = { p with freeSlots := rest }) ∨
    ∃ hash slot, p.freeSlots = [] ∧ p.cached.get? hash = some slot ∧ slot.refcnt = 0 ∧
      slot.blockId = id ∧ removed = some (.removed [hash]) ∧
      p' = { p with cached := p.cached.erase hash } := by
  unfold allocateSlot at h
  split at h
  · next id' rest hfree =>
      cases h
      exact Or.inl ⟨rest, hfree, rfl, rfl⟩
  · next hfree =>
      split at h
      · cases h
      · next hash slot hv =>
          cases h
          obtain ⟨hget, href⟩ := victim_spec hv
          exact Or.inr ⟨hash, slot, hfree, hget, href, rfl, rfl, rfl⟩

theorem allocateSlot_noneSeed {p p' : BlockPool} {id : ℕ} {removed : Option KvCacheEvent}
    (h : p.allocateSlot = some (id, removed, p')) :
    p'.noneSeed = p.noneSeed ∧ p'.blockSize = p.blockSize ∧ p'.capacity = p.capacity := by
  rcases allocateSlot_cases h with ⟨rest, _, _, rfl⟩ | ⟨hash, slot, _, _, _, _, _, rfl⟩ <;>
    exact ⟨rfl, rfl, rfl⟩

theorem allocateSlot_pinned {p p' : BlockPool} {id : ℕ} {removed : Option KvCacheEvent}
    (h : p.allocateSlot = some (id, removed, p')) {k : BlockHash} {slot : Slot}
    (hk : p.cached.get? k = some slot) (hpos : 0 < slot.refcnt) :
    p'.cached.get? k = some slot := by
  rcases allocateSlot_cases h with ⟨rest, _, _, rfl⟩ | ⟨hash, slot', _, hget, href, _, _, rfl⟩
  · exact hk
  · have hne : k ≠ hash := by
      rintro rfl
      rw [hk, Option.some.injEq] at hget
      subst hget
      omega
    exact (SortedMap.get?_erase_of_ne _ _ _ hne).trans hk

end BlockPool
end VllmVcr
