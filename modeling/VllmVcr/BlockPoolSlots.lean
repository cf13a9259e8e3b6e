import Mathlib.Data.List.Chain
import Mathlib.Data.List.Range
import VllmVcr.BlockPoolHits

/-!
# Slots over runs of the block pool

The pools that a run of calls goes through, block by block inside `cachePrompt`. In each of
them the slots are shared out between cached and free blocks, and a block that is pinned stays
in its slot until its pins are gone. What `cachePrompt` returns follows from the pools it goes
through.
-/

namespace VllmVcr.BlockPool

/-! ## Allocation -/

/-- Every slot holds a pinned block. -/
def AllPinned (p : BlockPool) : Prop :=
  ∀ id < p.capacity, ∃ hash, p.PinnedAt hash id

theorem Slotted.allPinned {p : BlockPool} (hp : p.Slotted) (h : p.allocateSlot = none) :
    p.AllPinned := by
  intro id hid
  obtain ⟨hfree, hpinned⟩ := allocateSlot_eq_none_iff.mp h
  have hmem : id ∈ p.slotIds ++ p.freeSlots := hp.mem_iff.mpr (List.mem_range.mpr hid)
  rw [hfree, List.append_nil] at hmem
  obtain ⟨⟨hash, slot⟩, hentry, rfl⟩ := List.mem_map.mp hmem
  have hslot := SortedMap.mem_entries.mp hentry
  exact ⟨hash, slot, hslot, rfl, Nat.pos_of_ne_zero (hpinned hash slot hslot)⟩

theorem Slotted.size_le {p : BlockPool} (hp : p.Slotted) : p.cached.size ≤ p.capacity := by
  have hlen := hp.length_eq
  rw [List.length_append, List.length_range, slotIds, List.length_map] at hlen
  rw [SortedMap.size]
  omega

/-! ## The pools inside a call -/

@[simp] theorem hit_inPrefix (s : CacheLoop) (loraName : Option String) (hash : BlockHash)
    (slot : Slot) : (s.hit loraName hash slot).inPrefix = s.inPrefix := by
  simp only [CacheLoop.hit, CacheLoop.flushRun]
  split_ifs <;> rfl

@[simp] theorem hit_numCachedBlocks (s : CacheLoop) (loraName : Option String) (hash : BlockHash)
    (slot : Slot) : (s.hit loraName hash slot).numCachedBlocks =
      s.numCachedBlocks + if s.inPrefix then 1 else 0 := by
  simp only [CacheLoop.hit, CacheLoop.flushRun]
  split_ifs <;> rfl

/-- The loop looks up one block and takes a slot for it. -/
inductive Looks (loraName : Option String) (hash : BlockHash) (toks : List Token) (s : CacheLoop) :
    CacheLoop → Prop
  | hit {slot : Slot} (hget : s.pool.cached.get? hash = some slot) :
      Looks loraName hash toks s (s.hit loraName hash slot)
  | store {id : ℕ} {removed : Option KvCacheEvent} {pool : BlockPool}
      (hget : s.pool.cached.get? hash = none)
      (halloc : s.pool.allocateSlot = some (id, removed, pool)) :
      Looks loraName hash toks s ((s.miss hash).store hash toks id removed pool)

namespace Looks

variable {loraName : Option String} {hash : BlockHash} {toks : List Token} {s s' : CacheLoop}

theorem noneSeed (h : Looks loraName hash toks s s') : s'.pool.noneSeed = s.pool.noneSeed := by
  cases h with
  | hit hget => exact hit_noneSeed _ _ _
  | store hget halloc => exact (allocateSlot_noneSeed halloc).1

theorem parent (h : Looks loraName hash toks s s') : s'.parent = some hash := by
  cases h <;> rfl

theorem length_blockIds (h : Looks loraName hash toks s s') :
    s'.blockIds.length = s.blockIds.length + 1 := by
  cases h with
  | hit hget => rw [hit_blockIds, List.length_append, List.length_singleton]
  | store hget halloc => exact List.length_append

theorem outside (h : Looks loraName hash toks s s') (hs : s.inPrefix = false) :
    s'.inPrefix = false ∧ s'.numCachedBlocks = s.numCachedBlocks := by
  cases h with
  | hit hget =>
      rw [hit_inPrefix, hit_numCachedBlocks, hs]
      exact ⟨rfl, rfl⟩
  | store hget halloc => exact ⟨rfl, rfl⟩

/-- The block gets one more pin, or its first. -/
theorem pinned (h : Looks loraName hash toks s s') : ∃ slot,
    s'.pool.cached.get? hash = some slot ∧ 0 < slot.refcnt ∧
      if s.pool.cached.contains hash then
        ∃ before, s.pool.cached.get? hash = some before ∧ slot.refcnt = before.refcnt + 1
      else slot.refcnt = 1 := by
  cases h with
  | @hit before hget =>
      rw [hit_pool]
      refine ⟨_, SortedMap.get?_insert_self _ _ _, Nat.succ_pos _, ?_⟩
      rw [if_pos (by rw [SortedMap.contains, hget]; rfl)]
      exact ⟨before, hget, rfl⟩
  | store hget halloc =>
      refine ⟨_, SortedMap.get?_insert_self _ _ _, Nat.one_pos, ?_⟩
      rw [if_neg (by rw [SortedMap.contains, hget]; exact Bool.false_ne_true)]

/-- Another hash is left alone, or evicted without a pin. -/
theorem frame (h : Looks loraName hash toks s s') {hash' : BlockHash} (hne : hash' ≠ hash) :
    (∀ slot, s'.pool.cached.get? hash' = some slot → s.pool.cached.get? hash' = some slot) ∧
      ∀ slot, s.pool.cached.get? hash' = some slot → 0 < slot.refcnt →
        s'.pool.cached.get? hash' = some slot := by
  cases h with
  | hit hget =>
      rw [hit_pool]
      simp only [SortedMap.get?_insert_of_ne _ _ _ _ hne]
      exact ⟨fun _ => id, fun _ hslot _ => hslot⟩
  | @store id removed pool hget halloc =>
      have hsame : ((s.miss hash).store hash toks id removed pool).pool.cached.get? hash' =
          pool.cached.get? hash' := SortedMap.get?_insert_of_ne _ _ _ _ hne
      rw [hsame]
      refine ⟨fun slot hslot => ?_, fun slot hslot hpos => allocateSlot_pinned halloc hslot hpos⟩
      rcases allocateSlot_cases halloc with ⟨_, _, _, rfl⟩ | ⟨gone, _, _, _, _, _, _, rfl⟩
      · exact hslot
      · rw [SortedMap.get?_erase] at hslot
        split_ifs at hslot
        exact hslot

end Looks

/-- The loop goes on from a block that it took a slot for, or stops at one that it cannot. -/
theorem cacheBlocks_cons (loraName cacheSalt : Option String) (i : ℕ) (toks : List Token)
    (s : CacheLoop) :
    let hash := hashBlock s.pool.noneSeed s.parent toks (extraKeys loraName cacheSalt i)
    (∃ s', Looks loraName hash toks s s' ∧ ∀ rest,
      cacheBlocks loraName cacheSalt i (toks :: rest) s =
        cacheBlocks loraName cacheSalt (i + 1) rest s') ∨
    (s.pool.cached.get? hash = none ∧ s.pool.allocateSlot = none ∧ ∀ rest,
      cacheBlocks loraName cacheSalt i (toks :: rest) s = s.miss hash) := by
  intro hash
  cases hget : s.pool.cached.get? hash with
  | some slot =>
      refine Or.inl ⟨_, .hit hget, fun rest => ?_⟩
      rw [cacheBlocks, hget]
  | none =>
      cases halloc : s.pool.allocateSlot with
      | none =>
          refine Or.inr ⟨rfl, rfl, fun rest => ?_⟩
          rw [cacheBlocks, hget, halloc]
      | some r =>
          refine Or.inl ⟨_, .store hget halloc, fun rest => ?_⟩
          rw [cacheBlocks, hget, halloc]

/-- The loop takes a slot for every block, or stops where none is left. -/
theorem cacheBlocks_length (loraName cacheSalt : Option String) (i : ℕ)
    (blocks : List (List Token)) (s : CacheLoop) :
    let s' := cacheBlocks loraName cacheSalt i blocks s
    s'.blockIds.length = s.blockIds.length + blocks.length ∨
      s'.blockIds.length < s.blockIds.length + blocks.length ∧ s'.pool.allocateSlot = none := by
  induction blocks generalizing i s with
  | nil => exact Or.inl rfl
  | cons toks rest ih =>
      rcases cacheBlocks_cons loraName cacheSalt i toks s with
        ⟨s', hlooks, hrest⟩ | ⟨_, halloc, hrest⟩
      · have hi := ih (i + 1) s'
        rw [hlooks.length_blockIds] at hi
        rw [hrest, List.length_cons, ← Nat.add_assoc, Nat.add_right_comm]
        exact hi
      · rw [hrest, List.length_cons]
        right
        refine ⟨?_, halloc⟩
        change s.blockIds.length < _
        omega

/-- The loop over a list of blocks goes on where the loop over its first part ended, unless that
one stopped early. -/
theorem cacheBlocks_append (loraName cacheSalt : Option String) (i : ℕ)
    (xs ys : List (List Token)) (s : CacheLoop) :
    cacheBlocks loraName cacheSalt i (xs ++ ys) s =
      if (cacheBlocks loraName cacheSalt i xs s).blockIds.length = s.blockIds.length + xs.length
      then cacheBlocks loraName cacheSalt (i + xs.length) ys (cacheBlocks loraName cacheSalt i xs s)
      else cacheBlocks loraName cacheSalt i xs s := by
  induction xs generalizing i s with
  | nil => exact (if_pos (Nat.add_zero _).symm).symm
  | cons toks rest ih =>
      rcases cacheBlocks_cons loraName cacheSalt i toks s with ⟨s', hlooks, hrest⟩ | ⟨_, _, hrest⟩
      · rw [List.cons_append, hrest, hrest, ih, hlooks.length_blockIds, List.length_cons,
          Nat.add_assoc, Nat.add_comm 1, Nat.add_assoc, Nat.add_comm 1]
      · rw [List.cons_append, hrest, hrest, List.length_cons, if_neg]
        change s.blockIds.length ≠ _
        omega

theorem chainHashes_take (noneSeed : BlockHash) (loraName cacheSalt : Option String) (i : ℕ)
    (parent : Option BlockHash) (blocks : List (List Token)) (n : ℕ) :
    chainHashes noneSeed loraName cacheSalt i parent (blocks.take n) =
      (chainHashes noneSeed loraName cacheSalt i parent blocks).take n := by
  induction blocks generalizing i parent n with
  | nil => simp [chainHashes]
  | cons toks rest ih =>
      cases n with
      | zero => rfl
      | succ n =>
          rw [List.take_succ_cons, chainHashes, chainHashes, List.take_succ_cons]
          exact congrArg _ (ih _ _ n)

@[simp] theorem length_chainHashes (noneSeed : BlockHash) (loraName cacheSalt : Option String)
    (i : ℕ) (parent : Option BlockHash) (blocks : List (List Token)) :
    (chainHashes noneSeed loraName cacheSalt i parent blocks).length = blocks.length := by
  induction blocks generalizing i parent with
  | nil => rfl
  | cons toks rest ih => rw [chainHashes, List.length_cons, List.length_cons, ih]

/-- The block loop of `cachePrompt` as it starts. -/
def loopStart (p : BlockPool) (tokens : List Token) : CacheLoop :=
  CacheLoop.init { p with
    requests := p.requests + 1
    queries := p.queries + (fullBlocks p.blockSize tokens).length }

/-- The block loop of `cachePrompt` once it is through with `i` blocks. -/
def loopAt (p : BlockPool) (tokens : List Token) (loraName cacheSalt : Option String) (i : ℕ) :
    CacheLoop :=
  cacheBlocks loraName (effectiveSalt cacheSalt) 0 ((fullBlocks p.blockSize tokens).take i)
    (p.loopStart tokens)

section Prompt

variable (p : BlockPool) (tokens : List Token) (loraName cacheSalt : Option String)

@[simp] theorem loopStart_blockIds : (p.loopStart tokens).blockIds = [] := rfl

theorem loopAt_all {i : ℕ} (hi : (fullBlocks p.blockSize tokens).length ≤ i) :
    p.loopAt tokens loraName cacheSalt i =
      cacheBlocks loraName (effectiveSalt cacheSalt) 0 (fullBlocks p.blockSize tokens)
        (p.loopStart tokens) := by
  rw [loopAt, List.take_of_length_le hi]

theorem loopAt_pins (hp : p.Slotted) (i : ℕ) :
    ∃ done, done <+: p.promptHashes tokens loraName cacheSalt ∧
      PinInv p done (p.loopAt tokens loraName cacheSalt i) := by
  have hstart : PinInv (p.loopStart tokens).pool [] (p.loopStart tokens) := PinInv.init hp
  obtain ⟨done, hdone, hinv⟩ := cacheBlocks_pins loraName (effectiveSalt cacheSalt)
    ((fullBlocks p.blockSize tokens).take i) hstart
  rw [List.nil_append, chainHashes_take] at hdone
  exact ⟨done, hdone.trans (List.take_prefix _ _), hinv.slotted, hinv.capacity, hinv.pins,
    hinv.held⟩

theorem loopAt_slotted (hp : p.Slotted) (i : ℕ) :
    (p.loopAt tokens loraName cacheSalt i).pool.Slotted := by
  obtain ⟨_, _, hinv⟩ := p.loopAt_pins tokens loraName cacheSalt hp i
  exact hinv.slotted

theorem loopAt_capacity (i : ℕ) :
    (p.loopAt tokens loraName cacheSalt i).pool.capacity = p.capacity := by
  obtain ⟨cached, freeSlots, tick, heq⟩ := cacheBlocks_pool loraName (effectiveSalt cacheSalt) 0
    ((fullBlocks p.blockSize tokens).take i) (p.loopStart tokens)
  rw [loopAt, heq]
  rfl

theorem loopAt_noneSeed (i : ℕ) :
    (p.loopAt tokens loraName cacheSalt i).pool.noneSeed = p.noneSeed := by
  obtain ⟨cached, freeSlots, tick, heq⟩ := cacheBlocks_pool loraName (effectiveSalt cacheSalt) 0
    ((fullBlocks p.blockSize tokens).take i) (p.loopStart tokens)
  rw [loopAt, heq]
  rfl

theorem loopAt_keeps (i : ℕ) : (p.loopAt tokens loraName cacheSalt i).pool.Keeps
    (p.loopAt tokens loraName cacheSalt (i + 1)).pool := by
  rw [loopAt, loopAt, List.take_add_one, cacheBlocks_append]
  split
  · exact Keeps.cacheBlocks _ _ _ _ _
  · exact Keeps.refl _

theorem loopAt_keeps_all (i : ℕ) :
    p.Keeps (p.loopAt tokens loraName cacheSalt i).pool :=
  Keeps.cacheBlocks loraName (effectiveSalt cacheSalt) 0
    ((fullBlocks p.blockSize tokens).take i) (p.loopStart tokens)

theorem cachePrompt_cached : (p.cachePrompt tokens loraName cacheSalt).1.cached =
    (p.loopAt tokens loraName cacheSalt (fullBlocks p.blockSize tokens).length).pool.cached := by
  rw [loopAt_all p tokens loraName cacheSalt le_rfl]
  simp only [cachePrompt, RouterInv.flushRun_pool]
  rfl

end Prompt

/-- The pools that a call goes through. -/
def callMoments (p : BlockPool) : Call → List BlockPool
  | .cachePrompt tokens loraName cacheSalt =>
      (List.range ((fullBlocks p.blockSize tokens).length + 1)).map
        (fun i => (p.loopAt tokens loraName cacheSalt i).pool)
  | .unpin _ => []
  | .reset => []

/-- The pools that a run of calls goes through, from the first to the last. -/
def moments : BlockPool → List Call → List BlockPool
  | p, [] => [p]
  | p, c :: rest => p :: (p.callMoments c ++ (p.call c).1.moments rest)

/-- The run resets the pool only when nothing is pinned. -/
def ResetsUnpinned : BlockPool → List Call → Prop
  | _, [] => True
  | p, c :: rest =>
      (c = .reset → ∀ hash slot, p.cached.get? hash = some slot → slot.refcnt = 0) ∧
        (p.call c).1.ResetsUnpinned rest

/-- A pinned block is cached in the same slot afterwards. -/
def Stays (p p' : BlockPool) : Prop :=
  ∀ hash id, p.PinnedAt hash id → ∃ slot, p'.cached.get? hash = some slot ∧ slot.blockId = id

theorem Keeps.stays {p p' : BlockPool} (h : p.Keeps p') : p.Stays p' := by
  rintro hash id ⟨slot, hslot, rfl, hpos⟩
  obtain ⟨slot', hslot', hid, _⟩ := h hash slot hslot hpos
  exact ⟨slot', hslot', hid⟩

theorem unpin_stays (p : BlockPool) (blockIds : List ℕ) : p.Stays (p.unpin blockIds) := by
  rintro hash id ⟨slot, hslot, rfl, _⟩
  exact unpin_cached blockIds hslot

theorem call_capacity (p : BlockPool) (c : Call) : (p.call c).1.capacity = p.capacity := by
  cases c with
  | cachePrompt tokens loraName cacheSalt =>
      obtain ⟨_, _, _, _, heq⟩ := p.cachePrompt_pool tokens loraName cacheSalt
      change (p.cachePrompt tokens loraName cacheSalt).1.capacity = _
      rw [heq]
  | unpin blockIds => rfl
  | reset =>
      change p.reset.1.capacity = _
      unfold reset
      split <;> rfl

theorem call_slotted {p : BlockPool} (hp : p.Slotted) (c : Call) : (p.call c).1.Slotted :=
  calls_slotted hp [c]

/-- In every pool of a run the slots are shared out. -/
theorem moments_slotted {p : BlockPool} (hp : p.Slotted) (cs : List Call) :
    ∀ q ∈ p.moments cs, q.Slotted ∧ q.capacity = p.capacity := by
  induction cs generalizing p with
  | nil =>
      intro q hq
      obtain rfl := List.mem_singleton.mp hq
      exact ⟨hp, rfl⟩
  | cons c rest ih =>
      intro q hq
      rcases List.mem_cons.mp hq with rfl | hq
      · exact ⟨hp, rfl⟩
      rcases List.mem_append.mp hq with hq | hq
      · cases c with
        | cachePrompt tokens loraName cacheSalt =>
            obtain ⟨i, _, rfl⟩ := List.mem_map.mp hq
            exact ⟨p.loopAt_slotted tokens loraName cacheSalt hp i,
              p.loopAt_capacity tokens loraName cacheSalt i⟩
        | unpin blockIds => cases hq
        | reset => cases hq
      · obtain ⟨hslotted, hcapacity⟩ := ih (call_slotted hp c) q hq
        exact ⟨hslotted, hcapacity.trans (p.call_capacity c)⟩

theorem moments_head (p : BlockPool) (cs : List Call) : ∃ rest, p.moments cs = p :: rest := by
  cases cs with
  | nil => exact ⟨[], rfl⟩
  | cons c cs => exact ⟨_, rfl⟩

theorem loops_stay (p : BlockPool) (tokens : List Token) (loraName cacheSalt : Option String)
    (n : ℕ) : (p :: (List.range (n + 1)).map
      (fun i => (p.loopAt tokens loraName cacheSalt i).pool)).IsChain Stays := by
  have hsteps : ((List.range (n + 1)).map
      (fun i => (p.loopAt tokens loraName cacheSalt i).pool)).IsChain Stays := by
    rw [List.isChain_map, List.isChain_range_succ]
    intro i _
    exact (p.loopAt_keeps tokens loraName cacheSalt i).stays
  rw [List.range_succ_eq_map, List.map_cons] at hsteps ⊢
  exact List.isChain_cons_cons.mpr
    ⟨(p.loopAt_keeps_all tokens loraName cacheSalt 0).stays, hsteps⟩

/-- A call leads from pool to pool with each pinned block staying in its slot. -/
theorem call_stays (p : BlockPool) (c : Call)
    (hreset : c = .reset → ∀ hash slot, p.cached.get? hash = some slot → slot.refcnt = 0) :
    (p :: (p.callMoments c ++ [(p.call c).1])).IsChain Stays := by
  cases c with
  | cachePrompt tokens loraName cacheSalt =>
      have hloops := p.loops_stay tokens loraName cacheSalt (fullBlocks p.blockSize tokens).length
      rw [List.range_succ, List.map_append, List.map_singleton] at hloops
      rw [callMoments, List.range_succ, List.map_append, List.map_singleton, List.append_assoc,
        List.singleton_append, List.isChain_cons_split]
      refine ⟨hloops, List.isChain_cons_cons.mpr ⟨?_, .singleton _⟩⟩
      rintro hash id ⟨slot, hslot, hid, _⟩
      refine ⟨slot, ?_, hid⟩
      rw [call, cachePrompt_cached]
      exact hslot
  | unpin blockIds =>
      exact List.isChain_cons_cons.mpr ⟨p.unpin_stays blockIds, .singleton _⟩
  | reset =>
      refine List.isChain_cons_cons.mpr ⟨?_, .singleton _⟩
      rintro hash id ⟨slot, hslot, _, hpos⟩
      have hzero := hreset rfl hash slot hslot
      omega

/-- From pool to pool of a run, each pinned block stays in its slot. -/
theorem moments_stays {p : BlockPool} {cs : List Call} (h : p.ResetsUnpinned cs) :
    (p.moments cs).IsChain Stays := by
  induction cs generalizing p with
  | nil => exact .singleton _
  | cons c rest ih =>
      obtain ⟨tail, htail⟩ := (p.call c).1.moments_head rest
      have hrest := ih h.2
      rw [htail] at hrest
      rw [moments, htail, List.isChain_cons_split]
      exact ⟨p.call_stays c h.1, hrest⟩

/-- Along a chain of pools, a pinned block stays in its slot until its last pin is released. -/
theorem pinned_until {pools : List BlockPool} (h : pools.IsChain Stays) {i j : ℕ} {q r : BlockPool}
    {hash : BlockHash} {id : ℕ} (hij : i ≤ j) (hq : pools[i]? = some q) (hr : pools[j]? = some r)
    (hpinned : q.PinnedAt hash id) :
    r.PinnedAt hash id ∨ ∃ k m slot, i ≤ k ∧ k ≤ j ∧ pools[k]? = some m ∧
      m.cached.get? hash = some slot ∧ slot.blockId = id ∧ slot.refcnt = 0 := by
  induction j, hij using Nat.le_induction generalizing r with
  | base =>
      rw [hq, Option.some.injEq] at hr
      subst hr
      exact Or.inl hpinned
  | succ j hij ih =>
      obtain ⟨hlt, rfl⟩ := List.getElem?_eq_some_iff.mp hr
      have hprev : pools[j]? = some pools[j] := List.getElem?_eq_getElem _
      rcases ih hprev with hheld | ⟨k, m, slot, hik, hkj, hk⟩
      · obtain ⟨slot, hslot, hid⟩ := List.isChain_iff_getElem.mp h j hlt hash id hheld
        rcases Nat.eq_zero_or_pos slot.refcnt with hzero | hpos
        · exact Or.inr ⟨j + 1, _, slot, by omega, le_rfl, hr, hslot, hid, hzero⟩
        · exact Or.inl ⟨slot, hslot, hid, hpos⟩
      · exact Or.inr ⟨k, m, slot, hik, by omega, hk⟩

/-- Whatever calls are made on a pool that is reset only while nothing is pinned, the slots are
conserved, and a pinned block keeps its slot until its last pin is released. -/
theorem slots_conserved (blockSize capacity : ℕ) (noneSeed : BlockHash) (cs : List Call)
    (hreset : (new blockSize capacity noneSeed).ResetsUnpinned cs) :
    let pools := (new blockSize capacity noneSeed).moments cs
    (∀ q ∈ pools, (q.freeSlots ++ q.slotIds).Perm (List.range (max capacity 1)) ∧
      (q.freeSlots ++ q.slotIds).Nodup ∧ q.cached.size ≤ max capacity 1 ∧
      (q.allocateSlot = none → ∀ id < max capacity 1, ∃ hash, q.PinnedAt hash id)) ∧
    ∀ (i j : ℕ) q r hash id, i ≤ j → pools[i]? = some q → pools[j]? = some r →
      q.PinnedAt hash id → r.PinnedAt hash id ∨ ∃ k m slot, i ≤ k ∧ k ≤ j ∧ pools[k]? = some m ∧
        m.cached.get? hash = some slot ∧ slot.blockId = id ∧ slot.refcnt = 0 := by
  intro pools
  constructor
  · intro q hq
    obtain ⟨hslotted, hcapacity⟩ := moments_slotted (slotted_new blockSize capacity noneSeed) cs q hq
    change q.capacity = max capacity 1 at hcapacity
    have hperm := List.perm_append_comm.trans hslotted
    rw [hcapacity] at hperm
    refine ⟨hperm, hperm.nodup_iff.mpr List.nodup_range, ?_, ?_⟩
    · rw [← hcapacity]
      exact hslotted.size_le
    · intro hnone
      rw [← hcapacity]
      exact hslotted.allPinned hnone
  · intro i j q r hash id hij hq hr hpinned
    exact pinned_until (moments_stays hreset) hij hq hr hpinned

/-- A pool of one block that is cached, released and dropped. -/
theorem releasedThenReset :
    (new 1 1 0).ResetsUnpinned [.cachePrompt [5] none none, .unpin [0], .reset] ∧
      ∀ q ∈ (new 1 1 0).moments [.cachePrompt [5] none none, .unpin [0], .reset],
        (q.freeSlots ++ q.slotIds).Perm [0] := by
  have hreset : (new 1 1 0).ResetsUnpinned [.cachePrompt [5] none none, .unpin [0], .reset] := by
    refine ⟨by rintro ⟨⟩, by rintro ⟨⟩, fun _ hash slot hslot => ?_, trivial⟩
    have hall : ∀ e ∈ ((((new 1 1 0).call (.cachePrompt [5] none none)).1.call
        (.unpin [0])).1.cached.entries), e.2.refcnt = 0 := by
      decide +kernel
    exact hall (hash, slot) (SortedMap.mem_entries.mpr hslot)
  exact ⟨hreset, fun q hq => ((slots_conserved 1 1 0 _ hreset).1 q hq).1⟩

/-! ## What a call returns -/

/-- The pools that calls on a new one lead to. -/
inductive Reachable : BlockPool → Prop
  | new (blockSize capacity : ℕ) (noneSeed : BlockHash) :
      Reachable (new blockSize capacity noneSeed)
  | call {p : BlockPool} (h : Reachable p) (c : Call) : Reachable (p.call c).1
  | takeStats {p : BlockPool} (h : Reachable p) : Reachable p.takeStats.1

theorem Reachable.slotted {p : BlockPool} (h : p.Reachable) : p.Slotted := by
  induction h with
  | new blockSize capacity noneSeed => exact slotted_new blockSize capacity noneSeed
  | call _ c ih => exact call_slotted ih c
  | takeStats _ ih => exact ih

/-- Where the loop did not stop, the hashes go on from its parent. -/
theorem chainHashes_append {loraName cacheSalt : Option String} {i : ℕ} {xs : List (List Token)}
    {s : CacheLoop} (ys : List (List Token))
    (h : (cacheBlocks loraName cacheSalt i xs s).blockIds.length =
      s.blockIds.length + xs.length) :
    chainHashes s.pool.noneSeed loraName cacheSalt i s.parent (xs ++ ys) =
      chainHashes s.pool.noneSeed loraName cacheSalt i s.parent xs ++
        chainHashes s.pool.noneSeed loraName cacheSalt (i + xs.length)
          (cacheBlocks loraName cacheSalt i xs s).parent ys := by
  induction xs generalizing i s with
  | nil => rfl
  | cons toks rest ih =>
      rcases cacheBlocks_cons loraName cacheSalt i toks s with ⟨s', hlooks, hrest⟩ | ⟨_, _, hrest⟩
      · rw [hrest, List.length_cons] at h
        have hi := ih (i := i + 1) (s := s') (by rw [h, hlooks.length_blockIds]; omega)
        rw [hlooks.noneSeed, hlooks.parent] at hi
        rw [List.cons_append, chainHashes, chainHashes, hi, List.cons_append, hrest,
          List.length_cons, Nat.add_assoc, Nat.add_comm 1]
      · rw [hrest, List.length_cons] at h
        change s.blockIds.length = _ at h
        omega

/-- The loop leaves a hash that is none of its own alone, up to its eviction. -/
theorem cacheBlocks_frame {loraName cacheSalt : Option String} {i : ℕ}
    {blocks : List (List Token)} {s : CacheLoop} {hash : BlockHash}
    (h : hash ∉ chainHashes s.pool.noneSeed loraName cacheSalt i s.parent blocks) :
    let s' := cacheBlocks loraName cacheSalt i blocks s
    (∀ slot, s'.pool.cached.get? hash = some slot → s.pool.cached.get? hash = some slot) ∧
      ∀ slot, s.pool.cached.get? hash = some slot → 0 < slot.refcnt →
        s'.pool.cached.get? hash = some slot := by
  induction blocks generalizing i s with
  | nil => exact ⟨fun _ => id, fun _ hslot _ => hslot⟩
  | cons toks rest ih =>
      rw [chainHashes, List.mem_cons, not_or] at h
      rcases cacheBlocks_cons loraName cacheSalt i toks s with ⟨s', hlooks, hrest⟩ | ⟨_, _, hrest⟩
      · have hstep := hlooks.frame h.1
        have hi := ih (i := i + 1) (s := s') (by rw [hlooks.noneSeed, hlooks.parent]; exact h.2)
        rw [hrest]
        exact ⟨fun slot hslot => hstep.1 slot (hi.1 slot hslot),
          fun slot hslot hpos => hi.2 slot (hstep.2 slot hslot hpos) hpos⟩
      · rw [hrest]
        exact ⟨fun _ => id, fun _ hslot _ => hslot⟩

/-- The hits count until the first miss. -/
theorem cacheBlocks_numCachedBlocks {loraName cacheSalt : Option String} {i : ℕ}
    {blocks : List (List Token)} {s : CacheLoop} (h : s.inPrefix = false) :
    (cacheBlocks loraName cacheSalt i blocks s).numCachedBlocks = s.numCachedBlocks := by
  induction blocks generalizing i s with
  | nil => rfl
  | cons toks rest ih =>
      rcases cacheBlocks_cons loraName cacheSalt i toks s with ⟨s', hlooks, hrest⟩ | ⟨_, _, hrest⟩
      · obtain ⟨hout, hcount⟩ := hlooks.outside h
        rw [hrest, ih hout, hcount]
      · rw [hrest]
        rfl

theorem cacheBlocks_prefixHits {p : BlockPool} {loraName cacheSalt : Option String}
    {blocks : List (List Token)} {done : List BlockHash} {s : CacheLoop} (h : Unstored p done s)
    (hinside : s.inPrefix = true) :
    (cacheBlocks loraName cacheSalt done.length blocks s).numCachedBlocks = s.numCachedBlocks +
      ((chainHashes s.pool.noneSeed loraName cacheSalt done.length s.parent blocks).takeWhile
        (fun hash => p.cached.contains hash)).length := by
  induction blocks generalizing done s with
  | nil => rfl
  | cons toks rest ih =>
      rw [cacheBlocks, chainHashes]
      generalize hashBlock s.pool.noneSeed s.parent toks
        (extraKeys loraName cacheSalt done.length) = hash
      have hcached : p.cached.contains hash = (s.pool.cached.get? hash).isSome :=
        (h.cached_iff hash).symm
      rw [List.takeWhile_cons, hcached]
      cases hget : s.pool.cached.get? hash with
      | some slot =>
          have hi := ih (h.hit loraName hget) ((hit_inPrefix _ _ _ _).trans hinside)
          rw [hit_noneSeed, hit_parent, List.length_append, List.length_singleton] at hi
          rw [Option.isSome_some, if_pos rfl, List.length_cons]
          simp only
          rw [hi, hit_numCachedBlocks, hinside, if_pos rfl]
          omega
      | none =>
          rw [Option.isSome_none, if_neg Bool.false_ne_true]
          cases halloc : s.pool.allocateSlot with
          | none => rfl
          | some r => exact cacheBlocks_numCachedBlocks rfl

section Prompt

variable (p : BlockPool) (tokens : List Token) (loraName cacheSalt : Option String)

theorem cachePrompt_blockIds : (p.cachePrompt tokens loraName cacheSalt).2.blockIds =
    (p.loopAt tokens loraName cacheSalt (fullBlocks p.blockSize tokens).length).blockIds := by
  rw [loopAt_all p tokens loraName cacheSalt le_rfl]
  simp only [cachePrompt, CacheLoop.flushRun]
  split_ifs <;> rfl

theorem cachePrompt_numCachedTokens (hp : p.Slotted) :
    (p.cachePrompt tokens loraName cacheSalt).2.numCachedTokens =
      p.blockSize * (p.prefixHits tokens loraName cacheSalt).length := by
  have hstart : (p.loopStart tokens).pool.Slotted := hp
  have hcount := @cacheBlocks_prefixHits _ loraName (effectiveSalt cacheSalt)
    (fullBlocks p.blockSize tokens) [] (p.loopStart tokens) (Unstored.init hstart) rfl
  change (cacheBlocks loraName (effectiveSalt cacheSalt) 0 (fullBlocks p.blockSize tokens)
    (p.loopStart tokens)).numCachedBlocks * p.blockSize = _
  rw [Nat.mul_comm]
  exact congrArg (p.blockSize * ·) (hcount.trans (Nat.zero_add _))

theorem loopAt_length (i : ℕ) :
    (p.loopAt tokens loraName cacheSalt i).blockIds.length =
        ((fullBlocks p.blockSize tokens).take i).length ∨
      (p.loopAt tokens loraName cacheSalt i).blockIds.length <
        ((fullBlocks p.blockSize tokens).take i).length ∧
      (p.loopAt tokens loraName cacheSalt i).pool.allocateSlot = none := by
  have hlen := cacheBlocks_length loraName (effectiveSalt cacheSalt) 0
    ((fullBlocks p.blockSize tokens).take i) (p.loopStart tokens)
  change _ = 0 + _ ∨ _ < 0 + _ ∧ _ at hlen
  rw [Nat.zero_add] at hlen
  exact hlen

/-- From a later point the loop has gone on from an earlier one, unless that one stopped. -/
theorem loopAt_append {i j : ℕ} (hij : i ≤ j) :
    p.loopAt tokens loraName cacheSalt j =
      if (p.loopAt tokens loraName cacheSalt i).blockIds.length =
          ((fullBlocks p.blockSize tokens).take i).length
      then cacheBlocks loraName (effectiveSalt cacheSalt)
        ((fullBlocks p.blockSize tokens).take i).length
        (((fullBlocks p.blockSize tokens).take j).drop i) (p.loopAt tokens loraName cacheSalt i)
      else p.loopAt tokens loraName cacheSalt i := by
  have hsplit : (fullBlocks p.blockSize tokens).take j =
      (fullBlocks p.blockSize tokens).take i ++
        ((fullBlocks p.blockSize tokens).take j).drop i := by
    have htake := List.take_append_drop i ((fullBlocks p.blockSize tokens).take j)
    rw [List.take_take, Nat.min_eq_left hij] at htake
    exact htake.symm
  have happend := cacheBlocks_append loraName (effectiveSalt cacheSalt) 0
    ((fullBlocks p.blockSize tokens).take i) (((fullBlocks p.blockSize tokens).take j).drop i)
    (p.loopStart tokens)
  rw [← hsplit] at happend
  simp only [loopStart_blockIds, List.length_nil, Nat.zero_add] at happend
  exact happend

/-- As long as slots are taken, the loop stands at the block of its number. -/
theorem loopAt_reached {i : ℕ}
    (hi : i ≤ (p.cachePrompt tokens loraName cacheSalt).2.blockIds.length) :
    i ≤ (fullBlocks p.blockSize tokens).length ∧
      (p.loopAt tokens loraName cacheSalt i).blockIds.length = i := by
  rw [cachePrompt_blockIds] at hi
  have hall := p.loopAt_length tokens loraName cacheSalt (fullBlocks p.blockSize tokens).length
  rw [List.take_length] at hall
  have hle : i ≤ (fullBlocks p.blockSize tokens).length := by omega
  refine ⟨hle, ?_⟩
  have hlen := p.loopAt_length tokens loraName cacheSalt i
  rw [List.length_take_of_le hle] at hlen
  by_contra hne
  have hstop := p.loopAt_append tokens loraName cacheSalt hle
  rw [List.length_take_of_le hle, if_neg hne] at hstop
  rw [hstop] at hi
  omega

/-- The loop goes on from the block it stands at, with the hashes that are left. -/
theorem loopAt_continues {i : ℕ}
    (hi : i ≤ (p.cachePrompt tokens loraName cacheSalt).2.blockIds.length) :
    (∀ j, i ≤ j → p.loopAt tokens loraName cacheSalt j =
      cacheBlocks loraName (effectiveSalt cacheSalt) i
        (((fullBlocks p.blockSize tokens).take j).drop i) (p.loopAt tokens loraName cacheSalt i)) ∧
    (p.promptHashes tokens loraName cacheSalt).drop i =
      chainHashes p.noneSeed loraName (effectiveSalt cacheSalt) i
        (p.loopAt tokens loraName cacheSalt i).parent
        ((fullBlocks p.blockSize tokens).drop i) := by
  obtain ⟨hle, hlen⟩ := p.loopAt_reached tokens loraName cacheSalt hi
  constructor
  · intro j hij
    have happend := p.loopAt_append tokens loraName cacheSalt hij
    rw [List.length_take_of_le hle, if_pos hlen] at happend
    exact happend
  · have hwhole : (p.loopAt tokens loraName cacheSalt i).blockIds.length =
        (p.loopStart tokens).blockIds.length + ((fullBlocks p.blockSize tokens).take i).length := by
      rw [hlen, List.length_take_of_le hle, loopStart_blockIds, List.length_nil, Nat.zero_add]
    have happend := chainHashes_append ((fullBlocks p.blockSize tokens).drop i) hwhole
    rw [List.take_append_drop, List.length_take_of_le hle, Nat.zero_add] at happend
    rw [promptHashes]
    change (chainHashes p.noneSeed loraName (effectiveSalt cacheSalt) 0 none _) = _ at happend
    rw [happend, List.drop_left' (by rw [length_chainHashes, List.length_take_of_le hle])]
    rfl

/-- A block that gets a slot is looked up by its hash, and left alone from then on. -/
theorem loopAt_looks {i : ℕ}
    (hi : i < (p.cachePrompt tokens loraName cacheSalt).2.blockIds.length) :
    ∃ hash toks, (p.promptHashes tokens loraName cacheSalt)[i]? = some hash ∧
      Looks loraName hash toks (p.loopAt tokens loraName cacheSalt i)
        (p.loopAt tokens loraName cacheSalt (i + 1)) := by
  obtain ⟨hle, hlen⟩ := p.loopAt_reached tokens loraName cacheSalt (i := i + 1) hi
  obtain ⟨_, hlen'⟩ := p.loopAt_reached tokens loraName cacheSalt hi.le
  obtain ⟨hgo, hhashes⟩ := p.loopAt_continues tokens loraName cacheSalt hi.le
  obtain ⟨toks, htoks⟩ : ∃ toks, (fullBlocks p.blockSize tokens)[i]? = some toks :=
    ⟨_, List.getElem?_eq_getElem hle⟩
  have hone : ((fullBlocks p.blockSize tokens).take (i + 1)).drop i = [toks] := by
    rw [List.take_add_one, htoks, List.drop_left' (List.length_take_of_le (by omega))]
    rfl
  have hstep := hgo (i + 1) (Nat.le_succ i)
  rw [hone] at hstep
  have hdrop : (fullBlocks p.blockSize tokens).drop i =
      toks :: (fullBlocks p.blockSize tokens).drop (i + 1) := by
    rw [List.drop_eq_getElem_cons hle]
    rw [List.getElem?_eq_getElem hle, Option.some.injEq] at htoks
    rw [htoks]
  rw [hdrop, chainHashes] at hhashes
  have hseed : (p.loopAt tokens loraName cacheSalt i).pool.noneSeed = p.noneSeed :=
    p.loopAt_noneSeed tokens loraName cacheSalt i
  rcases cacheBlocks_cons loraName (effectiveSalt cacheSalt) i toks
    (p.loopAt tokens loraName cacheSalt i) with ⟨s', hlooks, hrest⟩ | ⟨_, _, hrest⟩
  · rw [hrest, cacheBlocks] at hstep
    rw [hseed, ← hstep] at hlooks
    refine ⟨_, toks, ?_, hlooks⟩
    rw [← Nat.add_zero i, ← List.getElem?_drop, hhashes]
    rfl
  · rw [hrest] at hstep
    rw [hstep] at hlen
    change (p.loopAt tokens loraName cacheSalt i).blockIds.length = _ at hlen
    omega

/-- Another block's hash is left alone up to its eviction, also over many blocks. -/
theorem loopAt_frame {i j : ℕ} (hij : i ≤ j)
    (hi : i ≤ (p.cachePrompt tokens loraName cacheSalt).2.blockIds.length) {hash : BlockHash}
    (hhash : hash ∉ ((p.promptHashes tokens loraName cacheSalt).take j).drop i) :
    (∀ slot, (p.loopAt tokens loraName cacheSalt j).pool.cached.get? hash = some slot →
      (p.loopAt tokens loraName cacheSalt i).pool.cached.get? hash = some slot) ∧
    ∀ slot, (p.loopAt tokens loraName cacheSalt i).pool.cached.get? hash = some slot →
      0 < slot.refcnt → (p.loopAt tokens loraName cacheSalt j).pool.cached.get? hash = some slot := by
  obtain ⟨hgo, hhashes⟩ := p.loopAt_continues tokens loraName cacheSalt hi
  rw [hgo j hij]
  apply cacheBlocks_frame
  rw [loopAt_noneSeed, List.drop_take, chainHashes_take, ← hhashes, ← List.drop_take]
  exact hhash

end Prompt

theorem mem_segment {α : Type*} {l : List α} {a b : ℕ} {x : α} (h : x ∈ (l.take b).drop a) :
    ∃ k, a ≤ k ∧ k < b ∧ l[k]? = some x := by
  obtain ⟨k, hk⟩ := List.mem_iff_getElem?.mp h
  rw [List.getElem?_drop, List.getElem?_take] at hk
  split_ifs at hk with hlt
  exact ⟨a + k, Nat.le_add_right a k, hlt, hk⟩

/-- Distinct hashes stand at one place each. -/
theorem not_mem_segment {α : Type*} {l : List α} (hnd : l.Nodup) {i a b : ℕ} {x : α}
    (hx : l[i]? = some x) (hout : i < a ∨ b ≤ i) : x ∉ (l.take b).drop a := by
  intro hmem
  obtain ⟨k, hak, hkb, hk⟩ := mem_segment hmem
  obtain ⟨hlt, _⟩ := List.getElem?_eq_some_iff.mp hx
  have hsame := (List.getElem?_inj hlt hnd).mp (hx.trans hk.symm)
  omega

theorem rel_getElem? {α β : Type*} {R : α → β → Prop} {done all : List α} {ids : List β}
    (h : List.Forall₂ R done ids) (hdone : done <+: all) {i : ℕ} {a : α} {b : β}
    (ha : all[i]? = some a) (hb : ids[i]? = some b) : R a b := by
  obtain ⟨hlt, rfl⟩ := List.getElem?_eq_some_iff.mp hb
  have hlt' : i < done.length := h.length_eq ▸ hlt
  have hsame : done[i] = a := by
    rw [hdone.getElem hlt']
    exact Option.some.inj ((List.getElem?_eq_getElem _).symm.trans ha)
  rw [← hsame]
  exact h.get hlt' hlt

/-- Caching a prompt with distinct hashes: what was cached before its first miss counts as cached,
each block listed is pinned once more in the slot listed, and the list is cut short only where
every slot is pinned. -/
theorem cachePrompt_outcome {p : BlockPool} (hp : p.Reachable) (tokens : List Token)
    (loraName cacheSalt : Option String)
    (hnd : (p.promptHashes tokens loraName cacheSalt).Nodup) :
    let r := p.cachePrompt tokens loraName cacheSalt
    let hashes := p.promptHashes tokens loraName cacheSalt
    r.2.numCachedTokens = p.blockSize * (p.prefixHits tokens loraName cacheSalt).length ∧
    r.2.blockIds.Nodup ∧ r.2.blockIds.length ≤ hashes.length ∧
    (∀ (i : ℕ) hash id, hashes[i]? = some hash → r.2.blockIds[i]? = some id →
      ∃ slot, r.1.cached.get? hash = some slot ∧ slot.blockId = id ∧
        if (p.loopAt tokens loraName cacheSalt i).pool.cached.contains hash then
          ∃ before, p.cached.get? hash = some before ∧ slot.refcnt = before.refcnt + 1
        else slot.refcnt = 1) ∧
    (r.2.blockIds.length < hashes.length → ∀ id < r.1.capacity, ∃ hash, r.1.PinnedAt hash id) := by
  intro r hashes
  obtain ⟨hslotted, _, done, hdone, hheld⟩ :=
    cachePrompt_held hp.slotted tokens loraName cacheSalt
  have hlen : hashes.length = (fullBlocks p.blockSize tokens).length := length_chainHashes _ _ _ _ _ _
  refine ⟨p.cachePrompt_numCachedTokens tokens loraName cacheSalt hp.slotted,
    (hslotted.nodup_held hheld).mpr (hdone.sublist.nodup hnd),
    hheld.length_eq ▸ hdone.length_le, ?_, ?_⟩
  · intro i hash id hhash hid
    obtain ⟨hi, _⟩ := List.getElem?_eq_some_iff.mp hid
    obtain ⟨hash', toks, hhash', hlooks⟩ := p.loopAt_looks tokens loraName cacheSalt hi
    obtain rfl : hash = hash' := Option.some.inj (hhash.symm.trans hhash')
    obtain ⟨slot, hslot, hpos, hcount⟩ := hlooks.pinned
    have hlast := (p.loopAt_frame tokens loraName cacheSalt
      (p.loopAt_reached tokens loraName cacheSalt (i := i + 1) hi).1 hi
      (not_mem_segment hnd hhash (Or.inl (Nat.lt_succ_self i)))).2 slot hslot hpos
    rw [← cachePrompt_cached] at hlast
    refine ⟨slot, hlast, ?_, ?_⟩
    · obtain ⟨slot', hslot', heq, _⟩ := rel_getElem? hheld hdone hhash hid
      rw [hlast, Option.some.injEq] at hslot'
      rw [hslot', heq]
    · split_ifs at hcount ⊢ with hcached
      · obtain ⟨before, hbefore, hcount⟩ := hcount
        exact ⟨before, (p.loopAt_frame tokens loraName cacheSalt (Nat.zero_le i) (Nat.zero_le _)
          (not_mem_segment hnd hhash (Or.inr le_rfl))).1 before hbefore, hcount⟩
      · exact hcount
  · intro hshort
    have hstop := p.loopAt_length tokens loraName cacheSalt (fullBlocks p.blockSize tokens).length
    rw [List.take_length, ← cachePrompt_blockIds, ← hlen] at hstop
    have hnone := (hstop.resolve_left hshort.ne).2
    have hpinned := (p.loopAt_slotted tokens loraName cacheSalt hp.slotted _).allPinned hnone
    rw [AllPinned, loopAt_capacity] at hpinned
    intro id hid
    change id < (p.call (.cachePrompt tokens loraName cacheSalt)).1.capacity at hid
    rw [call_capacity] at hid
    obtain ⟨hash, slot, hslot, hslotId⟩ := hpinned id hid
    rw [hlen, ← cachePrompt_cached] at hslot
    exact ⟨hash, slot, hslot, hslotId⟩

/-- A prompt of two blocks in a pool of one. -/
theorem cutShort :
    let r := (new 1 1 0).cachePrompt [5, 6] none none
    r.2.numCachedTokens = 0 ∧ r.2.blockIds = [0] ∧ ∀ id < 1, ∃ hash, r.1.PinnedAt hash id := by
  intro r
  have hids : r.2.blockIds = [0] := by decide +kernel
  obtain ⟨hcached, _, _, _, hshort⟩ := cachePrompt_outcome (.new 1 1 0) [5, 6] none none
    (by decide +kernel)
  refine ⟨hcached.trans (by decide +kernel), hids, hshort ?_⟩
  change r.2.blockIds.length < _
  rw [hids]
  decide +kernel

end VllmVcr.BlockPool
