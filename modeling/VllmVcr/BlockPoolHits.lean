import VllmVcr.BlockPoolPins

/-!
# Prompts that store nothing

Up to its first miss a prompt only pins what is cached. It stores nothing iff it misses nothing, or
cannot get a slot at its first miss; releasing its pins then restores the pool's blocks.
-/

namespace VllmVcr.BlockPool

theorem allocateSlot_eq_none_iff {p : BlockPool} : p.allocateSlot = none ↔
    p.freeSlots = [] ∧ ∀ hash slot, p.cached.get? hash = some slot → slot.refcnt ≠ 0 := by
  have hvictim : p.victim = none ↔ ∀ hash slot, p.cached.get? hash = some slot →
      slot.refcnt ≠ 0 := by
    rw [victim, List.argmin_eq_none, List.filter_eq_nil_iff]
    constructor
    · intro hnone hash slot hslot hzero
      exact hnone (hash, slot) (SortedMap.mem_entries.mpr hslot) (by simpa using hzero)
    · rintro hall ⟨hash, slot⟩ hmem hzero
      exact hall hash slot (SortedMap.mem_entries.mp hmem) (by simpa using hzero)
  rw [← hvictim]
  unfold allocateSlot
  split
  · next hfree => simp [hfree]
  · next hfree =>
      split
      · next hv => simp [hfree, hv]
      · next hv => simp [hv]

/-- The blocks of a prompt that are found cached before the first miss. -/
def prefixHits (p : BlockPool) (tokens : List Token) (loraName cacheSalt : Option String) :
    List BlockHash :=
  (p.promptHashes tokens loraName cacheSalt).takeWhile (fun hash => p.cached.contains hash)

/-- Every slot is taken, and every cached block but those of `hashes` is pinned. -/
def FullBeside (p : BlockPool) (hashes : List BlockHash) : Prop :=
  p.freeSlots = [] ∧ ∀ hash slot, p.cached.get? hash = some slot → slot.refcnt = 0 → hash ∈ hashes

/-- The prompt stores nothing, and finds each of its blocks once. -/
def Absorbs (p : BlockPool) (tokens : List Token) (loraName cacheSalt : Option String) : Prop :=
  (p.prefixHits tokens loraName cacheSalt).Nodup ∧
    (p.prefixHits tokens loraName cacheSalt = p.promptHashes tokens loraName cacheSalt ∨
      p.FullBeside (p.prefixHits tokens loraName cacheSalt))

/-- The block loop has pinned the cached blocks `done` of `p` and stored nothing. -/
structure Unstored (p : BlockPool) (done : List BlockHash) (s : CacheLoop) : Prop where
  pinned : PinInv p done s
  slots : ∀ hash, (s.pool.cached.get? hash).map Slot.blockId =
    (p.cached.get? hash).map Slot.blockId
  free : s.pool.freeSlots = p.freeSlots
  events : s.events = []
  run : s.runHashes = []

namespace Unstored

variable {p : BlockPool} {done : List BlockHash} {s : CacheLoop}

theorem init (hp : p.Slotted) : Unstored p [] (CacheLoop.init p) where
  pinned := PinInv.init hp
  slots := fun _ => rfl
  free := rfl
  events := rfl
  run := rfl

theorem cached_iff (h : Unstored p done s) (hash : BlockHash) :
    (s.pool.cached.get? hash).isSome = (p.cached.get? hash).isSome := by
  rw [← Option.isSome_map (f := Slot.blockId), h.slots, Option.isSome_map]

theorem hit (h : Unstored p done s) (loraName : Option String) {hash : BlockHash} {slot : Slot}
    (hget : s.pool.cached.get? hash = some slot) :
    Unstored p (done ++ [hash]) (s.hit loraName hash slot) := by
  have hflush : s.flushRun loraName = s := by
    rw [CacheLoop.flushRun, h.run]
    rfl
  have hsame : (if s.prevWasMiss then s.flushRun loraName else s) = s := by
    rw [hflush, ite_self]
  refine ⟨h.pinned.hit loraName hget, fun hash' => ?_, ?_, ?_, ?_⟩
  · simp only [CacheLoop.hit, hsame, SortedMap.get?_insert]
    split
    · next heq => rw [heq, ← h.slots, hget, Option.map_some, Option.map_some]
    · exact h.slots hash'
  · simp only [CacheLoop.hit, hsame]
    exact h.free
  · simp only [CacheLoop.hit, hsame]
    exact h.events
  · simp only [CacheLoop.hit, hsame]
    exact h.run

theorem miss (h : Unstored p done s) (hash : BlockHash) : Unstored p done (s.miss hash) :=
  ⟨h.pinned.miss_stop hash, h.slots, h.free, h.events, h.run⟩

/-- A cached block is pinned as before, and once more for each time it was found. -/
theorem refcnt (h : Unstored p done s) (hp : p.Slotted) {hash : BlockHash} {slot slot' : Slot}
    (hslot : p.cached.get? hash = some slot) (hslot' : s.pool.cached.get? hash = some slot') :
    slot'.blockId = slot.blockId ∧
      slot'.refcnt = slot.refcnt + s.blockIds.count slot.blockId := by
  have hid := h.slots hash
  rw [hslot, hslot', Option.map_some, Option.map_some, Option.some.injEq] at hid
  refine ⟨hid, ?_⟩
  rw [← h.pinned.slotted.pins_eq_refcnt hslot', h.pinned.pins, hid, hp.pins_eq_refcnt hslot]

/-- A block's slot is among those returned iff the block was found. -/
theorem mem_ids (h : Unstored p done s) {hash : BlockHash} {slot : Slot}
    (hslot : p.cached.get? hash = some slot) : slot.blockId ∈ s.blockIds ↔ hash ∈ done := by
  obtain ⟨slot', hslot'⟩ : ∃ slot', s.pool.cached.get? hash = some slot' := by
    rw [← Option.isSome_iff_exists, h.cached_iff, hslot]
    rfl
  have hid := h.slots hash
  rw [hslot, hslot', Option.map_some, Option.map_some, Option.some.injEq] at hid
  constructor
  · intro hmem
    obtain ⟨hash', hh', slot'', hs'', heq, _⟩ := exists_left_of_mem h.pinned.held hmem
    exact h.pinned.slotted.hash_unique hslot' hs'' (hid.trans heq.symm) ▸ hh'
  · intro hmem
    obtain ⟨id, hmem', slot'', hs'', heq, _⟩ := exists_left_of_mem h.pinned.held.flip hmem
    rw [hslot', Option.some.injEq] at hs''
    rw [← hid, hs'', heq]
    exact hmem'

/-- No slot can be allocated iff all are taken and the blocks not found are pinned. -/
theorem allocateSlot_none_iff (h : Unstored p done s) (hp : p.Slotted) :
    s.pool.allocateSlot = none ↔ p.FullBeside done := by
  rw [allocateSlot_eq_none_iff, h.free, FullBeside]
  apply and_congr_right
  intro _
  constructor
  · intro hall hash slot hslot hzero
    obtain ⟨slot', hslot'⟩ : ∃ slot', s.pool.cached.get? hash = some slot' := by
      rw [← Option.isSome_iff_exists, h.cached_iff, hslot]
      rfl
    have hcount := (h.refcnt hp hslot hslot').2
    have hpos := hall hash slot' hslot'
    rw [← h.mem_ids hslot, ← List.count_pos_iff]
    omega
  · intro hall hash slot' hslot' hzero
    obtain ⟨slot, hslot⟩ : ∃ slot, p.cached.get? hash = some slot := by
      rw [← Option.isSome_iff_exists, ← h.cached_iff, hslot']
      rfl
    have hcount := (h.refcnt hp hslot hslot').2
    have hmem := hall hash slot hslot (by omega)
    rw [← h.mem_ids hslot, ← List.count_pos_iff] at hmem
    omega

end Unstored

/-- From a point where nothing is stored, the block loop goes on to pin what is cached; then it
stops without storing anything, or it stores a block that was not cached. -/
theorem cacheBlocks_unstored {p : BlockPool} (hp : p.Slotted) (loraName cacheSalt : Option String)
    (rest : List (List Token)) {done : List BlockHash} {s : CacheLoop} (h : Unstored p done s) :
    let hashes := chainHashes s.pool.noneSeed loraName cacheSalt done.length s.parent rest
    let hits := hashes.takeWhile (fun hash => p.cached.contains hash)
    let s' := cacheBlocks loraName cacheSalt done.length rest s
    (hits = hashes ∨ p.FullBeside (done ++ hits)) ∧ Unstored p (done ++ hits) s' ∨
      ¬ (hits = hashes ∨ p.FullBeside (done ++ hits)) ∧
        ∃ hash, p.cached.get? hash = none ∧ (s'.pool.cached.get? hash).isSome := by
  induction rest generalizing done s with
  | nil =>
      left
      refine ⟨Or.inl rfl, ?_⟩
      rw [chainHashes, List.takeWhile_nil, List.append_nil]
      exact h
  | cons toks rest ih =>
      simp only [cacheBlocks, chainHashes]
      generalize hashBlock s.pool.noneSeed s.parent toks
        (extraKeys loraName cacheSalt done.length) = hash
      split
      · next slot hget =>
          have hcached : p.cached.contains hash = true := by
            rw [SortedMap.contains, ← h.cached_iff, hget]
            rfl
          have hi := ih (h.hit loraName hget)
          rw [hit_noneSeed, hit_parent, List.length_append] at hi
          simpa only [List.takeWhile_cons, hcached, if_true, List.append_assoc,
            List.singleton_append, List.cons.injEq, true_and, List.length_singleton] using hi
      · next hnone =>
          have hmissing : p.cached.get? hash = none := by
            rw [← Option.not_isSome_iff_eq_none, ← h.cached_iff, hnone]
            exact Bool.false_ne_true
          have hcached : p.cached.contains hash = false := by
            rw [SortedMap.contains, hmissing]
            rfl
          rw [List.takeWhile_cons, hcached, if_neg Bool.false_ne_true, List.append_nil]
          split
          · next halloc =>
              exact Or.inl ⟨Or.inr ((h.allocateSlot_none_iff hp).mp halloc), h.miss hash⟩
          · next id removed pool halloc =>
              right
              constructor
              · rintro (hall | hfull)
                · cases hall
                · rw [(h.allocateSlot_none_iff hp).mpr hfull] at halloc
                  cases halloc
              · refine ⟨hash, hmissing, ?_⟩
                have hstored : ((s.miss hash).store hash toks id removed pool).pool.cached.get? hash =
                    some { blockId := id, refcnt := 1, lastUsed := pool.tick + 1 } :=
                  SortedMap.get?_insert_self _ _ _
                obtain ⟨slot', hslot', _⟩ := Keeps.cacheBlocks loraName cacheSalt (done.length + 1)
                  rest ((s.miss hash).store hash toks id removed pool) hash _ hstored Nat.one_pos
                rw [hslot']
                rfl

/-- A slot loses at most one pin when it is released, so a slot found twice stays pinned. -/
theorem Unstored.unpin_restores {p : BlockPool} {done : List BlockHash} {s : CacheLoop}
    (h : Unstored p done s) (hp : p.Slotted) :
    (∀ hash, ((s.pool.unpin s.blockIds).cached.get? hash).map Slot.refcnt =
      (p.cached.get? hash).map Slot.refcnt) ↔ done.Nodup := by
  rw [← h.pinned.slotted.nodup_held h.pinned.held, List.nodup_iff_count_le_one]
  constructor
  · intro hall id
    by_contra hcount
    have hmem : id ∈ s.blockIds := List.count_pos_iff.mp (by omega)
    obtain ⟨hash, _, slot', hslot', rfl, hpos⟩ := exists_left_of_mem h.pinned.held hmem
    obtain ⟨slot, hslot⟩ : ∃ slot, p.cached.get? hash = some slot := by
      rw [← Option.isSome_iff_exists, ← h.cached_iff, hslot']
      rfl
    obtain ⟨hid, hrefcnt⟩ := h.refcnt hp hslot hslot'
    have heq := hall hash
    rw [unpin, SortedMap.get?_mapValues, hslot', hslot, Option.map_some, Option.map_some,
      if_pos ⟨hmem, hpos⟩, Option.map_some, Option.some.injEq] at heq
    rw [hid] at hcount
    simp only at heq
    omega
  · intro hcount hash
    rw [unpin, SortedMap.get?_mapValues, Option.map_map]
    cases hslot' : s.pool.cached.get? hash with
    | none =>
        have hnone := h.cached_iff hash
        rw [hslot'] at hnone
        rw [Option.not_isSome_iff_eq_none.mp (ne_true_of_eq_false hnone.symm)]
        rfl
    | some slot' =>
        obtain ⟨slot, hslot⟩ : ∃ slot, p.cached.get? hash = some slot := by
          rw [← Option.isSome_iff_exists, ← h.cached_iff, hslot']
          rfl
        obtain ⟨hid, hrefcnt⟩ := h.refcnt hp hslot hslot'
        have hone := hcount slot.blockId
        rw [hslot, Option.map_some, Option.map_some, Option.some.injEq, Function.comp_apply, hid]
        by_cases hmem : slot.blockId ∈ s.blockIds
        · have hpos := List.count_pos_iff.mpr hmem
          rw [if_pos ⟨hmem, by omega⟩]
          simp only
          omega
        · have hzero := List.count_eq_zero.mpr hmem
          rw [if_neg (fun hc => hmem hc.1)]
          omega

/-- Releasing a prompt's pins right away restores the blocks and their pins iff the prompt stores
nothing and finds each of its blocks once; there is no event then. -/
theorem unpin_restores_iff {p : BlockPool} (hp : p.Slotted) (tokens : List Token)
    (loraName cacheSalt : Option String) :
    let r := p.cachePrompt tokens loraName cacheSalt
    ((∀ hash, ((r.1.unpin r.2.blockIds).cached.get? hash).map Slot.refcnt =
      (p.cached.get? hash).map Slot.refcnt) ↔ p.Absorbs tokens loraName cacheSalt) ∧
        (p.Absorbs tokens loraName cacheSalt → r.2.events = []) := by
  intro r
  let q : BlockPool := { p with
    requests := p.requests + 1
    queries := p.queries + (fullBlocks p.blockSize tokens).length }
  have hq : q.Slotted := hp
  generalize hs : cacheBlocks loraName (effectiveSalt cacheSalt) 0 (fullBlocks p.blockSize tokens)
    (CacheLoop.init q) = s
  have hids : r.2.blockIds = s.blockIds := by
    rw [← hs]
    simp only [r, cachePrompt, CacheLoop.flushRun]
    split_ifs <;> rfl
  have hcached : (r.1.unpin r.2.blockIds).cached = (s.pool.unpin s.blockIds).cached := by
    rw [hids, ← hs]
    simp only [r, unpin, cachePrompt, RouterInv.flushRun_pool]
    rfl
  have hevents : r.2.events = (s.flushRun loraName).events := by
    rw [← hs]
    rfl
  rw [hcached, hevents]
  have hloop := cacheBlocks_unstored hq loraName (effectiveSalt cacheSalt)
    (fullBlocks p.blockSize tokens) (Unstored.init hq)
  simp only [List.length_nil, List.nil_append, hs] at hloop
  rcases hloop with ⟨hstop, hunstored⟩ | ⟨hnot, hash, hnone, hsome⟩
  · have hflush : (s.flushRun loraName).events = [] := by
      rw [CacheLoop.flushRun, hunstored.run, List.isEmpty_nil, if_pos rfl, hunstored.events]
    refine ⟨?_, fun _ => hflush⟩
    rw [hunstored.unpin_restores hq]
    constructor
    · intro hnodup
      exact ⟨hnodup, hstop⟩
    · rintro ⟨hnodup, _⟩
      exact hnodup
  · constructor
    · constructor
      · intro hall
        have heq := congrArg Option.isSome (hall hash)
        have hmissing : p.cached.get? hash = none := hnone
        rw [unpin, SortedMap.get?_mapValues, Option.isSome_map, Option.isSome_map, hsome,
          hmissing] at heq
        cases heq
      · rintro ⟨_, hstop⟩
        exact absurd hstop hnot
    · rintro ⟨_, hstop⟩
      exact absurd hstop hnot

end VllmVcr.BlockPool
