import VllmVcr.RouterView

/-!
# Slots and pins of the block pool

Cached slots and free slots always share out the ids below `capacity`, so a slot id
names at most one cached block. `pins p id` is the reference count held on slot `id`;
caching a prompt with distinct hashes raises it by one on exactly the returned slots.
-/

namespace VllmVcr.BlockPool

def slotIds (p : BlockPool) : List ℕ := p.cached.entries.map (fun e => e.2.blockId)

/-- The cached and the free slots partition the slot ids. -/
def Slotted (p : BlockPool) : Prop := (p.slotIds ++ p.freeSlots).Perm (List.range p.capacity)

def pins (p : BlockPool) (id : ℕ) : ℕ :=
  p.cached.weight (fun _ slot => if slot.blockId = id then slot.refcnt else 0)

theorem slotted_new (blockSize capacity : ℕ) (noneSeed : BlockHash) :
    (new blockSize capacity noneSeed).Slotted := List.Perm.refl _

theorem pins_new (blockSize capacity : ℕ) (noneSeed : BlockHash) (id : ℕ) :
    (new blockSize capacity noneSeed).pins id = 0 := rfl

namespace Slotted

variable {p : BlockPool} (hp : p.Slotted)
include hp

theorem nodup : (p.slotIds ++ p.freeSlots).Nodup := hp.nodup_iff.mpr List.nodup_range

/-- No two cached blocks share a slot. -/
theorem hash_unique {h h' : BlockHash} {slot slot' : Slot} (hs : p.cached.get? h = some slot)
    (hs' : p.cached.get? h' = some slot') (hid : slot.blockId = slot'.blockId) : h = h' := by
  by_contra hne
  have hnd := (List.nodup_append.mp hp.nodup).1
  have herase : (p.cached.erase h).get? h' = some slot' :=
    (SortedMap.get?_erase_of_ne _ _ _ (Ne.symm hne)).trans hs'
  rw [slotIds, ((SortedMap.perm_erase hs).map _).nodup_iff, List.map_cons, List.nodup_cons] at hnd
  exact hnd.1 (List.mem_map.mpr ⟨(h', slot'), SortedMap.mem_entries.mpr herase, hid.symm⟩)

theorem pins_eq_refcnt {h : BlockHash} {slot : Slot} (hs : p.cached.get? h = some slot) :
    p.pins slot.blockId = slot.refcnt := by
  rw [pins, SortedMap.weight_erase _ hs, if_pos rfl, SortedMap.weight_eq_zero]
  · rfl
  · intro k slot' hk
    rw [SortedMap.get?_erase] at hk
    split_ifs at hk with hkh
    exact if_neg (fun hid => hkh (hp.hash_unique hk hs hid))

end Slotted

theorem cached_of_pins {p : BlockPool} {id : ℕ} (h : 0 < p.pins id) :
    ∃ hash slot, p.cached.get? hash = some slot ∧ slot.blockId = id ∧ 0 < slot.refcnt := by
  by_contra hn
  refine h.ne' (SortedMap.weight_eq_zero _ (fun k slot hk => ?_))
  by_cases hid : slot.blockId = id
  · rw [if_pos hid]
    by_contra href
    exact hn ⟨k, slot, hk, hid, Nat.pos_of_ne_zero href⟩
  · exact if_neg hid

theorem pins_of_not_cached {p : BlockPool} {id : ℕ}
    (h : ∀ hash slot, p.cached.get? hash = some slot → slot.blockId ≠ id) : p.pins id = 0 :=
  SortedMap.weight_eq_zero _ (fun k slot hk => if_neg (h k slot hk))

/-- Allocation keeps the partition, with the allocated id held out of both parts. -/
theorem allocateSlot_slotted {p p' : BlockPool} (hp : p.Slotted) {id : ℕ}
    {removed : Option KvCacheEvent} (h : p.allocateSlot = some (id, removed, p')) :
    (id :: (p'.slotIds ++ p'.freeSlots)).Perm (List.range p'.capacity) ∧
      ∀ k, p'.pins k = p.pins k := by
  rcases allocateSlot_cases h with ⟨rest, hfree, _, rfl⟩ | ⟨hash, slot, hfree, hget, href, rfl, _, rfl⟩
  · refine ⟨?_, fun k => rfl⟩
    have hperm := hp
    rw [Slotted, hfree] at hperm
    exact (List.perm_middle.symm).trans hperm
  · constructor
    · have hperm := hp
      rw [Slotted, hfree, List.append_nil] at hperm
      have herase := (SortedMap.perm_erase hget).map (fun e : BlockHash × Slot => e.2.blockId)
      simp only [hfree, List.append_nil]
      exact herase.symm.trans hperm
    · intro k
      have hw : p.pins k = (if slot.blockId = k then slot.refcnt else 0) +
          (p.cached.erase hash).weight (fun _ slot => if slot.blockId = k then slot.refcnt else 0) :=
        SortedMap.weight_erase _ hget
      rw [hw, href, ite_self, Nat.zero_add]
      rfl

/-- The block of hash `h` is pinned in slot `id`. -/
def PinnedAt (p : BlockPool) (h : BlockHash) (id : ℕ) : Prop :=
  ∃ slot, p.cached.get? h = some slot ∧ slot.blockId = id ∧ 0 < slot.refcnt

@[simp] theorem hit_blockIds (s : CacheLoop) (loraName : Option String) (hash : BlockHash)
    (slot : Slot) : (s.hit loraName hash slot).blockIds = s.blockIds ++ [slot.blockId] := by
  simp only [CacheLoop.hit, CacheLoop.flushRun]
  split_ifs <;> rfl

theorem hit_pool (s : CacheLoop) (loraName : Option String) (hash : BlockHash) (slot : Slot) :
    (s.hit loraName hash slot).pool = { s.pool with
      tick := s.pool.tick + 1
      cached := s.pool.cached.insert hash
        { slot with refcnt := slot.refcnt + 1, lastUsed := s.pool.tick + 1 } } := by
  simp only [CacheLoop.hit, CacheLoop.flushRun]
  split_ifs <;> rfl

/-- The block loop as the slots see it: `p` is the pool before, `hashes` the blocks done. -/
structure PinInv (p : BlockPool) (hashes : List BlockHash) (s : CacheLoop) : Prop where
  slotted : s.pool.Slotted
  capacity : s.pool.capacity = p.capacity
  pins : ∀ id, s.pool.pins id = p.pins id + s.blockIds.count id
  held : List.Forall₂ s.pool.PinnedAt hashes s.blockIds

namespace PinInv

variable {p : BlockPool} {hashes : List BlockHash} {s : CacheLoop}

theorem init (hp : p.Slotted) : PinInv p [] (CacheLoop.init p) where
  slotted := hp
  capacity := rfl
  pins := fun id => by simp [CacheLoop.init]
  held := .nil

theorem hit (h : PinInv p hashes s) (loraName : Option String) {hash : BlockHash} {slot : Slot}
    (hget : s.pool.cached.get? hash = some slot) :
    PinInv p (hashes ++ [hash]) (s.hit loraName hash slot) := by
  have hids := hit_blockIds s loraName hash slot
  have hpool := hit_pool s loraName hash slot
  refine ⟨?_, ?_, ?_, ?_⟩
  · rw [hpool, Slotted, slotIds]
    refine List.Perm.trans (List.Perm.append_right _ ?_) h.slotted
    exact ((SortedMap.insert_perm _ _ _).map _).trans
      ((SortedMap.perm_erase hget).map (fun e => e.2.blockId)).symm
  · rw [hpool]
    exact h.capacity
  · intro id
    have hw := SortedMap.weight_insert_of_some
      (v := { slot with refcnt := slot.refcnt + 1, lastUsed := s.pool.tick + 1 })
      (fun _ slot => if slot.blockId = id then slot.refcnt else 0) hget
    have hpins := h.pins id
    rw [BlockPool.pins] at hpins ⊢
    simp only [hpool, hids, List.count_append, List.count_singleton, beq_iff_eq] at hw ⊢
    by_cases hid : slot.blockId = id
    · simp only [hid, if_true] at hw ⊢
      omega
    · simp only [hid, if_false] at hw ⊢
      omega
  · rw [hids]
    apply List.rel_append
    · apply h.held.imp
      rintro h' id ⟨slot', hs', hid', hpos⟩
      rw [PinnedAt, hpool, SortedMap.get?_insert]
      split
      · next heq =>
          rw [heq, hget, Option.some.injEq] at hs'
          subst hs'
          exact ⟨_, rfl, hid', Nat.succ_pos _⟩
      · exact ⟨slot', hs', hid', hpos⟩
    · refine .cons ?_ .nil
      rw [PinnedAt, hpool, SortedMap.get?_insert_self]
      exact ⟨_, rfl, rfl, Nat.succ_pos _⟩

theorem store (h : PinInv p hashes s) {hash : BlockHash} (hnone : s.pool.cached.get? hash = none)
    {id : ℕ} {removed : Option KvCacheEvent} {pool : BlockPool}
    (halloc : s.pool.allocateSlot = some (id, removed, pool)) (toks : List Token) :
    PinInv p (hashes ++ [hash]) ((s.miss hash).store hash toks id removed pool) := by
  obtain ⟨hperm, hpins⟩ := allocateSlot_slotted h.slotted halloc
  have hpoolNone : pool.cached.get? hash = none := by
    rcases allocateSlot_cases halloc with ⟨rest, _, _, rfl⟩ | ⟨gone, slot, _, _, _, _, _, rfl⟩
    · exact hnone
    · rw [SortedMap.get?_erase]
      split_ifs
      · rfl
      · exact hnone
  refine ⟨?_, (allocateSlot_noneSeed halloc).2.2.trans h.capacity, ?_, ?_⟩
  · rw [Slotted]
    refine List.Perm.trans ?_ hperm
    change (((pool.cached.insert hash _).entries.map (fun e => e.2.blockId)) ++ _).Perm _
    refine (List.Perm.append_right _ ((SortedMap.insert_perm _ _ _).map _)).trans ?_
    rw [SortedMap.erase_of_none hpoolNone]
    exact List.Perm.refl _
  · intro k
    change (pool.cached.insert hash _).weight _ = _ + (s.blockIds ++ [id]).count k
    rw [SortedMap.weight_insert_of_none _ hpoolNone, List.count_append, List.count_singleton]
    have hk := h.pins k
    rw [← hpins k, BlockPool.pins] at hk
    rw [hk]
    by_cases hid : id = k
    · simp only [hid, if_true, beq_self_eq_true]
      omega
    · simp only [hid, if_false, beq_iff_eq]
      omega
  · apply List.rel_append
    · apply h.held.imp
      rintro h' k ⟨slot', hs', hid', hpos⟩
      have hne : h' ≠ hash := by
        rintro rfl
        rw [hnone] at hs'
        cases hs'
      exact ⟨slot', (SortedMap.get?_insert_of_ne _ _ _ _ hne).trans
        (allocateSlot_pinned halloc hs' hpos), hid', hpos⟩
    · exact .cons ⟨_, SortedMap.get?_insert_self _ _ _, rfl, Nat.one_pos⟩ .nil

theorem miss_stop (h : PinInv p hashes s) (hash : BlockHash) : PinInv p hashes (s.miss hash) :=
  ⟨h.slotted, h.capacity, h.pins, h.held⟩

theorem flush (h : PinInv p hashes s) (loraName : Option String) :
    PinInv p hashes (s.flushRun loraName) := by
  have hids : (s.flushRun loraName).blockIds = s.blockIds := by
    simp only [CacheLoop.flushRun]
    split_ifs <;> rfl
  have hpool := RouterInv.flushRun_pool (s := s) loraName
  exact ⟨hpool ▸ h.slotted, hpool ▸ h.capacity, by rw [hpool, hids]; exact h.pins,
    by rw [hpool, hids]; exact h.held⟩

end PinInv

theorem cacheBlocks_pins {p : BlockPool} (loraName cacheSalt : Option String)
    (rest : List (List Token)) {hashes : List BlockHash} {s : CacheLoop} (h : PinInv p hashes s) :
    ∃ done, done <+: hashes ++ chainHashes s.pool.noneSeed loraName cacheSalt hashes.length s.parent
      rest ∧ PinInv p done (cacheBlocks loraName cacheSalt hashes.length rest s) := by
  induction rest generalizing hashes s with
  | nil => exact ⟨hashes, List.prefix_append _ _, h⟩
  | cons toks rest ih =>
      simp only [cacheBlocks, chainHashes]
      generalize hashBlock s.pool.noneSeed s.parent toks
        (extraKeys loraName cacheSalt hashes.length) = hash
      rw [← List.singleton_append, ← List.append_assoc]
      split
      · next slot hget =>
          have hi := ih (h.hit loraName hget)
          rw [hit_noneSeed, hit_parent, List.length_append] at hi
          exact hi
      · next hnone =>
          split
          · refine ⟨hashes, ?_, h.miss_stop hash⟩
            rw [List.append_assoc]
            exact List.prefix_append _ _
          · next id removed pool halloc =>
              have hi := ih (h.store hnone halloc toks)
              have hseed : ((s.miss hash).store hash toks id removed pool).pool.noneSeed =
                  s.pool.noneSeed := (allocateSlot_noneSeed halloc).1
              rw [hseed, store_parent, List.length_append] at hi
              exact hi

theorem exists_left_of_mem {α β : Type*} {R : α → β → Prop} {l : List α} {l' : List β}
    (h : List.Forall₂ R l l') {b : β} (hb : b ∈ l') : ∃ a ∈ l, R a b := by
  induction h with
  | nil => cases hb
  | @cons a b' l l' hone _ ih =>
      rcases List.mem_cons.mp hb with rfl | hrest
      · exact ⟨a, List.mem_cons_self, hone⟩
      · obtain ⟨a', ha', hR⟩ := ih hrest
        exact ⟨a', List.mem_cons_of_mem _ ha', hR⟩

/-- Pinned blocks have distinct slots iff they are distinct. -/
theorem Slotted.nodup_held {p : BlockPool} (hp : p.Slotted) {hashes : List BlockHash}
    {ids : List ℕ} (h : List.Forall₂ p.PinnedAt hashes ids) : ids.Nodup ↔ hashes.Nodup := by
  induction h with
  | nil => exact iff_of_true List.nodup_nil List.nodup_nil
  | @cons hash id hashes ids hone hrest ih =>
      rw [List.nodup_cons, List.nodup_cons, ih, not_iff_not.mpr]
      obtain ⟨slot, hs, rfl, _⟩ := hone
      constructor
      · intro hmem
        obtain ⟨hash', hh', slot', hs', hid, _⟩ := exists_left_of_mem hrest hmem
        exact hp.hash_unique hs hs' hid.symm ▸ hh'
      · intro hmem
        obtain ⟨id, hid, slot', hs', heq, _⟩ := exists_left_of_mem hrest.flip hmem
        rw [hs, Option.some.injEq] at hs'
        rw [hs', heq]
        exact hid

/-- Caching a prompt pins the slots it returns, one after another, those of its blocks. -/
theorem cachePrompt_held {p : BlockPool} (hp : p.Slotted) (tokens : List Token)
    (loraName cacheSalt : Option String) :
    (p.cachePrompt tokens loraName cacheSalt).1.Slotted ∧
      (∀ id, (p.cachePrompt tokens loraName cacheSalt).1.pins id = p.pins id +
        (p.cachePrompt tokens loraName cacheSalt).2.blockIds.count id) ∧
      ∃ done, done <+: p.promptHashes tokens loraName cacheSalt ∧
        List.Forall₂ (p.cachePrompt tokens loraName cacheSalt).1.PinnedAt done
          (p.cachePrompt tokens loraName cacheSalt).2.blockIds := by
  let q : BlockPool := { p with
    requests := p.requests + 1
    queries := p.queries + (fullBlocks p.blockSize tokens).length }
  have hq : PinInv q [] (CacheLoop.init q) := PinInv.init hp
  obtain ⟨done, hdone, hinv⟩ := cacheBlocks_pins loraName (effectiveSalt cacheSalt)
    (fullBlocks p.blockSize tokens) hq
  have hfin := hinv.flush loraName
  exact ⟨hfin.slotted, hfin.pins, done, hdone, hfin.held⟩

/-- Caching a prompt with distinct hashes pins exactly the slots it returns, once each. -/
theorem cachePrompt_pins {p : BlockPool} (hp : p.Slotted) (tokens : List Token)
    (loraName cacheSalt : Option String)
    (hnd : (p.promptHashes tokens loraName cacheSalt).Nodup) :
    (p.cachePrompt tokens loraName cacheSalt).1.Slotted ∧
      ∀ id, (p.cachePrompt tokens loraName cacheSalt).1.pins id = p.pins id +
        if id ∈ (p.cachePrompt tokens loraName cacheSalt).2.blockIds then 1 else 0 := by
  obtain ⟨hslotted, hpins, done, hdone, hheld⟩ := cachePrompt_held hp tokens loraName cacheSalt
  have hids := (hslotted.nodup_held hheld).mpr (hdone.sublist.nodup hnd)
  refine ⟨hslotted, fun id => ?_⟩
  rw [hpins, hids.count]

/-- `p` and `p'` hash prompts alike. -/
def HashesAlike (p p' : BlockPool) : Prop := p'.noneSeed = p.noneSeed ∧ p'.blockSize = p.blockSize

theorem HashesAlike.promptHashes {p p' : BlockPool} (h : p.HashesAlike p') (tokens : List Token)
    (loraName cacheSalt : Option String) :
    p'.promptHashes tokens loraName cacheSalt = p.promptHashes tokens loraName cacheSalt := by
  rw [BlockPool.promptHashes, BlockPool.promptHashes, h.1, h.2]

theorem HashesAlike.trans {p p' p'' : BlockPool} (h : p.HashesAlike p') (h' : p'.HashesAlike p'') :
    p.HashesAlike p'' := ⟨h'.1.trans h.1, h'.2.trans h.2⟩

/-- The block loop touches the cached blocks, the free slots and the tick only. -/
theorem cacheBlocks_pool (loraName cacheSalt : Option String) (i : ℕ) (blocks : List (List Token))
    (s : CacheLoop) :
    ∃ cached freeSlots tick, (cacheBlocks loraName cacheSalt i blocks s).pool =
      { s.pool with cached := cached, freeSlots := freeSlots, tick := tick } := by
  induction blocks generalizing i s with
  | nil => exact ⟨_, _, _, rfl⟩
  | cons toks rest ih =>
      simp only [cacheBlocks]
      split
      · next slot _ =>
          obtain ⟨cached, freeSlots, tick, heq⟩ := ih (i + 1) (s.hit loraName _ slot)
          refine ⟨cached, freeSlots, tick, heq.trans ?_⟩
          simp only [CacheLoop.hit, CacheLoop.flushRun]
          split_ifs <;> rfl
      · split
        · exact ⟨_, _, _, rfl⟩
        · next id removed pool halloc =>
            obtain ⟨cached, freeSlots, tick, heq⟩ :=
              ih (i + 1) ((s.miss _).store _ toks id removed pool)
            refine ⟨cached, freeSlots, tick, heq.trans ?_⟩
            rcases allocateSlot_cases halloc with ⟨_, _, _, rfl⟩ | ⟨_, _, _, _, _, _, _, rfl⟩ <;> rfl

/-- Caching a prompt counts one request, its blocks and its hits. -/
theorem cachePrompt_pool (p : BlockPool) (tokens : List Token) (loraName cacheSalt : Option String) :
    ∃ cached freeSlots tick hits, (p.cachePrompt tokens loraName cacheSalt).1 = { p with
      cached := cached
      freeSlots := freeSlots
      tick := tick
      requests := p.requests + 1
      queries := p.queries + (fullBlocks p.blockSize tokens).length
      hits := p.hits + hits } := by
  let q : BlockPool := { p with
    requests := p.requests + 1
    queries := p.queries + (fullBlocks p.blockSize tokens).length }
  let s := cacheBlocks loraName (effectiveSalt cacheSalt) 0 (fullBlocks p.blockSize tokens)
    (CacheLoop.init q)
  obtain ⟨cached, freeSlots, tick, heq⟩ : ∃ cached freeSlots tick,
      s.pool = { q with cached := cached, freeSlots := freeSlots, tick := tick } :=
    cacheBlocks_pool _ _ _ _ _
  refine ⟨cached, freeSlots, tick, s.numCachedBlocks, ?_⟩
  change ({ (s.flushRun loraName).pool with
    hits := (s.flushRun loraName).pool.hits + s.numCachedBlocks } : BlockPool) = _
  rw [RouterInv.flushRun_pool, heq]

theorem cachePrompt_hashesAlike (p : BlockPool) (tokens : List Token)
    (loraName cacheSalt : Option String) :
    p.HashesAlike (p.cachePrompt tokens loraName cacheSalt).1 := by
  obtain ⟨_, _, _, _, heq⟩ := p.cachePrompt_pool tokens loraName cacheSalt
  rw [heq]
  exact ⟨rfl, rfl⟩

theorem reset_hashesAlike (p : BlockPool) : p.HashesAlike p.reset.1 := by
  unfold reset
  split <;> exact ⟨rfl, rfl⟩

/-- Every pinned block of `p` is still pinned in `p'`, in the same slot. -/
def Keeps (p p' : BlockPool) : Prop :=
  ∀ hash slot, p.cached.get? hash = some slot → 0 < slot.refcnt →
    ∃ slot', p'.cached.get? hash = some slot' ∧ slot'.blockId = slot.blockId ∧ 0 < slot'.refcnt

namespace Keeps

theorem refl (p : BlockPool) : p.Keeps p := fun _ slot hs hpos => ⟨slot, hs, rfl, hpos⟩

theorem trans {p p' p'' : BlockPool} (h : p.Keeps p') (h' : p'.Keeps p'') : p.Keeps p'' := by
  intro hash slot hs hpos
  obtain ⟨slot', hs', hid, hpos'⟩ := h hash slot hs hpos
  obtain ⟨slot'', hs'', hid', hpos''⟩ := h' hash slot' hs' hpos'
  exact ⟨slot'', hs'', hid'.trans hid, hpos''⟩

theorem hit {s : CacheLoop} (loraName : Option String) {hash : BlockHash} {slot : Slot}
    (hget : s.pool.cached.get? hash = some slot) :
    s.pool.Keeps (s.hit loraName hash slot).pool := by
  intro hash' slot' hs' hpos
  rw [hit_pool, SortedMap.get?_insert]
  split_ifs with heq
  · subst heq
    rw [hget, Option.some.injEq] at hs'
    subst hs'
    exact ⟨_, rfl, rfl, Nat.succ_pos _⟩
  · exact ⟨slot', hs', rfl, hpos⟩

theorem store {s : CacheLoop} {hash : BlockHash} (hnone : s.pool.cached.get? hash = none)
    {id : ℕ} {removed : Option KvCacheEvent} {pool : BlockPool}
    (halloc : s.pool.allocateSlot = some (id, removed, pool)) (toks : List Token) :
    s.pool.Keeps ((s.miss hash).store hash toks id removed pool).pool := by
  intro hash' slot' hs' hpos
  have hne : hash' ≠ hash := by
    rintro rfl
    rw [hnone] at hs'
    cases hs'
  exact ⟨slot', (SortedMap.get?_insert_of_ne _ _ _ _ hne).trans
    (allocateSlot_pinned halloc hs' hpos), rfl, hpos⟩

theorem cacheBlocks (loraName cacheSalt : Option String) (i : ℕ) (blocks : List (List Token))
    (s : CacheLoop) : s.pool.Keeps (cacheBlocks loraName cacheSalt i blocks s).pool := by
  induction blocks generalizing i s with
  | nil => exact refl _
  | cons toks rest ih =>
      simp only [BlockPool.cacheBlocks]
      split
      · next slot hget => exact (hit loraName hget).trans (ih _ _)
      · next hnone =>
          split
          · exact refl _
          · next id removed pool halloc => exact (store hnone halloc toks).trans (ih _ _)

theorem cachePrompt (p : BlockPool) (tokens : List Token) (loraName cacheSalt : Option String) :
    p.Keeps (p.cachePrompt tokens loraName cacheSalt).1 := by
  have hblocks := cacheBlocks loraName (effectiveSalt cacheSalt) 0 (fullBlocks p.blockSize tokens)
    (CacheLoop.init { p with
      requests := p.requests + 1
      queries := p.queries + (fullBlocks p.blockSize tokens).length })
  simp only [Keeps, BlockPool.cachePrompt, RouterInv.flushRun_pool]
  exact hblocks

end Keeps

theorem unpin_cached {p : BlockPool} (blockIds : List ℕ) {hash : BlockHash} {slot : Slot}
    (h : p.cached.get? hash = some slot) :
    ∃ slot', (p.unpin blockIds).cached.get? hash = some slot' ∧ slot'.blockId = slot.blockId := by
  refine ⟨_, by rw [unpin, SortedMap.get?_mapValues, h]; rfl, ?_⟩
  simp only
  split_ifs <;> rfl

theorem unpin_slotted {p : BlockPool} (hp : p.Slotted) (blockIds : List ℕ) :
    (p.unpin blockIds).Slotted := by
  have hids : (p.unpin blockIds).slotIds = p.slotIds := by
    simp only [slotIds, unpin, SortedMap.mapValues, List.map_map]
    refine List.map_congr_left (fun e _ => ?_)
    simp only [Function.comp_apply]
    split_ifs <;> rfl
  rw [Slotted, hids]
  exact hp

theorem unpin_pins {p : BlockPool} (hp : p.Slotted) (blockIds : List ℕ) (id : ℕ) :
    (p.unpin blockIds).pins id = p.pins id - if id ∈ blockIds then 1 else 0 := by
  by_cases hc : ∃ h slot, p.cached.get? h = some slot ∧ slot.blockId = id
  · obtain ⟨h, slot, hs, rfl⟩ := hc
    have hget : (p.unpin blockIds).cached.get? h = some
        (if slot.blockId ∈ blockIds ∧ 0 < slot.refcnt then { slot with refcnt := slot.refcnt - 1 }
        else slot) := by
      simp [unpin, hs]
    have hpins := (unpin_slotted hp blockIds).pins_eq_refcnt hget
    have hid : (if slot.blockId ∈ blockIds ∧ 0 < slot.refcnt then
        { slot with refcnt := slot.refcnt - 1 } else slot).blockId = slot.blockId := by
      split_ifs <;> rfl
    rw [hid] at hpins
    rw [hpins, hp.pins_eq_refcnt hs]
    split_ifs <;> simp_all
  · have hnone : ∀ h slot, p.cached.get? h = some slot → slot.blockId ≠ id := fun h slot hs heq =>
      hc ⟨h, slot, hs, heq⟩
    rw [pins_of_not_cached hnone, Nat.zero_sub]
    refine pins_of_not_cached (fun h slot hs => ?_)
    simp only [unpin, SortedMap.get?_mapValues, Option.map_eq_some_iff] at hs
    obtain ⟨slot', hs', rfl⟩ := hs
    have hne := hnone h slot' hs'
    split_ifs <;> exact hne

theorem reset_slotted {p : BlockPool} (hp : p.Slotted) : p.reset.1.Slotted := by
  unfold reset
  split
  · exact hp
  · exact List.Perm.refl _

theorem reset_pins (p : BlockPool) (id : ℕ) : p.reset.1.pins id = 0 := by
  unfold reset
  split
  · next he =>
      exact SortedMap.weight_eq_zero _ (fun k slot hk => by
        simp [SortedMap.isEmpty_iff.mp he k] at hk)
  · rfl

theorem calls_slotted {p : BlockPool} (hp : p.Slotted) (cs : List Call) : (p.calls cs).1.Slotted := by
  induction cs generalizing p with
  | nil => exact hp
  | cons c cs ih =>
      apply ih
      cases c with
      | cachePrompt tokens loraName cacheSalt => exact (cachePrompt_held hp tokens loraName cacheSalt).1
      | unpin blockIds => exact unpin_slotted hp blockIds
      | reset => exact reset_slotted hp

/-- Draining the counters leaves the blocks alone. -/
@[simp] theorem takeStats_cached (p : BlockPool) : p.takeStats.1.cached = p.cached := rfl

end VllmVcr.BlockPool
