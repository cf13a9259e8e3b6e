import Mathlib.Data.Nat.Find
import VllmVcr.BlockPoolSlots

/-!
# Holes in cached prompts

A cached block can outlive the block before it in its prompt. As long as such a block is the next
to be evicted, no prompt meets it: the miss before it takes its slot.
-/

namespace VllmVcr.BlockPool

/-! ## Blocks and the blocks before them -/

/-- `pred` tells for each of the hashes the one before it. -/
def Linked (pred : BlockHash → Option BlockHash) (hashes : List BlockHash) : Prop :=
  ∀ (i : ℕ) (hash : BlockHash), hashes[i]? = some hash →
    pred hash = if i = 0 then none else hashes[i - 1]?

namespace Linked

variable {pred : BlockHash → Option BlockHash} {hashes done : List BlockHash}

theorem of_prefix (h : Linked pred hashes) (hdone : done <+: hashes) : Linked pred done := by
  obtain ⟨rest, rfl⟩ := hdone
  intro i hash hi
  have hlt : i < done.length := (List.getElem?_eq_some_iff.mp hi).1
  rw [h i hash (by rw [List.getElem?_append_left hlt, hi])]
  split
  · rfl
  · rw [List.getElem?_append_left (by omega)]

theorem nodup (h : Linked pred hashes) : hashes.Nodup := by
  rw [List.nodup_iff_getElem?_ne_getElem?]
  intro i
  induction i with
  | zero =>
      intro j hij hj heq
      have hfirst := h 0 hashes[j] (by rw [heq, List.getElem?_eq_getElem hj])
      have hlast := h j hashes[j] (List.getElem?_eq_getElem hj)
      rw [if_pos rfl] at hfirst
      rw [if_neg (by omega), hfirst, List.getElem?_eq_getElem (by omega)] at hlast
      cases hlast
  | succ i ih =>
      intro j hij hj heq
      have hi := h (i + 1) hashes[j] (by rw [heq, List.getElem?_eq_getElem hj])
      have hlast := h j hashes[j] (List.getElem?_eq_getElem hj)
      rw [if_neg (by omega), Nat.add_sub_cancel] at hi
      rw [if_neg (by omega), hi] at hlast
      exact ih (j - 1) (by omega) (by omega) hlast

theorem mem_pred (h : Linked pred hashes) {hash hash' : BlockHash} (hmem : hash ∈ hashes)
    (hpred : pred hash = some hash') : hash' ∈ hashes := by
  obtain ⟨i, hi⟩ := List.getElem?_of_mem hmem
  have hprev := h i hash hi
  rw [hpred] at hprev
  split at hprev
  · cases hprev
  · exact List.mem_of_getElem? hprev.symm

end Linked

/-! ## What requests hold -/

variable {pred : BlockHash → Option BlockHash} {p : BlockPool}

/-- The pins are those of the requests that hold the slots `held`, each of them on blocks from the
start of a prompt on. -/
structure HeldBy (pred : BlockHash → Option BlockHash) (held : List (List ℕ)) (p : BlockPool) :
    Prop where
  slotted : p.Slotted
  pins : ∀ id, p.pins id = (held.map (List.count id)).sum
  linked : ∀ ids ∈ held, ∃ hashes, Linked pred hashes ∧ List.Forall₂ p.PinnedAt hashes ids

/-- The block before a pinned one is pinned. -/
def PinnedOnward (pred : BlockHash → Option BlockHash) (p : BlockPool) : Prop :=
  ∀ hash slot hash', p.cached.get? hash = some slot → 0 < slot.refcnt → pred hash = some hash' →
    ∃ slot', p.cached.get? hash' = some slot' ∧ 0 < slot'.refcnt

namespace HeldBy

variable {held : List (List ℕ)}

theorem new (blockSize capacity : ℕ) (noneSeed : BlockHash) :
    HeldBy pred [] (new blockSize capacity noneSeed) where
  slotted := slotted_new blockSize capacity noneSeed
  pins id := pins_new blockSize capacity noneSeed id
  linked _ hids := absurd hids List.not_mem_nil

theorem pinnedOnward (h : HeldBy pred held p) : PinnedOnward pred p := by
  intro hash slot hash' hget hpos hpred
  have hpins := h.pins slot.blockId
  rw [h.slotted.pins_eq_refcnt hget] at hpins
  obtain ⟨count, hcount, hne⟩ : ∃ count ∈ held.map (List.count slot.blockId), count ≠ 0 := by
    by_contra hall
    push Not at hall
    have hzero := List.sum_eq_zero hall
    omega
  obtain ⟨ids, hids, rfl⟩ := List.mem_map.mp hcount
  obtain ⟨hashes, hlinked, hheld⟩ := h.linked ids hids
  obtain ⟨hash₁, hmem, slot₁, hget₁, hid₁, _⟩ :=
    exists_left_of_mem hheld (List.count_pos_iff.mp (Nat.pos_of_ne_zero hne))
  obtain rfl : hash = hash₁ := h.slotted.hash_unique hget hget₁ hid₁.symm
  obtain ⟨id, _, slot', hget', _, hpos'⟩ :=
    exists_left_of_mem hheld.flip (hlinked.mem_pred hmem hpred)
  exact ⟨slot', hget', hpos'⟩

/-- Pins more: those of one request. -/
theorem add (h : HeldBy pred held p) {p' : BlockPool} {ids : List ℕ} {hashes : List BlockHash}
    (hslotted : p'.Slotted) (hpins : ∀ id, p'.pins id = p.pins id + ids.count id)
    (hkeeps : p.Keeps p') (hlinked : Linked pred hashes)
    (hheld : List.Forall₂ p'.PinnedAt hashes ids) : HeldBy pred (ids :: held) p' where
  slotted := hslotted
  pins id := by rw [hpins, h.pins, List.map_cons, List.sum_cons, Nat.add_comm]
  linked ids' hids := by
    rcases List.mem_cons.mp hids with rfl | hold
    · exact ⟨hashes, hlinked, hheld⟩
    · obtain ⟨hashes', hlinked', hheld'⟩ := h.linked ids' hold
      refine ⟨hashes', hlinked', hheld'.imp ?_⟩
      rintro hash id ⟨slot, hget, hid, hpos⟩
      obtain ⟨slot', hget', hid', hpos'⟩ := hkeeps hash slot hget hpos
      exact ⟨slot', hget', hid'.trans hid, hpos'⟩

theorem unpin (h : HeldBy pred held p) {ids : List ℕ} (hids : ids ∈ held) :
    HeldBy pred (held.erase ids) (p.unpin ids) := by
  have hsum : ∀ id, (held.map (List.count id)).sum =
      ids.count id + ((held.erase ids).map (List.count id)).sum := fun id =>
    ((List.perm_cons_erase hids).map (List.count id)).sum_eq
  have hpins : ∀ id, (p.unpin ids).pins id = ((held.erase ids).map (List.count id)).sum := by
    intro id
    obtain ⟨hashes, hlinked, hheld⟩ := h.linked ids hids
    have hnodup := (h.slotted.nodup_held hheld).mpr hlinked.nodup
    rw [unpin_pins h.slotted, h.pins, hsum, hnodup.count]
    omega
  refine ⟨unpin_slotted h.slotted ids, hpins, fun ids' hids' => ?_⟩
  obtain ⟨hashes, hlinked, hheld⟩ := h.linked ids' (List.mem_of_mem_erase hids')
  refine ⟨hashes, hlinked, ?_⟩
  have hstill : ∀ hash id, p.PinnedAt hash id → id ∈ ids' → (p.unpin ids).PinnedAt hash id := by
    rintro hash id ⟨slot, hget, rfl, _⟩ hid
    obtain ⟨slot', hget', hid'⟩ := unpin_cached ids hget
    refine ⟨slot', hget', hid', ?_⟩
    rw [← (unpin_slotted h.slotted ids).pins_eq_refcnt hget', hid', hpins]
    have hone := List.count_pos_iff.mpr hid
    have hmem : List.count slot.blockId ids' ∈ (held.erase ids).map (List.count slot.blockId) :=
      List.mem_map_of_mem hids'
    exact hone.trans_le (List.le_sum_of_mem hmem)
  exact List.forall₂_iff_zip.mpr ⟨hheld.length_eq, fun hmem =>
    hstill _ _ ((List.forall₂_iff_zip.mp hheld).2 hmem) (List.of_mem_zip hmem).2⟩

/-- Along the blocks of a call its request is one that holds slots. -/
theorem loopAt (h : HeldBy pred held p) {tokens : List Token} {loraName cacheSalt : Option String}
    (hlinked : Linked pred (p.promptHashes tokens loraName cacheSalt)) (i : ℕ) :
    HeldBy pred ((p.loopAt tokens loraName cacheSalt i).blockIds :: held)
      (p.loopAt tokens loraName cacheSalt i).pool := by
  obtain ⟨done, hdone, hinv⟩ := p.loopAt_pins tokens loraName cacheSalt h.slotted i
  exact h.add hinv.slotted hinv.pins (p.loopAt_keeps_all tokens loraName cacheSalt i)
    (hlinked.of_prefix hdone) hinv.held

theorem cachePrompt (h : HeldBy pred held p) {tokens : List Token}
    {loraName cacheSalt : Option String}
    (hlinked : Linked pred (p.promptHashes tokens loraName cacheSalt)) :
    HeldBy pred ((p.cachePrompt tokens loraName cacheSalt).2.blockIds :: held)
      (p.cachePrompt tokens loraName cacheSalt).1 := by
  obtain ⟨hslotted, hpins, done, hdone, hheld⟩ :=
    cachePrompt_held h.slotted tokens loraName cacheSalt
  exact h.add hslotted hpins (Keeps.cachePrompt p tokens loraName cacheSalt)
    (hlinked.of_prefix hdone) hheld

end HeldBy

/-! ## Ticks -/

/-- Blocks are used one after another: a block no more than a tick after the one before it. -/
structure Ticked (pred : BlockHash → Option BlockHash) (tick : ℕ)
    (cached : SortedMap BlockHash Slot) : Prop where
  bounded : ∀ hash slot, cached.get? hash = some slot → slot.lastUsed ≤ tick
  distinct : ∀ hash hash' slot slot', cached.get? hash = some slot →
    cached.get? hash' = some slot' → slot.lastUsed = slot'.lastUsed → hash = hash'
  order : ∀ hash hash' slot slot', cached.get? hash = some slot →
    cached.get? hash' = some slot' → pred hash = some hash' →
      slot.lastUsed ≤ slot'.lastUsed + 1

namespace Ticked

variable {tick : ℕ} {cached : SortedMap BlockHash Slot}

theorem erase (h : Ticked pred tick cached) (gone : BlockHash) :
    Ticked pred tick (cached.erase gone) := by
  have hold : ∀ {hash slot}, (cached.erase gone).get? hash = some slot →
      cached.get? hash = some slot := by
    intro hash slot hget
    rw [SortedMap.get?_erase] at hget
    split_ifs at hget
    exact hget
  exact ⟨fun hash slot hget => h.bounded hash slot (hold hget),
    fun hash hash' slot slot' hget hget' => h.distinct hash hash' slot slot' (hold hget) (hold hget'),
    fun hash hash' slot slot' hget hget' => h.order hash hash' slot slot' (hold hget) (hold hget')⟩

/-- The next tick goes to a block right after the one before it. -/
theorem use (h : Ticked pred tick cached) {hash : BlockHash} {slot : Slot}
    (hslot : slot.lastUsed = tick + 1)
    (hbefore : ∀ hash', pred hash = some hash' →
      ∃ slot', cached.get? hash' = some slot' ∧ slot'.lastUsed = tick) :
    Ticked pred (tick + 1) (cached.insert hash slot) := by
  refine ⟨?_, ?_, ?_⟩
  · intro k slot₁ hget
    rw [SortedMap.get?_insert] at hget
    split_ifs at hget
    · cases hget
      exact hslot.le
    · exact Nat.le_succ_of_le (h.bounded k slot₁ hget)
  · intro k k' slot₁ slot₂ hget hget' heq
    rw [SortedMap.get?_insert] at hget hget'
    split_ifs at hget hget' with hk hk'
    · rw [hk, hk']
    · cases hget
      have hle := h.bounded k' slot₂ hget'
      omega
    · cases hget'
      have hle := h.bounded k slot₁ hget
      omega
    · exact h.distinct k k' slot₁ slot₂ hget hget' heq
  · intro k k' slot₁ slot₂ hget hget' hpred
    rw [SortedMap.get?_insert] at hget hget'
    split_ifs at hget hget' with hk hk'
    · cases hget
      cases hget'
      exact Nat.le_succ _
    · cases hget
      obtain ⟨slot', hslot', htick⟩ := hbefore k' (hk ▸ hpred)
      rw [hget', Option.some.injEq] at hslot'
      subst hslot'
      omega
    · cases hget'
      have hle := h.bounded k slot₁ hget
      omega
    · exact h.order k k' slot₁ slot₂ hget hget' hpred

end Ticked

/-- The block in the slot is the next to be evicted. -/
structure NextOut (p : BlockPool) (slot : Slot) : Prop where
  full : p.freeSlots = []
  oldest : ∀ hash slot', p.cached.get? hash = some slot' → slot'.refcnt = 0 →
    slot.lastUsed ≤ slot'.lastUsed

/-- A block that has outlived the one before it is the next to be evicted. -/
structure Tidy (pred : BlockHash → Option BlockHash) (p : BlockPool) : Prop where
  ticked : Ticked pred p.tick p.cached
  orphan : ∀ hash slot hash', p.cached.get? hash = some slot → pred hash = some hash' →
    p.cached.get? hash' = none → p.NextOut slot

theorem allocateSlot_evicts {p p' : BlockPool} {id : ℕ} {removed : Option KvCacheEvent}
    (h : p.allocateSlot = some (id, removed, p')) :
    (∃ rest, p.freeSlots = id :: rest ∧ p' = { p with freeSlots := rest }) ∨
    ∃ hash slot, p.cached.get? hash = some slot ∧ slot.refcnt = 0 ∧ p.NextOut slot ∧
      p' = { p with cached := p.cached.erase hash } := by
  unfold allocateSlot at h
  split at h
  · next id' rest hfree =>
      cases h
      exact Or.inl ⟨rest, hfree, rfl⟩
  · next hfree =>
      split at h
      · cases h
      · next hash slot hvictim =>
          cases h
          obtain ⟨hget, hunpinned⟩ := victim_spec hvictim
          refine Or.inr ⟨hash, slot, hget, hunpinned, ⟨hfree, fun k slot' hk hzero => ?_⟩, rfl⟩
          have hmem : (k, slot') ∈ p.cached.entries.filter (fun e => e.2.refcnt = 0) :=
            List.mem_filter.mpr ⟨SortedMap.mem_entries.mpr hk, by simpa using hzero⟩
          exact List.le_of_mem_argmin (f := fun e : BlockHash × Slot => e.2.lastUsed) hmem hvictim

namespace Tidy

variable {loraName : Option String} {hash : BlockHash} {toks : List Token} {s s' : CacheLoop}

theorem congr (h : Tidy pred p) {p' : BlockPool} (hcached : p'.cached = p.cached)
    (htick : p'.tick = p.tick) (hfree : p'.freeSlots = p.freeSlots) : Tidy pred p' where
  ticked := hcached ▸ htick ▸ h.ticked
  orphan hash slot hash' hget hpred hnone := by
    rw [hcached] at hget hnone
    obtain ⟨hfull, holdest⟩ := h.orphan hash slot hash' hget hpred hnone
    exact ⟨hfree.trans hfull, hcached ▸ holdest⟩

theorem new (blockSize capacity : ℕ) (noneSeed : BlockHash) :
    Tidy pred (new blockSize capacity noneSeed) where
  ticked :=
    { bounded := fun _ _ hget => by cases hget
      distinct := fun _ _ _ _ hget => by cases hget
      order := fun _ _ _ _ hget => by cases hget }
  orphan := fun _ _ _ hget => by cases hget

/-- The block after a missed one is not cached once the missed one is. -/
theorem evicts (h : Tidy pred s.pool) (honward : PinnedOnward pred s.pool)
    (hlooks : Looks loraName hash toks s s') (hmiss : s.pool.cached.get? hash = none)
    {after : BlockHash} (hpred : pred after = some hash) (hne : after ≠ hash) :
    s'.pool.cached.get? after = none := by
  rw [Option.eq_none_iff_forall_not_mem]
  intro slot hslot
  have hget := (hlooks.frame hne).1 slot hslot
  obtain ⟨hfull, holdest⟩ := h.orphan after slot hash hget hpred hmiss
  cases hlooks with
  | hit hcached =>
      rw [hmiss] at hcached
      cases hcached
  | @store id removed pool _ halloc =>
      rcases allocateSlot_evicts halloc with ⟨rest, hfree, _⟩ | ⟨gone, slot', hgone, hzero, hnext, rfl⟩
      · rw [hfull] at hfree
        cases hfree
      · have hunpinned : slot.refcnt = 0 := by
          by_contra hpinned
          obtain ⟨slot₁, hslot₁, _⟩ := honward after slot hash hget (Nat.pos_of_ne_zero hpinned) hpred
          rw [hmiss] at hslot₁
          cases hslot₁
        have heq : after = gone := h.ticked.distinct after gone slot slot' hget hgone
          (le_antisymm (holdest gone slot' hgone hzero) (hnext.oldest after slot hget hunpinned))
        subst heq
        have hsame : (((s.miss hash).store hash toks id removed
            { s.pool with cached := s.pool.cached.erase after }).pool.cached.get? after) =
            (s.pool.cached.erase after).get? after := SortedMap.get?_insert_of_ne _ _ _ _ hne
        rw [hsame, SortedMap.get?_erase, if_pos rfl] at hslot
        cases hslot

theorem looks (h : Tidy pred s.pool) (hlooks : Looks loraName hash toks s s')
    (hbefore : ∀ hash', pred hash = some hash' → ∃ slot', s.pool.cached.get? hash' = some slot' ∧
      slot'.lastUsed = s.pool.tick ∧ 0 < slot'.refcnt) :
    Tidy pred s'.pool ∧ ∃ slot, s'.pool.cached.get? hash = some slot ∧
      slot.lastUsed = s'.pool.tick ∧ 0 < slot.refcnt := by
  have hbefore' : ∀ hash', pred hash = some hash' →
      ∃ slot', s.pool.cached.get? hash' = some slot' ∧ slot'.lastUsed = s.pool.tick := by
    intro hash' hpred
    obtain ⟨slot', hget, htick, _⟩ := hbefore hash' hpred
    exact ⟨slot', hget, htick⟩
  cases hlooks with
  | @hit slot hget =>
      rw [hit_pool]
      refine ⟨⟨h.ticked.use rfl hbefore', ?_⟩, _, SortedMap.get?_insert_self _ _ _, rfl,
        Nat.succ_pos _⟩
      intro k slot₁ k' hk hpred hnone
      dsimp only at hk hnone ⊢
      rw [SortedMap.get?_insert] at hk hnone
      split_ifs at hnone with hk'
      split_ifs at hk with hkk
      · cases hk
        obtain ⟨slot', hslot', _⟩ := hbefore' k' (hkk ▸ hpred)
        rw [hnone] at hslot'
        cases hslot'
      · obtain ⟨hfull, holdest⟩ := h.orphan k slot₁ k' hk hpred hnone
        refine ⟨hfull, fun l slot₂ hl hzero => ?_⟩
        dsimp only at hl
        rw [SortedMap.get?_insert] at hl
        split_ifs at hl
        · cases hl
          cases hzero
        · exact holdest l slot₂ hl hzero
  | @store id removed pool hget halloc =>
      rcases allocateSlot_evicts halloc with ⟨rest, hfree, rfl⟩ |
        ⟨gone, slot, hgone, hzero, hnext, rfl⟩
      · refine ⟨⟨h.ticked.use rfl hbefore', ?_⟩, _, SortedMap.get?_insert_self _ _ _, rfl,
          Nat.one_pos⟩
        intro k slot₁ k' hk hpred hnone
        have hcontra : ∀ slot₂, s.pool.cached.get? k = some slot₂ →
            s.pool.cached.get? k' = none → False := by
          intro slot₂ hk₂ hnone₂
          have hfull := (h.orphan k slot₂ k' hk₂ hpred hnone₂).full
          rw [hfree] at hfull
          cases hfull
        simp only [CacheLoop.store, SortedMap.get?_insert] at hk hnone
        split_ifs at hnone with hk'
        split_ifs at hk with hkk
        · obtain ⟨slot', hslot', _⟩ := hbefore' k' (hkk ▸ hpred)
          rw [hnone] at hslot'
          cases hslot'
        · exact (hcontra slot₁ hk hnone).elim
      · have hpinned : ∀ hash', pred hash = some hash' → hash' ≠ gone := by
          rintro hash' hpred rfl
          obtain ⟨slot', hslot', _, hpos⟩ := hbefore hash' hpred
          rw [hgone, Option.some.injEq] at hslot'
          subst hslot'
          omega
        refine ⟨⟨(h.ticked.erase gone).use rfl ?_, ?_⟩, _, SortedMap.get?_insert_self _ _ _, rfl,
          Nat.one_pos⟩
        · intro hash' hpred
          obtain ⟨slot', hslot', htick⟩ := hbefore' hash' hpred
          exact ⟨slot', (SortedMap.get?_erase_of_ne _ _ _ (hpinned hash' hpred)).trans hslot', htick⟩
        · intro k slot₁ k' hk hpred hnone
          simp only [CacheLoop.store, SortedMap.get?_insert, SortedMap.get?_erase] at hk hnone
          split_ifs at hk with hkk hkgone
          · subst hkk
            split_ifs at hnone with hk' hk'gone
            · exact absurd hk'gone (hpinned k' hpred)
            · obtain ⟨slot', hslot', _⟩ := hbefore' k' hpred
              rw [hnone] at hslot'
              cases hslot'
          · -- The block is older than any other unpinned one, or a tick younger than the evicted.
            have hyoung : slot₁.lastUsed ≤ slot.lastUsed + 1 := by
              split_ifs at hnone with hk' hk'gone
              · subst hk'gone
                exact h.ticked.order k k' slot₁ slot hk hgone hpred
              · have hle := (h.orphan k slot₁ k' hk hpred hnone).oldest gone slot hgone hzero
                omega
            refine ⟨hnext.full, fun l slot₂ hl hunpinned => ?_⟩
            simp only [CacheLoop.store, SortedMap.get?_insert, SortedMap.get?_erase] at hl
            split_ifs at hl with hlh hlgone
            · cases hl
              cases hunpinned
            · have hle := hnext.oldest l slot₂ hl hunpinned
              have hne : slot.lastUsed ≠ slot₂.lastUsed := fun heq =>
                hlgone (h.ticked.distinct gone l slot slot₂ hgone hl heq).symm
              omega

end Tidy

/-- The release makes no block evictable that is older than one that has outlived the block
before it. -/
def Spares (pred : BlockHash → Option BlockHash) (p : BlockPool) (ids : List ℕ) : Prop :=
  ∀ hash slot hash', p.cached.get? hash = some slot → pred hash = some hash' →
    p.cached.get? hash' = none → ∀ k slot', p.cached.get? k = some slot' → slot'.blockId ∈ ids →
      slot'.refcnt = 1 → slot.lastUsed ≤ slot'.lastUsed

theorem Tidy.unpin (h : Tidy pred p) {ids : List ℕ} (hspares : Spares pred p ids) :
    Tidy pred (p.unpin ids) := by
  have hold : ∀ {hash slot}, (p.unpin ids).cached.get? hash = some slot →
      ∃ slot', p.cached.get? hash = some slot' ∧ slot.lastUsed = slot'.lastUsed ∧
        (slot.refcnt = 0 → slot'.refcnt = 0 ∨ slot'.blockId ∈ ids ∧ slot'.refcnt = 1) := by
    intro hash slot hget
    rw [BlockPool.unpin, SortedMap.get?_mapValues] at hget
    obtain ⟨slot', hslot', rfl⟩ := Option.map_eq_some_iff.mp hget
    refine ⟨slot', hslot', ?_⟩
    split_ifs with hreleased
    · exact ⟨rfl, fun hzero => Or.inr ⟨hreleased.1, by dsimp only at hzero; omega⟩⟩
    · exact ⟨rfl, Or.inl⟩
  refine ⟨⟨?_, ?_, ?_⟩, ?_⟩
  · intro hash slot hget
    obtain ⟨slot', hget', htick, _⟩ := hold hget
    exact htick ▸ h.ticked.bounded hash slot' hget'
  · intro hash hash' slot slot' hget hget' heq
    obtain ⟨slot₁, hget₁, htick, _⟩ := hold hget
    obtain ⟨slot₂, hget₂, htick', _⟩ := hold hget'
    exact h.ticked.distinct hash hash' slot₁ slot₂ hget₁ hget₂
      (htick.symm.trans (heq.trans htick'))
  · intro hash hash' slot slot' hget hget' hpred
    obtain ⟨slot₁, hget₁, htick, _⟩ := hold hget
    obtain ⟨slot₂, hget₂, htick', _⟩ := hold hget'
    rw [htick, htick']
    exact h.ticked.order hash hash' slot₁ slot₂ hget₁ hget₂ hpred
  · intro hash slot hash' hget hpred hnone
    obtain ⟨slot₁, hget₁, htick, _⟩ := hold hget
    have hnone' : p.cached.get? hash' = none := by
      rw [BlockPool.unpin, SortedMap.get?_mapValues] at hnone
      exact Option.map_eq_none_iff.mp hnone
    obtain ⟨hfull, holdest⟩ := h.orphan hash slot₁ hash' hget₁ hpred hnone'
    refine ⟨hfull, fun k slot' hk hzero => ?_⟩
    obtain ⟨slot₂, hk₂, htick', hreleased⟩ := hold hk
    rw [htick, htick']
    rcases hreleased hzero with hunpinned | ⟨hid, hone⟩
    · exact holdest k slot₂ hk₂ hunpinned
    · exact hspares hash slot₁ hash' hget₁ hpred hnone' k slot₂ hk₂ hid hone

/-! ## The blocks of a call -/

theorem cacheBlocks_blockIds_le (loraName cacheSalt : Option String) (i : ℕ)
    (blocks : List (List Token)) (s : CacheLoop) :
    s.blockIds.length ≤ (cacheBlocks loraName cacheSalt i blocks s).blockIds.length := by
  induction blocks generalizing i s with
  | nil => exact le_rfl
  | cons toks rest ih =>
      rcases cacheBlocks_cons loraName cacheSalt i toks s with ⟨s', hlooks, hrest⟩ | ⟨_, _, hrest⟩
      · have hlen := hlooks.length_blockIds
        have hle := ih (i + 1) s'
        rw [hrest]
        omega
      · rw [hrest]
        exact le_rfl

section Prompt

variable {held : List (List ℕ)} {tokens : List Token} {loraName cacheSalt : Option String}

variable (p tokens loraName cacheSalt) in
/-- Where the call gets no slot, it leaves the pool as it is. -/
theorem loopAt_stopped : (p.loopAt tokens loraName cacheSalt
      (fullBlocks p.blockSize tokens).length).pool =
    (p.loopAt tokens loraName cacheSalt
      (p.cachePrompt tokens loraName cacheSalt).2.blockIds.length).pool := by
  obtain ⟨hle, hlen⟩ := p.loopAt_reached tokens loraName cacheSalt
    (le_refl (p.cachePrompt tokens loraName cacheSalt).2.blockIds.length)
  obtain ⟨hgo, _⟩ := p.loopAt_continues tokens loraName cacheSalt
    (le_refl (p.cachePrompt tokens loraName cacheSalt).2.blockIds.length)
  have hall := hgo _ hle
  have hids := cachePrompt_blockIds p tokens loraName cacheSalt
  generalize (p.cachePrompt tokens loraName cacheSalt).2.blockIds = ids at *
  rw [List.take_length] at hall
  rw [hall] at hids ⊢
  cases hrest : (fullBlocks p.blockSize tokens).drop ids.length with
  | nil => rfl
  | cons toks rest =>
      rw [hrest] at hids
      rcases cacheBlocks_cons loraName (effectiveSalt cacheSalt) ids.length toks
        (p.loopAt tokens loraName cacheSalt ids.length) with ⟨s', hlooks, hnext⟩ | ⟨_, _, hstop⟩
      · have hlooked := hlooks.length_blockIds
        have hmore := cacheBlocks_blockIds_le loraName (effectiveSalt cacheSalt) (ids.length + 1)
          rest s'
        rw [← hnext, ← hids] at hmore
        omega
      · rw [hstop]
        rfl

theorem loopAt_tidy (h : Tidy pred p)
    (hlinked : Linked pred (p.promptHashes tokens loraName cacheSalt)) {i : ℕ}
    (hi : i ≤ (p.cachePrompt tokens loraName cacheSalt).2.blockIds.length) :
    Tidy pred (p.loopAt tokens loraName cacheSalt i).pool ∧
      ∀ hash, 0 < i → (p.promptHashes tokens loraName cacheSalt)[i - 1]? = some hash →
        ∃ slot, (p.loopAt tokens loraName cacheSalt i).pool.cached.get? hash = some slot ∧
          slot.lastUsed = (p.loopAt tokens loraName cacheSalt i).pool.tick ∧ 0 < slot.refcnt := by
  induction i with
  | zero => exact ⟨h.congr rfl rfl rfl, fun _ hpos => absurd hpos (Nat.lt_irrefl 0)⟩
  | succ i ih =>
      obtain ⟨htidy, hlast⟩ := ih (Nat.le_of_succ_le hi)
      obtain ⟨hash, toks, hhash, hlooks⟩ := p.loopAt_looks tokens loraName cacheSalt hi
      obtain ⟨htidy', hused⟩ := htidy.looks hlooks (by
        intro hash' hpred
        have hprev := hlinked i hash hhash
        rw [hpred] at hprev
        split at hprev
        · cases hprev
        · next hi₀ => exact hlast hash' (Nat.pos_of_ne_zero hi₀) hprev.symm)
      refine ⟨htidy', fun hash' _ hhash' => ?_⟩
      rw [Nat.add_sub_cancel, hhash, Option.some.injEq] at hhash'
      exact hhash' ▸ hused

theorem cachePrompt_tidy (h : Tidy pred p)
    (hlinked : Linked pred (p.promptHashes tokens loraName cacheSalt)) :
    Tidy pred (p.cachePrompt tokens loraName cacheSalt).1 := by
  have hend := (loopAt_tidy h hlinked le_rfl).1
  rw [← loopAt_stopped, loopAt_all p tokens loraName cacheSalt le_rfl] at hend
  refine hend.congr ?_ ?_ ?_ <;> rw [cachePrompt] <;> dsimp only <;>
    rw [RouterInv.flushRun_pool] <;> rfl

variable (p tokens loraName cacheSalt) in
/-- Once a block of the prompt is missed, so is every later one that the call looks up. -/
def HitsFirst : Prop :=
  ∀ (i j : ℕ) (hash hash' : BlockHash), i < j →
    j ≤ (p.cachePrompt tokens loraName cacheSalt).2.blockIds.length →
    (p.promptHashes tokens loraName cacheSalt)[i]? = some hash →
    (p.promptHashes tokens loraName cacheSalt)[j]? = some hash' →
    (p.loopAt tokens loraName cacheSalt i).pool.cached.get? hash = none →
      (p.loopAt tokens loraName cacheSalt j).pool.cached.get? hash' = none

theorem Tidy.hitsFirst (h : Tidy pred p) (hheld : HeldBy pred held p)
    (hlinked : Linked pred (p.promptHashes tokens loraName cacheSalt)) :
    p.HitsFirst tokens loraName cacheSalt := by
  have hnext : ∀ (j : ℕ) hash hash',
      j + 1 ≤ (p.cachePrompt tokens loraName cacheSalt).2.blockIds.length →
      (p.promptHashes tokens loraName cacheSalt)[j]? = some hash →
      (p.promptHashes tokens loraName cacheSalt)[j + 1]? = some hash' →
      (p.loopAt tokens loraName cacheSalt j).pool.cached.get? hash = none →
        (p.loopAt tokens loraName cacheSalt (j + 1)).pool.cached.get? hash' = none := by
    intro j hash hash' hlen hhash hhash' hmiss
    obtain ⟨hash₁, toks, hhash₁, hlooks⟩ := p.loopAt_looks tokens loraName cacheSalt hlen
    obtain rfl : hash = hash₁ := Option.some.inj (hhash.symm.trans hhash₁)
    have hpred := hlinked (j + 1) hash' hhash'
    rw [if_neg (Nat.succ_ne_zero j), Nat.add_sub_cancel, hhash] at hpred
    refine (loopAt_tidy h hlinked (Nat.le_of_succ_le hlen)).1.evicts
      (hheld.loopAt hlinked j).pinnedOnward hlooks hmiss hpred ?_
    rintro rfl
    have hlt : j + 1 < (p.promptHashes tokens loraName cacheSalt).length :=
      (List.getElem?_eq_some_iff.mp hhash').1
    exact List.nodup_iff_getElem?_ne_getElem?.mp hlinked.nodup j (j + 1) (Nat.lt_succ_self j) hlt
      (hhash.trans hhash'.symm)
  intro i j hash hash' hij
  induction j, hij using Nat.le_induction generalizing hash' with
  | base => exact hnext i hash hash'
  | succ j hij ih =>
      intro hlen hhash hhash' hmiss
      obtain ⟨hash₁, toks, hhash₁, _⟩ := p.loopAt_looks tokens loraName cacheSalt hlen
      exact hnext j hash₁ hash' hlen hhash₁ hhash'
        (ih hash₁ (Nat.le_of_succ_le hlen) hhash hhash₁ hmiss)

end Prompt

/-! ## Histories -/

/-- The slots that requests hold after the call. -/
def heldAfter (p : BlockPool) (held : List (List ℕ)) : Call → List (List ℕ)
  | .cachePrompt tokens loraName cacheSalt =>
      (p.cachePrompt tokens loraName cacheSalt).2.blockIds :: held
  | .unpin ids => held.erase ids
  | .reset => held

/-- Requests cache their prompt and release it once; nothing else happens. -/
def Releases (held : List (List ℕ)) : Call → Prop
  | .cachePrompt _ _ _ => True
  | .unpin ids => ids ∈ held
  | .reset => False

instance (held : List (List ℕ)) (c : Call) : Decidable (Releases held c) :=
  match c with
  | .cachePrompt _ _ _ => .isTrue trivial
  | .unpin ids => inferInstanceAs (Decidable (ids ∈ held))
  | .reset => .isFalse id

/-- What is so at each call, for the pool and the slots held before it. -/
def Along (P : BlockPool → List (List ℕ) → Call → Prop) :
    BlockPool → List (List ℕ) → List Call → Prop
  | _, _, [] => True
  | p, held, c :: cs => P p held c ∧ Along P (p.call c).1 (p.heldAfter held c) cs

/-- The call caches a prompt whose blocks `pred` links, or releases slots that it spares. -/
def Orderly (pred : BlockHash → Option BlockHash) (p : BlockPool) : Call → Prop
  | .cachePrompt tokens loraName cacheSalt =>
      Linked pred (p.promptHashes tokens loraName cacheSalt)
  | .unpin ids => Spares pred p ids
  | .reset => True

theorem Tidy.calls {held : List (List ℕ)} {cs : List Call} (hheld : HeldBy pred held p)
    (h : Tidy pred p) (hcalls : Along (fun p held c => Releases held c ∧ Orderly pred p c) p held cs) :
    Tidy pred (p.calls cs).1 ∧ ∃ held', HeldBy pred held' (p.calls cs).1 := by
  induction cs generalizing p held with
  | nil => exact ⟨h, held, hheld⟩
  | cons c cs ih =>
      obtain ⟨⟨hreleases, horderly⟩, hrest⟩ := hcalls
      cases c with
      | cachePrompt tokens loraName cacheSalt =>
          exact ih (hheld.cachePrompt horderly) (cachePrompt_tidy h horderly) hrest
      | unpin ids => exact ih (hheld.unpin hreleases) (h.unpin horderly) hrest
      | reset => exact hreleases.elim

/-- No prompt meets a cached block after a missed one, as long as no release makes a block
evictable that is older than one that has outlived the block before it. -/
theorem holes_unreachable {blockSize capacity : ℕ} {noneSeed : BlockHash} {cs : List Call}
    (hcalls : Along (fun p held c => Releases held c ∧ Orderly pred p c)
      (new blockSize capacity noneSeed) [] cs)
    {tokens : List Token} {loraName cacheSalt : Option String}
    (hprompt : Orderly pred ((new blockSize capacity noneSeed).calls cs).1
      (.cachePrompt tokens loraName cacheSalt)) :
    ((new blockSize capacity noneSeed).calls cs).1.HitsFirst tokens loraName cacheSalt := by
  obtain ⟨htidy, held, hheld⟩ :=
    (Tidy.new blockSize capacity noneSeed).calls (HeldBy.new blockSize capacity noneSeed) hcalls
  exact htidy.hitsFirst hheld hprompt

/-! ## Collisions -/

theorem length_le_of_nodup {hashes : List BlockHash} (h : hashes.Nodup) :
    hashes.length ≤ 2 ^ 64 := by
  have hnodup : (hashes.map UInt64.toNat).Nodup := h.map fun _ _ => UInt64.toNat_inj.mp
  have hsub : hashes.map UInt64.toNat ⊆ List.range (2 ^ 64) := by
    intro n hn
    obtain ⟨hash, _, rfl⟩ := List.mem_map.mp hn
    exact List.mem_range.mpr hash.toNat_lt
  have hle := (List.subperm_of_subset hnodup hsub).length_le
  rwa [List.length_map, List.length_range] at hle

/-- A pool without a slot to give holds a block in each, all of them with hashes of their own. -/
theorem Slotted.capacity_le (hp : p.Slotted) (h : p.allocateSlot = none) :
    p.capacity ≤ 2 ^ 64 := by
  have hlen := hp.length_eq
  rw [(allocateSlot_eq_none_iff.mp h).1, List.append_nil, List.length_range, slotIds,
    List.length_map] at hlen
  have hle := length_le_of_nodup p.cached.nodup_keys
  rw [SortedMap.keys, List.length_map] at hle
  exact hlen ▸ hle

/-- A prompt of more blocks than there are hashes meets blocks of its own. -/
theorem collision_hole : ¬ ∀ (capacity : ℕ) (tokens : List Token),
    (new 1 capacity 0).HitsFirst tokens none none := by
  intro hclaim
  obtain ⟨n, hn⟩ : ∃ n : ℕ, n = 2 ^ 64 + 1 := ⟨_, rfl⟩
  have hfirst := hclaim n (List.replicate n 0)
  have hslotted : (new 1 n 0).Slotted := slotted_new 1 n 0
  have hcapacity : 2 ^ 64 < (new 1 n 0).capacity := by
    change 2 ^ 64 < max n 1
    omega
  have hblocks : (fullBlocks (new 1 n 0).blockSize (List.replicate n 0)).length = n := by
    simp [fullBlocks, new]
  have hempty : ∀ hash, (new 1 n 0).cached.get? hash = none := fun _ => rfl
  generalize new 1 n 0 = p at *
  generalize List.replicate n (0 : Token) = tokens at *
  have hlength : (p.promptHashes tokens none none).length = n := by
    rw [promptHashes, length_chainHashes, hblocks]
  have hall : (p.cachePrompt tokens none none).2.blockIds.length = n := by
    have hlen := p.loopAt_length tokens none none n
    rw [List.take_of_length_le hblocks.le, hblocks] at hlen
    rw [cachePrompt_blockIds, hblocks]
    rcases hlen with hfull | ⟨_, hstopped⟩
    · exact hfull
    · have hle := (p.loopAt_slotted tokens none none hslotted n).capacity_le hstopped
      rw [loopAt_capacity] at hle
      exact absurd hle (Nat.not_le.mpr hcapacity)
  -- The first block whose hash has come before.
  have hrepeats : ∃ j, ∃ i < j, j < n ∧
      (p.promptHashes tokens none none)[i]? = (p.promptHashes tokens none none)[j]? := by
    by_contra hnone
    have hnodup : (p.promptHashes tokens none none).Nodup := by
      rw [List.nodup_iff_getElem?_ne_getElem?]
      exact fun i j hij hj heq => hnone ⟨j, i, hij, hlength ▸ hj, heq⟩
    have hle := length_le_of_nodup hnodup
    omega
  classical
  obtain ⟨i, hij, hj, heq⟩ := Nat.find_spec hrepeats
  have hleast : ∀ k < Nat.find hrepeats, ∀ l < k, (p.promptHashes tokens none none)[l]? ≠
      (p.promptHashes tokens none none)[k]? := fun k hk l hl hsame =>
    Nat.find_min hrepeats hk ⟨l, hl, hk.trans hj, hsame⟩
  generalize Nat.find hrepeats = j at *
  have hi : i < (p.cachePrompt tokens none none).2.blockIds.length := by omega
  obtain ⟨hash, toks, hhash, hlooks⟩ := p.loopAt_looks tokens none none hi
  have hmiss : (p.loopAt tokens none none i).pool.cached.get? hash = none := by
    rw [Option.eq_none_iff_forall_not_mem]
    intro slot hslot
    have hnot : hash ∉ ((p.promptHashes tokens none none).take i).drop 0 := by
      intro hmem
      obtain ⟨k, _, hk, hsame⟩ := mem_segment hmem
      exact hleast i hij k hk (hsame.trans hhash.symm)
    have hstart := (p.loopAt_frame tokens none none (Nat.zero_le i) (Nat.zero_le _) hnot).1 slot
      hslot
    rw [show (p.loopAt tokens none none 0).pool.cached.get? hash = none from hempty hash] at hstart
    cases hstart
  obtain ⟨slot, hslot, hpos, _⟩ := hlooks.pinned
  have hnot : hash ∉ ((p.promptHashes tokens none none).take j).drop (i + 1) := by
    intro hmem
    obtain ⟨k, hik, hkj, hsame⟩ := mem_segment hmem
    exact hleast k hkj i hik (hhash.trans hsame.symm)
  have hcached := (p.loopAt_frame tokens none none hij hi hnot).2 slot hslot hpos
  have hnone := hfirst i j hash hash hij (by omega) hhash (heq ▸ hhash) hmiss
  rw [hcached] at hnone
  cases hnone

/-! ## Two histories -/

theorem Linked.of_getD {hashes : List BlockHash}
    (h : ∀ i < hashes.length, pred (hashes.getD i 0) = if i = 0 then none else hashes[i - 1]?) :
    Linked pred hashes := by
  intro i hash hi
  have hone := h i (List.getElem?_eq_some_iff.mp hi).1
  rwa [List.getD_eq_getElem?_getD, hi] at hone

/-- A release spares the orphans when there are none. -/
theorem Spares.of_entries {ids : List ℕ}
    (h : p.cached.entries.all (fun e => (pred e.1).all p.cached.contains) = true) :
    Spares pred p ids := by
  intro hash slot hash' hget hpred hnone
  have hentry := List.all_eq_true.mp h (hash, slot) (SortedMap.mem_entries.mpr hget)
  rw [hpred, Option.all_some] at hentry
  obtain ⟨held, hheld⟩ := SortedMap.contains_iff.mp hentry
  rw [hheld] at hnone
  cases hnone

/-- The hash of the block `[2]` after the block `[1]`, and what links them. -/
def linkedPair : BlockHash → Option BlockHash := fun hash =>
  if hash = hashBlock 0 (some (hashBlock 0 none [1] [])) [2] [] then
    some (hashBlock 0 none [1] [])
  else none

/-- The second block of a prompt outlives the first, and goes when that one comes back. -/
theorem orphan_evicted_first :
    (((new 1 2 0).calls [.cachePrompt [1, 2] none none, .unpin [0, 1],
      .cachePrompt [3] none none]).1).HitsFirst [1, 2] none none := by
  have hpair : Linked linkedPair ((new 1 2 0).promptHashes [1, 2] none none) :=
    .of_getD (by decide +kernel)
  have hsingle : Linked linkedPair
      (((new 1 2 0).calls [.cachePrompt [1, 2] none none, .unpin [0, 1]]).1.promptHashes [3] none
        none) :=
    .of_getD (by decide +kernel)
  have hheld : Releases [((new 1 2 0).cachePrompt [1, 2] none none).2.blockIds] (.unpin [0, 1]) := by
    decide +kernel
  exact @holes_unreachable linkedPair 1 2 0
    [.cachePrompt [1, 2] none none, .unpin [0, 1], .cachePrompt [3] none none]
    ⟨⟨trivial, hpair⟩, ⟨hheld, .of_entries (by decide +kernel)⟩, ⟨trivial, hsingle⟩, trivial⟩
    [1, 2] none none hpair

/-- A request that held an older block lets go of it while the second block of a prompt has
outlived the first: the prompt meets the second after it missed the first. -/
theorem hole_reached :
    ¬ ∀ (blockSize capacity : ℕ) (noneSeed : BlockHash) (cs : List Call),
      Along (fun _ held c => Releases held c) (new blockSize capacity noneSeed) [] cs →
        ∀ (tokens : List Token) (loraName cacheSalt : Option String),
          ((new blockSize capacity noneSeed).calls cs).1.HitsFirst tokens loraName cacheSalt := by
  intro hclaim
  have hmeets := hclaim 1 3 0 [.cachePrompt [1] none none, .cachePrompt [2, 3] none none,
    .unpin [1, 2], .cachePrompt [4] none none, .unpin [0]]
    ⟨trivial, trivial, by change Releases _ _; decide +kernel, trivial,
      by change Releases _ _; decide +kernel, trivial⟩ [2, 3] none none 0 1
    (hashBlock 0 none [2] []) (hashBlock 0 (some (hashBlock 0 none [2] [])) [3] [])
    Nat.zero_lt_one (by decide +kernel) (by decide +kernel) (by decide +kernel) (by decide +kernel)
  revert hmeets
  decide +kernel

end VllmVcr.BlockPool
