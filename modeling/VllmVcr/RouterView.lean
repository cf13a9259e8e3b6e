import Mathlib.Data.Finset.SDiff
import Mathlib.Data.Finset.Lattice.Lemmas
import VllmVcr.BlockPool

/-!
# The router's view of the block pool

A cache-aware router folds the KV-cache events into a set of block hashes. Events of
one `cachePrompt` call interleave evictions with the miss run still being buffered, so
the fold is followed block by block: the view and the pending run make up the cached
keys, and everything the call has touched stays pinned.
-/

namespace VllmVcr

/-- The set of block hashes a router holds. -/
abbrev RouterView := Finset BlockHash

namespace RouterView

def apply (view : RouterView) : KvCacheEvent → RouterView
  | .stored blockHashes _ _ _ _ => view ∪ blockHashes.toFinset
  | .removed blockHashes => view \ blockHashes.toFinset
  | .allCleared => ∅

def applyAll (view : RouterView) (events : List KvCacheEvent) : RouterView :=
  events.foldl apply view

theorem applyAll_append (view : RouterView) (xs ys : List KvCacheEvent) :
    view.applyAll (xs ++ ys) = (view.applyAll xs).applyAll ys := List.foldl_append

end RouterView

/-- A nonempty run of consecutive blocks of a prompt: its hashes, the concatenation of
its tokens, and the hash of the block before it (`none` when it starts at block 0). -/
def IsRun (hashes : List BlockHash) (blocks : List (List Token)) (run : List BlockHash)
    (parent : Option BlockHash) (tokens : List Token) : Prop :=
  run ≠ [] ∧ ∃ before after beforeBlocks runBlocks afterBlocks,
    hashes = before ++ run ++ after ∧ blocks = beforeBlocks ++ runBlocks ++ afterBlocks ∧
    beforeBlocks.length = before.length ∧ runBlocks.length = run.length ∧
    parent = before.getLast? ∧ tokens = runBlocks.flatten

/-- What a router may rely on when it applies an event of a prompt to its view. -/
def EventOk (hashes : List BlockHash) (blocks : List (List Token)) (view : RouterView) :
    KvCacheEvent → Prop
  | .stored run parent tokens _ _ =>
      IsRun hashes blocks run parent tokens ∧ ∀ h, parent = some h → h ∈ view
  | _ => True

def EventsOk (hashes : List BlockHash) (blocks : List (List Token)) :
    RouterView → List KvCacheEvent → Prop
  | _, [] => True
  | view, ev :: rest => EventOk hashes blocks view ev ∧ EventsOk hashes blocks (view.apply ev) rest

theorem eventsOk_append {hashes : List BlockHash} {blocks : List (List Token)} {view : RouterView}
    {xs ys : List KvCacheEvent} : EventsOk hashes blocks view (xs ++ ys) ↔
      EventsOk hashes blocks view xs ∧ EventsOk hashes blocks (view.applyAll xs) ys := by
  induction xs generalizing view with
  | nil => simp [EventsOk, RouterView.applyAll]
  | cons ev rest ih =>
      simp only [List.cons_append, EventsOk, ih, and_assoc, RouterView.applyAll, List.foldl_cons]

theorem EventOk.mono {hashes : List BlockHash} {blocks : List (List Token)} {view : RouterView}
    {ev : KvCacheEvent} (h : EventOk hashes blocks view ev) (moreHashes : List BlockHash)
    (moreBlocks : List (List Token)) :
    EventOk (hashes ++ moreHashes) (blocks ++ moreBlocks) view ev := by
  cases ev with
  | stored run parent tokens size lora =>
      obtain ⟨⟨hne, before, after, bb, rb, ab, rfl, rfl, hlen, hrun, hpar, htok⟩, hmem⟩ := h
      refine ⟨⟨hne, before, after ++ moreHashes, bb, rb, ab ++ moreBlocks, ?_, ?_, hlen, hrun, hpar,
        htok⟩, hmem⟩ <;> simp only [List.append_assoc]
  | removed => trivial
  | allCleared => trivial

theorem EventsOk.mono {hashes : List BlockHash} {blocks : List (List Token)} {view : RouterView}
    {evs : List KvCacheEvent} (h : EventsOk hashes blocks view evs) (moreHashes : List BlockHash)
    (moreBlocks : List (List Token)) :
    EventsOk (hashes ++ moreHashes) (blocks ++ moreBlocks) view evs := by
  induction evs generalizing view with
  | nil => trivial
  | cons ev rest ih => exact ⟨h.1.mono _ _, ih h.2⟩

namespace BlockPool

def keySet (p : BlockPool) : RouterView := p.cached.keys.toFinset

theorem mem_keySet {p : BlockPool} {h : BlockHash} :
    h ∈ p.keySet ↔ ∃ slot, p.cached.get? h = some slot := by
  simp [keySet, SortedMap.mem_keys]

theorem keySet_insert (cached : SortedMap BlockHash Slot) (h : BlockHash) (slot : Slot) :
    (cached.insert h slot).keys.toFinset = cached.keys.toFinset ∪ {h} := by
  ext k
  simp only [List.mem_toFinset, SortedMap.mem_keys, SortedMap.get?_insert, Finset.mem_union,
    Finset.mem_singleton]
  by_cases hk : k = h <;> simp [hk]

theorem keySet_erase (cached : SortedMap BlockHash Slot) (h : BlockHash) :
    (cached.erase h).keys.toFinset = cached.keys.toFinset \ {h} := by
  ext k
  simp only [List.mem_toFinset, SortedMap.mem_keys, SortedMap.get?_erase, Finset.mem_sdiff,
    Finset.mem_singleton]
  by_cases hk : k = h <;> simp [hk]

/-- The block loop as the router sees it, after the blocks `blocks` with hashes `hashes`. -/
structure RouterInv (view : RouterView) (hashes : List BlockHash) (blocks : List (List Token))
    (s : CacheLoop) : Prop where
  length : blocks.length = hashes.length
  ok : EventsOk hashes blocks view s.events
  keys : view.applyAll s.events ∪ s.runHashes.toFinset = s.pool.keySet
  pinned : ∀ h ∈ hashes, ∃ slot, s.pool.cached.get? h = some slot ∧ 0 < slot.refcnt
  parent : s.parent = hashes.getLast?
  idle : s.prevWasMiss = false → s.runHashes = [] ∧ s.runTokens = []
  run : s.prevWasMiss = true → ∃ before beforeBlocks runBlocks,
    hashes = before ++ s.runHashes ∧ blocks = beforeBlocks ++ runBlocks ∧
    beforeBlocks.length = before.length ∧ s.runParent = before.getLast? ∧
    s.runTokens = runBlocks.flatten ∧
    ∀ h, s.runParent = some h → h ∈ view.applyAll s.events

namespace RouterInv

variable {view : RouterView} {hashes : List BlockHash} {blocks : List (List Token)} {s : CacheLoop}

theorem init (p : BlockPool) : RouterInv p.keySet [] [] (CacheLoop.init p) where
  length := rfl
  ok := trivial
  keys := by simp [CacheLoop.init, RouterView.applyAll]
  pinned := by simp
  parent := rfl
  idle := fun _ => ⟨rfl, rfl⟩
  run := fun h => by cases h

/-- Flushing leaves nothing pending: the view is the key set. -/
theorem flush (h : RouterInv view hashes blocks s) (loraName : Option String) :
    EventsOk hashes blocks view (s.flushRun loraName).events ∧
      view.applyAll (s.flushRun loraName).events = s.pool.keySet := by
  by_cases he : s.runHashes = []
  · have hf : s.flushRun loraName = s := by simp [CacheLoop.flushRun, he]
    have hk := h.keys
    rw [he, List.toFinset_nil, Finset.union_empty] at hk
    rw [hf]
    exact ⟨h.ok, hk⟩
  · have hmiss : s.prevWasMiss = true := by
      by_contra hn
      exact he (h.idle (by simpa using hn)).1
    obtain ⟨before, bb, rb, hh, hb, hlen, hpar, htok, hmem⟩ := h.run hmiss
    have hf : (s.flushRun loraName).events = s.events ++
        [.stored s.runHashes s.runParent s.runTokens s.pool.blockSize loraName] := by
      simp [CacheLoop.flushRun, he]
    have hlr : rb.length = s.runHashes.length := by
      have := h.length
      rw [hh, hb, List.length_append, List.length_append] at this
      omega
    rw [hf]
    refine ⟨eventsOk_append.mpr ⟨h.ok, ⟨⟨he, before, [], bb, rb, [], ?_, ?_, hlen, hlr, hpar,
      htok⟩, hmem⟩, trivial⟩, ?_⟩
    · rw [List.append_nil, ← hh]
    · rw [List.append_nil, ← hb]
    · rw [RouterView.applyAll_append]
      exact h.keys

theorem flushRun_pool (loraName : Option String) : (s.flushRun loraName).pool = s.pool := by
  unfold CacheLoop.flushRun
  split <;> rfl

theorem last_hash (hashes : List BlockHash) (hash : BlockHash) :
    (hashes ++ [hash]).getLast? = some hash := List.getLast?_concat

/-- A hit ends the pending run; the block it touches is already in the view. -/
theorem hit (h : RouterInv view hashes blocks s) (loraName : Option String) {hash : BlockHash}
    {slot : Slot} (hget : s.pool.cached.get? hash = some slot) (toks : List Token) :
    RouterInv view (hashes ++ [hash]) (blocks ++ [toks]) (s.hit loraName hash slot) := by
  -- Whether or not a run was pending, the events now account for every cached key.
  have hflush : ∃ s₀ : CacheLoop, s₀ = (if s.prevWasMiss then s.flushRun loraName else s) ∧
      EventsOk hashes blocks view s₀.events ∧ view.applyAll s₀.events = s.pool.keySet ∧
      s₀.pool = s.pool ∧ s₀.runHashes = [] ∧ s₀.runTokens = [] := by
    refine ⟨_, rfl, ?_⟩
    cases hm : s.prevWasMiss with
    | false =>
        obtain ⟨hr, ht⟩ := h.idle hm
        have hk := h.keys
        rw [hr, List.toFinset_nil, Finset.union_empty] at hk
        exact ⟨h.ok, hk, rfl, hr, ht⟩
    | true =>
        obtain ⟨hok, hk⟩ := h.flush loraName
        refine ⟨hok, hk, flushRun_pool loraName, ?_⟩
        obtain ⟨before, bb, rb, _, hb, hlen, _, htok, _⟩ := h.run hm
        simp only [if_true, CacheLoop.flushRun]
        split
        · next he =>
            have hr : s.runHashes = [] := by simpa using he
            have hl := h.length
            obtain ⟨hh, hb'⟩ := And.intro ‹hashes = _› hb
            rw [hh, hb', hr, List.length_append, List.append_nil] at hl
            have hrb : rb = [] := List.length_eq_zero_iff.mp (by omega)
            exact ⟨hr, by rw [htok, hrb, List.flatten_nil]⟩
        · exact ⟨rfl, rfl⟩
  obtain ⟨s₀, hs₀, hok, hkeys, hpool, hrun, htok⟩ := hflush
  have hin : hash ∈ s.pool.keySet := mem_keySet.mpr ⟨slot, hget⟩
  refine ⟨by simp [h.length], ?_, ?_, ?_, ?_, ?_, ?_⟩
  · change EventsOk _ _ view (if s.prevWasMiss then s.flushRun loraName else s).events
    rw [← hs₀]
    exact hok.mono _ _
  · change view.applyAll (if s.prevWasMiss then s.flushRun loraName else s).events ∪
      (if s.prevWasMiss then s.flushRun loraName else s).runHashes.toFinset =
      ((if s.prevWasMiss then s.flushRun loraName else s).pool.cached.insert hash _).keys.toFinset
    rw [← hs₀, hrun, hkeys, hpool, keySet_insert]
    simpa [keySet] using (Finset.insert_eq_of_mem hin).symm
  · change ∀ k ∈ hashes ++ [hash], ∃ sl,
      ((if s.prevWasMiss then s.flushRun loraName else s).pool.cached.insert hash _).get? k =
        some sl ∧ 0 < sl.refcnt
    rw [← hs₀, hpool]
    intro k hk
    rw [SortedMap.get?_insert]
    split_ifs with hkh
    · exact ⟨_, rfl, Nat.succ_pos _⟩
    · refine h.pinned k ?_
      simpa [hkh] using hk
  · exact (last_hash hashes hash).symm
  · intro _
    change (if s.prevWasMiss then s.flushRun loraName else s).runHashes = [] ∧
      (if s.prevWasMiss then s.flushRun loraName else s).runTokens = []
    rw [← hs₀]
    exact ⟨hrun, htok⟩
  · intro hm
    cases hm

/-- A miss joins the pending run, or opens one whose parent is a pinned block of the view. -/
theorem miss_run (h : RouterInv view hashes blocks s) (hash : BlockHash) :
    ∃ before beforeBlocks runBlocks,
      hashes = before ++ s.runHashes ∧ blocks = beforeBlocks ++ runBlocks ∧
      beforeBlocks.length = before.length ∧ (s.miss hash).runParent = before.getLast? ∧
      s.runTokens = runBlocks.flatten ∧
      (∀ k, (s.miss hash).runParent = some k → k ∈ hashes) ∧
      ∀ k, (s.miss hash).runParent = some k → k ∈ view.applyAll s.events := by
  cases hm : s.prevWasMiss with
  | true =>
      obtain ⟨before, bb, rb, hh, hb, hlen, hpar, htok, hmem⟩ := h.run hm
      have hp : (s.miss hash).runParent = s.runParent := by simp [CacheLoop.miss, hm]
      rw [hp]
      refine ⟨before, bb, rb, hh, hb, hlen, hpar, htok, ?_, hmem⟩
      intro k hk
      rw [hpar] at hk
      exact hh ▸ List.mem_append_left _ (List.mem_of_getLast? hk)
  | false =>
      obtain ⟨hr, ht⟩ := h.idle hm
      have hp : (s.miss hash).runParent = s.parent := by simp [CacheLoop.miss, hm]
      have hkeys := h.keys
      rw [hr, List.toFinset_nil, Finset.union_empty] at hkeys
      rw [hp, h.parent]
      refine ⟨hashes, blocks, [], by rw [hr, List.append_nil], by rw [List.append_nil], h.length,
        rfl, ht, fun k hk => List.mem_of_getLast? hk, ?_⟩
      intro k hk
      obtain ⟨slot, hslot, _⟩ := h.pinned k (List.mem_of_getLast? hk)
      exact hkeys ▸ mem_keySet.mpr ⟨slot, hslot⟩

theorem store (h : RouterInv view hashes blocks s) (hash : BlockHash) {id : ℕ}
    {removed : Option KvCacheEvent} {pool : BlockPool}
    (halloc : s.pool.allocateSlot = some (id, removed, pool)) (toks : List Token) :
    RouterInv view (hashes ++ [hash]) (blocks ++ [toks])
      ((s.miss hash).store hash toks id removed pool) := by
  obtain ⟨before, bb, rb, hh, hb, hlen, hpar, htok, hparHash, hparView⟩ := h.miss_run hash
  have hpin : ∀ k ∈ hashes, ∃ slot, pool.cached.get? k = some slot ∧ 0 < slot.refcnt := by
    intro k hk
    obtain ⟨slot, hslot, hpos⟩ := h.pinned k hk
    exact ⟨slot, allocateSlot_pinned halloc hslot hpos, hpos⟩
  -- The eviction, if any, removes the same unpinned key from the view and from the pool.
  have hevict : EventsOk hashes blocks (view.applyAll s.events) removed.toList ∧
      (view.applyAll s.events).applyAll removed.toList ∪ s.runHashes.toFinset = pool.keySet ∧
      ∀ k ∈ hashes, k ∈ view.applyAll s.events →
        k ∈ (view.applyAll s.events).applyAll removed.toList := by
    rcases allocateSlot_cases halloc with
      ⟨rest, _, rfl, rfl⟩ | ⟨gone, slot, _, hget, href, _, rfl, rfl⟩
    · exact ⟨trivial, h.keys, fun _ _ hk => hk⟩
    · have hgone : gone ∉ hashes := by
        intro hmem
        obtain ⟨slot', hslot', hpos⟩ := h.pinned gone hmem
        rw [hget, Option.some.injEq] at hslot'
        subst hslot'
        omega
      have hrunGone : gone ∉ s.runHashes := fun hmem => hgone (hh ▸ List.mem_append_right _ hmem)
      refine ⟨⟨trivial, trivial⟩, ?_, ?_⟩
      · simp only [Option.toList_some, RouterView.applyAll, List.foldl_cons, List.foldl_nil,
          RouterView.apply, keySet, keySet_erase]
        rw [show s.pool.cached.keys.toFinset = s.pool.keySet from rfl, ← h.keys]
        ext k
        by_cases hk : k = gone
        · subst hk
          simp [hrunGone]
        · simp [hk, RouterView.applyAll]
      · intro k hk hview
        have hne : k ≠ gone := fun heq => hgone (heq ▸ hk)
        simp only [Option.toList_some, RouterView.applyAll, List.foldl_cons, List.foldl_nil,
          RouterView.apply] at hview ⊢
        simpa [hne] using hview
  obtain ⟨hevOk, hevKeys, hevMem⟩ := hevict
  have hevents : ((s.miss hash).store hash toks id removed pool).events =
      s.events ++ removed.toList := rfl
  refine ⟨by simp [h.length], ?_, ?_, ?_, ?_, ?_, ?_⟩
  · rw [hevents]
    exact (eventsOk_append.mpr ⟨h.ok, hevOk⟩).mono _ _
  · rw [hevents, RouterView.applyAll_append]
    change _ ∪ (s.runHashes ++ [hash]).toFinset = (pool.cached.insert hash _).keys.toFinset
    rw [keySet_insert, List.toFinset_append, ← Finset.union_assoc, hevKeys]
    rfl
  · change ∀ k ∈ hashes ++ [hash], ∃ sl,
      (pool.cached.insert hash _).get? k = some sl ∧ 0 < sl.refcnt
    intro k hk
    rw [SortedMap.get?_insert]
    split_ifs with hkh
    · exact ⟨_, rfl, Nat.one_pos⟩
    · refine hpin k ?_
      simpa [hkh] using hk
  · exact (last_hash hashes hash).symm
  · intro hm
    cases hm
  · intro _
    refine ⟨before, bb, rb ++ [toks], ?_, ?_, hlen, hpar, ?_, ?_⟩
    · change hashes ++ [hash] = before ++ (s.runHashes ++ [hash])
      rw [← List.append_assoc, ← hh]
    · rw [← List.append_assoc, ← hb]
    · change s.runTokens ++ toks = _
      rw [List.flatten_append, htok]
      simp
    · intro k hk
      rw [hevents, RouterView.applyAll_append]
      exact hevMem k (hparHash k hk) (hparView k hk)

/-- A miss that finds the pool fully pinned stops the loop with its run still pending. -/
theorem miss_stop (h : RouterInv view hashes blocks s) (hash : BlockHash) (loraName : Option String) :
    EventsOk hashes blocks view ((s.miss hash).flushRun loraName).events ∧
      view.applyAll ((s.miss hash).flushRun loraName).events = s.pool.keySet := by
  obtain ⟨before, bb, rb, hh, hb, hlen, hpar, htok, _, hparView⟩ := h.miss_run hash
  -- The parent is irrelevant to the flush, so the invariant holds with it restored.
  have hinv : RouterInv view hashes blocks { s.miss hash with parent := s.parent } :=
    { length := h.length
      ok := h.ok
      keys := h.keys
      pinned := h.pinned
      parent := h.parent
      idle := fun hm => by cases hm
      run := fun _ => ⟨before, bb, rb, hh, hb, hlen, hpar, htok, hparView⟩ }
  have hfl := hinv.flush loraName
  have heq : ({ s.miss hash with parent := s.parent }.flushRun loraName).events =
      ((s.miss hash).flushRun loraName).events := by
    simp only [CacheLoop.flushRun]
    split <;> rfl
  rw [heq] at hfl
  exact hfl

end RouterInv

theorem hit_noneSeed {s : CacheLoop} (loraName : Option String) (hash : BlockHash) (slot : Slot) :
    (s.hit loraName hash slot).pool.noneSeed = s.pool.noneSeed := by
  simp only [CacheLoop.hit]
  split
  · rw [RouterInv.flushRun_pool]
  · rfl

@[simp] theorem hit_parent (s : CacheLoop) (loraName : Option String) (hash : BlockHash)
    (slot : Slot) : (s.hit loraName hash slot).parent = some hash := rfl

@[simp] theorem store_parent (s : CacheLoop) (hash : BlockHash) (toks : List Token) (id : ℕ)
    (removed : Option KvCacheEvent) (pool : BlockPool) :
    ((s.miss hash).store hash toks id removed pool).parent = some hash := rfl

/-- The whole block loop and its final flush, from any point of it. -/
theorem cacheBlocks_events {view : RouterView} (loraName cacheSalt : Option String)
    (rest : List (List Token)) {hashes : List BlockHash} {blocks : List (List Token)} {s : CacheLoop}
    (h : RouterInv view hashes blocks s) :
    let s' := (cacheBlocks loraName cacheSalt hashes.length rest s).flushRun loraName
    EventsOk (hashes ++ chainHashes s.pool.noneSeed loraName cacheSalt hashes.length s.parent rest)
        (blocks ++ rest) view s'.events ∧
      view.applyAll s'.events = s'.pool.keySet := by
  induction rest generalizing hashes blocks s with
  | nil =>
      obtain ⟨hok, hkeys⟩ := h.flush loraName
      simp only [cacheBlocks, chainHashes, List.append_nil]
      exact ⟨hok, hkeys.trans (by rw [RouterInv.flushRun_pool])⟩
  | cons toks rest ih =>
      simp only [cacheBlocks, chainHashes]
      generalize hh : hashBlock s.pool.noneSeed s.parent toks
        (extraKeys loraName cacheSalt hashes.length) = hash
      split
      · next slot hget =>
          have hi := ih (h.hit loraName hget toks)
          rw [hit_noneSeed, List.length_append] at hi
          simpa only [List.append_assoc, List.singleton_append, List.length_singleton, hit_parent]
            using hi
      · split
        · next halloc =>
            obtain ⟨hok, hkeys⟩ := h.miss_stop hash loraName
            exact ⟨hok.mono _ _, hkeys.trans (by rw [RouterInv.flushRun_pool]; rfl)⟩
        · next id removed pool halloc =>
            have hi := ih (h.store hash halloc toks)
            have hseed : ((s.miss hash).store hash toks id removed pool).pool.noneSeed =
                s.pool.noneSeed := (allocateSlot_noneSeed halloc).1
            rw [hseed, List.length_append] at hi
            simpa only [List.append_assoc, List.singleton_append, List.length_singleton,
              store_parent] using hi

theorem cachePrompt_events (p : BlockPool) (tokens : List Token)
    (loraName cacheSalt : Option String) :
    EventsOk (p.promptHashes tokens loraName cacheSalt) (fullBlocks p.blockSize tokens) p.keySet
        (p.cachePrompt tokens loraName cacheSalt).2.events ∧
      p.keySet.applyAll (p.cachePrompt tokens loraName cacheSalt).2.events =
        (p.cachePrompt tokens loraName cacheSalt).1.keySet :=
  cacheBlocks_events loraName (effectiveSalt cacheSalt) (fullBlocks p.blockSize tokens)
    (RouterInv.init { p with
      requests := p.requests + 1
      queries := p.queries + (fullBlocks p.blockSize tokens).length })

/-- One call on the pool. -/
inductive Call where
  | cachePrompt (tokens : List Token) (loraName cacheSalt : Option String)
  | unpin (blockIds : List ℕ)
  | reset

def call (p : BlockPool) : Call → BlockPool × List KvCacheEvent
  | .cachePrompt tokens loraName cacheSalt =>
      let r := p.cachePrompt tokens loraName cacheSalt
      (r.1, r.2.events)
  | .unpin blockIds => (p.unpin blockIds, [])
  | .reset => (p.reset.1, p.reset.2.toList)

/-- A pool after a sequence of calls, with the events of each call in emission order. -/
def calls : BlockPool → List Call → BlockPool × List (Call × BlockPool × List KvCacheEvent)
  | p, [] => (p, [])
  | p, c :: rest =>
    let r := (p.call c).1.calls rest
    (r.1, (c, p, (p.call c).2) :: r.2)

/-- The claim a `Stored` event of this call makes, when applied to `view`. -/
def CallOk (view : RouterView) : Call × BlockPool × List KvCacheEvent → Prop
  | (.cachePrompt tokens loraName cacheSalt, p, evs) =>
      EventsOk (p.promptHashes tokens loraName cacheSalt) (fullBlocks p.blockSize tokens) view evs
  | (_, _, evs) => EventsOk [] [] view evs

def CallsOk : RouterView → List (Call × BlockPool × List KvCacheEvent) → Prop
  | _, [] => True
  | view, c :: rest => CallOk view c ∧ CallsOk (view.applyAll c.2.2) rest

theorem keySet_unpin (p : BlockPool) (blockIds : List ℕ) : (p.unpin blockIds).keySet = p.keySet := by
  ext h
  simp [mem_keySet, unpin]

theorem reset_events (p : BlockPool) : p.keySet.applyAll p.reset.2.toList = p.reset.1.keySet := by
  unfold reset
  split
  · rfl
  · simp [RouterView.applyAll, RouterView.apply, keySet, SortedMap.keys]

theorem call_ok (p : BlockPool) (c : Call) :
    CallOk p.keySet (c, p, (p.call c).2) ∧ p.keySet.applyAll (p.call c).2 = (p.call c).1.keySet := by
  cases c with
  | cachePrompt tokens loraName cacheSalt => exact p.cachePrompt_events tokens loraName cacheSalt
  | unpin blockIds => exact ⟨trivial, (p.keySet_unpin blockIds).symm⟩
  | reset =>
      refine ⟨?_, p.reset_events⟩
      simp only [CallOk, call, reset]
      split
      · trivial
      · exact ⟨trivial, trivial⟩

/-- A router that applies every event in emission order holds the cached keys after any
sequence of calls, and every `Stored` event finds its parent in the view. -/
theorem router_follows_pool (blockSize capacity : ℕ) (noneSeed : BlockHash) (cs : List Call) :
    let r := (new blockSize capacity noneSeed).calls cs
    CallsOk ∅ r.2 ∧ RouterView.applyAll ∅ (r.2.flatMap (fun c => c.2.2)) = r.1.keySet := by
  suffices h : ∀ p : BlockPool, CallsOk p.keySet (p.calls cs).2 ∧
      p.keySet.applyAll ((p.calls cs).2.flatMap (fun c => c.2.2)) = (p.calls cs).1.keySet by
    exact h (new blockSize capacity noneSeed)
  intro p
  induction cs generalizing p with
  | nil => exact ⟨trivial, rfl⟩
  | cons c rest ih =>
      obtain ⟨hok, hkeys⟩ := p.call_ok c
      obtain ⟨hrest, hrestKeys⟩ := ih (p.call c).1
      simp only [calls, List.flatMap_cons, RouterView.applyAll_append, CallsOk, hkeys]
      exact ⟨⟨hok, hrest⟩, hrestKeys⟩

end BlockPool
end VllmVcr
