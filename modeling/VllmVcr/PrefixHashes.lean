import VllmVcr.HashChain
import VllmVcr.Matching

/-!
# Block hashes and common prefixes

The chains that `prompt_block_hashes` gives two prompts agree as far as the prompts share full
blocks, as long as the fold over a block does not collide. For a hash to tell its depth as well,
none of them may be the seed of the chains. Then a match on the deepest known hash is a match of
the longest prefix.
-/

namespace VllmVcr

open CommonStart

/-- One block hashed onto the hash before it. -/
def blockFold (prev : BlockHash) (block : List Token) : BlockHash :=
  hashBlock fnvOffset (some prev) block []

def blockChain (blockSize : ℕ) (prompt : List Token) : List BlockHash :=
  HashChain.chain (HashChain.seeded blockFold fnvOffset) none (chunks blockSize prompt)

/-- What is hashed for some prompts. -/
def foldedBlocks (blockSize : ℕ) (prompts : List (List Token)) :
    List (BlockHash × List Token) :=
  prompts.flatMap (fun p => HashChain.folded blockFold fnvOffset (chunks blockSize p))

/-- No two of the blocks hashed for the prompts collide. -/
def FoldInjective (blockSize : ℕ) (prompts : List (List Token)) : Prop :=
  ∀ x ∈ foldedBlocks blockSize prompts, ∀ y ∈ foldedBlocks blockSize prompts,
    blockFold x.1 x.2 = blockFold y.1 y.2 → x = y

instance decidableFoldInjective (blockSize : ℕ) (prompts : List (List Token)) :
    Decidable (FoldInjective blockSize prompts) :=
  inferInstanceAs (Decidable (∀ x ∈ _, ∀ y ∈ _, _ → _))

/-- No block of the prompts hashes to the seed. -/
def Unseeded (blockSize : ℕ) (prompts : List (List Token)) : Prop :=
  ∀ p ∈ prompts, fnvOffset ∉ blockChain blockSize p

instance decidableUnseeded (blockSize : ℕ) (prompts : List (List Token)) :
    Decidable (Unseeded blockSize prompts) :=
  inferInstanceAs (Decidable (∀ p ∈ _, _))

variable {blockSize : ℕ}

theorem chainHashes_seeded (i : ℕ) (parent : Option BlockHash) (blocks : List (List Token)) :
    BlockPool.chainHashes fnvOffset none none i parent blocks =
      HashChain.chain (HashChain.seeded blockFold fnvOffset) parent blocks := by
  have hkeys : ∀ i, BlockPool.extraKeys none none i = [] := by
    intro i
    by_cases hi : i = 0 <;> simp [BlockPool.extraKeys]
  induction blocks generalizing i parent with
  | nil => rfl
  | cons block rest ih =>
      rw [BlockPool.chainHashes, HashChain.chain, hkeys, ih]
      rfl

theorem promptBlockHashes_eq (prompt : List Token) :
    promptBlockHashes prompt blockSize =
      if prompt.length / blockSize = 0 then none else some (blockChain blockSize prompt) := by
  have hshort : (blockSize = 0 ∨ prompt.length < blockSize) ↔ prompt.length / blockSize = 0 := by
    rw [Nat.div_eq_zero_iff]
  rw [promptBlockHashes]
  by_cases h : prompt.length / blockSize = 0
  · rw [if_pos (hshort.mpr h), if_pos h]
  · rw [if_neg (mt hshort.mp h), if_neg h, chainHashes_seeded]
    rfl

theorem length_blockChain (prompt : List Token) :
    (blockChain blockSize prompt).length = prompt.length / blockSize := by
  rw [blockChain, HashChain.length_chain, length_chunks]

theorem promptBlockHashes_getD (prompt : List Token) :
    (promptBlockHashes prompt blockSize).getD [] = blockChain blockSize prompt := by
  rw [promptBlockHashes_eq]
  by_cases h : prompt.length / blockSize = 0
  · rw [if_pos h, Option.getD_none, eq_comm, ← List.length_eq_zero_iff, length_blockChain, h]
  · rw [if_neg h, Option.getD_some]

section Pairs

variable {prompts : List (List Token)} {a b : List Token}

theorem FoldInjective.injOn (h : FoldInjective blockSize prompts) (ha : a ∈ prompts)
    (hb : b ∈ prompts) :
    Set.InjOn (fun x : BlockHash × List Token => blockFold x.1 x.2)
      {x | x ∈ HashChain.folded blockFold fnvOffset (chunks blockSize a) ∨
        x ∈ HashChain.folded blockFold fnvOffset (chunks blockSize b)} := by
  have hmem : ∀ x, (x ∈ HashChain.folded blockFold fnvOffset (chunks blockSize a) ∨
      x ∈ HashChain.folded blockFold fnvOffset (chunks blockSize b)) →
        x ∈ foldedBlocks blockSize prompts := by
    rintro x (hx | hx)
    · exact List.mem_flatMap.mpr ⟨a, ha, hx⟩
    · exact List.mem_flatMap.mpr ⟨b, hb, hx⟩
  exact fun x hx y hy heq => h x (hmem x hx) y (hmem y hy) heq

/-- The chains of two prompts agree where the prompts share their full blocks. -/
theorem FoldInjective.agree_iff (h : FoldInjective blockSize prompts) (hsize : 0 < blockSize)
    (ha : a ∈ prompts) (hb : b ∈ prompts) (i : ℕ) :
    (∃ hash, (blockChain blockSize a)[i]? = some hash ∧
        (blockChain blockSize b)[i]? = some hash) ↔ i < commonLength a b / blockSize := by
  rw [← commonLength_chunks hsize]
  exact HashChain.chain_agree_iff (h.injOn ha hb) i

/-- A hash of one prompt is one of the other exactly when they share the prefix it stands for. -/
theorem FoldInjective.mem_iff (h : FoldInjective blockSize prompts) (hsize : 0 < blockSize)
    (hseed : Unseeded blockSize prompts) (ha : a ∈ prompts) (hb : b ∈ prompts) {i : ℕ}
    {hash : BlockHash} (hi : (blockChain blockSize a)[i]? = some hash) :
    hash ∈ blockChain blockSize b ↔ i < commonLength a b / blockSize := by
  rw [← commonLength_chunks hsize]
  exact (HashChain.collisionless_of_seed (h.injOn ha hb) (hseed a ha) (hseed b hb)).mem_iff hi

end Pairs

/-! ## Longest matches -/

/-- The records of a capture hold the chains of the captured prompts. -/
def Recorded (blockSize : ℕ) (capture : List (List Token × TraceRecord)) : Prop :=
  ∀ x ∈ capture, x.2.blockHashes = promptBlockHashes x.1 blockSize

/-- No record that can be matched shares more full blocks with the prompt than the one chosen,
and none shares a block when none is chosen. -/
def LongestMatch (matchable : TraceRecord → Bool) (blockSize : ℕ)
    (capture : List (List Token × TraceRecord)) (prompt : List Token) : Option ℕ → Prop
  | none => ∀ y ∈ capture, matchable y.2 = true → commonLength prompt y.1 / blockSize = 0
  | some i => ∃ x, capture[i]? = some x ∧ matchable x.2 = true ∧
      0 < commonLength prompt x.1 / blockSize ∧ ∀ y ∈ capture, matchable y.2 = true →
        commonLength prompt y.1 / blockSize ≤ commonLength prompt x.1 / blockSize

section Longest

variable {matchable : TraceRecord → Bool} {capture : List (List Token × TraceRecord)}
  {prompt : List Token}

theorem holds_recorded (hrecorded : Recorded blockSize capture)
    {x : List Token × TraceRecord} (hx : x ∈ capture) (hash : BlockHash) :
    x.2.holds hash = true ↔ hash ∈ blockChain blockSize x.1 := by
  rw [TraceRecord.holds, hrecorded x hx, promptBlockHashes_getD, decide_eq_true_iff]

theorem mem_holders_recorded (hrecorded : Recorded blockSize capture)
    {hash : BlockHash} {i : ℕ} : i ∈ holders matchable (capture.map Prod.snd) hash ↔
      ∃ x, capture[i]? = some x ∧ matchable x.2 = true ∧ hash ∈ blockChain blockSize x.1 := by
  rw [mem_holders]
  constructor
  · rintro ⟨r, hr, hmatch, hholds⟩
    rw [List.getElem?_map, Option.map_eq_some_iff] at hr
    obtain ⟨x, hx, rfl⟩ := hr
    exact ⟨x, hx, hmatch, (holds_recorded hrecorded (List.mem_of_getElem? hx) hash).mp hholds⟩
  · rintro ⟨x, hx, hmatch, hmem⟩
    refine ⟨x.2, by rw [List.getElem?_map, hx, Option.map_some], hmatch, ?_⟩
    exact (holds_recorded hrecorded (List.mem_of_getElem? hx) hash).mpr hmem

/-- The rivals for a prompt are found at its deepest hash that a record holds. -/
theorem rivals_deepest (matchable : TraceRecord → Bool) (records : List TraceRecord)
    (blockSize : ℕ) (prompt : List Token) :
    (rivals matchable records blockSize prompt = [] ∧
        ∀ hash ∈ blockChain blockSize prompt, holders matchable records hash = []) ∨
      ∃ (depth : ℕ) (hash : BlockHash), (blockChain blockSize prompt)[depth]? = some hash ∧
        holders matchable records hash ≠ [] ∧
        rivals matchable records blockSize prompt = holders matchable records hash ∧
        ∀ (i : ℕ) deeper, depth < i → (blockChain blockSize prompt)[i]? = some deeper →
          holders matchable records deeper = [] := by
  have hdeepest : (promptBlockHashes prompt blockSize).bind
        (fun chain => chain.reverse.find? (fun hash => holders matchable records hash ≠ [])) =
      (blockChain blockSize prompt).reverse.find?
        (fun hash => holders matchable records hash ≠ []) := by
    rw [promptBlockHashes_eq]
    by_cases h : prompt.length / blockSize = 0
    · have hnil : blockChain blockSize prompt = [] := by
        rw [← List.length_eq_zero_iff, length_blockChain, h]
      rw [if_pos h, hnil]
      rfl
    · rw [if_neg h]
      rfl
  rw [rivals, hdeepest]
  cases hfind : (blockChain blockSize prompt).reverse.find?
      (fun hash => holders matchable records hash ≠ []) with
  | none =>
      refine Or.inl ⟨rfl, fun hash hmem => ?_⟩
      have hnot := List.find?_eq_none.mp hfind hash (List.mem_reverse.mpr hmem)
      simpa using hnot
  | some hash =>
      obtain ⟨hheld, before, after, hsplit, hbefore⟩ := List.find?_eq_some_iff_append.mp hfind
      have hchain : blockChain blockSize prompt = after.reverse ++ hash :: before.reverse := by
        rw [← List.reverse_reverse (blockChain blockSize prompt), hsplit]
        simp
      refine Or.inr ⟨after.length, hash, ?_, by simpa using hheld, rfl, ?_⟩
      · rw [hchain, List.getElem?_append_right (by simp)]
        simp
      · intro i deeper hi hdeeper
        rw [hchain, List.getElem?_append_right (by rw [List.length_reverse]; omega),
          List.length_reverse] at hdeeper
        obtain ⟨k, hk⟩ := Nat.exists_eq_add_of_lt hi
        rw [hk, show after.length + k + 1 - after.length = k + 1 by omega,
          List.getElem?_cons_succ] at hdeeper
        have hnot := hbefore deeper (List.mem_reverse.mp (List.mem_of_getElem? hdeeper))
        simpa using hnot

/-- A choice among the rivals is a longest match. -/
theorem longestMatch_pick (hsize : 0 < blockSize) (hrecorded : Recorded blockSize capture)
    (hinj : FoldInjective blockSize (prompt :: capture.map Prod.fst))
    (hseed : Unseeded blockSize (prompt :: capture.map Prod.fst)) (consumed : List Bool) :
    LongestMatch matchable blockSize capture prompt
      (ConsumeOnce.pick consumed (rivals matchable (capture.map Prod.snd) blockSize prompt)) := by
  have hprompts : ∀ y ∈ capture, y.1 ∈ prompt :: capture.map Prod.fst :=
    fun y hy => List.mem_cons_of_mem _ (List.mem_map_of_mem hy)
  have hshares : ∀ y ∈ capture, ∀ {i : ℕ} {hash : BlockHash},
      (blockChain blockSize prompt)[i]? = some hash →
        (hash ∈ blockChain blockSize y.1 ↔ i < commonLength prompt y.1 / blockSize) :=
    fun y hy => hinj.mem_iff hsize hseed List.mem_cons_self (hprompts y hy)
  -- a record that shares `n` blocks or more holds the prompt's hash number `n - 1`
  have hheld : ∀ y ∈ capture, matchable y.2 = true → ∀ i < commonLength prompt y.1 / blockSize,
      ∃ hash, (blockChain blockSize prompt)[i]? = some hash ∧
        holders matchable (capture.map Prod.snd) hash ≠ [] := by
    intro y hy hmatch i hi
    have hlt : i < (blockChain blockSize prompt).length := by
      rw [length_blockChain]
      exact hi.trans_le (Nat.div_le_div_right (commonLength_le_left prompt y.1))
    have hget := List.getElem?_eq_getElem hlt
    obtain ⟨j, hj⟩ := List.mem_iff_getElem?.mp hy
    refine ⟨_, hget, List.ne_nil_of_mem (a := j) ?_⟩
    exact (mem_holders_recorded hrecorded).mpr ⟨y, hj, hmatch, (hshares y hy hget).mpr hi⟩
  rcases rivals_deepest matchable (capture.map Prod.snd) blockSize prompt with
    ⟨hnil, hnone⟩ | ⟨depth, hash, hget, hne, hrivals, hdeepest⟩
  · rw [hnil]
    intro y hy hmatch
    by_contra hpos
    obtain ⟨hash, hhash, hheld⟩ := hheld y hy hmatch 0 (Nat.pos_of_ne_zero hpos)
    exact hheld (hnone hash (List.mem_of_getElem? hhash))
  · have hmost : ∀ y ∈ capture, matchable y.2 = true →
        commonLength prompt y.1 / blockSize ≤ depth + 1 := by
      intro y hy hmatch
      by_contra hmore
      obtain ⟨deeper, hdeeper, hheld⟩ := hheld y hy hmatch (depth + 1) (by omega)
      exact hheld (hdeepest _ deeper (Nat.lt_succ_self depth) hdeeper)
    cases hpick : ConsumeOnce.pick consumed
        (rivals matchable (capture.map Prod.snd) blockSize prompt) with
    | none =>
        have hsome := ConsumeOnce.pick_isSome consumed (hrivals ▸ hne)
        rw [hpick] at hsome
        cases hsome
    | some i =>
        have hi := ConsumeOnce.mem_of_pick hpick
        rw [hrivals] at hi
        obtain ⟨x, hx, hmatch, hmem⟩ := (mem_holders_recorded hrecorded).mp hi
        have hdepth := (hshares x (List.mem_of_getElem? hx) hget).mp hmem
        exact ⟨x, hx, hmatch, by omega, fun y hy hy' => (hmost y hy hy').trans hdepth⟩

end Longest

/-- Chains have a hash for each full block and agree as far as the prompts share full blocks; the
matchers choose a longest match, as long as no block hashes to the seed. -/
theorem promptBlockHashes_measure (hsize : 0 < blockSize) :
    (∀ a, (promptBlockHashes a blockSize = none ↔ a.length / blockSize = 0) ∧
      ∀ chain, promptBlockHashes a blockSize = some chain →
        chain.length = a.length / blockSize) ∧
    (∀ a b, FoldInjective blockSize [a, b] → ∀ i : ℕ,
      (∃ hash, ((promptBlockHashes a blockSize).getD [])[i]? = some hash ∧
        ((promptBlockHashes b blockSize).getD [])[i]? = some hash) ↔
          i < commonLength a b / blockSize) ∧
    ∀ (capture : List (List Token × TraceRecord)) (prompt : List Token),
      Recorded blockSize capture →
      FoldInjective blockSize (prompt :: capture.map Prod.fst) →
      Unseeded blockSize (prompt :: capture.map Prod.fst) →
      ∀ (vocabSize : ℕ) (requests : List (String × List Token)),
        LongestMatch TraceRecord.hasTokens blockSize capture prompt
          (((PrefixMatchTokens.fromRecords (capture.map Prod.snd) blockSize vocabSize).admitAll
            requests).matchFor prompt) ∧
        LongestMatch TraceRecord.hasGaps blockSize capture prompt
          (((PrefixSteps.fromRecords (capture.map Prod.snd) blockSize).admitAll
            requests).matchFor prompt) := by
  refine ⟨fun a => ?_, fun a b hinj i => ?_, fun capture prompt hrecorded hinj hseed _ requests => ?_⟩
  · rw [promptBlockHashes_eq]
    by_cases h : a.length / blockSize = 0
    · simp [h]
    · rw [if_neg h]
      refine ⟨iff_of_false (Option.some_ne_none _) h, fun chain hchain => ?_⟩
      obtain rfl := Option.some.inj hchain
      exact length_blockChain a
  · rw [promptBlockHashes_getD, promptBlockHashes_getD]
    exact hinj.agree_iff hsize List.mem_cons_self (List.mem_cons_of_mem _ List.mem_cons_self) i
  · rw [PrefixMatchTokens.matchFor_admitAll, PrefixSteps.matchFor_admitAll]
    exact ⟨longestMatch_pick hsize hrecorded hinj hseed _,
      longestMatch_pick hsize hrecorded hinj hseed _⟩

/-- A record with tokens for each of some captured prompts. -/
def captureOf (blockSize : ℕ) (prompts : List (List Token)) : List (List Token × TraceRecord) :=
  prompts.map (fun prompt => (prompt,
    { outputTokens := 1
      blockHashes := promptBlockHashes prompt blockSize
      outputTokenIds := some [7] }))

theorem recorded_captureOf (blockSize : ℕ) (prompts : List (List Token)) :
    Recorded blockSize (captureOf blockSize prompts) := by
  intro x hx
  obtain ⟨prompt, _, rfl⟩ := List.mem_map.mp hx
  rfl

theorem captureOf_longest :
    LongestMatch TraceRecord.hasTokens 2 (captureOf 2 [[1, 2, 3], [1, 2, 3, 4, 5], [9, 9]])
      [1, 2, 3, 4, 8] (some 1) := by
  have hmatch := ((promptBlockHashes_measure (show 0 < 2 by decide)).2.2
    (captureOf 2 [[1, 2, 3], [1, 2, 3, 4, 5], [9, 9]]) [1, 2, 3, 4, 8] (recorded_captureOf _ _)
      (by decide +kernel) (by decide +kernel) 10 []).1
  have hone : ((PrefixMatchTokens.fromRecords
      ((captureOf 2 [[1, 2, 3], [1, 2, 3, 4, 5], [9, 9]]).map Prod.snd) 2 10).admitAll []).matchFor
        [1, 2, 3, 4, 8] = some 1 := by decide +kernel
  rwa [hone] at hmatch

/-- A block of four tokens that hashes to the seed when it stands first. -/
def seedBlock : List Token := [100865649, 370480369, 339678234, 356129584]

/-- Behind such a block, a prompt has the hashes of one that starts without it. -/
theorem seedBlock_misleads :
    ∃ (capture : List (List Token × TraceRecord)) (prompt : List Token),
      Recorded 4 capture ∧ FoldInjective 4 (prompt :: capture.map Prod.fst) ∧
        ¬ LongestMatch TraceRecord.hasTokens 4 capture prompt
          (((PrefixMatchTokens.fromRecords (capture.map Prod.snd) 4 10).admitAll []).matchFor
            prompt) := by
  refine ⟨captureOf 4 [[1, 2, 3, 4], seedBlock], seedBlock ++ [1, 2, 3, 4],
    recorded_captureOf _ _, by decide +kernel, ?_⟩
  have hzero : ((PrefixMatchTokens.fromRecords
      ((captureOf 4 [[1, 2, 3, 4], seedBlock]).map Prod.snd) 4 10).admitAll []).matchFor
        (seedBlock ++ [1, 2, 3, 4]) = some 0 := by decide +kernel
  rw [hzero]
  rintro ⟨x, hx, _, hpos, _⟩
  obtain rfl := Option.some.inj hx
  exact absurd hpos (by decide)

end VllmVcr
