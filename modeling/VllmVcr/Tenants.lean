import VllmVcr.BlockPoolPins
import VllmVcr.HashChain

/-!
# Tenants of the block pool

A prompt is cached under its adapter and its salt. The keys of the two are listed one after the
other, so the first block of a salted prompt of the base model is keyed like that of an unsalted
prompt under an adapter of the salt's name. All other blocks of two tenants differ, as long as
the hashes do not collide.
-/

namespace VllmVcr.BlockPool

/-- A block with the keys mixed into its hash. -/
abbrev KeyedBlock := List Token × List String

def keyedHash (noneSeed : BlockHash) (parent : Option BlockHash) (block : KeyedBlock) : BlockHash :=
  hashBlock noneSeed parent block.1 block.2

def keyedFrom (loraName cacheSalt : Option String) : ℕ → List (List Token) → List KeyedBlock
  | _, [] => []
  | i, toks :: rest =>
    (toks, extraKeys loraName cacheSalt i) :: keyedFrom loraName cacheSalt (i + 1) rest

/-- What `cachePrompt` hashes for a prompt. -/
def keyedBlocks (p : BlockPool) (tokens : List Token) (loraName cacheSalt : Option String) :
    List KeyedBlock :=
  keyedFrom loraName (effectiveSalt cacheSalt) 0 (fullBlocks p.blockSize tokens)

theorem chainHashes_chain (noneSeed : BlockHash) (loraName cacheSalt : Option String) (i : ℕ)
    (parent : Option BlockHash) (blocks : List (List Token)) :
    chainHashes noneSeed loraName cacheSalt i parent blocks =
      HashChain.chain (keyedHash noneSeed) parent (keyedFrom loraName cacheSalt i blocks) := by
  induction blocks generalizing i parent with
  | nil => rfl
  | cons toks rest ih =>
      rw [chainHashes, keyedFrom, HashChain.chain, ih]
      rfl

theorem promptHashes_chain (p : BlockPool) (tokens : List Token)
    (loraName cacheSalt : Option String) : p.promptHashes tokens loraName cacheSalt =
      HashChain.chain (keyedHash p.noneSeed) none (p.keyedBlocks tokens loraName cacheSalt) :=
  chainHashes_chain _ _ _ _ _ _

theorem keyedFrom_getElem? (loraName cacheSalt : Option String) (i j : ℕ)
    (blocks : List (List Token)) : (keyedFrom loraName cacheSalt i blocks)[j]? =
      blocks[j]?.map (fun toks => (toks, extraKeys loraName cacheSalt (i + j))) := by
  induction blocks generalizing i j with
  | nil => rfl
  | cons toks rest ih =>
      cases j with
      | zero => rfl
      | succ j =>
          rw [keyedFrom, List.getElem?_cons_succ, List.getElem?_cons_succ, ih, Nat.add_right_comm,
            Nat.add_assoc]

/-- One prompt names an adapter and no salt, the other the same name as its salt and no adapter. -/
def Mirrored (loraName cacheSalt loraName' cacheSalt' : Option String) : Prop :=
  ∃ name, (loraName = some name ∧ effectiveSalt cacheSalt = none ∧ loraName' = none ∧
    effectiveSalt cacheSalt' = some name) ∨ (loraName' = some name ∧
      effectiveSalt cacheSalt' = none ∧ loraName = none ∧ effectiveSalt cacheSalt = some name)

section Keys

variable {loraName cacheSalt loraName' cacheSalt' : Option String}

/-- The first block's keys tell the adapter and the salt, unless the two tenants are mirrored. -/
theorem extraKeys_zero_eq (hdiffer : (loraName, effectiveSalt cacheSalt) ≠
      (loraName', effectiveSalt cacheSalt')) :
    extraKeys loraName (effectiveSalt cacheSalt) 0 =
      extraKeys loraName' (effectiveSalt cacheSalt') 0 ↔
        Mirrored loraName cacheSalt loraName' cacheSalt' := by
  simp only [extraKeys, if_true, Mirrored]
  generalize effectiveSalt cacheSalt = salt at hdiffer ⊢
  generalize effectiveSalt cacheSalt' = salt' at hdiffer ⊢
  constructor
  · intro h
    rcases loraName with _ | name <;> rcases loraName' with _ | name' <;>
      rcases salt with _ | s <;> rcases salt' with _ | s' <;> simp_all
  · rintro ⟨name, ⟨rfl, rfl, rfl, rfl⟩ | ⟨rfl, rfl, rfl, rfl⟩⟩
    · rfl
    · rfl

end Keys

/-! ## Shared hashes -/

/-- Two tenants' prompts share a block hash iff the tenants are mirrored and the prompts start with
the same full block. -/
theorem shares_hash_iff (p : BlockPool) {tokens tokens' : List Token}
    {loraName cacheSalt loraName' cacheSalt' : Option String}
    (hdiffer : (loraName, effectiveSalt cacheSalt) ≠ (loraName', effectiveSalt cacheSalt'))
    (hinj : HashChain.Collisionless (keyedHash p.noneSeed)
      (p.keyedBlocks tokens loraName cacheSalt) (p.keyedBlocks tokens' loraName' cacheSalt')) :
    (∃ hash ∈ p.promptHashes tokens loraName cacheSalt,
      hash ∈ p.promptHashes tokens' loraName' cacheSalt') ↔
    Mirrored loraName cacheSalt loraName' cacheSalt' ∧
      ∃ toks, (fullBlocks p.blockSize tokens)[0]? = some toks ∧
        (fullBlocks p.blockSize tokens')[0]? = some toks := by
  rw [promptHashes_chain, promptHashes_chain]
  constructor
  · rintro ⟨hash, hmem, hmem'⟩
    obtain ⟨i, hi⟩ := List.mem_iff_getElem?.mp hmem
    obtain ⟨j, hj⟩ := List.mem_iff_getElem?.mp hmem'
    obtain ⟨rfl, htake⟩ := hinj.agree hi hj
    have hsame : ∀ n ≤ i, (p.keyedBlocks tokens loraName cacheSalt)[n]? =
        (p.keyedBlocks tokens' loraName' cacheSalt')[n]? := by
      intro n hn
      rw [← List.getElem?_take_of_lt (Nat.lt_succ_of_le hn), htake,
        List.getElem?_take_of_lt (Nat.lt_succ_of_le hn)]
    have hsome : ∀ n ≤ i, ∃ block, (p.keyedBlocks tokens loraName cacheSalt)[n]? = some block := by
      intro n hn
      have hlt := (List.getElem?_eq_some_iff.mp hi).1
      rw [HashChain.length_chain] at hlt
      exact ⟨_, List.getElem?_eq_getElem (hn.trans_lt hlt)⟩
    have hkeyed : ∀ n ≤ i, ∃ toks, (fullBlocks p.blockSize tokens)[n]? = some toks ∧
        (fullBlocks p.blockSize tokens')[n]? = some toks ∧
        extraKeys loraName (effectiveSalt cacheSalt) n =
          extraKeys loraName' (effectiveSalt cacheSalt') n := by
      intro n hn
      obtain ⟨block, hblock⟩ := hsome n hn
      have hblock' := (hsame n hn).symm.trans hblock
      rw [keyedBlocks, keyedFrom_getElem?, Nat.zero_add] at hblock hblock'
      obtain ⟨toks, htoks, rfl⟩ := Option.map_eq_some_iff.mp hblock
      obtain ⟨toks', htoks', heq⟩ := Option.map_eq_some_iff.mp hblock'
      obtain ⟨rfl, hkeys⟩ := Prod.mk.inj heq
      exact ⟨toks', htoks, htoks', hkeys.symm⟩
    obtain ⟨toks, htoks, htoks', hkeys⟩ := hkeyed 0 (Nat.zero_le i)
    exact ⟨(extraKeys_zero_eq hdiffer).mp hkeys, toks, htoks, htoks'⟩
  · rintro ⟨hmirrored, toks, htoks, htoks'⟩
    have hkeys := (extraKeys_zero_eq hdiffer).mpr hmirrored
    have hfirst : ∀ {l : List KeyedBlock} {block : KeyedBlock}, l[0]? = some block →
        keyedHash p.noneSeed none block ∈ HashChain.chain (keyedHash p.noneSeed) none l := by
      intro l block hl
      cases l with
      | nil => cases hl
      | cons first rest =>
          cases hl
          exact List.mem_cons_self
    refine ⟨keyedHash p.noneSeed none (toks, extraKeys loraName (effectiveSalt cacheSalt) 0), ?_, ?_⟩
    · apply hfirst
      rw [keyedBlocks, keyedFrom_getElem?, htoks, Option.map_some]
    · apply hfirst
      rw [keyedBlocks, keyedFrom_getElem?, htoks', Option.map_some, hkeys]

/-- Neither prompt computes a hash of the other, and caching the second returns no slot that holds
a block of the first. -/
structure Isolated (p : BlockPool) (tokens : List Token) (loraName cacheSalt : Option String)
    (tokens' : List Token) (loraName' cacheSalt' : Option String) : Prop where
  hashes : ∀ hash ∈ p.promptHashes tokens loraName cacheSalt,
    hash ∉ p.promptHashes tokens' loraName' cacheSalt'
  slots : ∀ hash ∈ p.promptHashes tokens loraName cacheSalt, ∀ slot,
    (p.cachePrompt tokens' loraName' cacheSalt').1.cached.get? hash = some slot →
      slot.blockId ∉ (p.cachePrompt tokens' loraName' cacheSalt').2.blockIds

theorem isolated_of_hashes {p : BlockPool} (hp : p.Slotted) {tokens tokens' : List Token}
    {loraName cacheSalt loraName' cacheSalt' : Option String}
    (h : ∀ hash ∈ p.promptHashes tokens loraName cacheSalt,
      hash ∉ p.promptHashes tokens' loraName' cacheSalt') :
    p.Isolated tokens loraName cacheSalt tokens' loraName' cacheSalt' := by
  refine ⟨h, fun hash hmem slot hslot hid => ?_⟩
  obtain ⟨hslotted, _, done, hdone, hheld⟩ := cachePrompt_held hp tokens' loraName' cacheSalt'
  obtain ⟨hash', hh', slot', hs', hid', _⟩ := exists_left_of_mem hheld hid
  have hsame := hslotted.hash_unique hslot hs' hid'.symm
  exact h hash hmem (hsame ▸ hdone.subset hh')

/-- After any history of the pool, two tenants' prompts are isolated unless the tenants are
mirrored and the prompts start with the same full block. -/
theorem tenants_isolated_iff (blockSize capacity : ℕ) (noneSeed : BlockHash) (cs : List Call)
    {tokens tokens' : List Token} {loraName cacheSalt loraName' cacheSalt' : Option String}
    (hdiffer : (loraName, effectiveSalt cacheSalt) ≠ (loraName', effectiveSalt cacheSalt')) :
    let p := ((new blockSize capacity noneSeed).calls cs).1
    HashChain.Collisionless (keyedHash p.noneSeed) (p.keyedBlocks tokens loraName cacheSalt)
        (p.keyedBlocks tokens' loraName' cacheSalt') →
      (p.Isolated tokens loraName cacheSalt tokens' loraName' cacheSalt' ↔
        ¬ (Mirrored loraName cacheSalt loraName' cacheSalt' ∧
          ∃ toks, (fullBlocks p.blockSize tokens)[0]? = some toks ∧
            (fullBlocks p.blockSize tokens')[0]? = some toks)) := by
  intro p hinj
  rw [← shares_hash_iff p hdiffer hinj]
  constructor
  · rintro h ⟨hash, hmem, hmem'⟩
    exact h.hashes hash hmem hmem'
  · intro h
    apply isolated_of_hashes (calls_slotted (slotted_new _ _ _) cs)
    exact fun hash hmem hmem' => h ⟨hash, hmem, hmem'⟩

/-- The base model under a salt, after an adapter of the salt's name cached the same prompt. -/
theorem mirrored_not_isolated :
    let p := ((new 1 4 0).calls [.cachePrompt [7] (some "a") none]).1
    HashChain.Collisionless (keyedHash p.noneSeed) (p.keyedBlocks [7] (some "a") none)
        (p.keyedBlocks [7] none (some "a")) ∧
      ¬ p.Isolated [7] (some "a") none [7] none (some "a") ∧
      (p.cachePrompt [7] none (some "a")).2.numCachedTokens = 1 := by
  intro p
  have hdiffer : (some "a", effectiveSalt none) ≠ (none, effectiveSalt (some "a")) := by decide
  have hkeyed : p.keyedBlocks [7] none (some "a") = p.keyedBlocks [7] (some "a") none := by
    decide +kernel
  have hone : p.keyedBlocks [7] (some "a") none = [([7], ["a"])] := by decide +kernel
  have hinj : HashChain.Collisionless (keyedHash p.noneSeed) (p.keyedBlocks [7] (some "a") none)
      (p.keyedBlocks [7] none (some "a")) := by
    rw [hkeyed, hone]
    intro x hx y hy _
    simp only [HashChain.inputs, Set.mem_ofPred_eq, or_self, List.mem_singleton] at hx hy
    rw [hx, hy]
  refine ⟨hinj, fun h => ?_, by decide +kernel⟩
  have hshares := (shares_hash_iff p hdiffer hinj).mpr
    ⟨⟨"a", Or.inl ⟨rfl, rfl, rfl, by decide⟩⟩, [7], by decide +kernel, by decide +kernel⟩
  obtain ⟨hash, hmem, hmem'⟩ := hshares
  exact h.hashes hash hmem hmem'

theorem adapters_isolated :
    let p := ((new 1 4 0).calls [.cachePrompt [7] (some "a") none]).1
    p.Isolated [7] (some "a") none [7] (some "b") none := by
  intro p
  have hone : p.keyedBlocks [7] (some "a") none = [([7], ["a"])] := by decide +kernel
  have hother : p.keyedBlocks [7] (some "b") none = [([7], ["b"])] := by decide +kernel
  have hhash : keyedHash p.noneSeed none ([7], ["a"]) ≠ keyedHash p.noneSeed none ([7], ["b"]) := by
    decide +kernel
  apply (tenants_isolated_iff 1 4 0 [.cachePrompt [7] (some "a") none] (by decide) ?_).mpr
  · rintro ⟨⟨name, ⟨_, _, hnone, _⟩ | ⟨_, _, hnone, _⟩⟩, _⟩
    · cases hnone
    · cases hnone
  · rw [hone, hother]
    intro x hx y hy hxy
    simp only [HashChain.inputs, Set.mem_ofPred_eq, List.mem_singleton] at hx hy
    rcases hx with rfl | rfl
    · rcases hy with rfl | rfl
      · rfl
      · exact absurd hxy hhash
    · rcases hy with rfl | rfl
      · exact absurd hxy.symm hhash
      · rfl
end VllmVcr.BlockPool
