import Mathlib.Data.Set.Function
import Mathlib.Data.List.Nodup
import VllmVcr.CommonStart

/-!
# Hash chains

A chain hashes the items of a list one after another, each onto the hash before it. As long as
no two inputs of the hash function collide, a hash tells its position in the chain and the items
up to it.
-/

namespace HashChain

variable {α β : Type*} (hash : Option α → β → α)

/-- The hashes of the items, the first of them onto `parent`. -/
def chain : Option α → List β → List α
  | _, [] => []
  | parent, b :: rest => hash parent b :: chain (some (hash parent b)) rest

/-- What is hashed along a chain. -/
def inputs : Option α → List β → List (Option α × β)
  | _, [] => []
  | parent, b :: rest => (parent, b) :: inputs (some (hash parent b)) rest

theorem length_chain (parent : Option α) (l : List β) : (chain hash parent l).length = l.length := by
  induction l generalizing parent with
  | nil => rfl
  | cons b rest ih => rw [chain, List.length_cons, List.length_cons, ih]

variable {hash}

/-- The first hash of a chain is onto its parent. -/
theorem chain_zero {parent : Option α} {l : List β} {h : α}
    (hh : (chain hash parent l)[0]? = some h) :
    ∃ b, l[0]? = some b ∧ h = hash parent b ∧ (parent, b) ∈ inputs hash parent l := by
  cases l with
  | nil => cases hh
  | cons b rest =>
      cases hh
      exact ⟨b, rfl, rfl, List.mem_cons_self⟩

/-- Every later hash is onto the one before it. -/
theorem chain_succ {parent : Option α} {l : List β} {i : ℕ} {h : α}
    (hh : (chain hash parent l)[i + 1]? = some h) :
    ∃ g b, (chain hash parent l)[i]? = some g ∧ l[i + 1]? = some b ∧ h = hash (some g) b ∧
      (some g, b) ∈ inputs hash parent l := by
  induction i generalizing parent l with
  | zero =>
      cases l with
      | nil => cases hh
      | cons first rest =>
          obtain ⟨b, hb, hhash, hmem⟩ := chain_zero (l := rest) hh
          exact ⟨hash parent first, b, rfl, hb, hhash, List.mem_cons_of_mem _ hmem⟩
  | succ i ih =>
      cases l with
      | nil => cases hh
      | cons first rest =>
          obtain ⟨g, b, hg, hb, hhash, hmem⟩ := ih (l := rest) hh
          exact ⟨g, b, hg, hb, hhash, List.mem_cons_of_mem _ hmem⟩

/-- No two inputs along the two chains have the same hash. -/
def Collisionless (hash : Option α → β → α) (l l' : List β) : Prop :=
  Set.InjOn (fun x : Option α × β => hash x.1 x.2)
    {x | x ∈ inputs hash none l ∨ x ∈ inputs hash none l'}

/-- A hash found in both chains stands at one position, and the items up to it agree. -/
theorem Collisionless.agree {l l' : List β} (hinj : Collisionless hash l l') {i j : ℕ} {h : α}
    (hi : (chain hash none l)[i]? = some h) (hj : (chain hash none l')[j]? = some h) :
    i = j ∧ l.take (i + 1) = l'.take (j + 1) := by
  induction i generalizing j h with
  | zero =>
      obtain ⟨b, hb, hhash, hmem⟩ := chain_zero hi
      cases j with
      | zero =>
          obtain ⟨b', hb', hhash', hmem'⟩ := chain_zero hj
          have hsame := hinj (Or.inl hmem) (Or.inr hmem') (hhash.symm.trans hhash')
          cases hsame
          refine ⟨rfl, ?_⟩
          rw [List.take_add_one, List.take_add_one, hb, hb', List.take_zero, List.take_zero]
      | succ j =>
          obtain ⟨g, b', _, _, hhash', hmem'⟩ := chain_succ hj
          have hsame := hinj (Or.inl hmem) (Or.inr hmem') (hhash.symm.trans hhash')
          cases hsame
  | succ i ih =>
      obtain ⟨g, b, hg, hb, hhash, hmem⟩ := chain_succ hi
      cases j with
      | zero =>
          obtain ⟨b', hb', hhash', hmem'⟩ := chain_zero hj
          have hsame := hinj (Or.inl hmem) (Or.inr hmem') (hhash.symm.trans hhash')
          cases hsame
      | succ j =>
          obtain ⟨g', b', hg', hb', hhash', hmem'⟩ := chain_succ hj
          have hsame := hinj (Or.inl hmem) (Or.inr hmem') (hhash.symm.trans hhash')
          cases hsame
          obtain ⟨hij, htake⟩ := ih hg hg'
          refine ⟨congrArg Nat.succ hij, ?_⟩
          rw [List.take_add_one, htake, hb, List.take_add_one (i := j + 1), hb']

/-- Without collisions the hashes of one chain differ. -/
theorem Collisionless.nodup {l l' : List β} (hinj : Collisionless hash l l') :
    (chain hash none l).Nodup := by
  have hself : Collisionless hash l l := by
    apply hinj.mono
    rintro x (hx | hx)
    · exact Or.inl hx
    · exact Or.inl hx
  apply List.nodup_iff_getElem?_ne_getElem?.mpr
  intro i j hij hj hsame
  obtain ⟨h, hh⟩ : ∃ h, (chain hash none l)[j]? = some h := ⟨_, List.getElem?_eq_getElem hj⟩
  have heq := (hself.agree (hsame.trans hh) hh).1
  omega

theorem Collisionless.symm {l l' : List β} (hinj : Collisionless hash l l') :
    Collisionless hash l' l := by
  apply hinj.mono
  rintro x (hx | hx)
  · exact Or.inr hx
  · exact Or.inl hx

/-- Chains agree as far as their items do. -/
theorem chain_take (parent : Option α) (l : List β) (n : ℕ) :
    (chain hash parent l).take n = chain hash parent (l.take n) := by
  induction l generalizing parent n with
  | nil => simp [chain]
  | cons b rest ih =>
      cases n with
      | zero => rfl
      | succ n => rw [chain, List.take_succ_cons, List.take_succ_cons, chain, ih]

/-- Without collisions, two chains share a hash exactly within the common start of their items. -/
theorem Collisionless.mem_iff [DecidableEq β] {l l' : List β} (hinj : Collisionless hash l l')
    {i : ℕ} {h : α} (hi : (chain hash none l)[i]? = some h) :
    h ∈ chain hash none l' ↔ i < CommonStart.commonLength l l' := by
  have hlt : i < l.length := by
    rw [← length_chain hash none l]
    exact (List.getElem?_eq_some_iff.mp hi).1
  rw [CommonStart.lt_commonLength_iff]
  constructor
  · intro hmem
    obtain ⟨j, hj⟩ := List.mem_iff_getElem?.mp hmem
    obtain ⟨rfl, htake⟩ := hinj.agree hi hj
    refine ⟨hlt, ?_, htake⟩
    rw [← length_chain hash none l']
    exact (List.getElem?_eq_some_iff.mp hj).1
  · rintro ⟨_, hlt', htake⟩
    refine List.mem_of_getElem? (i := i) ?_
    rw [← hi, ← List.getElem?_take_of_lt (Nat.lt_succ_self i),
      ← List.getElem?_take_of_lt (l := chain hash none l) (Nat.lt_succ_self i), chain_take,
      chain_take, htake]

/-! ## Folds with a seed -/

section Seeded

variable (fold : α → β → α) (seed : α)

/-- The first item is hashed onto a seed. -/
def seeded : Option α → β → α := fun parent b => fold (parent.getD seed) b

/-- What the fold is applied to along a list. -/
def folded : α → List β → List (α × β)
  | _, [] => []
  | prev, b :: rest => (prev, b) :: folded (fold prev b) rest

variable {fold seed}

theorem folded_eq (parent : Option α) (l : List β) :
    folded fold (parent.getD seed) l =
      (inputs (seeded fold seed) parent l).map (fun x => (x.1.getD seed, x.2)) := by
  induction l generalizing parent with
  | nil => rfl
  | cons b rest ih =>
      rw [folded, inputs, List.map_cons]
      exact congrArg _ (ih (some (seeded fold seed parent b)))

theorem mem_folded {x : Option α × β} {l : List β} (h : x ∈ inputs (seeded fold seed) none l) :
    (x.1.getD seed, x.2) ∈ folded fold seed l := by
  have hfolded : folded fold ((none : Option α).getD seed) l = _ := folded_eq none l
  rw [Option.getD_none] at hfolded
  rw [hfolded]
  exact List.mem_map_of_mem h

/-- The hash that an item is hashed onto is one of the chain, or its parent. -/
theorem mem_chain_of_inputs {parent : Option α} {l : List β} {g : α} {b : β}
    (h : (some g, b) ∈ inputs hash parent l) : parent = some g ∨ g ∈ chain hash parent l := by
  induction l generalizing parent with
  | nil => cases h
  | cons first rest ih =>
      rcases List.mem_cons.mp h with heq | hmem
      · exact Or.inl (Prod.mk.inj heq).1.symm
      · rcases ih hmem with heq | hchain
        · exact Or.inr (Option.some.inj heq ▸ List.mem_cons_self)
        · exact Or.inr (List.mem_cons_of_mem _ hchain)

section Injective

variable {l l' : List β}
  (hinj : Set.InjOn (fun x : α × β => fold x.1 x.2)
    {x | x ∈ folded fold seed l ∨ x ∈ folded fold seed l'})

include hinj

/-- Equal hashes at one position come from equal items up to it. -/
theorem take_eq_of_chain {i : ℕ} {h : α} (hi : (chain (seeded fold seed) none l)[i]? = some h)
    (hi' : (chain (seeded fold seed) none l')[i]? = some h) : l.take (i + 1) = l'.take (i + 1) := by
  induction i generalizing h with
  | zero =>
      obtain ⟨b, hb, hhash, hmem⟩ := chain_zero hi
      obtain ⟨b', hb', hhash', hmem'⟩ := chain_zero hi'
      have hsame := hinj (Or.inl (mem_folded hmem)) (Or.inr (mem_folded hmem'))
        (hhash.symm.trans hhash')
      obtain rfl : b = b' := (Prod.mk.inj hsame).2
      rw [List.take_add_one, List.take_add_one, hb, hb', List.take_zero, List.take_zero]
  | succ i ih =>
      obtain ⟨g, b, hg, hb, hhash, hmem⟩ := chain_succ hi
      obtain ⟨g', b', hg', hb', hhash', hmem'⟩ := chain_succ hi'
      have hsame := hinj (Or.inl (mem_folded hmem)) (Or.inr (mem_folded hmem'))
        (hhash.symm.trans hhash')
      obtain ⟨hprev, hitem⟩ := Prod.mk.inj hsame
      obtain rfl : g = g' := hprev
      obtain rfl : b = b' := hitem
      rw [List.take_add_one, ih hg hg', hb, List.take_add_one (i := i + 1), hb']

/-- The chains agree exactly within the common start of their items. -/
theorem chain_agree_iff [DecidableEq β] (i : ℕ) :
    (∃ h, (chain (seeded fold seed) none l)[i]? = some h ∧
        (chain (seeded fold seed) none l')[i]? = some h) ↔
      i < CommonStart.commonLength l l' := by
  rw [CommonStart.lt_commonLength_iff]
  constructor
  · rintro ⟨h, hi, hi'⟩
    refine ⟨?_, ?_, take_eq_of_chain hinj hi hi'⟩
    · rw [← length_chain (seeded fold seed) none l]
      exact (List.getElem?_eq_some_iff.mp hi).1
    · rw [← length_chain (seeded fold seed) none l']
      exact (List.getElem?_eq_some_iff.mp hi').1
  · rintro ⟨hlt, _, htake⟩
    rw [← length_chain (seeded fold seed) none l] at hlt
    refine ⟨_, List.getElem?_eq_getElem hlt, ?_⟩
    rw [← List.getElem?_eq_getElem hlt, ← List.getElem?_take_of_lt (Nat.lt_succ_self i),
      ← List.getElem?_take_of_lt (l := chain (seeded fold seed) none l) (Nat.lt_succ_self i),
      chain_take, chain_take, htake]

/-- Without the seed among the hashes, no two positions are confused either. -/
theorem collisionless_of_seed (hseed : seed ∉ chain (seeded fold seed) none l)
    (hseed' : seed ∉ chain (seeded fold seed) none l') :
    Collisionless (seeded fold seed) l l' := by
  have hlater : ∀ {g b}, ((some g, b) ∈ inputs (seeded fold seed) none l ∨
      (some g, b) ∈ inputs (seeded fold seed) none l') → g ≠ seed := by
    rintro g b h rfl
    rcases h with h | h
    · rcases mem_chain_of_inputs h with heq | hmem
      · cases heq
      · exact hseed hmem
    · rcases mem_chain_of_inputs h with heq | hmem
      · cases heq
      · exact hseed' hmem
  rintro ⟨parent, b⟩ hx ⟨parent', b'⟩ hy heq
  obtain ⟨hprev, rfl⟩ := Prod.mk.inj
    (hinj (hx.imp mem_folded mem_folded) (hy.imp mem_folded mem_folded) heq)
  cases parent with
  | none =>
      cases parent' with
      | none => rfl
      | some g => exact absurd hprev.symm (hlater hy)
  | some g =>
      cases parent' with
      | none => exact absurd hprev (hlater hx)
      | some g' => rw [show g = g' from hprev]

end Injective

end Seeded

end HashChain
