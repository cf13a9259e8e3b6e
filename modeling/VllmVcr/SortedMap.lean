import Mathlib.Order.Basic
import Mathlib.Algebra.BigOperators.Group.List.Basic
import Mathlib.Algebra.GroupWithZero.Nat
import Mathlib.Algebra.Order.BigOperators.Group.List
import Mathlib.Algebra.Order.Group.Nat
import Mathlib.Data.List.Perm.Basic

/-!
# Finite maps with sorted keys

An association list whose keys increase strictly. The order of `entries` is the
iteration order, and two maps with the same lookups are equal. Weighted sums over
the entries split at any key, which is how counts over a map follow its updates.
-/

namespace VllmVcr

variable {κ ν μ : Type*} [LinearOrder κ]

namespace Entries

def lookup (k : κ) : List (κ × ν) → Option ν
  | [] => none
  | p :: rest => if k = p.1 then some p.2 else lookup k rest

def insert (k : κ) (v : ν) : List (κ × ν) → List (κ × ν)
  | [] => [(k, v)]
  | p :: rest =>
    if k < p.1 then (k, v) :: p :: rest
    else if k = p.1 then (k, v) :: rest
    else p :: insert k v rest

abbrev Sorted (l : List (κ × ν)) : Prop := l.Pairwise (fun p q => p.1 < q.1)

theorem Sorted.nodup {l : List (κ × ν)} (hl : Sorted l) : l.Nodup := by
  refine List.Pairwise.imp ?_ hl
  intro p q hlt heq
  exact hlt.ne (congrArg Prod.fst heq)

theorem lookup_of_mem {l : List (κ × ν)} (hl : Sorted l) {k : κ} {v : ν} (h : (k, v) ∈ l) :
    lookup k l = some v := by
  induction l with
  | nil => cases h
  | cons p rest ih =>
      rcases List.mem_cons.mp h with rfl | hr
      · simp [lookup]
      · have hlt : p.1 < k := List.rel_of_pairwise_cons hl hr
        simp only [lookup, if_neg hlt.ne']
        exact ih hl.of_cons hr

theorem mem_of_lookup {l : List (κ × ν)} {k : κ} {v : ν} (h : lookup k l = some v) :
    (k, v) ∈ l := by
  induction l with
  | nil => cases h
  | cons p rest ih =>
      simp only [lookup] at h
      split_ifs at h with hk
      · cases h
        simp [hk]
      · exact List.mem_cons_of_mem _ (ih h)

theorem mem_insert_fst {l : List (κ × ν)} {k : κ} {v : ν} {q : κ × ν}
    (h : q ∈ insert k v l) : q = (k, v) ∨ q ∈ l := by
  induction l with
  | nil => simpa [insert] using h
  | cons p rest ih =>
      simp only [insert] at h
      split_ifs at h
      · simpa using h
      · rcases List.mem_cons.mp h with rfl | hr
        · exact Or.inl rfl
        · exact Or.inr (List.mem_cons_of_mem _ hr)
      · rcases List.mem_cons.mp h with rfl | hr
        · exact Or.inr List.mem_cons_self
        · exact (ih hr).imp_right (List.mem_cons_of_mem _)

theorem sorted_insert {l : List (κ × ν)} (hl : Sorted l) (k : κ) (v : ν) :
    Sorted (insert k v l) := by
  induction l with
  | nil => simp [insert, Sorted]
  | cons p rest ih =>
      have hp := List.pairwise_cons.mp hl
      simp only [insert]
      split_ifs with hlt heq
      · refine List.pairwise_cons.mpr ⟨?_, hl⟩
        intro q hq
        rcases List.mem_cons.mp hq with rfl | hr
        · exact hlt
        · exact hlt.trans (hp.1 q hr)
      · subst heq
        exact List.pairwise_cons.mpr hp
      · refine List.pairwise_cons.mpr ⟨?_, ih hp.2⟩
        intro q hq
        rcases mem_insert_fst hq with rfl | hr
        · exact lt_of_le_of_ne (not_lt.mp hlt) (fun h => heq h.symm)
        · exact hp.1 q hr

theorem insert_perm {l : List (κ × ν)} (hl : Sorted l) (k : κ) (v : ν) :
    (insert k v l).Perm ((k, v) :: l.filter (fun p => p.1 ≠ k)) := by
  induction l with
  | nil => exact List.Perm.refl _
  | cons p rest ih =>
      have hp := List.pairwise_cons.mp hl
      have hrest (h : k ≤ p.1) : rest.filter (fun q => q.1 ≠ k) = rest :=
        List.filter_eq_self.mpr (fun q hq => by simpa using (h.trans_lt (hp.1 q hq)).ne')
      simp only [insert]
      split_ifs with hlt heq
      · rw [List.filter_cons_of_pos (by simpa using hlt.ne'), hrest hlt.le]
      · rw [List.filter_cons_of_neg (by simpa using heq.symm), hrest heq.le]
      · have hne : p.1 ≠ k := fun h => heq h.symm
        simp only [List.filter_cons, ne_eq, hne, not_false_eq_true, decide_true, if_true]
        exact ((ih hp.2).cons p).trans (List.Perm.swap _ _ _)

end Entries

/-- A finite map; the proof that the keys increase travels with the entries. -/
structure SortedMap (κ ν : Type*) [LinearOrder κ] where
  entries : List (κ × ν)
  sorted : Entries.Sorted entries

namespace SortedMap

variable (m : SortedMap κ ν) (k k' : κ) (v : ν)

def empty : SortedMap κ ν := ⟨[], List.Pairwise.nil⟩

def get? : Option ν := Entries.lookup k m.entries

def contains : Bool := (m.get? k).isSome

def insert : SortedMap κ ν := ⟨Entries.insert k v m.entries, Entries.sorted_insert m.sorted k v⟩

def erase : SortedMap κ ν := ⟨m.entries.filter (fun p => p.1 ≠ k), m.sorted.filter _⟩

def mapValues (f : κ → ν → μ) : SortedMap κ μ :=
  ⟨m.entries.map (fun p => (p.1, f p.1 p.2)), List.pairwise_map.mpr m.sorted⟩

def filter (p : κ → ν → Bool) : SortedMap κ ν :=
  ⟨m.entries.filter (fun q => p q.1 q.2), m.sorted.filter _⟩

def keys : List κ := m.entries.map Prod.fst

def values : List ν := m.entries.map Prod.snd

def size : ℕ := m.entries.length

def isEmpty : Bool := m.entries.isEmpty

/-- The sum of a weight over the entries. -/
def weight (f : κ → ν → ℕ) : ℕ := (m.entries.map (fun p => f p.1 p.2)).sum

theorem mem_entries {m : SortedMap κ ν} {k : κ} {v : ν} :
    (k, v) ∈ m.entries ↔ m.get? k = some v :=
  ⟨Entries.lookup_of_mem m.sorted, Entries.mem_of_lookup⟩

theorem get?_eq_none {m : SortedMap κ ν} {k : κ} : m.get? k = none ↔ ∀ v, (k, v) ∉ m.entries := by
  rw [Option.eq_none_iff_forall_ne_some]
  exact forall_congr' (fun v => by rw [ne_eq, ← mem_entries])

@[simp] theorem get?_empty : (empty : SortedMap κ ν).get? k = none := rfl

@[simp] theorem entries_empty : (empty : SortedMap κ ν).entries = [] := rfl

/-- Lookups determine a map. -/
@[ext] theorem ext {m m' : SortedMap κ ν} (h : ∀ k, m.get? k = m'.get? k) : m = m' := by
  obtain ⟨l, hl⟩ := m
  obtain ⟨l', hl'⟩ := m'
  have hmem (k : κ) (v : ν) : (k, v) ∈ l ↔ (k, v) ∈ l' := by
    have hk := h k
    exact ⟨fun hv => Entries.mem_of_lookup (hk.symm.trans (Entries.lookup_of_mem hl hv)),
      fun hv => Entries.mem_of_lookup (hk.trans (Entries.lookup_of_mem hl' hv))⟩
  have hperm : l.Perm l' :=
    (List.perm_ext_iff_of_nodup hl.nodup hl'.nodup).mpr (fun p => hmem p.1 p.2)
  have heq : l = l' :=
    hperm.eq_of_pairwise (fun a b _ _ hab hba => (lt_asymm hab hba).elim) hl hl'
  subst heq
  rfl

theorem get?_insert : (m.insert k v).get? k' = if k' = k then some v else m.get? k' := by
  have hperm := Entries.insert_perm m.sorted k v
  split_ifs with hk
  · subst hk
    exact mem_entries.mp (hperm.mem_iff.mpr List.mem_cons_self)
  · have hmem (w : ν) : (k', w) ∈ (m.insert k v).entries ↔ (k', w) ∈ m.entries := by
      rw [show (m.insert k v).entries = Entries.insert k v m.entries from rfl, hperm.mem_iff]
      simp [hk]
    exact Option.ext (fun w => by simpa only [mem_entries] using hmem w)

@[simp] theorem get?_insert_self : (m.insert k v).get? k = some v := by simp [get?_insert]

theorem get?_insert_of_ne (h : k' ≠ k) : (m.insert k v).get? k' = m.get? k' := by
  simp [get?_insert, h]

theorem get?_erase : (m.erase k).get? k' = if k' = k then none else m.get? k' := by
  have hmem (w : ν) : (k', w) ∈ (m.erase k).entries ↔ (k', w) ∈ m.entries ∧ k' ≠ k := by
    simp [erase]
  refine Option.ext (fun w => ?_)
  rw [← mem_entries, hmem, mem_entries]
  split_ifs with hk <;> simp [hk]

@[simp] theorem get?_erase_self : (m.erase k).get? k = none := by simp [get?_erase]

theorem get?_erase_of_ne (h : k' ≠ k) : (m.erase k).get? k' = m.get? k' := by
  simp [get?_erase, h]

@[simp] theorem get?_mapValues (f : κ → ν → μ) :
    (m.mapValues f).get? k = (m.get? k).map (f k) := by
  refine Option.ext (fun w => ?_)
  rw [← mem_entries, Option.map_eq_some_iff]
  simp only [mapValues, List.mem_map, Prod.exists, Prod.mk.injEq, mem_entries]
  constructor
  · rintro ⟨a, b, hab, rfl, rfl⟩
    exact ⟨b, hab, rfl⟩
  · rintro ⟨b, hb, rfl⟩
    exact ⟨k, b, hb, rfl, rfl⟩

theorem get?_filter (p : κ → ν → Bool) :
    (m.filter p).get? k = (m.get? k).filter (p k) := by
  refine Option.ext (fun w => ?_)
  rw [← mem_entries, Option.filter_eq_some_iff, ← mem_entries]
  simp [filter]

theorem mem_keys {m : SortedMap κ ν} {k : κ} : k ∈ m.keys ↔ ∃ v, m.get? k = some v := by
  simp [keys, mem_entries]

theorem mem_keys_foldl_insert {α : Type*} (key : α → κ) (val : α → ν) (l : List α)
    {m : SortedMap κ ν} {k : κ} :
    k ∈ (l.foldl (fun m a => m.insert (key a) (val a)) m).keys ↔
      k ∈ m.keys ∨ ∃ a ∈ l, key a = k := by
  induction l generalizing m with
  | nil => simp
  | cons a l ih =>
      have hinsert : k ∈ (m.insert (key a) (val a)).keys ↔ k ∈ m.keys ∨ key a = k := by
        rw [mem_keys, mem_keys]
        by_cases hk : k = key a
        · subst hk
          simp
        · simp [get?_insert, hk, Ne.symm hk]
      rw [List.foldl_cons, ih, hinsert, or_assoc]
      simp

theorem mem_values {m : SortedMap κ ν} {v : ν} : v ∈ m.values ↔ ∃ k, m.get? k = some v := by
  simp [values, mem_entries]

theorem nodup_keys : m.keys.Nodup := by
  rw [keys, List.nodup_iff_pairwise_ne, List.pairwise_map]
  exact m.sorted.imp (fun h => h.ne)

@[simp] theorem contains_iff {m : SortedMap κ ν} {k : κ} :
    m.contains k = true ↔ ∃ v, m.get? k = some v := by
  simp [contains, Option.isSome_iff_exists]

theorem isEmpty_iff {m : SortedMap κ ν} : m.isEmpty = true ↔ ∀ k, m.get? k = none := by
  rw [isEmpty, List.isEmpty_iff]
  constructor
  · intro h k
    simp [get?_eq_none, h]
  · intro h
    refine List.eq_nil_iff_forall_not_mem.mpr (fun p hp => ?_)
    have hp' : m.get? p.1 = some p.2 := mem_entries.mp hp
    simp [h] at hp'

theorem insert_perm :
    (m.insert k v).entries.Perm ((k, v) :: (m.erase k).entries) :=
  Entries.insert_perm m.sorted k v

theorem perm_erase {m : SortedMap κ ν} {k : κ} {v : ν} (h : m.get? k = some v) :
    m.entries.Perm ((k, v) :: (m.erase k).entries) := by
  have hm : m.insert k v = m := by
    ext1 k'
    rw [get?_insert]
    split_ifs with hk
    · rw [hk, h]
    · rfl
  have hp := m.insert_perm k v
  rwa [hm] at hp

theorem erase_of_none {m : SortedMap κ ν} {k : κ} (h : m.get? k = none) : m.erase k = m := by
  ext1 k'
  rw [get?_erase]
  split_ifs with hk
  · rw [hk, h]
  · rfl

section Weights

variable (f : κ → ν → ℕ)

theorem weight_insert : (m.insert k v).weight f = f k v + (m.erase k).weight f := by
  unfold weight
  rw [((m.insert_perm k v).map _).sum_eq]
  simp

variable {m k v}

theorem weight_erase (h : m.get? k = some v) : m.weight f = f k v + (m.erase k).weight f := by
  unfold weight
  rw [((perm_erase h).map _).sum_eq]
  simp

theorem weight_insert_of_none (h : m.get? k = none) :
    (m.insert k v).weight f = f k v + m.weight f := by
  rw [weight_insert, erase_of_none h]

theorem weight_insert_of_some {w : ν} (h : m.get? k = some w) :
    (m.insert k v).weight f + f k w = f k v + m.weight f := by
  rw [weight_insert, weight_erase f h]
  omega

theorem weight_one : m.weight (fun _ _ => 1) = m.size := by simp [weight, size]

theorem size_filter (p : κ → ν → Bool) :
    (m.filter p).size = m.weight (fun k v => if p k v then 1 else 0) := by
  change (m.entries.filter (fun a => p a.1 a.2)).length =
    (m.entries.map (fun a => if p a.1 a.2 then 1 else 0)).sum
  induction m.entries with
  | nil => rfl
  | cons a l ih =>
      rw [List.filter_cons, List.map_cons, List.sum_cons, ← ih]
      cases p a.1 a.2 <;> simp [Nat.add_comm]

theorem weight_mapValues {ω : Type*} (g : κ → ν → ω) (f : κ → ω → ℕ) :
    (m.mapValues g).weight f = m.weight (fun k v => f k (g k v)) := by
  simp [weight, mapValues, Function.comp_def]

theorem weight_congr {g : κ → ν → ℕ} (h : ∀ k v, m.get? k = some v → f k v = g k v) :
    m.weight f = m.weight g := by
  unfold weight
  congr 1
  exact List.map_congr_left (fun p hp => h p.1 p.2 (mem_entries.mp hp))

/-- A weight that is nowhere more and somewhere less adds up to less. -/
theorem weight_lt_weight {g : κ → ν → ℕ} (hle : ∀ k v, m.get? k = some v → g k v ≤ f k v)
    (hlt : ∃ k v, m.get? k = some v ∧ g k v < f k v) : m.weight g < m.weight f := by
  obtain ⟨k, v, hkv, hless⟩ := hlt
  apply List.sum_lt_sum
  · exact fun p hp => hle p.1 p.2 (mem_entries.mp hp)
  · exact ⟨(k, v), mem_entries.mpr hkv, hless⟩

theorem weight_filter_le (p : κ → ν → Bool) : (m.filter p).weight f ≤ m.weight f := by
  apply List.Sublist.sum_le_sum
  · have hsublist : (m.filter p).entries.Sublist m.entries := List.filter_sublist
    exact hsublist.map _
  · exact fun n _ => Nat.zero_le n

theorem weight_pos {k : κ} {v : ν} (h : m.get? k = some v) (hf : 0 < f k v) : 0 < m.weight f := by
  rw [weight_erase f h]
  omega

theorem weight_eq_zero (h : ∀ k v, m.get? k = some v → f k v = 0) : m.weight f = 0 := by
  rw [weight_congr f h]
  simp [weight]

theorem weight_keys : m.weight f = (m.keys.map (fun k => (m.get? k).elim 0 (f k))).sum := by
  rw [weight, keys, List.map_map]
  congr 1
  refine List.map_congr_left (fun p hp => ?_)
  rw [Function.comp_apply, mem_entries.mp hp, Option.elim_some]

end Weights

theorem size_erase {m : SortedMap κ ν} {k : κ} {v : ν} (h : m.get? k = some v) :
    m.size = (m.erase k).size + 1 := by
  rw [← weight_one, ← weight_one, weight_erase _ h, Nat.add_comm]

theorem size_insert_of_none {m : SortedMap κ ν} {k : κ} (h : m.get? k = none) (v : ν) :
    (m.insert k v).size = m.size + 1 := by
  rw [← weight_one, ← weight_one, weight_insert_of_none _ h, Nat.add_comm]

@[simp] theorem size_mapValues (f : κ → ν → μ) : (m.mapValues f).size = m.size := by
  simp [size, mapValues]

/-! ## Maps related key by key -/

/-- Both maps have the same keys, with values related by `P`. -/
def Rel (P : ν → μ → Prop) (m : SortedMap κ ν) (m' : SortedMap κ μ) : Prop :=
  ∀ k, Option.Rel P (m.get? k) (m'.get? k)

namespace Rel

variable {P : ν → μ → Prop} {m : SortedMap κ ν} {m' : SortedMap κ μ}

theorem refl {P : ν → ν → Prop} (hP : ∀ v, P v v) (m : SortedMap κ ν) : Rel P m m := by
  intro k
  cases m.get? k with
  | none => exact Option.Rel.none
  | some v => exact Option.Rel.some (hP v)

theorem trans {P : ν → ν → Prop} (hP : ∀ u v w, P u v → P v w → P u w) {m m' m'' : SortedMap κ ν}
    (h : Rel P m m') (h' : Rel P m' m'') : Rel P m m'' := by
  intro k
  have hk := h k
  have hk' := h' k
  cases hm : m.get? k with
  | none =>
      rw [hm] at hk
      cases hm' : m'.get? k with
      | none =>
          rw [hm'] at hk'
          exact hk'
      | some v => rw [hm'] at hk; cases hk
  | some u =>
      rw [hm] at hk
      cases hm' : m'.get? k with
      | none => rw [hm'] at hk; cases hk
      | some v =>
          rw [hm'] at hk hk'
          cases hm'' : m''.get? k with
          | none => rw [hm''] at hk'; cases hk'
          | some w =>
              rw [hm''] at hk'
              cases hk with
              | some huv =>
                  cases hk' with
                  | some hvw => exact Option.Rel.some (hP u v w huv hvw)

theorem left (h : Rel P m m') {k : κ} {v : ν} (hk : m.get? k = some v) :
    ∃ w, m'.get? k = some w ∧ P v w := by
  have := h k
  rw [hk] at this
  cases hm' : m'.get? k with
  | none => rw [hm'] at this; cases this
  | some w =>
      rw [hm'] at this
      cases this with
      | some hvw => exact ⟨w, rfl, hvw⟩

theorem right (h : Rel P m m') {k : κ} {w : μ} (hk : m'.get? k = some w) :
    ∃ v, m.get? k = some v ∧ P v w := by
  have := h k
  rw [hk] at this
  cases hm : m.get? k with
  | none => rw [hm] at this; cases this
  | some v =>
      rw [hm] at this
      cases this with
      | some hvw => exact ⟨v, rfl, hvw⟩

theorem get?_eq_none_iff (h : Rel P m m') (k : κ) : m.get? k = none ↔ m'.get? k = none := by
  constructor
  · intro hm
    cases hm' : m'.get? k with
    | none => rfl
    | some w =>
        obtain ⟨v, hv, _⟩ := h.right hm'
        rw [hm] at hv
        cases hv
  · intro hm'
    cases hm : m.get? k with
    | none => rfl
    | some v =>
        obtain ⟨w, hw, _⟩ := h.left hm
        rw [hm'] at hw
        cases hw

theorem insert {P : ν → ν → Prop} (hP : ∀ v, P v v) {m : SortedMap κ ν} {k : κ} {v w : ν}
    (hk : m.get? k = some v) (hvw : P v w) : Rel P m (m.insert k w) := by
  intro k'
  rw [get?_insert]
  split_ifs with h
  · rw [h, hk]
    exact Option.Rel.some hvw
  · exact refl hP m k'

theorem mapValues {f : κ → ν → μ} (hP : ∀ k v, m.get? k = some v → P v (f k v)) :
    Rel P m (m.mapValues f) := by
  intro k
  rw [get?_mapValues]
  cases hk : m.get? k with
  | none => exact Option.Rel.none
  | some v => exact Option.Rel.some (hP k v hk)

/-- Views that `P` preserves are equal over related maps. -/
theorem mapValues_eq (h : Rel P m m') {ω : Type*} {f : κ → ν → ω} {g : κ → μ → ω}
    (hfg : ∀ k v w, P v w → f k v = g k w) : m.mapValues f = m'.mapValues g := by
  ext1 k
  rw [get?_mapValues, get?_mapValues]
  cases hm : m.get? k with
  | none => rw [(h.get?_eq_none_iff k).mp hm]; rfl
  | some v =>
      obtain ⟨w, hw, hvw⟩ := h.left hm
      rw [hw, Option.map_some, Option.map_some, hfg k v w hvw]

theorem map_entries_eq (h : Rel P m m') {ω : Type*} {f : κ → ν → ω} {g : κ → μ → ω}
    (hfg : ∀ k v w, P v w → f k v = g k w) :
    m.entries.map (fun e => f e.1 e.2) = m'.entries.map (fun e => g e.1 e.2) := by
  have hentries := congrArg SortedMap.entries (h.mapValues_eq hfg)
  have hvalues := congrArg (List.map Prod.snd) hentries
  simpa [SortedMap.mapValues, Function.comp_def] using hvalues

theorem weight_eq (h : Rel P m m') {f : κ → ν → ℕ} {g : κ → μ → ℕ}
    (hfg : ∀ k v w, P v w → f k v = g k w) : m.weight f = m'.weight g :=
  congrArg List.sum (h.map_entries_eq hfg)

theorem keys_eq (h : Rel P m m') : m.keys = m'.keys :=
  h.map_entries_eq (f := fun k _ => k) (g := fun k _ => k) (fun _ _ _ _ => rfl)

theorem weight_le (h : Rel P m m') {f : κ → ν → ℕ} {g : κ → μ → ℕ}
    (hfg : ∀ k v w, P v w → g k w ≤ f k v) : m'.weight g ≤ m.weight f := by
  rw [weight_keys, weight_keys, h.keys_eq]
  refine List.sum_le_sum (fun k hk => ?_)
  obtain ⟨w, hw⟩ := mem_keys.mp hk
  obtain ⟨v, hv, hvw⟩ := h.right hw
  rw [hv, hw]
  exact hfg k v w hvw

end Rel

end SortedMap
end VllmVcr
