import Mathlib.Data.List.Perm.Basic

/-!
# Updates in different orders

Replicas apply the same updates, each in the order in which they reach it. They end in the same
state when every two updates that reach them in different orders commute.
-/

namespace Reorder

variable {σ α : Type*} {f : σ → α → σ} {xs ys : List α} {a b : α}

def Before (xs : List α) (a b : α) : Prop := [a, b].Sublist xs

def Commutes (f : σ → α → σ) (a b : α) : Prop := ∀ s, f (f s a) b = f (f s b) a

theorem Before.mem (h : Before xs a b) : a ∈ xs ∧ b ∈ xs :=
  ⟨h.subset (List.mem_cons_self ..), h.subset (List.mem_cons_of_mem _ (List.mem_cons_self ..))⟩

theorem before_cons (hb : b ∈ xs) : Before (a :: xs) a b :=
  (List.singleton_sublist.mpr hb).cons_cons a

theorem Before.append (h : Before xs a b) (more : List α) : Before (xs ++ more) a b :=
  h.trans (List.sublist_append_left xs more)

theorem before_append (ha : a ∈ xs) (hb : b ∈ ys) : Before (xs ++ ys) a b :=
  (List.singleton_sublist.mpr ha).append (List.singleton_sublist.mpr hb)

theorem Before.asymm (hnodup : xs.Nodup) (h : Before xs a b) : ¬Before xs b a := by
  induction xs with
  | nil => exact absurd h.mem.1 List.not_mem_nil
  | cons x rest ih =>
      obtain ⟨hx, hrest⟩ := List.nodup_cons.mp hnodup
      intro h'
      cases h with
      | cons _ hab =>
          cases h' with
          | cons _ hba => exact ih hrest hab hba
          | cons_cons _ _ => exact hx (Before.mem hab).2
      | cons_cons _ hb =>
          cases h' with
          | cons _ hba => exact hx (Before.mem hba).2
          | cons_cons _ _ => exact hx (List.singleton_sublist.mp hb)

/-- The last element comes after others only. -/
theorem Before.of_concat {c : α} (h : Before (xs ++ [c]) a b) : Before xs a b ∨ b = c := by
  obtain ⟨l₁, l₂, heq, hl₁, hl₂⟩ := List.sublist_append_iff.mp h
  rcases List.sublist_singleton.mp hl₂ with rfl | rfl
  · rw [List.append_nil] at heq
    exact Or.inl (show [a, b].Sublist xs from heq ▸ hl₁)
  · have hlast := congrArg List.getLast? heq
    rw [List.getLast?_concat] at hlast
    exact Or.inr (Option.some.inj hlast)

theorem foldl_commutes (h : ∀ b ∈ xs, Commutes f a b) (s : σ) :
    xs.foldl f (f s a) = f (xs.foldl f s) a := by
  induction xs generalizing s with
  | nil => rfl
  | cons b rest ih =>
      rw [List.foldl_cons, h b (List.mem_cons_self ..) s,
        ih (fun c hc => h c (List.mem_cons_of_mem b hc)), List.foldl_cons]

theorem foldl_eq (hperm : xs.Perm ys)
    (h : ∀ a b, Before xs a b → Before ys b a → Commutes f a b) (s : σ) :
    xs.foldl f s = ys.foldl f s := by
  induction xs generalizing ys s with
  | nil => rw [hperm.nil_eq]
  | cons a rest ih =>
      obtain ⟨l, r, rfl⟩ := List.append_of_mem (hperm.subset (List.mem_cons_self ..))
      have hrest : rest.Perm (l ++ r) := (hperm.trans List.perm_middle).cons_inv
      have hfirst : ∀ b ∈ l, Commutes f a b := fun b hb =>
        h a b (before_cons (hrest.symm.subset (List.mem_append_left r hb)))
          (before_append hb (List.mem_cons_self ..))
      have hkept : ∀ b c, Before rest b c → Before (l ++ r) c b → Commutes f b c :=
        fun b c hbc hcb => h b c (hbc.cons a)
          (hcb.trans ((List.sublist_cons_self a r).append_left l))
      rw [List.foldl_cons, ih hrest hkept, List.foldl_append, List.foldl_append, List.foldl_cons,
        foldl_commutes hfirst]

/-! ## Overtaking -/

/-- Whatever stands before an element of `ys` in `xs` is before it in `ys` too, or is related to
it by `r`. -/
def InStep (r : α → α → Prop) (xs ys : List α) : Prop :=
  ∀ earlier b later, ys = earlier ++ b :: later → ∀ a, Before xs a b → a ∉ earlier → r a b

namespace InStep

variable {r : α → α → Prop}

theorem nil : InStep r xs [] :=
  fun earlier _ _ h => absurd (congrArg List.length h) (by simp)

theorem concat (h : InStep r xs ys) (hb : ∀ a, Before xs a b → a ∉ ys → r a b) :
    InStep r xs (ys ++ [b]) := by
  intro earlier c later heq a hac ha
  rcases List.eq_nil_or_concat' later with rfl | ⟨init, last, rfl⟩
  · obtain ⟨rfl, hlast⟩ := List.append_inj' heq rfl
    obtain rfl : b = c := List.head_eq_of_cons_eq hlast
    exact hb a hac ha
  · rw [← List.cons_append, ← List.append_assoc] at heq
    exact h earlier c init (List.append_inj' heq rfl).1 a hac ha

/-- An element new to both lists goes to the first. -/
theorem grow (h : InStep r xs ys) (hnew : b ∉ ys) : InStep r (xs ++ [b]) ys := by
  intro earlier c later heq a hac ha
  rcases hac.of_concat with hold | rfl
  · exact h earlier c later heq a hold ha
  · exact absurd (heq ▸ List.mem_append_right _ (List.mem_cons_self ..)) hnew

/-- Nothing but related elements stand in another order. -/
theorem related (h : InStep r xs ys) (hnodup : ys.Nodup) (hab : Before xs a b)
    (hba : Before ys b a) : r a b := by
  obtain ⟨earlier, later, rfl⟩ := List.append_of_mem hba.mem.1
  refine h earlier b later rfl a hab fun ha => ?_
  exact (before_append ha (List.mem_cons_self ..)).asymm hnodup hba

end InStep

end Reorder
