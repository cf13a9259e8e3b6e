import Mathlib.Data.List.Basic
import Mathlib.Data.List.Induction

/-!
# Positions

Lists with two kinds of entries, edited at the first or the last entry of one kind.
-/

namespace Positions

variable {α : Type*} {p : α → Bool} {l : List α} {a : α}

/-! ## The first entry -/

/-- An entry of the kind, inserted before the first of its kind. -/
theorem filter_insertIdx_findIdx (ha : p a = true) (l : List α) :
    (l.insertIdx (l.findIdx p) a).filter p = a :: l.filter p := by
  induction l with
  | nil => simp [ha]
  | cons x l ih =>
    by_cases hx : p x = true
    · simp [List.findIdx_cons, hx, ha]
    · rw [Bool.not_eq_true] at hx
      rw [List.findIdx_cons, hx, cond_false, List.insertIdx_succ_cons, List.filter_cons, if_neg
        (by simp [hx]), ih, List.filter_cons, if_neg (by simp [hx])]

theorem filter_not_insertIdx (ha : p a = true) (i : ℕ) (l : List α) :
    (l.insertIdx i a).filter (fun x => !p x) = l.filter (fun x => !p x) := by
  induction l generalizing i with
  | nil =>
    cases i with
    | zero => simp [ha]
    | succ i => simp
  | cons x l ih =>
    cases i with
    | zero => simp [ha]
    | succ i => rw [List.insertIdx_succ_cons, List.filter_cons, List.filter_cons, ih]

/-- The first entry that passes a test, changed in place. -/
theorem modify_findIdx {l before after : List α} (f : α → α)
    (hbefore : ∀ x ∈ before, p x = false) (ha : p a = true) (hl : l = before ++ a :: after) :
    l.modify (l.findIdx p) f = before ++ f a :: after := by
  subst hl
  induction before with
  | nil => simp [List.findIdx_cons, ha]
  | cons x before ih =>
    have hx : p x = false := hbefore x List.mem_cons_self
    rw [List.cons_append, List.findIdx_cons, hx, cond_false, List.modify_succ_cons,
      ih (fun y hy => hbefore y (List.mem_cons_of_mem _ hy)), List.cons_append]

/-! ## The last entry -/

theorem exists_last (h : l.filter p ≠ []) :
    ∃ before a after, l = before ++ a :: after ∧ p a = true ∧ ∀ x ∈ after, p x = false := by
  induction l using List.reverseRecOn with
  | nil => exact absurd rfl h
  | append_singleton l x ih =>
    by_cases hx : p x = true
    · exact ⟨l, x, [], rfl, hx, by simp⟩
    · rw [Bool.not_eq_true] at hx
      have hl : l.filter p ≠ [] := by
        rw [List.filter_append, List.filter_cons, if_neg (by simp [hx])] at h
        simpa using h
      obtain ⟨before, a, after, rfl, ha, hafter⟩ := ih hl
      refine ⟨before, a, after ++ [x], by simp, ha, fun y hy => ?_⟩
      rcases List.mem_append.mp hy with hy | hy
      · exact hafter y hy
      · rw [List.mem_singleton.mp hy, hx]

theorem getLast?_findIdxs {before after : List α} (ha : p a = true)
    (hafter : ∀ x ∈ after, p x = false) :
    ((before ++ a :: after).findIdxs p).getLast? = some before.length := by
  have hnone : after.findIdxs p (before.length + 1) = [] := by
    rw [List.findIdxs_eq_nil_iff]
    exact hafter
  rw [List.findIdxs_append, List.findIdxs_cons, if_pos ha, Nat.zero_add, hnone]
  simp

/-- The last entry of the kind is removed. -/
theorem eraseIdx_last {i : ℕ} (hi : (l.findIdxs p).getLast? = some i) :
    (l.eraseIdx i).filter p = (l.filter p).dropLast ∧
      (l.eraseIdx i).filter (fun x => !p x) = l.filter (fun x => !p x) := by
  have hsome : l.filter p ≠ [] := by
    intro hnone
    have hidxs : l.findIdxs p = [] := by
      rw [List.findIdxs_eq_nil_iff]
      exact fun x hx => by simpa using List.filter_eq_nil_iff.mp hnone x hx
    rw [hidxs] at hi
    cases hi
  obtain ⟨before, a, after, rfl, ha, hafter⟩ := exists_last hsome
  rw [getLast?_findIdxs ha hafter] at hi
  obtain rfl := Option.some.inj hi
  have hnone : after.filter p = [] := by
    rw [List.filter_eq_nil_iff]
    exact fun x hx => by simp [hafter x hx]
  rw [List.eraseIdx_append_of_length_le (Nat.le_refl _), Nat.sub_self, List.eraseIdx_cons_zero]
  constructor
  · simp [hnone, ha]
  · simp [ha]

theorem getLast?_findIdxs_isSome (h : l.filter p ≠ []) :
    ∃ i, (l.findIdxs p).getLast? = some i := by
  obtain ⟨before, a, after, rfl, ha, hafter⟩ := exists_last h
  exact ⟨before.length, getLast?_findIdxs ha hafter⟩

theorem length_findIdxs_eq (l : List α) : (l.findIdxs p).length = (l.filter p).length := by
  rw [List.length_findIdxs, List.countP_eq_length_filter]

end Positions
