import Mathlib.Data.List.Infix

/-!
# Separators

Patterns inside a longer list. A pattern whose first symbol occurs nowhere else in it never
straddles the start of another such pattern, and one without a symbol never straddles the symbol.
-/

namespace Separators

variable {α : Type*} {m : α} {r p u v w a b : List α}

/-- Where a pattern stands, given the place of its first symbol. -/
theorem headed_append (hm : m ∉ r) (h : u ++ m :: w = a ++ (m :: r ++ b)) :
    (∃ v, u = a ++ (m :: r ++ v) ∧ b = v ++ m :: w) ∨
      ∃ v, a = u ++ v ∧ m :: w = v ++ (m :: r ++ b) := by
  rcases List.append_eq_append_iff.mp h with ⟨v, ha, hw⟩ | ⟨v, hu, hb⟩
  · exact Or.inr ⟨v, ha, hw⟩
  · rcases List.append_eq_append_iff.mp hb with ⟨v', hv, hrest⟩ | ⟨v', hp, hw⟩
    · exact Or.inl ⟨v', by rw [hu, hv], hrest⟩
    · cases v with
      | nil =>
          rw [List.append_nil] at hu
          exact Or.inr ⟨[], by simp [hu], by simpa using hb.symm⟩
      | cons c v =>
          cases v' with
          | nil => exact Or.inl ⟨[], by rw [hu, List.append_nil, hp, List.append_nil], hw.symm⟩
          | cons c' v' =>
              obtain ⟨rfl, hr⟩ := List.cons.inj hp
              obtain ⟨rfl, _⟩ := List.cons.inj hw
              exact absurd (hr ▸ List.mem_append_right _ List.mem_cons_self) hm

/-- Without its first symbol, nothing of the pattern stands in the way. -/
theorem headed_skip (hm : m ∉ u) (h : u ++ w = a ++ (m :: r ++ b)) :
    ∃ v, a = u ++ v ∧ w = v ++ (m :: r ++ b) := by
  rcases List.append_eq_append_iff.mp h with ⟨v, ha, hw⟩ | ⟨v, hu, hb⟩
  · exact ⟨v, ha, hw⟩
  · cases v with
    | nil =>
        rw [List.append_nil] at hu
        exact ⟨[], by simp [hu], by simpa using hb.symm⟩
    | cons c v =>
        obtain ⟨rfl, _⟩ := List.cons.inj hb
        exact absurd (hu ▸ List.mem_append_right _ List.mem_cons_self) hm

/-- Past one separator, the next stands at its start or wholly behind it. -/
theorem headed_later {s : List α} (hs : m ∉ s) (h : m :: s ++ w = a ++ (m :: r ++ b)) :
    a = [] ∨ ∃ v, a = m :: s ++ v ∧ w = v ++ (m :: r ++ b) := by
  cases a with
  | nil => exact Or.inl rfl
  | cons c a =>
      obtain ⟨rfl, hrest⟩ := List.cons.inj h
      obtain ⟨v, rfl, hw⟩ := headed_skip hs hrest
      exact Or.inr ⟨v, rfl, hw⟩

/-- A pattern that lacks a symbol lies on one side of it. -/
theorem lacking_append (hm : m ∉ p) (h : u ++ m :: w = a ++ (p ++ b)) :
    (∃ v, u = a ++ (p ++ v) ∧ b = v ++ m :: w) ∨
      ∃ v, a = u ++ m :: v ∧ w = v ++ (p ++ b) := by
  rcases List.append_eq_append_iff.mp h with ⟨v, ha, hw⟩ | ⟨v, hu, hb⟩
  · cases v with
    | nil =>
        cases p with
        | nil => exact Or.inl ⟨[], by simpa using ha.symm, by simpa using hw.symm⟩
        | cons c p =>
            obtain ⟨rfl, _⟩ := List.cons.inj hw
            exact absurd List.mem_cons_self hm
    | cons c v =>
        obtain ⟨rfl, hrest⟩ := List.cons.inj hw
        exact Or.inr ⟨v, ha, hrest⟩
  · rcases List.append_eq_append_iff.mp hb with ⟨v', hv, hrest⟩ | ⟨v', hp, hw⟩
    · exact Or.inl ⟨v', by rw [hu, hv], hrest⟩
    · cases v' with
      | nil => exact Or.inl ⟨[], by rw [hu, List.append_nil, hp, List.append_nil], hw.symm⟩
      | cons c v' =>
          obtain ⟨rfl, _⟩ := List.cons.inj hw
          exact absurd (hp ▸ List.mem_append_right _ List.mem_cons_self) hm

/-! ## Fields between two separators -/

section Fields

variable {s t x y z g e : List α}

theorem infix_of_eq (h : u = a ++ (p ++ b)) : p <:+: u := ⟨a, b, by rw [h, List.append_assoc]⟩

/-- Two fields between which one separator stands are told apart. -/
theorem pair_unique (hm : m ∉ r) (hleft : ¬ m :: r <:+: t) (hright : ¬ m :: r <:+: e)
    (h : t ++ (m :: r ++ e) = y ++ (m :: r ++ z)) : t = y ∧ e = z := by
  rcases headed_append hm h with ⟨v, ht, _⟩ | ⟨v, rfl, hrest⟩
  · exact absurd (infix_of_eq ht) hleft
  · rcases headed_later hm hrest with rfl | ⟨v', _, he⟩
    · have hsame : m :: r ++ e = m :: r ++ z := hrest
      exact ⟨(List.append_nil _).symm, List.append_cancel_left hsame⟩
    · exact absurd (infix_of_eq he) hright

/-- Three fields are told apart exactly when no separator is found where another reading could
put it. -/
theorem triple_unique_iff (hr : m ∉ r) (hs : m ∉ s)
    (hne : ∀ b c, m :: r ++ b ≠ m :: s ++ c) :
    (∀ x y z, g ++ (m :: r ++ (t ++ (m :: s ++ e))) = x ++ (m :: r ++ (y ++ (m :: s ++ z))) →
        g = x ∧ t = y ∧ e = z) ↔
      ¬ m :: r <:+: g ∧ ¬ m :: r <:+: t ∧ ¬ m :: s <:+: t ∧ ¬ m :: s <:+: e := by
  constructor
  · intro hunique
    refine ⟨?_, ?_, ?_, ?_⟩
    · rintro ⟨a, b, rfl⟩
      obtain ⟨hg, -, -⟩ := hunique a (b ++ (m :: r ++ t)) e (by simp)
      simp [List.append_assoc] at hg
    · rintro ⟨a, b, rfl⟩
      obtain ⟨hg, -, -⟩ := hunique (g ++ (m :: r ++ a)) b e (by simp)
      simp at hg
    · rintro ⟨a, b, rfl⟩
      obtain ⟨-, ht, -⟩ := hunique g a (b ++ (m :: s ++ e)) (by simp)
      simp [List.append_assoc] at ht
    · rintro ⟨a, b, rfl⟩
      obtain ⟨-, ht, -⟩ := hunique g (t ++ (m :: s ++ a)) b (by simp)
      simp at ht
  · rintro ⟨hg, ht, htag, he⟩ x y z h
    rcases headed_append hr h with ⟨v, hgv, _⟩ | ⟨v, rfl, hrest⟩
    · exact absurd (infix_of_eq hgv) hg
    · rcases headed_later hr hrest with rfl | ⟨v', _, hlater⟩
      · have hsame : m :: r ++ (t ++ (m :: s ++ e)) = m :: r ++ (y ++ (m :: s ++ z)) := hrest
        obtain ⟨rfl, rfl⟩ := pair_unique hs htag he (List.append_cancel_left hsame)
        exact ⟨(List.append_nil _).symm, rfl, rfl⟩
      · -- The first separator is read inside the second field or behind it.
        rcases headed_append hr hlater with ⟨v, htv, _⟩ | ⟨v, _, hbehind⟩
        · exact absurd (infix_of_eq htv) ht
        · rcases headed_later hs hbehind with rfl | ⟨v', _, hin⟩
          · exact absurd hbehind.symm (hne _ _)
          · refine absurd ⟨v' ++ (m :: r ++ y), z, ?_⟩ he
            rw [hin]
            simp

end Fields

end Separators
