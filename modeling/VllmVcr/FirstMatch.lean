import Mathlib.Data.Nat.Find
import VllmVcr.Separators

/-!
# First matches

The first place where a pattern stands in a list, and what changes elsewhere in the list do to it.
-/

namespace FirstMatch

variable {α : Type*} [DecidableEq α]

variable {pat text u v : List α} {m : α}

theorem dropInfix?_eq_some : text.dropInfix? pat = some (u, v) ↔
    text = u ++ (pat ++ v) ∧ ∀ u' v', text = u' ++ (pat ++ v') → u.length ≤ u'.length := by
  rw [List.dropInfix?_eq_some_iff]
  simp only [beq_iff_eq, exists_eq_right, List.append_assoc]
  constructor
  · exact fun h => ⟨h.1, fun u' v' htext => h.2 u' pat v' htext rfl⟩
  · rintro ⟨htext, hfirst⟩
    refine ⟨htext, fun u' i v' hother hi => ?_⟩
    subst hi
    exact hfirst u' v' hother

theorem dropInfix?_eq_none : text.dropInfix? pat = none ↔ ¬ pat <:+: text := by
  constructor
  · rintro hnone ⟨a, b, hab⟩
    -- the first match is the one with the shortest list before it
    have hsome : ∃ n, ∃ u v, text = u ++ (pat ++ v) ∧ u.length = n :=
      ⟨a.length, a, b, by rw [← hab, List.append_assoc], rfl⟩
    classical
    obtain ⟨u, v, htext, hlength⟩ := Nat.find_spec hsome
    have hsplit : text.dropInfix? pat = some (u, v) :=
      dropInfix?_eq_some.mpr ⟨htext, fun u' v' hother => by
        rw [hlength]
        exact Nat.find_min' hsome ⟨u', v', hother, rfl⟩⟩
    rw [hnone] at hsplit
    cases hsplit
  · intro hnot
    cases hsplit : text.dropInfix? pat with
    | none => rfl
    | some s => exact absurd (Separators.infix_of_eq (dropInfix?_eq_some.mp hsplit).1) hnot

theorem dropInfix?_append (v : List α) : (pat ++ v).dropInfix? pat = some ([], v) :=
  dropInfix?_eq_some.mpr ⟨rfl, fun _ _ _ => Nat.zero_le _⟩

/-- No match ends within what stands before the first one. -/
theorem not_infix_of_dropInfix? (hpat : pat ≠ []) (h : text.dropInfix? pat = some (u, v)) :
    ¬ pat <:+: u := by
  rintro ⟨a, b, rfl⟩
  obtain ⟨rfl, hfirst⟩ := dropInfix?_eq_some.mp h
  have hle := hfirst a (b ++ (pat ++ v)) (by simp)
  have hpos := List.length_pos_iff.mpr hpat
  rw [List.length_append, List.length_append] at hle
  omega

/-- What stands behind the first match has no part in it. -/
theorem dropInfix?_rest (h : text.dropInfix? pat = some (u, v)) (w : List α) :
    (u ++ (pat ++ w)).dropInfix? pat = some (u, w) := by
  obtain ⟨rfl, hfirst⟩ := dropInfix?_eq_some.mp h
  refine dropInfix?_eq_some.mpr ⟨rfl, fun u' v' hother => ?_⟩
  by_contra hlt
  -- an earlier match would lie within the match and what stands before it
  have hshort : (u' ++ pat).length ≤ (u ++ pat).length := by simp; omega
  have hprefix : u' ++ pat <+: u ++ pat := by
    refine @List.prefix_of_prefix_length_le _ _ _ (u ++ (pat ++ w)) ?_ ?_ hshort
    · exact ⟨v', by rw [hother, List.append_assoc]⟩
    · exact ⟨w, by rw [List.append_assoc]⟩
  obtain ⟨x, hx⟩ := hprefix
  have hle := hfirst u' (x ++ v) (by
    rw [← List.append_assoc u pat v, ← hx]
    simp)
  omega

/-- A part without a match, closed by a symbol that is not the pattern's, is skipped. -/
theorem dropInfix?_skip (hm : m ∉ pat) (hu : ¬ pat <:+: u) (w : List α) :
    (u ++ m :: w).dropInfix? pat =
      (w.dropInfix? pat).map (fun s => (u ++ m :: s.1, s.2)) := by
  cases hw : w.dropInfix? pat with
  | none =>
      rw [Option.map_none, dropInfix?_eq_none]
      rintro ⟨a, b, hab⟩
      rcases Separators.lacking_append hm (by rw [← hab, List.append_assoc]) with
        ⟨x, hx, _⟩ | ⟨x, _, hx⟩
      · exact hu (Separators.infix_of_eq hx)
      · exact dropInfix?_eq_none.mp hw (Separators.infix_of_eq hx)
  | some s =>
      obtain ⟨a, b⟩ := s
      obtain ⟨rfl, hfirst⟩ := dropInfix?_eq_some.mp hw
      rw [Option.map_some]
      refine dropInfix?_eq_some.mpr ⟨by simp, fun u' v' hother => ?_⟩
      rcases Separators.lacking_append hm hother with ⟨x, hx, _⟩ | ⟨x, rfl, hx⟩
      · exact absurd (Separators.infix_of_eq hx) hu
      · have hle := hfirst x v' hx
        simp
        omega

end FirstMatch
