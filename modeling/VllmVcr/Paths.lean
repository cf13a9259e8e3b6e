import Mathlib.Data.List.Induction

/-!
# Labelled paths

Finite runs of a labelled transition relation, newest step last, with the rules that
carry an invariant or a property of the labels so far along a run.
-/

namespace VllmVcr

variable {σ ℓ : Type*}

inductive Path (next : σ → ℓ → σ → Prop) : σ → List ℓ → σ → Prop
  | nil (s : σ) : Path next s [] s
  | snoc {s t u : σ} {ls : List ℓ} {l : ℓ} :
      Path next s ls t → next t l u → Path next s (ls ++ [l]) u

namespace Path

variable {next : σ → ℓ → σ → Prop} {s t u : σ} {ls ls' : List ℓ} {l : ℓ}

theorem single (h : next s l t) : Path next s [l] t := (nil s).snoc h

theorem append (h : Path next s ls t) (h' : Path next t ls' u) : Path next s (ls ++ ls') u := by
  induction h' with
  | nil => simpa using h
  | snoc _ hl ih =>
      rw [← List.append_assoc]
      exact ih.snoc hl

theorem cons (h : next s l t) (h' : Path next t ls u) : Path next s (l :: ls) u :=
  (single h).append h'

theorem mono {next' : σ → ℓ → σ → Prop} (himp : ∀ s l t, next s l t → next' s l t)
    (h : Path next s ls t) : Path next' s ls t := by
  induction h with
  | nil => exact nil _
  | snoc _ hl ih => exact ih.snoc (himp _ _ _ hl)

/-- A run through a list of labels can be cut anywhere in it. -/
theorem split (h : Path next s (ls ++ ls') u) : ∃ t, Path next s ls t ∧ Path next t ls' u := by
  induction ls' using List.reverseRecOn generalizing u with
  | nil => exact ⟨u, by simpa using h, nil u⟩
  | append_singleton init l ih =>
      rw [← List.append_assoc] at h
      generalize hlabels : ls ++ init ++ [l] = labels at h
      cases h with
      | nil => simp at hlabels
      | snoc hpath hl =>
          obtain ⟨hinit, hlast⟩ := List.append_inj' hlabels rfl
          cases hlast
          rw [← hinit] at hpath
          obtain ⟨t, ht, hu⟩ := ih hpath
          exact ⟨t, ht, hu.snoc hl⟩

theorem of_nil (h : Path next s [] u) : s = u := by
  generalize hlabels : ([] : List ℓ) = labels at h
  cases h with
  | nil => rfl
  | snoc _ _ => simp at hlabels

theorem of_single (h : Path next s [l] u) : next s l u := by
  generalize hlabels : [l] = labels at h
  cases h with
  | nil => cases hlabels
  | snoc hinit hl =>
      obtain ⟨hnil, hlast⟩ := List.append_inj' ((List.nil_append [l]).trans hlabels) rfl
      cases hlast
      subst hnil
      rwa [of_nil hinit]

theorem uncons (h : Path next s (l :: ls) u) : ∃ t, next s l t ∧ Path next t ls u := by
  rw [← List.singleton_append] at h
  obtain ⟨t, hone, hrest⟩ := h.split
  exact ⟨t, hone.of_single, hrest⟩

/-- A property of the labels so far and the state reached, carried along a run. -/
theorem history {P : List ℓ → σ → Prop} (h : Path next s ls t) (hinit : P [] s)
    (hnext : ∀ ls t l u, P ls t → next t l u → P (ls ++ [l]) u) : P ls t := by
  induction h with
  | nil => exact hinit
  | snoc _ hl ih => exact hnext _ _ _ _ ih hl

theorem invariant {I : σ → Prop} (h : Path next s ls t) (hinit : I s)
    (hnext : ∀ t l u, I t → next t l u → I u) : I t :=
  h.history (P := fun _ t => I t) hinit (fun _ t l u => hnext t l u)

/-- An invariant that holds as long as the labels satisfy `P`. -/
theorem invariant_of {I : σ → Prop} {P : ℓ → Prop} (h : Path next s ls t) (hinit : I s)
    (hlabels : ∀ l ∈ ls, P l) (hnext : ∀ t l u, P l → I t → next t l u → I u) : I t := by
  have hrun : (∀ l ∈ ls, P l) → I t :=
    h.history (P := fun ls t => (∀ l ∈ ls, P l) → I t) (fun _ => hinit) (by
      intro ls t l u ih hl hall
      exact hnext t l u (hall l (by simp)) (ih (fun l' hl' => hall l' (by simp [hl']))) hl)
  exact hrun hlabels

end Path
end VllmVcr
