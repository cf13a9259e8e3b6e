import Mathlib.Logic.Relation
import Mathlib.Order.WellFounded

/-!
# Steps that cannot go on forever

A transition relation that keeps an invariant and lowers a well-founded measure: no state that
satisfies the invariant starts an infinite run.
-/

namespace VllmVcr

variable {σ α : Type*} {next : σ → σ → Prop} {I : σ → Prop}

/-- The state starts no infinite run. -/
def Exhausts (next : σ → σ → Prop) (s : σ) : Prop := Acc (fun t s => next s t) s

/-- The state has no step. -/
def AtRest (next : σ → σ → Prop) (s : σ) : Prop := ∀ t, ¬ next s t

theorem Exhausts.of_measure [Preorder α] [WellFoundedLT α] (measure : σ → α)
    (hnext : ∀ s t, I s → next s t → I t ∧ measure t < measure s) {s : σ} (h : I s) :
    Exhausts next s := by
  induction hm : measure s using WellFoundedLT.induction generalizing s with
  | ind m ih =>
      constructor
      intro t hstep
      obtain ⟨ht, hless⟩ := hnext s t h hstep
      exact ih (measure t) (hm ▸ hless) ht rfl

/-- No sequence of states takes a step each time. -/
theorem Exhausts.no_infinite_run {s : σ} (h : Exhausts next s) (run : ℕ → σ) (hstart : run 0 = s) :
    ∃ n, ¬ next (run n) (run (n + 1)) := by
  induction h generalizing run with
  | intro s _ ih =>
      by_cases hstep : next (run 0) (run 1)
      · obtain ⟨n, hn⟩ := ih (run 1) (hstart ▸ hstep) (fun i => run (i + 1)) rfl
        exact ⟨n + 1, hn⟩
      · exact ⟨0, hstep⟩

end VllmVcr
