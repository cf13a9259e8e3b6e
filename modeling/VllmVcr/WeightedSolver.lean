import VllmVcr.ServiceCurve

/-!
# The polynomial solver

`solve_weighted_poly` over windows with token counts and weights from any ordered field. The
service curve is the case of whole token counts and square roots of window sizes.
-/

namespace VllmVcr

section Solver

variable {K : Type*} [Field K]

/-- A window with its weight. -/
structure WeightedWindow (K : Type*) where
  u : K
  p10Ms : K
  weight : K

/-- What the loop over the windows accumulates in `a` and `rhs`. -/
def weightedEquations (deg : ℕ) (windows : List (WeightedWindow K)) :
    Elimination.System K deg where
  coeff i j := (windows.map (fun w => w.weight * w.u ^ i.val * w.u ^ j.val)).sum
  rhs i := (windows.map (fun w => w.weight * w.u ^ i.val * w.p10Ms)).sum

/-- The weighted sum of squared distances of the floors from a curve. -/
def squaredResiduals (windows : List (WeightedWindow K)) (curve : K → K) : K :=
  (windows.map (fun w => w.weight * (w.p10Ms - curve w.u) ^ 2)).sum

/-- The smallest pivot that the solver accepts. -/
def singularBelow : K := 1 / 10 ^ 12

variable [LinearOrder K]

def solveWeighted (deg : ℕ) (windows : List (WeightedWindow K)) : Option (Fin deg → K) :=
  (weightedEquations deg windows).solve singularBelow

def ServiceWindow.weighted (sqrt : ℕ → K) (w : ServiceWindow K) : WeightedWindow K :=
  ⟨w.u, w.p10Ms, sqrt w.count⟩

variable [IsStrictOrderedRing K]

theorem singularBelow_pos : (0 : K) < singularBelow := by
  unfold singularBelow
  positivity

/-- The solver divides by no zero, and what it returns solves the normal equations and has the
least weighted squared residuals among all polynomials of its degree. -/
theorem solveWeighted_least {deg : ℕ} {windows : List (WeightedWindow K)}
    (hweight : ∀ w ∈ windows, 0 < w.weight) :
    (∀ d ∈ (weightedEquations deg windows).divisors singularBelow, d ≠ 0) ∧
      ∀ x, solveWeighted deg windows = some x →
        (weightedEquations deg windows).Solves x ∧
          ∀ p : Polynomial K, p.degree < deg →
            squaredResiduals windows (fun u => ∑ j, x j * u ^ j.val) ≤
              squaredResiduals windows (fun u => p.eval u) := by
  refine ⟨Elimination.System.divisors_ne_zero singularBelow_pos _, fun x hx => ?_⟩
  have hsolves : (weightedEquations deg windows).Solves x :=
    (Elimination.System.solves_iff_of_solve singularBelow_pos hx).mpr rfl
  exact ⟨hsolves, fun p hp =>
    WeightedFit.residual_le (fun w hw => (hweight w hw).le) hsolves hp⟩

end Solver

/-- Four floors off a line. -/
def bentFloors : List (WeightedWindow ℚ) := [⟨1, 1, 2⟩, ⟨2, 4, 1⟩, ⟨3, 5, 1⟩, ⟨4, 9, 2⟩]

theorem bentFloors_line : ∃ x, solveWeighted 2 bentFloors = some x ∧
    ∀ p : Polynomial ℚ, p.degree < 2 →
      squaredResiduals bentFloors (fun u => ∑ j, x j * u ^ j.val) ≤
        squaredResiduals bentFloors (fun u => p.eval u) := by
  have hsome : (solveWeighted 2 bentFloors).isSome := by decide +kernel
  obtain ⟨x, hx⟩ := Option.isSome_iff_exists.mp hsome
  exact ⟨x, hx, ((solveWeighted_least (by decide +kernel)).2 x hx).2⟩

end VllmVcr
