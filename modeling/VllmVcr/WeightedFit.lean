import Mathlib.Algebra.Polynomial.Eval.Degree
import Mathlib.Tactic.Linarith
import VllmVcr.Elimination
import VllmVcr.Numerals

/-!
# Weighted least squares

Polynomials of bounded degree fitted to weighted points. A solution of the normal equations has
the least weighted sum of squared residuals.
-/

namespace WeightedFit

section Points

variable {K ι : Type*} [Field K] (weight node value : ι → K)

/-- The normal equations of a fit with `deg` terms. -/
def equations (deg : ℕ) (points : List ι) : Elimination.System K deg where
  coeff i j := (points.map (fun w => weight w * node w ^ i.val * node w ^ j.val)).sum
  rhs i := (points.map (fun w => weight w * node w ^ i.val * value w)).sum

/-- The weighted sum of squared residuals. -/
def residual (points : List ι) (f : K → K) : K :=
  (points.map (fun w => weight w * (value w - f (node w)) ^ 2)).sum

/-- The weighted inner product of the residuals with another function. -/
def moment (points : List ι) (f g : K → K) : K :=
  (points.map (fun w => weight w * (value w - f (node w)) * g (node w))).sum

def polyAt {deg : ℕ} (q : Fin deg → K) (u : K) : K := ∑ j, q j * u ^ j.val

variable {weight node value} {points : List ι} {deg : ℕ}

theorem sum_coeff_mul (q : Fin deg → K) (i : Fin deg) :
    ∑ j, (equations weight node value deg points).coeff i j * q j =
      (points.map (fun w => weight w * node w ^ i.val * polyAt q (node w))).sum := by
  change ∑ j, (points.map (fun w => weight w * node w ^ i.val * node w ^ j.val)).sum * q j = _
  induction points with
  | nil => simp
  | cons w points ih =>
      simp only [List.map_cons, List.sum_cons, add_mul, Finset.sum_add_distrib, ih]
      rw [polyAt, Finset.mul_sum]
      congr 1
      exact Finset.sum_congr rfl (fun j _ => by ring)

theorem rhs_sub_sum (q : Fin deg → K) (i : Fin deg) :
    (equations weight node value deg points).rhs i -
        ∑ j, (equations weight node value deg points).coeff i j * q j =
      moment weight node value points (polyAt q) (· ^ i.val) := by
  rw [sum_coeff_mul]
  change (points.map (fun w => weight w * node w ^ i.val * value w)).sum - _ = _
  unfold moment
  induction points with
  | nil => simp
  | cons w points ih =>
      simp only [List.map_cons, List.sum_cons]
      rw [← ih]
      ring

/-- Solving the normal equations is having residuals without moments. -/
theorem solves_iff_moments (q : Fin deg → K) :
    (equations weight node value deg points).Solves q ↔
      ∀ i : Fin deg, moment weight node value points (polyAt q) (· ^ i.val) = 0 := by
  refine forall_congr' (fun i => ?_)
  rw [← rhs_sub_sum, sub_eq_zero]
  exact eq_comm

/-- Moments add up over the terms of a polynomial. -/
theorem moment_polyAt (f : K → K) (q : Fin deg → K) :
    moment weight node value points f (polyAt q) =
      ∑ j, q j * moment weight node value points f (· ^ j.val) := by
  unfold moment
  induction points with
  | nil => simp
  | cons w points ih =>
      simp only [List.map_cons, List.sum_cons, mul_add, Finset.sum_add_distrib, ih]
      rw [polyAt, Finset.mul_sum]
      congr 1
      exact Finset.sum_congr rfl (fun j _ => by ring)

theorem polyAt_sub (q q' : Fin deg → K) (u : K) :
    polyAt (fun j => q j - q' j) u = polyAt q u - polyAt q' u := by
  rw [polyAt, polyAt, polyAt, ← Finset.sum_sub_distrib]
  exact Finset.sum_congr rfl (fun j _ => by ring)

/-- A polynomial of smaller degree is one with `deg` terms. -/
theorem eval_eq_polyAt {p : Polynomial K} (hp : p.degree < deg) (u : K) :
    p.eval u = polyAt (fun j : Fin deg => p.coeff j) u := by
  cases deg with
  | zero =>
      have hzero : p = 0 := Polynomial.degree_eq_bot.mp (Nat.WithBot.lt_zero_iff.mp hp)
      rw [hzero, polyAt, Polynomial.eval_zero, Finset.univ_eq_empty, Finset.sum_empty]
  | succ deg =>
      have hlt : p.natDegree < deg + 1 := by
        by_cases hzero : p = 0
        · rw [hzero, Polynomial.natDegree_zero]
          exact Nat.succ_pos deg
        · exact (Polynomial.natDegree_lt_iff_degree_lt hzero).mpr hp
      rw [Polynomial.eval_eq_sum_range' hlt, polyAt]
      exact Finset.sum_range (fun j => p.coeff j * u ^ j)

/-- The residuals of another polynomial, from those of the first. -/
theorem residual_add (f e : K → K) :
    residual weight node value points (fun u => f u + e u) =
      residual weight node value points f - 2 * moment weight node value points f e +
        (points.map (fun w => weight w * e (node w) ^ 2)).sum := by
  unfold residual moment
  induction points with
  | nil => simp
  | cons w points ih =>
      simp only [List.map_cons, List.sum_cons, ih]
      ring

variable [LinearOrder K] [IsStrictOrderedRing K]

/-- A solution of the normal equations minimizes the weighted sum of squared residuals. -/
theorem residual_le (hweight : ∀ w ∈ points, 0 ≤ weight w) {q : Fin deg → K}
    (hq : (equations weight node value deg points).Solves q) {p : Polynomial K}
    (hp : p.degree < deg) :
    residual weight node value points (polyAt q) ≤ residual weight node value points p.eval := by
  have hmoments := (solves_iff_moments q).mp hq
  have hother : (fun u => p.eval u) = fun u => polyAt q u +
      polyAt (fun j : Fin deg => p.coeff j - q j) u := by
    funext u
    rw [polyAt_sub, eval_eq_polyAt hp]
    ring
  have hcross : moment weight node value points (polyAt q)
      (polyAt (fun j : Fin deg => p.coeff j - q j)) = 0 := by
    rw [moment_polyAt]
    exact Finset.sum_eq_zero (fun j _ => by rw [hmoments j, mul_zero])
  have hsquares : 0 ≤ (points.map (fun w =>
      weight w * polyAt (fun j : Fin deg => p.coeff j - q j) (node w) ^ 2)).sum := by
    refine List.sum_nonneg (fun x hx => ?_)
    obtain ⟨w, hw, rfl⟩ := List.mem_map.mp hx
    exact mul_nonneg (hweight w hw) (sq_nonneg _)
  change _ ≤ residual weight node value points (fun u => p.eval u)
  rw [hother, residual_add, hcross]
  linarith

end Points

end WeightedFit
