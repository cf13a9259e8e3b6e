import Mathlib.Data.List.Sort
import Mathlib.Tactic.Linarith
import VllmVcr.WeightedFit

/-!
# The prefill service curve

Sliding token windows over first-token times, and the curve fitted to their floors by weighted
least squares. Times and weights are elements of any ordered field, token counts whole numbers.
-/

namespace VllmVcr

section Curve

variable {K : Type*} [Field K] [LinearOrder K]

/-- The curve `a + b * u + c * u ^ 2` in milliseconds, clamped from below. -/
structure ServiceFit (K : Type*) where
  a : K
  b : K
  c : K
  floorMs : K

def ServiceFit.evalMs (fit : ServiceFit K) (uncached : K) : K :=
  max (fit.a + fit.b * uncached + fit.c * uncached * uncached) fit.floorMs

/-- The p10 floor and the median token count of a window, and how many observations it has. -/
structure ServiceWindow (K : Type*) where
  u : ℕ
  p10Ms : K
  count : ℕ

/-- The window from `lo` on, when it holds at least five observations. -/
def serviceWindow (obs : List (ℕ × K)) (lo : ℕ) : Option (ServiceWindow K) :=
  let slice := (obs.takeWhile (fun o => o.1 < lo + 600)).dropWhile (fun o => o.1 < lo)
  let ttfts := (slice.map Prod.snd).insertionSort (· ≤ ·)
  if 5 ≤ slice.length then
    some ⟨(slice.getD (slice.length / 2) (0, 0)).1, ttfts.getD (ttfts.length / 10) 0, slice.length⟩
  else none

/-- Windows of 600 tokens, 400 apart, from the first count observed to the last. -/
def serviceWindows (obs : List (ℕ × K)) : List (ServiceWindow K) :=
  match obs.head?, obs.getLast? with
  | some first, some last =>
      (List.range ((last.1 - first.1) / 400 + 1)).filterMap
        (fun i => serviceWindow obs (first.1 + 400 * i))
  | _, _ => []

variable (sqrt : ℕ → K)

/-- The normal equations of a weighted polynomial fit with `deg` terms. -/
def normalEquations (deg : ℕ) (windows : List (ServiceWindow K)) : Elimination.System K deg where
  coeff i j := (windows.map (fun w => sqrt w.count * (w.u : K) ^ i.val * (w.u : K) ^ j.val)).sum
  rhs i := (windows.map (fun w => sqrt w.count * (w.u : K) ^ i.val * w.p10Ms)).sum

def solveWeightedPoly (deg : ℕ) (windows : List (ServiceWindow K)) : Option (Fin deg → K) :=
  (normalEquations sqrt deg windows).solve (1 / 10 ^ 12)

def uMax (windows : List (ServiceWindow K)) : ℕ := (windows.map ServiceWindow.u).foldl max 0

/-- The parabola is taken when it opens upwards and does not fall at the largest window. -/
def Upwards (windows : List (ServiceWindow K)) (q : Fin 3 → K) : Prop :=
  0 ≤ q 2 ∧ 0 ≤ q 1 + 2 * q 2 * (uMax windows : K)

instance (windows : List (ServiceWindow K)) (q : Fin 3 → K) : Decidable (Upwards windows q) :=
  inferInstanceAs (Decidable (_ ∧ _))

/-- The quadratic fit, the linear one when that does not apply, or none. -/
def fitServiceCurve (windows : List (ServiceWindow K)) : Option (ServiceFit K) :=
  match (windows.map ServiceWindow.p10Ms).min? with
  | none => none
  | some floorMs =>
    match (if 4 ≤ windows.length then solveWeightedPoly sqrt 3 windows else none).filter
        (fun q => Upwards windows q) with
    | some q => some ⟨q 0, q 1, q 2, floorMs⟩
    | none =>
      match (if 2 ≤ windows.length then solveWeightedPoly sqrt 2 windows else none).filter
          (fun q => 0 ≤ q 1) with
      | some q => some ⟨q 0, q 1, 0, floorMs⟩
      | none => none

end Curve

theorem exists_least {K : Type*} {windows : List (ServiceWindow K)} (hne : windows ≠ []) :
    ∃ least ∈ windows, ∀ w ∈ windows, least.u ≤ w.u := by
  induction windows with
  | nil => exact absurd rfl hne
  | cons w windows ih =>
      by_cases hnil : windows = []
      · exact ⟨w, by simp, by simp [hnil]⟩
      · obtain ⟨least, hleast, hle⟩ := ih hnil
        by_cases hw : w.u ≤ least.u
        · exact ⟨w, by simp, List.forall_mem_cons.mpr ⟨le_refl _, fun w' h => hw.trans (hle w' h)⟩⟩
        · exact ⟨least, List.mem_cons_of_mem _ hleast,
            List.forall_mem_cons.mpr ⟨(not_le.mp hw).le, hle⟩⟩

/-! ## Least squares -/

section LeastSquares

variable {K : Type*} [Field K] (sqrt : ℕ → K)

def polyAt {deg : ℕ} (q : Fin deg → K) (u : K) : K := ∑ j, q j * u ^ j.val

/-- The fitted floors have the weighted moments of the observed ones. -/
def LeastSquares {deg : ℕ} (windows : List (ServiceWindow K)) (q : Fin deg → K) : Prop :=
  ∀ i : Fin deg,
    (windows.map (fun w => sqrt w.count * (w.u : K) ^ i.val * polyAt q w.u)).sum =
      (windows.map (fun w => sqrt w.count * (w.u : K) ^ i.val * w.p10Ms)).sum

theorem normalEquations_solves_iff {deg : ℕ} (windows : List (ServiceWindow K)) (q : Fin deg → K) :
    (normalEquations sqrt deg windows).Solves q ↔ LeastSquares sqrt windows q := by
  refine forall_congr' (fun i => ?_)
  have hsum : ∑ j, (normalEquations sqrt deg windows).coeff i j * q j =
      (windows.map (fun w => sqrt w.count * (w.u : K) ^ i.val * polyAt q w.u)).sum :=
    WeightedFit.sum_coeff_mul q i
  rw [hsum]
  exact Iff.rfl

theorem polyAt_three (q : Fin 3 → K) (u : K) : polyAt q u = q 0 + q 1 * u + q 2 * u * u := by
  rw [polyAt, Fin.sum_univ_three]
  simp only [Fin.val_zero, Fin.val_one, Fin.val_two]
  ring

theorem polyAt_sub (q : Fin 3 → K) (m n : K) :
    polyAt q n - polyAt q m = (n - m) * (q 1 + q 2 * (n + m)) := by
  rw [polyAt_three, polyAt_three]
  ring

variable [LinearOrder K] [IsStrictOrderedRing K]

/-- The polynomial that the solver returns is the only least-squares fit. -/
theorem leastSquares_iff_of_solve {deg : ℕ} {windows : List (ServiceWindow K)} {q : Fin deg → K}
    (h : solveWeightedPoly sqrt deg windows = some q) {q' : Fin deg → K} :
    LeastSquares sqrt windows q' ↔ q' = q := by
  rw [← normalEquations_solves_iff]
  exact Elimination.System.solves_iff_of_solve (by positivity) h

/-- The least-squares parabola is defined and taken. -/
structure Taken (windows : List (ServiceWindow K)) (q : Fin 3 → K) : Prop where
  fit : LeastSquares sqrt windows q
  enough : 4 ≤ windows.length
  regular : (solveWeightedPoly sqrt 3 windows).isSome
  upwards : Upwards windows q

theorem taken_iff {windows : List (ServiceWindow K)} {q : Fin 3 → K} :
    Taken sqrt windows q ↔
      (if 4 ≤ windows.length then solveWeightedPoly sqrt 3 windows else none).filter
        (fun q => Upwards windows q) = some q := by
  rw [Option.filter_eq_some_iff]
  constructor
  · intro h
    obtain ⟨q', hq'⟩ := Option.isSome_iff_exists.mp h.regular
    obtain rfl := (leastSquares_iff_of_solve sqrt hq').mp h.fit
    exact ⟨by rw [if_pos h.enough, hq'], decide_eq_true h.upwards⟩
  · rintro ⟨hsolve, hupwards⟩
    split_ifs at hsolve with henough
    exact ⟨(leastSquares_iff_of_solve sqrt hsolve).mpr rfl, henough, by rw [hsolve]; rfl,
      of_decide_eq_true hupwards⟩

/-! ## Monotonicity -/

/-- No token count within the windows takes less time than a smaller one. -/
def Grows (windows : List (ServiceWindow K)) (fit : ServiceFit K) : Prop :=
  ∀ m n : ℕ, (∃ w ∈ windows, w.u ≤ m) → m ≤ n → (∃ w ∈ windows, n ≤ w.u) →
    fit.evalMs m ≤ fit.evalMs n

/-- Above every floor at the smallest window, the parabola falls to the next token count. -/
def Dips (windows : List (ServiceWindow K)) (q : Fin 3 → K) : Prop :=
  ∃ least ∈ windows, (∀ w ∈ windows, least.u ≤ w.u) ∧ (∃ w ∈ windows, least.u < w.u) ∧
    polyAt q ((least.u + 1 : ℕ) : K) < polyAt q least.u ∧
    ∃ w ∈ windows, w.p10Ms < polyAt q least.u

section Parabola

variable {q : Fin 3 → K} (hopen : 0 ≤ q 2)

include hopen

/-- An upward parabola that does not fall at `l` does not fall afterwards. -/
theorem polyAt_le_of_step {l m n : ℕ} (hstep : polyAt q l ≤ polyAt q ((l + 1 : ℕ) : K))
    (hlm : l ≤ m) (hmn : m ≤ n) : polyAt q (m : K) ≤ polyAt q (n : K) := by
  have hslope := sub_nonneg.mpr hstep
  rw [polyAt_sub] at hslope
  push_cast at hslope
  have hl : (l : K) ≤ m := Nat.cast_le.mpr hlm
  rcases Nat.lt_or_eq_of_le hmn with hlt | rfl
  · have hn : (m : K) + 1 ≤ n := by exact_mod_cast hlt
    have hlater : 0 ≤ q 2 * ((n : K) + m - (l + 1 + l)) := mul_nonneg hopen (by linarith)
    rw [← sub_nonneg, polyAt_sub]
    exact mul_nonneg (by linarith) (by linarith)
  · exact le_refl _

/-- Where an upward parabola falls, it has fallen all the way. -/
theorem polyAt_le_of_fall {l m n : ℕ} (hfall : polyAt q (n : K) < polyAt q (m : K)) (hlm : l ≤ m)
    (hmn : m ≤ n) : polyAt q (m : K) ≤ polyAt q (l : K) := by
  have hl : (l : K) ≤ m := Nat.cast_le.mpr hlm
  have hn : (m : K) ≤ n := Nat.cast_le.mpr hmn
  have hslope := sub_neg.mpr hfall
  rw [polyAt_sub] at hslope
  have hneg : q 1 + q 2 * ((n : K) + m) < 0 := by
    by_contra hpos
    exact absurd (mul_nonneg (by linarith : 0 ≤ (n : K) - m) (not_lt.mp hpos)) (not_le.mpr hslope)
  have hearlier : q 2 * ((m : K) + l) ≤ q 2 * ((n : K) + m) :=
    mul_le_mul_of_nonneg_left (by linarith) hopen
  rw [← sub_nonpos, polyAt_sub]
  exact mul_nonpos_of_nonneg_of_nonpos (by linarith) (by linarith)

end Parabola

/-- A clamped upward parabola grows over the windows unless it dips at the first. -/
theorem grows_iff_of_upwards {windows : List (ServiceWindow K)} {q : Fin 3 → K} {floorMs : K}
    (hfloor : (windows.map ServiceWindow.p10Ms).min? = some floorMs) (hopen : 0 ≤ q 2) :
    Grows windows ⟨q 0, q 1, q 2, floorMs⟩ ↔ ¬ Dips windows q := by
  have heval : ∀ n : ℕ, (⟨q 0, q 1, q 2, floorMs⟩ : ServiceFit K).evalMs n =
      max (polyAt q n) floorMs := fun n => by rw [ServiceFit.evalMs, polyAt_three]
  obtain ⟨hmem, hmin⟩ := List.min?_eq_some_iff.mp hfloor
  have hunder : ∀ x : K, floorMs < x ↔ ∃ w ∈ windows, w.p10Ms < x := by
    intro x
    constructor
    · intro hlt
      obtain ⟨w, hw, hp10⟩ := List.mem_map.mp hmem
      exact ⟨w, hw, hp10 ▸ hlt⟩
    · rintro ⟨w, hw, hlt⟩
      exact (hmin _ (List.mem_map_of_mem hw)).trans_lt hlt
  constructor
  · rintro hgrows ⟨least, hleast, -, ⟨w, hw, hmore⟩, hfall, hfloors⟩
    have hle := hgrows least.u (least.u + 1) ⟨least, hleast, le_refl _⟩ (Nat.le_succ _)
      ⟨w, hw, hmore⟩
    rw [heval, heval] at hle
    have habove := (hunder _).mpr hfloors
    exact absurd ((le_max_left _ _).trans hle) (not_le.mpr (max_lt hfall habove))
  · rintro hdips m n ⟨first, hfirst, hm⟩ hmn ⟨last, hlast, hn⟩
    obtain ⟨least, hleast, hall⟩ := exists_least (List.ne_nil_of_mem hfirst)
    have hlm : least.u ≤ m := (hall first hfirst).trans hm
    rw [heval, heval]
    by_cases hstep : polyAt q (least.u : K) ≤ polyAt q ((least.u + 1 : ℕ) : K)
    · exact max_le_max (polyAt_le_of_step hopen hstep hlm hmn) (le_refl _)
    · by_cases hmore : least.u < last.u
      · have hbelow : polyAt q (least.u : K) ≤ floorMs := by
          by_contra habove
          exact hdips ⟨least, hleast, hall, ⟨last, hlast, hmore⟩, not_le.mp hstep,
            (hunder _).mp (not_le.mp habove)⟩
        by_cases hfall : polyAt q (n : K) < polyAt q (m : K)
        · have hearlier := polyAt_le_of_fall hopen hfall hlm hmn
          exact max_le (hearlier.trans hbelow |>.trans (le_max_right _ _)) (le_max_right _ _)
        · exact max_le_max (not_lt.mp hfall) (le_refl _)
      · have hsame : m = n := by omega
        rw [hsame]

/-- The fitted curve grows over the windows unless the least-squares parabola is taken and dips. -/
theorem fitServiceCurve_grows_iff {windows : List (ServiceWindow K)} {fit : ServiceFit K}
    (h : fitServiceCurve sqrt windows = some fit) :
    Grows windows fit ↔ ¬ ∃ q, Taken sqrt windows q ∧ Dips windows q := by
  unfold fitServiceCurve at h
  split at h
  · cases h
  · next floorMs hfloor =>
      split at h
      · next q hq =>
          cases h
          rw [grows_iff_of_upwards hfloor ((taken_iff sqrt).mpr hq).upwards.1, not_iff_not]
          constructor
          · exact fun hdips => ⟨q, (taken_iff sqrt).mpr hq, hdips⟩
          · rintro ⟨q', htaken, hdips⟩
            obtain rfl : q = q' := Option.some.inj (hq.symm.trans ((taken_iff sqrt).mp htaken))
            exact hdips
      · next hnone =>
          split at h
          · next q hq =>
              cases h
              refine iff_of_true (fun m n _ hmn _ => ?_) ?_
              · have hslope : 0 ≤ q 1 := of_decide_eq_true (Option.filter_eq_some_iff.mp hq).2
                have hcast : (m : K) ≤ n := Nat.cast_le.mpr hmn
                have hterm := mul_le_mul_of_nonneg_left hcast hslope
                rw [ServiceFit.evalMs, ServiceFit.evalMs]
                refine max_le_max ?_ (le_refl _)
                linarith
              · rintro ⟨q', htaken, -⟩
                rw [(taken_iff sqrt).mp htaken] at hnone
                cases hnone
          · cases h

end LeastSquares

/-- Nine first-token times at each of four token counts, on the parabola with its least value at
900 tokens. -/
def dippingTimes : List (ℕ × ℚ) :=
  [(100, 20), (900, 10), (1700, 20), (2500, 50)].flatMap (List.replicate 9)

theorem dippingTimes_fit :
    (fitServiceCurve (fun n => (Nat.sqrt n : ℚ)) (serviceWindows dippingTimes)).map
      (fun fit => (fit.evalMs (100 : ℕ), fit.evalMs (900 : ℕ))) = some (20, 10) := by
  decide +kernel

theorem dippingTimes_falls {fit : ServiceFit ℚ}
    (h : fitServiceCurve (fun n => (Nat.sqrt n : ℚ)) (serviceWindows dippingTimes) = some fit) :
    ¬ Grows (serviceWindows dippingTimes) fit := by
  intro hgrows
  have hvalues := dippingTimes_fit
  rw [h, Option.map_some] at hvalues
  obtain ⟨hsmall, hlarge⟩ := Prod.mk.inj (Option.some.inj hvalues)
  have hbounds : (∃ w ∈ serviceWindows dippingTimes, w.u ≤ 100) ∧
      ∃ w ∈ serviceWindows dippingTimes, 900 ≤ w.u := by decide +kernel
  have hle := hgrows 100 900 hbounds.1 (by decide) hbounds.2
  rw [hsmall, hlarge] at hle
  exact absurd hle (by decide +kernel)

theorem dippingTimes_shrink :
    ¬ ∀ (windows : List (ServiceWindow ℚ)) (fit : ServiceFit ℚ),
      fitServiceCurve (fun n => (Nat.sqrt n : ℚ)) windows = some fit → Grows windows fit := by
  intro hclaim
  obtain ⟨fit, hfit, -⟩ := Option.map_eq_some_iff.mp dippingTimes_fit
  exact dippingTimes_falls hfit (hclaim _ fit hfit)

theorem dippingTimes_dips :
    ∃ q, Taken (fun n => (Nat.sqrt n : ℚ)) (serviceWindows dippingTimes) q ∧
      Dips (serviceWindows dippingTimes) q := by
  obtain ⟨fit, hfit, -⟩ := Option.map_eq_some_iff.mp dippingTimes_fit
  by_contra hnone
  exact dippingTimes_falls hfit ((fitServiceCurve_grows_iff _ hfit).mpr hnone)

end VllmVcr
