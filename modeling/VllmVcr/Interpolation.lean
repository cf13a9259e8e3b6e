import Mathlib.Algebra.Order.Field.Basic
import Mathlib.Algebra.Order.Floor.Semiring
import Mathlib.Data.List.GetD
import Mathlib.Tactic.Linarith
import Mathlib.Tactic.Positivity
import Mathlib.Tactic.Ring

/-!
# Interpolation

Draws that interpolate linearly between samples. Over sorted samples every value up to the
greatest one is reached, and the greatest one itself only when it is alone or comes twice.
-/

namespace Interpolation

section Below

variable {α : Type*} [LinearOrder α] {limit : α} {xs ys : List α}

/-- Draws from the samples can stay below the limit: none is above it, no two are the limit, and it
is not the only sample. -/
structure Below (limit : α) (xs : List α) : Prop where
  le : ∀ x ∈ xs, x ≤ limit
  once : xs.Pairwise (fun x y => ¬ (x = limit ∧ y = limit))
  beside : xs ≠ [limit]

theorem Below.of_lt (h : ∀ x ∈ xs, x < limit) : Below limit xs := by
  refine ⟨fun x hx => (h x hx).le, ?_, ?_⟩
  · exact List.Pairwise.imp_of_mem (fun hx _ _ heq => (h _ hx).ne heq.1)
      (List.pairwise_of_forall (fun _ _ => trivial))
  · rintro rfl
    exact lt_irrefl limit (h limit (List.mem_singleton_self limit))

theorem Below.of_perm (h : Below limit xs) (hperm : xs.Perm ys) :
    Below limit ys := by
  refine ⟨fun x hx => h.le x (hperm.mem_iff.mpr hx), ?_, ?_⟩
  · exact (hperm.pairwise_iff (fun hxy => fun heq => hxy heq.symm)).mp h.once
  · rintro rfl
    exact h.beside (List.perm_singleton.mp hperm)

theorem below_perm (hperm : xs.Perm ys) :
    Below limit xs ↔ Below limit ys :=
  ⟨fun h => h.of_perm hperm, fun h => h.of_perm hperm.symm⟩

end Below

section Draws

variable {K : Type*} [Field K] [LinearOrder K] [IsStrictOrderedRing K]

def between (a b f : K) : K := a * (1 - f) + b * f

theorem between_nonneg {a b f : K} (ha : 0 ≤ a) (hb : 0 ≤ b) (hf : 0 ≤ f) (hf' : f ≤ 1) :
    0 ≤ between a b f :=
  add_nonneg (mul_nonneg ha (sub_nonneg.mpr hf')) (mul_nonneg hb hf)

theorem between_lt {a b f limit : K} (ha : a < limit) (hb : b ≤ limit) (hf : 0 ≤ f) (hf' : f < 1) :
    between a b f < limit := by
  have hleft : a * (1 - f) < limit * (1 - f) := mul_lt_mul_of_pos_right ha (sub_pos.mpr hf')
  have hright : b * f ≤ limit * f := mul_le_mul_of_nonneg_right hb hf
  have hsplit : limit = limit * (1 - f) + limit * f := by ring
  rw [between, hsplit]
  exact add_lt_add_of_lt_of_le hleft hright

variable [FloorSemiring K]

/-- The value at the share `u` of the way through the samples. -/
def draw (xs : List K) (u : K) : K :=
  let pos := u * ((xs.length - 1 : ℕ) : K)
  between (xs.getD ⌊pos⌋₊ 0) (xs.getD (min (⌊pos⌋₊ + 1) (xs.length - 1)) 0) (pos - ⌊pos⌋₊)

variable {xs : List K} {u limit : K}

theorem draw_nonneg (h : ∀ x ∈ xs, 0 ≤ x) (hu : 0 ≤ u) : 0 ≤ draw xs u := by
  have hget : ∀ i, 0 ≤ xs.getD i 0 := by
    intro i
    rw [List.getD_eq_getElem?_getD]
    cases hi : xs[i]? with
    | none => exact le_refl _
    | some x => exact h x (List.mem_of_getElem? hi)
  have hpos : 0 ≤ u * ((xs.length - 1 : ℕ) : K) := mul_nonneg hu (Nat.cast_nonneg _)
  refine between_nonneg (hget _) (hget _) (sub_nonneg.mpr (Nat.floor_le hpos)) ?_
  have hlt := Nat.lt_floor_add_one (u * ((xs.length - 1 : ℕ) : K))
  linarith

@[simp] theorem draw_nil (u : K) : draw [] u = 0 := by
  simp [draw, between]

@[simp] theorem draw_singleton (x u : K) : draw [x] u = x := by
  simp [draw, between]

/-- Between the samples `i` and `i + 1`, the share `f` of the way. -/
theorem draw_between {i : ℕ} {f : K} (hi : i + 1 < xs.length) (hf : 0 ≤ f) (hf' : f < 1) :
    draw xs (((i : K) + f) / ((xs.length - 1 : ℕ) : K)) =
      between (xs.getD i 0) (xs.getD (i + 1) 0) f := by
  have hne : ((xs.length - 1 : ℕ) : K) ≠ 0 := by
    have hpos : xs.length - 1 ≠ 0 := by omega
    exact_mod_cast hpos
  have hfloor : ⌊(i : K) + f⌋₊ = i :=
    (Nat.floor_eq_iff (add_nonneg (Nat.cast_nonneg i) hf)).mpr ⟨by linarith, by linarith⟩
  have hmin : min (i + 1) (xs.length - 1) = i + 1 := by omega
  simp only [draw, div_mul_cancel₀ _ hne, hfloor, hmin, add_sub_cancel_left]

theorem draw_zero (xs : List K) : draw xs 0 = xs.getD 0 0 := by
  simp [draw, between]

section Sorted

variable (hlimit : ∀ u, 0 ≤ u → u < 1 → draw xs u < limit)

include hlimit

/-- Every sample but the last is drawn. -/
theorem inner_lt {i : ℕ} (hi : i + 1 < xs.length) : xs[i] < limit := by
  have hplace : (i : K) < ((xs.length - 1 : ℕ) : K) := by
    have hlt : i < xs.length - 1 := by omega
    exact_mod_cast hlt
  have hlen : (0 : K) < ((xs.length - 1 : ℕ) : K) := lt_of_le_of_lt (Nat.cast_nonneg i) hplace
  have hdraw := hlimit (((i : K) + 0) / ((xs.length - 1 : ℕ) : K))
    (div_nonneg (by positivity) hlen.le) ((div_lt_one hlen).mpr (by linarith))
  rw [draw_between hi le_rfl one_pos, between] at hdraw
  rw [← List.getD_eq_getElem xs 0 (by omega)]
  linarith

/-- If the last sample were above the limit, the limit would be drawn. -/
theorem last_le {i : ℕ} (hi : i + 1 < xs.length) : xs[i + 1] ≤ limit := by
  by_contra hgt
  rw [not_le] at hgt
  have hbefore := inner_lt hlimit hi
  have hgap : 0 < xs[i + 1] - xs[i] := by linarith
  have hplace : (i : K) + 1 ≤ ((xs.length - 1 : ℕ) : K) := by
    have hle : i + 1 ≤ xs.length - 1 := by omega
    exact_mod_cast hle
  have hi' : (0 : K) ≤ i := Nat.cast_nonneg i
  have hlen : (0 : K) < ((xs.length - 1 : ℕ) : K) := by linarith
  have hf : 0 ≤ (limit - xs[i]) / (xs[i + 1] - xs[i]) := div_nonneg (by linarith) hgap.le
  have hf' : (limit - xs[i]) / (xs[i + 1] - xs[i]) < 1 := (div_lt_one hgap).mpr (by linarith)
  have hhit : between xs[i] xs[i + 1] ((limit - xs[i]) / (xs[i + 1] - xs[i])) = limit := by
    have hcancel : (limit - xs[i]) / (xs[i + 1] - xs[i]) * (xs[i + 1] - xs[i]) = limit - xs[i] :=
      div_mul_cancel₀ _ hgap.ne'
    rw [between]
    linarith
  have hdraw := hlimit (((i : K) + (limit - xs[i]) / (xs[i + 1] - xs[i])) /
    ((xs.length - 1 : ℕ) : K)) (div_nonneg (by linarith) hlen.le)
    ((div_lt_one hlen).mpr (by linarith))
  rw [draw_between hi hf hf', List.getD_eq_getElem xs 0 (by omega),
    List.getD_eq_getElem xs 0 hi, hhit] at hdraw
  exact lt_irrefl limit hdraw

theorem below_of_draws : Below limit xs := by
  refine ⟨?_, ?_, ?_⟩
  · intro x hx
    obtain ⟨i, hi, rfl⟩ := List.mem_iff_getElem.mp hx
    cases i with
    | zero =>
        have hdraw := hlimit 0 le_rfl one_pos
        rw [draw_zero, List.getD_eq_getElem xs 0 hi] at hdraw
        exact hdraw.le
    | succ i => exact last_le hlimit hi
  · rw [List.pairwise_iff_getElem]
    intro i j hi hj hij heq
    exact (inner_lt hlimit (by omega)).ne heq.1
  · rintro rfl
    have hdraw := hlimit 0 le_rfl one_pos
    rw [draw_singleton] at hdraw
    exact lt_irrefl limit hdraw

end Sorted

/-- No draw from sorted samples that can stay below the limit reaches it. -/
theorem Below.draw_lt (h : Below limit xs) (hsorted : xs.Pairwise (· ≤ ·)) (hpos : 0 < limit)
    (hu : 0 ≤ u) (hu' : u < 1) : draw xs u < limit := by
  rcases xs with _ | ⟨x, _ | ⟨y, rest⟩⟩
  · rwa [draw_nil]
  · rw [draw_singleton]
    exact lt_of_le_of_ne (h.le x (List.mem_singleton_self x)) (fun heq => h.beside (by rw [heq]))
  · set xs := x :: y :: rest with hxs
    have hlen : 1 < xs.length := by simp [hxs]
    have hcount : (0 : K) < ((xs.length - 1 : ℕ) : K) := by
      have hpos : 0 < xs.length - 1 := by omega
      exact_mod_cast hpos
    have hpos : 0 ≤ u * ((xs.length - 1 : ℕ) : K) := mul_nonneg hu hcount.le
    have hplace : ⌊u * ((xs.length - 1 : ℕ) : K)⌋₊ < xs.length - 1 := by
      rw [Nat.floor_lt hpos]
      exact mul_lt_of_lt_one_left hcount hu'
    have hnext : ⌊u * ((xs.length - 1 : ℕ) : K)⌋₊ + 1 < xs.length := by omega
    have hmin : min (⌊u * ((xs.length - 1 : ℕ) : K)⌋₊ + 1) (xs.length - 1) =
        ⌊u * ((xs.length - 1 : ℕ) : K)⌋₊ + 1 := by omega
    have hle := Nat.floor_le hpos
    have hlt := Nat.lt_floor_add_one (u * ((xs.length - 1 : ℕ) : K))
    have hup := List.pairwise_iff_getElem.mp hsorted _ _ (by omega) hnext (Nat.lt_succ_self _)
    have honce := List.pairwise_iff_getElem.mp h.once _ _ (by omega) hnext (Nat.lt_succ_self _)
    have hright := h.le _ (List.getElem_mem hnext)
    have hleft : xs[⌊u * ((xs.length - 1 : ℕ) : K)⌋₊] < limit := by
      refine lt_of_le_of_ne (hup.trans hright) (fun heq => ?_)
      exact honce ⟨heq, le_antisymm hright (heq ▸ hup)⟩
    unfold draw
    dsimp only
    rw [hmin, List.getD_eq_getElem xs 0 (by omega), List.getD_eq_getElem xs 0 hnext]
    exact between_lt hleft hright (by linarith) (by linarith)

end Draws

end Interpolation
