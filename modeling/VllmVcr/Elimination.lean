import Mathlib.Algebra.BigOperators.Fin
import Mathlib.Algebra.Order.BigOperators.Group.LocallyFinite
import Mathlib.Algebra.Order.Field.Basic
import Mathlib.Data.Fin.VecNotation
import Mathlib.Data.List.FinRange
import Mathlib.Logic.Equiv.Basic
import Mathlib.Order.Interval.Finset.Fin
import Mathlib.Tactic.FieldSimp
import Mathlib.Tactic.Ring

/-!
# Gaussian elimination

Square systems of linear equations over an ordered field, solved by elimination with partial
pivoting and back substitution. What comes out is the only solution.
-/

namespace Elimination

/-- As many linear equations as unknowns. -/
structure System (K : Type*) (n : ℕ) where
  coeff : Fin n → Fin n → K
  rhs : Fin n → K

namespace System

variable {K : Type*} [Field K] {n : ℕ}

def Solves (s : System K n) (x : Fin n → K) : Prop := ∀ i, ∑ j, s.coeff i j * x j = s.rhs i

def swap (s : System K n) (i j : Fin n) : System K n where
  coeff row := s.coeff (Equiv.swap i j row)
  rhs row := s.rhs (Equiv.swap i j row)

/-- Clear a column below the diagonal. -/
def subtract (s : System K n) (col : Fin n) : System K n where
  coeff row k :=
    if col < row ∧ col ≤ k then
      s.coeff row k - s.coeff row col / s.coeff col col * s.coeff col k
    else s.coeff row k
  rhs row :=
    if col < row then s.rhs row - s.coeff row col / s.coeff col col * s.rhs col else s.rhs row

/-- The first `m` columns are those of a triangular system. -/
def Upper (s : System K n) (m : ℕ) : Prop :=
  ∀ k : Fin n, k.val < m → s.coeff k k ≠ 0 ∧ ∀ i, k < i → s.coeff i k = 0

theorem swap_solves (s : System K n) (i j : Fin n) {x : Fin n → K} :
    (s.swap i j).Solves x ↔ s.Solves x := by
  constructor
  · intro h row
    have hrow := h (Equiv.swap i j row)
    simpa [swap] using hrow
  · exact fun h row => h (Equiv.swap i j row)

theorem Upper.swap {s : System K n} {col p : Fin n} (h : s.Upper col) (hp : col ≤ p) :
    (s.swap col p).Upper col := by
  intro k hk
  have hcol : k ≠ col := fun heq => by simp [heq] at hk
  have hpk : k ≠ p := fun heq => by
    subst heq
    exact absurd hp (not_le.mpr hk)
  have hsame : Equiv.swap col p k = k := Equiv.swap_apply_of_ne_of_ne hcol hpk
  refine ⟨?_, fun i hi => ?_⟩
  · change s.coeff (Equiv.swap col p k) k ≠ 0
    rw [hsame]
    exact (h k hk).1
  · refine (h k hk).2 _ ?_
    by_cases hi₁ : i = col
    · rw [hi₁, Equiv.swap_apply_left]
      exact lt_of_lt_of_le hk hp
    · by_cases hi₂ : i = p
      · rw [hi₂, Equiv.swap_apply_right]
        exact hk
      · rw [Equiv.swap_apply_of_ne_of_ne hi₁ hi₂]
        exact hi

theorem Upper.subtract {s : System K n} {col : Fin n} (h : s.Upper col)
    (hcol : s.coeff col col ≠ 0) : (s.subtract col).Upper (col + 1) := by
  intro k hk
  rcases Nat.lt_succ_iff_lt_or_eq.mp hk with hlt | heq
  · have hout : ∀ row, (s.subtract col).coeff row k = s.coeff row k := fun row =>
      if_neg (fun hboth => absurd hboth.2 (not_le.mpr hlt))
    rw [hout]
    exact ⟨(h k hlt).1, fun i hi => (hout i).trans ((h k hlt).2 i hi)⟩
  · obtain rfl : k = col := Fin.ext heq
    refine ⟨?_, fun i hi => ?_⟩
    · change ite _ _ _ ≠ 0
      rwa [if_neg (fun hboth => lt_irrefl k hboth.1)]
    · change ite _ _ _ = 0
      rw [if_pos ⟨hi, le_refl k⟩, div_mul_cancel₀ _ hcol, sub_self]

theorem subtract_solves {s : System K n} {col : Fin n} (h : s.Upper col) {x : Fin n → K} :
    (s.subtract col).Solves x ↔ s.Solves x := by
  have hrow : ∀ row, col < row → ∑ j, (s.subtract col).coeff row j * x j =
      ∑ j, s.coeff row j * x j -
        s.coeff row col / s.coeff col col * ∑ j, s.coeff col j * x j := by
    intro row hlt
    rw [Finset.mul_sum, ← Finset.sum_sub_distrib]
    refine Finset.sum_congr rfl (fun k _ => ?_)
    change ite _ _ _ * _ = _
    by_cases hk : col ≤ k
    · rw [if_pos ⟨hlt, hk⟩]
      ring
    · have hzero : s.coeff col k = 0 := (h k (not_le.mp hk)).2 col (not_le.mp hk)
      rw [if_neg (fun hboth => hk hboth.2), hzero]
      ring
  have hsame : ∀ row, ¬ col < row → ∑ j, (s.subtract col).coeff row j * x j =
      ∑ j, s.coeff row j * x j := fun row hnot =>
    Finset.sum_congr rfl (fun k _ => congrArg (· * x k) (if_neg (fun hboth => hnot hboth.1)))
  have hpivot : (s.subtract col).rhs col = s.rhs col := if_neg (lt_irrefl col)
  constructor
  · intro hs row
    have hcol := hs col
    rw [hsame col (lt_irrefl col), hpivot] at hcol
    by_cases hlt : col < row
    · have hsum := hs row
      rw [hrow row hlt, hcol] at hsum
      have hrhs : (s.subtract col).rhs row =
          s.rhs row - s.coeff row col / s.coeff col col * s.rhs col := if_pos hlt
      rw [hrhs] at hsum
      exact sub_left_injective hsum
    · have hsum := hs row
      have hrhs : (s.subtract col).rhs row = s.rhs row := if_neg hlt
      rwa [hsame row hlt, hrhs] at hsum
  · intro hs row
    by_cases hlt : col < row
    · have hrhs : (s.subtract col).rhs row =
          s.rhs row - s.coeff row col / s.coeff col col * s.rhs col := if_pos hlt
      rw [hrow row hlt, hrhs, hs row, hs col]
    · have hrhs : (s.subtract col).rhs row = s.rhs row := if_neg hlt
      rw [hsame row hlt, hrhs, hs row]

/-! ## Back substitution -/

/-- What row `col` gives its own unknown, once the later ones are known. -/
def solveRow (s : System K n) (out : Fin n → K) (col : Fin n) : K :=
  (s.rhs col - ∑ k ∈ Finset.Ioi col, s.coeff col k * out k) / s.coeff col col

/-- The unknowns below `m`, from the last to the first. -/
def backFrom (s : System K n) : ℕ → (Fin n → K) → Fin n → K
  | 0, out => out
  | m + 1, out =>
      backFrom s m (if h : m < n then Function.update out ⟨m, h⟩ (s.solveRow out ⟨m, h⟩) else out)

def backSubstitute (s : System K n) : Fin n → K := s.backFrom n 0

theorem Upper.row_sum {s : System K n} (h : s.Upper n) (row : Fin n) (x : Fin n → K) :
    ∑ j, s.coeff row j * x j =
      ∑ k ∈ Finset.Ioi row, s.coeff row k * x k + s.coeff row row * x row := by
  rw [@Finset.sum_Ioi_add_eq_sum_Ici _ _ _ (fun k => s.coeff row k * x k) _ _ row]
  refine (Finset.sum_subset (Finset.subset_univ _) (fun k _ hk => ?_)).symm
  have hlt : k < row := by simpa using hk
  rw [(h k k.isLt).2 row hlt, zero_mul]

/-- Back substitution finds every solution. -/
theorem Upper.backFrom_eq {s : System K n} (h : s.Upper n) {x : Fin n → K} (hx : s.Solves x)
    {m : ℕ} (hm : m ≤ n) {out : Fin n → K} (hout : ∀ i : Fin n, m ≤ i → out i = x i) :
    s.backFrom m out = x := by
  induction m generalizing out with
  | zero => exact funext (fun i => hout i (Nat.zero_le _))
  | succ m ih =>
      rw [backFrom, dif_pos (show m < n from hm)]
      refine ih (Nat.le_of_succ_le hm) (fun i hi => ?_)
      by_cases heq : i = ⟨m, hm⟩
      · have hdiag := (h i i.isLt).1
        have hrow := hx i
        rw [h.row_sum] at hrow
        have hlater : ∑ k ∈ Finset.Ioi i, s.coeff i k * out k =
            ∑ k ∈ Finset.Ioi i, s.coeff i k * x k := by
          refine Finset.sum_congr rfl (fun k hk => ?_)
          have hlt : i < k := Finset.mem_Ioi.mp hk
          have hval : m < k := by rw [heq] at hlt; exact hlt
          rw [hout k hval]
        rw [← heq, Function.update_self, solveRow, hlater, ← hrow, add_sub_cancel_left,
          mul_div_cancel_left₀ _ hdiag]
      · have hne : i.val ≠ m := fun hval => heq (Fin.ext hval)
        rw [Function.update_of_ne heq]
        exact hout i (by omega)

/-- What back substitution finds is a solution. -/
theorem Upper.backFrom_solves {s : System K n} (h : s.Upper n) {m : ℕ} (hm : m ≤ n)
    {out : Fin n → K} (hout : ∀ i : Fin n, m ≤ i → ∑ j, s.coeff i j * out j = s.rhs i) :
    s.Solves (s.backFrom m out) := by
  induction m generalizing out with
  | zero => exact fun i => hout i (Nat.zero_le _)
  | succ m ih =>
      rw [backFrom, dif_pos (show m < n from hm)]
      refine ih (Nat.le_of_succ_le hm) (fun i hi => ?_)
      have hkept : ∑ k ∈ Finset.Ioi i, s.coeff i k *
          Function.update out ⟨m, hm⟩ (s.solveRow out ⟨m, hm⟩) k =
            ∑ k ∈ Finset.Ioi i, s.coeff i k * out k := by
        refine Finset.sum_congr rfl (fun k hk => ?_)
        have hlt : i < k := Finset.mem_Ioi.mp hk
        have hne : k ≠ ⟨m, hm⟩ := by
          rintro rfl
          exact absurd hi (not_le.mpr hlt)
        rw [Function.update_of_ne hne]
      rw [h.row_sum, hkept]
      by_cases heq : i = ⟨m, hm⟩
      · rw [← heq, Function.update_self, solveRow, mul_div_cancel₀ _ (h i i.isLt).1]
        ring
      · have hne : i.val ≠ m := fun hval => heq (Fin.ext hval)
        rw [Function.update_of_ne heq, ← h.row_sum]
        exact hout i (by omega)

theorem Upper.solves_iff {s : System K n} (h : s.Upper n) {x : Fin n → K} :
    s.Solves x ↔ x = s.backSubstitute := by
  constructor
  · exact fun hx => (h.backFrom_eq hx (le_refl n) (fun i hi => absurd i.isLt (not_lt.mpr hi))).symm
  · rintro rfl
    exact h.backFrom_solves (le_refl n) (fun i hi => absurd i.isLt (not_lt.mpr hi))

/-! ## Elimination -/

section Ordered

variable [LinearOrder K]

/-- The row of the largest entry on or below the diagonal of a column, the last of several. -/
def pivot (s : System K n) (col : Fin n) : Fin n :=
  ((List.finRange n).filter (fun row => col ≤ row)).foldl
    (fun best row => if |s.coeff best col| ≤ |s.coeff row col| then row else best) col

theorem le_pivot (s : System K n) (col : Fin n) : col ≤ s.pivot col := by
  refine List.foldlRecOn _ _ (motive := fun best => col ≤ best) (le_refl col) ?_
  intro best hbest row hrow
  split
  · exact of_decide_eq_true (List.mem_filter.mp hrow).2
  · exact hbest

/-- One column: pivot and clear below the diagonal, or give up on a pivot below `eps`. -/
def step (eps : K) (s : System K n) (col : Fin n) : Option (System K n) :=
  if |s.coeff (s.pivot col) col| < eps then none
  else some ((s.swap col (s.pivot col)).subtract col)

/-- The first `m` columns eliminated. -/
def eliminate (eps : K) (s : System K n) : ℕ → Option (System K n)
  | 0 => some s
  | m + 1 => (eliminate eps s m).bind (fun t => if h : m < n then t.step eps ⟨m, h⟩ else some t)

def solve (eps : K) (s : System K n) : Option (Fin n → K) :=
  (s.eliminate eps n).map backSubstitute

/-- What the rows below the diagonal of a column are divided by, if its pivot is taken. -/
def columnDivisors (eps : K) (s : System K n) (col : Fin n) : List K :=
  if |s.coeff (s.pivot col) col| < eps then []
  else [(s.swap col (s.pivot col)).coeff col col]

/-- What the first `m` columns divide by, as far as they get. -/
def eliminationDivisors (eps : K) (s : System K n) : ℕ → List K
  | 0 => []
  | m + 1 => eliminationDivisors eps s m ++
      ((s.eliminate eps m).toList.flatMap (fun t =>
        if h : m < n then t.columnDivisors eps ⟨m, h⟩ else []))

/-- Everything that solving a system divides by: pivots, and in the end the diagonal. -/
def divisors (eps : K) (s : System K n) : List K :=
  s.eliminationDivisors eps n ++
    (s.eliminate eps n).toList.flatMap (fun t => (List.finRange n).map (fun row => t.coeff row row))

variable [IsOrderedRing K]

/-- A pivot that is taken is not zero, and the swap brings it to the diagonal. -/
theorem diagonal_ne_zero {eps : K} (heps : 0 < eps) {s : System K n} {col : Fin n}
    (h : ¬ |s.coeff (s.pivot col) col| < eps) :
    (s.swap col (s.pivot col)).coeff col col ≠ 0 := by
  intro hzero
  have hentry : s.coeff (s.pivot col) col = 0 := by
    have hswap : (s.swap col (s.pivot col)).coeff col col =
        s.coeff (Equiv.swap col (s.pivot col) col) col := rfl
    rwa [hswap, Equiv.swap_apply_left] at hzero
  rw [hentry, abs_zero] at h
  exact h heps

theorem Upper.step {eps : K} (heps : 0 < eps) {s t : System K n} {col : Fin n} (h : s.Upper col)
    (hstep : s.step eps col = some t) :
    t.Upper (col + 1) ∧ ∀ x, t.Solves x ↔ s.Solves x := by
  unfold System.step at hstep
  split_ifs at hstep with hpivot
  obtain rfl := Option.some.inj hstep
  have hswapped := h.swap (s.le_pivot col)
  exact ⟨hswapped.subtract (diagonal_ne_zero heps hpivot),
    fun x => (subtract_solves hswapped).trans (s.swap_solves col (s.pivot col))⟩

theorem eliminate_upper {eps : K} (heps : 0 < eps) {s t : System K n} {m : ℕ} (hm : m ≤ n)
    (h : s.eliminate eps m = some t) : t.Upper m ∧ ∀ x, t.Solves x ↔ s.Solves x := by
  induction m generalizing t with
  | zero =>
      obtain rfl := Option.some.inj h
      exact ⟨fun k hk => absurd hk (Nat.not_lt_zero _), fun _ => Iff.rfl⟩
  | succ m ih =>
      obtain ⟨u, hu, hstep⟩ := Option.bind_eq_some_iff.mp h
      rw [dif_pos (show m < n from hm)] at hstep
      obtain ⟨hupper, hsolves⟩ := ih (Nat.le_of_succ_le hm) hu
      obtain ⟨hnext, hsame⟩ := Upper.step heps hupper hstep
      exact ⟨hnext, fun x => (hsame x).trans (hsolves x)⟩

/-- What elimination returns is the one solution of the system. -/
theorem solves_iff_of_solve {eps : K} (heps : 0 < eps) {s : System K n} {x : Fin n → K}
    (h : s.solve eps = some x) {y : Fin n → K} : s.Solves y ↔ y = x := by
  obtain ⟨t, ht, rfl⟩ := Option.map_eq_some_iff.mp h
  obtain ⟨hupper, hsolves⟩ := eliminate_upper heps (le_refl n) ht
  exact (hsolves y).symm.trans hupper.solves_iff

theorem eliminationDivisors_ne_zero {eps : K} (heps : 0 < eps) {s : System K n} {m : ℕ} :
    ∀ d ∈ s.eliminationDivisors eps m, d ≠ 0 := by
  induction m with
  | zero => simp [eliminationDivisors]
  | succ m ih =>
      intro d hd
      rw [eliminationDivisors, List.mem_append, List.mem_flatMap] at hd
      rcases hd with hd | ⟨t, _, hd⟩
      · exact ih d hd
      · split_ifs at hd with hm
        · unfold columnDivisors at hd
          split_ifs at hd with hpivot
          · cases hd
          · obtain rfl := List.mem_singleton.mp hd
            exact diagonal_ne_zero heps hpivot
        · cases hd

/-- No step of the solver divides by zero, whether or not it finds a solution. -/
theorem divisors_ne_zero {eps : K} (heps : 0 < eps) (s : System K n) :
    ∀ d ∈ s.divisors eps, d ≠ 0 := by
  intro d hd
  rw [divisors, List.mem_append, List.mem_flatMap] at hd
  rcases hd with hd | ⟨t, ht, hd⟩
  · exact eliminationDivisors_ne_zero heps d hd
  · obtain ⟨row, _, rfl⟩ := List.mem_map.mp hd
    exact ((eliminate_upper heps (le_refl n) (Option.mem_toList.mp ht)).1 row row.isLt).1

end Ordered

end System

end Elimination
