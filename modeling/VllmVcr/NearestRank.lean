import Mathlib.Data.List.Sort
import Mathlib.Order.Defs.LinearOrder

/-!
# Nearest ranks

The sample of a given rank, told by how many samples lie below it, whatever their order.
-/

namespace NearestRank

variable {α : Type*} [LinearOrder α]

/-- A sample with fewer than `k` samples below it and at least `k` up to it. -/
structure HasRank (k : ℕ) (samples : List α) (v : α) : Prop where
  mem : v ∈ samples
  below : samples.countP (· < v) < k
  upTo : k ≤ samples.countP (· ≤ v)

variable {k : ℕ} {samples samples' : List α} {v v' : α}

theorem HasRank.le (h : HasRank k samples v) (h' : HasRank k samples v') : v ≤ v' := by
  by_contra hlt
  have hcount : samples.countP (· ≤ v') ≤ samples.countP (· < v) := by
    refine List.countP_mono_left (fun x _ hx => ?_)
    simp only [decide_eq_true_eq] at hx ⊢
    exact lt_of_le_of_lt hx (not_le.mp hlt)
  have hbelow := h.below
  have hupTo := h'.upTo
  omega

theorem HasRank.unique (h : HasRank k samples v) (h' : HasRank k samples v') : v = v' :=
  le_antisymm (h.le h') (h'.le h)

theorem HasRank.of_perm (h : HasRank k samples v) (hperm : samples.Perm samples') :
    HasRank k samples' v :=
  ⟨hperm.mem_iff.mp h.mem, hperm.countP_eq _ ▸ h.below, hperm.countP_eq _ ▸ h.upTo⟩

/-- In a sorted list, the rank tells the place. -/
theorem hasRank_getElem (hsorted : samples.Pairwise (· ≤ ·)) {i : ℕ} (hi : i < samples.length) :
    HasRank (i + 1) samples samples[i] := by
  have hpairs := List.pairwise_iff_getElem.mp hsorted
  refine ⟨List.getElem_mem hi, ?_, ?_⟩
  · have hlater : (samples.drop i).countP (· < samples[i]) = 0 := by
      rw [List.countP_eq_zero]
      intro x hx
      obtain ⟨j, hj, rfl⟩ := List.mem_iff_getElem.mp hx
      rw [List.length_drop] at hj
      rw [List.getElem_drop, decide_eq_true_eq, not_lt]
      by_cases hzero : j = 0
      · simp [hzero]
      · exact hpairs i (i + j) hi (by omega) (by omega)
    have hcount : samples.countP (· < samples[i]) =
        (samples.take i).countP (· < samples[i]) + (samples.drop i).countP (· < samples[i]) := by
      rw [← List.countP_append, List.take_append_drop]
    have hle := (samples.take i).countP_le_length (p := (· < samples[i]))
    rw [List.length_take] at hle
    omega
  · have hearlier : (samples.take (i + 1)).countP (· ≤ samples[i]) = i + 1 := by
      have hall : ∀ x ∈ samples.take (i + 1), decide (x ≤ samples[i]) = true := by
        intro x hx
        obtain ⟨j, hj, rfl⟩ := List.mem_iff_getElem.mp hx
        rw [List.length_take] at hj
        rw [List.getElem_take, decide_eq_true_eq]
        rcases Nat.lt_or_eq_of_le (show j ≤ i by omega) with hlt | rfl
        · exact hpairs j i (by omega) hi hlt
        · exact le_refl _
      rw [List.countP_eq_length.mpr hall, List.length_take]
      omega
    rw [← hearlier]
    exact List.Sublist.countP_le (List.take_sublist _ _)

/-- A list's sample of a rank is found by sorting. -/
theorem hasRank_insertionSort {i : ℕ} (hi : i < (samples.insertionSort (· ≤ ·)).length) :
    HasRank (i + 1) samples (samples.insertionSort (· ≤ ·))[i] :=
  (hasRank_getElem (List.pairwise_insertionSort _ _) hi).of_perm (List.perm_insertionSort _ _)

end NearestRank
