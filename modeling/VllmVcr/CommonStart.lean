import Mathlib.Data.List.Basic
import Mathlib.Data.List.TakeDrop

/-!
# Common starts of lists

How far two lists agree from their starts, item by item and in whole chunks of equal size.
-/

namespace CommonStart

variable {α : Type*}

section Length

variable [DecidableEq α]

/-- The length of the longest common start of two lists. -/
def commonLength : List α → List α → ℕ
  | a :: l, b :: l' => if a = b then commonLength l l' + 1 else 0
  | _, _ => 0

theorem le_commonLength_iff {l l' : List α} {n : ℕ} :
    n ≤ commonLength l l' ↔ n ≤ l.length ∧ n ≤ l'.length ∧ l.take n = l'.take n := by
  induction l generalizing l' n with
  | nil =>
      simp only [commonLength, List.length_nil]
      constructor
      · intro h
        obtain rfl := Nat.le_zero.mp h
        simp
      · exact fun h => h.1
  | cons a l ih =>
      cases l' with
      | nil =>
          simp only [commonLength, List.length_nil]
          constructor
          · intro h
            obtain rfl := Nat.le_zero.mp h
            simp
          · exact fun h => h.2.1
      | cons b l' =>
          cases n with
          | zero => simp
          | succ n =>
              rw [commonLength]
              simp only [List.length_cons, List.take_succ_cons, List.cons.injEq,
                Nat.add_le_add_iff_right]
              by_cases hab : a = b
              · rw [if_pos hab, Nat.add_le_add_iff_right, ih]
                simp [hab]
              · simp [hab]

theorem lt_commonLength_iff {l l' : List α} {i : ℕ} :
    i < commonLength l l' ↔ i < l.length ∧ i < l'.length ∧ l.take (i + 1) = l'.take (i + 1) :=
  le_commonLength_iff

theorem commonLength_le_left (l l' : List α) : commonLength l l' ≤ l.length :=
  (le_commonLength_iff.mp (Nat.le_refl _)).1

@[simp] theorem commonLength_nil_left (l : List α) : commonLength [] l = 0 := by
  cases l <;> rfl

@[simp] theorem commonLength_nil_right (l : List α) : commonLength l [] = 0 := by
  cases l <;> rfl

theorem commonLength_cons_self (a : α) (l l' : List α) :
    commonLength (a :: l) (a :: l') = commonLength l l' + 1 :=
  if_pos rfl

theorem commonLength_cons_ne {a b : α} (h : a ≠ b) (l l' : List α) :
    commonLength (a :: l) (b :: l') = 0 :=
  if_neg h

end Length

/-- The full chunks of a list; what is left over is dropped. -/
def chunks (size : ℕ) (l : List α) : List (List α) :=
  (List.range (l.length / size)).map (fun i => (l.drop (i * size)).take size)

@[simp] theorem length_chunks (size : ℕ) (l : List α) :
    (chunks size l).length = l.length / size := by
  simp [chunks]

theorem flatten_take_chunks {size : ℕ} {l : List α} {n : ℕ} (hn : n ≤ l.length / size) :
    ((chunks size l).take n).flatten = l.take (n * size) := by
  induction n with
  | zero => simp
  | succ n ih =>
      have hlt : n < (chunks size l).length := by
        rw [length_chunks]
        omega
      rw [List.take_add_one, List.getElem?_eq_getElem hlt, List.flatten_append,
        ih (Nat.le_of_succ_le hn), Nat.add_one_mul, List.take_add]
      simp [chunks]

theorem take_chunks_eq_iff {size : ℕ} {l l' : List α} {n : ℕ} (hn : n ≤ l.length / size)
    (hn' : n ≤ l'.length / size) :
    (chunks size l).take n = (chunks size l').take n ↔ l.take (n * size) = l'.take (n * size) := by
  constructor
  · intro h
    rw [← flatten_take_chunks hn, ← flatten_take_chunks hn', h]
  · intro h
    have hchunk : ∀ m : List α, n ≤ m.length / size → (chunks size m).take n =
        (List.range n).map (fun i => ((m.take (n * size)).drop (i * size)).take size) := by
      intro m hm
      rw [chunks, ← List.map_take, List.take_range, Nat.min_eq_left hm]
      refine List.map_congr_left (fun i hi => ?_)
      have hfits : (i + 1) * size ≤ n * size := Nat.mul_le_mul_right size (List.mem_range.mp hi)
      rw [Nat.add_one_mul] at hfits
      rw [List.drop_take, List.take_take, Nat.min_eq_left (by omega)]
    rw [hchunk l hn, hchunk l' hn', h]

theorem chunks_cons {size : ℕ} {block : List α} (hblock : block.length = size) (hsize : 0 < size)
    (l : List α) : chunks size (block ++ l) = block :: chunks size l := by
  have hcount : (block ++ l).length / size = l.length / size + 1 := by
    rw [List.length_append, hblock, Nat.add_div_left _ hsize]
  rw [chunks, hcount, List.range_succ_eq_map, List.map_cons, List.map_map, Nat.zero_mul,
    List.drop_zero, List.take_left' hblock]
  refine congrArg (block :: ·) (List.map_congr_left (fun i _ => ?_))
  simp only [Function.comp_apply]
  rw [Nat.succ_mul, Nat.add_comm, ← List.drop_drop, List.drop_left' hblock]

theorem chunks_flatten {size : ℕ} {blocks : List (List α)} (hblocks : ∀ b ∈ blocks, b.length = size)
    (hsize : 0 < size) (l : List α) :
    chunks size (blocks.flatten ++ l) = blocks ++ chunks size l := by
  induction blocks with
  | nil => rfl
  | cons block blocks ih =>
      rw [List.flatten_cons, List.append_assoc, chunks_cons (hblocks block List.mem_cons_self) hsize,
        ih (fun b hb => hblocks b (List.mem_cons_of_mem _ hb)), List.cons_append]

theorem chunks_take {size : ℕ} (l : List α) {n : ℕ} (hn : n ≤ l.length) :
    chunks size (l.take n) = (chunks size l).take (n / size) := by
  have hle : n / size ≤ l.length / size := Nat.div_le_div_right hn
  rw [chunks, chunks, ← List.map_take, List.take_range, Nat.min_eq_left hle, List.length_take,
    Nat.min_eq_left hn]
  refine List.map_congr_left (fun i hi => ?_)
  have hfits : (i + 1) * size ≤ n :=
    Nat.le_trans (Nat.mul_le_mul_right size (List.mem_range.mp hi)) (Nat.div_mul_le_self _ _)
  rw [Nat.add_one_mul] at hfits
  rw [List.drop_take, List.take_take, Nat.min_eq_left (by omega)]

theorem chunks_short {size : ℕ} {l : List α} (h : l.length < size) : chunks size l = [] := by
  rw [← List.length_eq_zero_iff, length_chunks, Nat.div_eq_of_lt h]

/-- Two lists share as many chunks as fit into their common start. -/
theorem commonLength_chunks [DecidableEq α] {size : ℕ} (hsize : 0 < size) (l l' : List α) :
    commonLength (chunks size l) (chunks size l') = commonLength l l' / size := by
  have hiff : ∀ n, n ≤ commonLength (chunks size l) (chunks size l') ↔
      n ≤ commonLength l l' / size := by
    intro n
    rw [le_commonLength_iff, Nat.le_div_iff_mul_le hsize, le_commonLength_iff, length_chunks,
      length_chunks, ← Nat.le_div_iff_mul_le hsize, ← Nat.le_div_iff_mul_le hsize]
    constructor
    · exact fun ⟨h, h', htake⟩ => ⟨h, h', (take_chunks_eq_iff h h').mp htake⟩
    · exact fun ⟨h, h', htake⟩ => ⟨h, h', (take_chunks_eq_iff h h').mpr htake⟩
  have hle := (hiff _).mp (Nat.le_refl _)
  have hge := (hiff _).mpr (Nat.le_refl _)
  omega

end CommonStart
