import Mathlib.Data.List.MinMax
import Mathlib.Data.Nat.Dist
import Mathlib.Data.Prod.Lex

/-!
# Grids

Tables of cells addressed by row and column, changed one cell at a time, and the nearest cell that
holds something: by Manhattan distance, then by distance between rows, then the first by rows.
-/

namespace Grid

variable {α : Type*}

def cell (grid : List (List α)) (i j : ℕ) : Option α := grid[i]?.bind (fun row => row[j]?)

def modifyCell (grid : List (List α)) (i j : ℕ) (f : α → α) : List (List α) :=
  grid.modify i (fun row => row.modify j f)

/-- The cells with their positions, row by row. -/
def cells (grid : List (List α)) : List ((ℕ × ℕ) × α) :=
  grid.zipIdx.flatMap (fun row => row.1.zipIdx.map (fun a => ((row.2, a.2), a.1)))

/-- How far a position is from row `i` and column `j`. -/
def reach (i j : ℕ) (p : ℕ × ℕ) : ℕ ×ₗ ℕ := toLex (p.1.dist i + p.2.dist j, p.1.dist i)

def nearest (grid : List (List α)) (i j : ℕ) (hasData : α → Bool) : Option α :=
  match (cell grid i j).filter hasData with
  | some a => some a
  | none =>
      (((cells grid).filter (fun c => hasData c.2)).argmin (fun c => reach i j c.1)).map Prod.snd

theorem cell_modifyCell (grid : List (List α)) (i j k l : ℕ) (f : α → α) :
    cell (modifyCell grid i j f) k l =
      if k = i ∧ l = j then (cell grid k l).map f else cell grid k l := by
  unfold cell modifyCell
  rw [List.getElem?_modify]
  by_cases hk : i = k
  · subst hk
    cases grid[i]? with
    | none => simp
    | some row =>
        simp only [Option.map_eq_map, Option.map_some, if_true, Option.bind_some, true_and]
        rw [List.getElem?_modify]
        by_cases hl : j = l
        · simp [hl]
        · simp [hl, Ne.symm hl]
  · cases grid[k]? with
    | none => simp
    | some row => simp [hk, Ne.symm hk]

theorem cell_map {β : Type*} (f : α → β) (grid : List (List α)) (i j : ℕ) :
    cell (grid.map (fun row => row.map f)) i j = (cell grid i j).map f := by
  unfold cell
  rw [List.getElem?_map]
  cases grid[i]? with
  | none => rfl
  | some row => exact List.getElem?_map

theorem cell_replicate (rows cols i j : ℕ) (a : α) :
    cell (List.replicate rows (List.replicate cols a)) i j =
      if i < rows ∧ j < cols then some a else none := by
  unfold cell
  by_cases hi : i < rows
  · by_cases hj : j < cols
    · simp [hi, hj]
    · simp [hi, hj]
  · simp [hi]

theorem mem_cells {grid : List (List α)} {p : ℕ × ℕ} {a : α} :
    (p, a) ∈ cells grid ↔ cell grid p.1 p.2 = some a := by
  unfold cells cell
  rw [List.mem_flatMap, Option.bind_eq_some_iff]
  constructor
  · rintro ⟨⟨row, k⟩, hrow, hmem⟩
    obtain ⟨⟨b, l⟩, hb, heq⟩ := List.mem_map.mp hmem
    cases heq
    exact ⟨row, List.mem_zipIdx_iff_getElem?.mp hrow, List.mem_zipIdx_iff_getElem?.mp hb⟩
  · rintro ⟨row, hrow, ha⟩
    refine ⟨(row, p.1), List.mem_zipIdx_iff_getElem?.mpr hrow, List.mem_map.mpr ⟨(a, p.2), ?_, rfl⟩⟩
    exact List.mem_zipIdx_iff_getElem?.mpr ha

theorem pairwise_zipIdx {β : Type*} (l : List β) : l.zipIdx.Pairwise (fun a b => a.2 < b.2) := by
  have hrange : (List.range' 0 l.length).Pairwise (· < ·) :=
    List.pairwise_lt_range'
  rw [← List.zipIdx_map_snd 0 l, List.pairwise_map] at hrange
  exact hrange

/-- The cells come by rows, and in a row by columns. -/
theorem pairwise_cells (grid : List (List α)) :
    (cells grid).Pairwise (fun a b => toLex a.1 < toLex b.1) := by
  unfold cells
  rw [List.pairwise_flatMap]
  constructor
  · intro row _
    rw [List.pairwise_map]
    refine (pairwise_zipIdx row.1).imp (fun {a b} hlt => ?_)
    exact Prod.Lex.toLex_lt_toLex.mpr (.inr ⟨rfl, hlt⟩)
  · refine (pairwise_zipIdx grid).imp (fun hlt => ?_)
    intro x hx y hy
    obtain ⟨_, _, rfl⟩ := List.mem_map.mp hx
    obtain ⟨_, _, rfl⟩ := List.mem_map.mp hy
    exact Prod.Lex.toLex_lt_toLex.mpr (.inl hlt)

theorem reach_eq_zero {i j : ℕ} {p : ℕ × ℕ} : reach i j p = toLex (0, 0) ↔ p = (i, j) := by
  have hdist : ∀ a b : ℕ, a.dist b = 0 ↔ a = b := fun a b =>
    ⟨Nat.eq_of_dist_eq_zero, fun h => h ▸ Nat.dist_self a⟩
  constructor
  · intro h
    obtain ⟨hsum, hrow⟩ := Prod.mk.inj (toLex.injective h)
    rw [hrow, Nat.zero_add] at hsum
    exact Prod.ext ((hdist _ _).mp hrow) ((hdist _ _).mp hsum)
  · rintro rfl
    simp [reach]

/-- The first of the least elements in a list that is in order. -/
theorem argmin_least {β : Type*} [LinearOrder β] {R : α → α → Prop} {l : List α} {f : α → β}
    {m : α} (hm : l.argmin f = some m) (hl : l.Pairwise R) :
    m ∈ l ∧ ∀ a ∈ l, f m < f a ∨ f m = f a ∧ (a = m ∨ R m a) := by
  induction l using List.reverseRecOn generalizing m with
  | nil => cases hm
  | append_singleton l last ih =>
      rw [List.argmin_concat] at hm
      obtain ⟨hpair, -, hcross⟩ := List.pairwise_append.mp hl
      cases hrest : l.argmin f with
      | none =>
          rw [hrest] at hm
          obtain rfl := Option.some.inj hm
          rw [List.argmin_eq_none.mp hrest]
          exact ⟨by simp, by simp⟩
      | some c =>
          rw [hrest] at hm
          obtain ⟨hc, hleast⟩ := ih hrest hpair
          dsimp only at hm
          split_ifs at hm with hlt
          · obtain rfl := Option.some.inj hm
            refine ⟨by simp, fun a ha => ?_⟩
            rcases List.mem_append.mp ha with hold | hnew
            · rcases hleast a hold with hfar | ⟨hsame, -⟩
              · exact .inl (hlt.trans hfar)
              · exact .inl (hsame ▸ hlt)
            · exact .inr ⟨by rw [List.mem_singleton.mp hnew], .inl (List.mem_singleton.mp hnew)⟩
          · obtain rfl := Option.some.inj hm
            refine ⟨List.mem_append_left _ hc, fun a ha => ?_⟩
            rcases List.mem_append.mp ha with hold | hnew
            · exact hleast a hold
            · obtain rfl := List.mem_singleton.mp hnew
              rcases lt_or_eq_of_le (not_lt.mp hlt) with hfar | hsame
              · exact .inl hfar
              · exact .inr ⟨hsame, .inr (hcross c hc a (List.mem_singleton.mpr rfl))⟩

/-- The nearest cell holds something, and every other that does is further off, or as far and later
by rows. -/
theorem nearest_spec {grid : List (List α)} {i j : ℕ} {hasData : α → Bool} {a : α}
    (h : nearest grid i j hasData = some a) :
    ∃ p : ℕ × ℕ, cell grid p.1 p.2 = some a ∧ hasData a ∧
      ∀ (q : ℕ × ℕ) (b : α), cell grid q.1 q.2 = some b → hasData b →
        reach i j p < reach i j q ∨ reach i j p = reach i j q ∧ (q = p ∨ toLex p < toLex q) := by
  unfold nearest at h
  split at h
  · next b hown =>
      obtain rfl := Option.some.inj h
      obtain ⟨hcell, hdata⟩ := Option.filter_eq_some_iff.mp hown
      refine ⟨(i, j), hcell, hdata, fun q b _ _ => ?_⟩
      have hzero : reach i j (i, j) = toLex (0, 0) := reach_eq_zero.mpr rfl
      by_cases hq : q = (i, j)
      · exact .inr ⟨by rw [hq], .inl hq⟩
      · left
        rw [hzero]
        refine lt_of_le_of_ne ?_ (fun heq => hq (reach_eq_zero.mp heq.symm))
        exact Prod.Lex.toLex_mono (Prod.mk_le_mk.mpr ⟨Nat.zero_le _, Nat.zero_le _⟩)
  · obtain ⟨⟨p, b⟩, hmin, rfl⟩ := Option.map_eq_some_iff.mp h
    obtain ⟨hmem, hleast⟩ := argmin_least hmin ((pairwise_cells grid).filter _)
    obtain ⟨hp, hdata⟩ := List.mem_filter.mp hmem
    refine ⟨p, mem_cells.mp hp, hdata, fun q c hq hc => ?_⟩
    rcases hleast (q, c) (List.mem_filter.mpr ⟨mem_cells.mpr hq, hc⟩) with hfar | ⟨hsame, hlater⟩
    · exact .inl hfar
    · exact .inr ⟨hsame, hlater.imp (fun heq => (Prod.mk.inj heq).1) id⟩

theorem nearest_isSome_iff {grid : List (List α)} {i j : ℕ} {hasData : α → Bool} :
    (nearest grid i j hasData).isSome ↔
      ∃ (p : ℕ × ℕ) (a : α), cell grid p.1 p.2 = some a ∧ hasData a := by
  constructor
  · intro h
    obtain ⟨a, ha⟩ := Option.isSome_iff_exists.mp h
    obtain ⟨p, hp, hdata, -⟩ := nearest_spec ha
    exact ⟨p, a, hp, hdata⟩
  · rintro ⟨p, a, hp, hdata⟩
    unfold nearest
    split
    · rfl
    · rw [Option.isSome_map, Option.isSome_iff_ne_none, ne_eq, List.argmin_eq_none]
      exact List.ne_nil_of_mem (List.mem_filter.mpr ⟨mem_cells.mpr hp, hdata⟩)

end Grid
