import Mathlib.Algebra.BigOperators.Group.List.Basic
import Mathlib.Algebra.Order.BigOperators.Group.List
import Mathlib.Data.Int.Cast.Lemmas
import Mathlib.Data.List.Induction
import Mathlib.Data.List.Sort
import Mathlib.Data.Prod.Lex

/-!
# Partitioning intervals into lanes

Intervals in the order of their starts go greedily into the first lane that is free, one that ends
at an interval's start being free for it. A sweep over the same intervals counts those that are in
progress, exits before entries.
-/

namespace Intervals

variable {α τ : Type*} [LinearOrder τ] (start finish : α → τ)

/-! ## Lanes -/

/-- Give the interval the first lane that has ended, or a new one. The state is the end of every
lane and the lanes given so far. -/
def place (state : List τ × List ℕ) (a : α) : List τ × List ℕ :=
  match state.1.findIdx? (fun e => e ≤ start a) with
  | some i => (state.1.set i (finish a), state.2 ++ [i])
  | none => (state.1 ++ [finish a], state.2 ++ [state.1.length])

def assign (l : List α) : List τ × List ℕ := l.foldl (place start finish) ([], [])

/-- The intervals that have not ended at `t`. -/
def busy (l : List α) (t : τ) : ℕ := l.countP (fun a => t < finish a)

/-- The intervals in progress at `t`. -/
def overlap (l : List α) (t : τ) : ℕ := l.countP (fun a => start a ≤ t ∧ t < finish a)

/-- The intervals are in the order of their starts, and none ends before it starts. -/
structure Arranged (l : List α) : Prop where
  starts : l.Pairwise (fun a b => start a ≤ start b)
  forward : ∀ a ∈ l, start a ≤ finish a

variable {start finish} {l before after : List α} {a : α}

theorem assign_append (l : List α) (a : α) :
    assign start finish (l ++ [a]) = place start finish (assign start finish l) a := by
  rw [assign, assign, List.foldl_append, List.foldl_cons, List.foldl_nil]

theorem Arranged.init (h : Arranged start finish (l ++ [a])) : Arranged start finish l :=
  ⟨(List.pairwise_append.mp h.starts).1, fun b hb => h.forward b (List.mem_append_left _ hb)⟩

theorem Arranged.le_last (h : Arranged start finish (l ++ [a])) : ∀ b ∈ l, start b ≤ start a :=
  fun b hb => (List.pairwise_append.mp h.starts).2.2 b hb a (List.mem_singleton_self a)

theorem place_length (state : List τ × List ℕ) (a : α) :
    (place start finish state a).1.length =
      if state.1.any (fun e => e ≤ start a) then state.1.length else state.1.length + 1 := by
  unfold place
  cases hfree : state.1.findIdx? (fun e => e ≤ start a) with
  | none =>
      rw [List.findIdx?_eq_none_iff] at hfree
      rw [if_neg (by simpa using hfree), List.length_append, List.length_singleton]
  | some i =>
      obtain ⟨hi, hle, _⟩ := List.findIdx?_eq_some_iff_getElem.mp hfree
      rw [if_pos (List.any_eq_true.mpr ⟨_, List.getElem_mem hi, hle⟩), List.length_set]

omit [LinearOrder τ] in
theorem countP_set {p : τ → Bool} {ends : List τ} {i : ℕ} {e : τ} (hi : i < ends.length)
    (hold : p ends[i] = false) : (ends.set i e).countP p = ends.countP p + [e].countP p := by
  induction ends generalizing i with
  | nil => cases hi
  | cons x ends ih =>
      cases i with
      | zero =>
          have hx : p x = false := hold
          simp only [List.set_cons_zero, List.countP_cons, List.countP_nil, hx]
          simp
      | succ i =>
          have hrest := ih (Nat.lt_of_succ_lt_succ hi) hold
          simp only [List.set_cons_succ, List.countP_cons] at hrest ⊢
          omega

/-- As many lanes are busy after the last start as intervals are. -/
theorem countP_ends (h : Arranged start finish l) {t : τ} (ht : ∀ a ∈ l, start a ≤ t) :
    (assign start finish l).1.countP (fun e => t < e) = busy finish l t := by
  induction l using List.reverseRecOn with
  | nil => rfl
  | append_singleton l a ih =>
      have hprior := ih h.init (fun b hb => ht b (List.mem_append_left _ hb))
      have hlast : start a ≤ t := ht a (List.mem_append_right _ (List.mem_singleton_self a))
      have hsum : busy finish (l ++ [a]) t = busy finish l t + busy finish [a] t :=
        List.countP_append
      rw [assign_append, hsum, ← hprior]
      unfold place
      split
      · next i hfree =>
          obtain ⟨hi, hle, _⟩ := List.findIdx?_eq_some_iff_getElem.mp hfree
          have hended : decide (t < (assign start finish l).1[i]) = false :=
            decide_eq_false (not_lt.mpr ((of_decide_eq_true hle).trans hlast))
          exact countP_set (p := fun e => decide (t < e)) hi hended
      · exact List.countP_append

/-- Every interval needs a lane besides those of the intervals before it that have not ended. -/
theorem busy_lt_lanes (h : Arranged start finish l) (hl : l = before ++ a :: after) :
    busy finish before (start a) < (assign start finish l).1.length := by
  induction l using List.reverseRecOn generalizing before a after with
  | nil => simp at hl
  | append_singleton l b ih =>
      have hgrows : (assign start finish l).1.length ≤ (assign start finish (l ++ [b])).1.length := by
        rw [assign_append, place_length]
        split
        · exact le_rfl
        · exact Nat.le_succ _
      rcases List.eq_nil_or_concat' after with rfl | ⟨more, c, rfl⟩
      · obtain ⟨rfl, heq⟩ := List.append_inj' hl rfl
        cases heq
        have hcount := countP_ends h.init h.le_last
        rw [assign_append, place_length, ← hcount]
        split
        · next hany =>
            obtain ⟨e, he, hle⟩ := List.any_eq_true.mp hany
            refine lt_of_le_of_ne List.countP_le_length (fun hall => ?_)
            have hlater := List.countP_eq_length.mp hall e he
            exact not_lt.mpr (of_decide_eq_true hle) (of_decide_eq_true hlater)
        · exact Nat.lt_succ_of_le List.countP_le_length
      · have hsplit : l ++ [b] = (before ++ a :: more) ++ [c] := by rw [hl]; simp
        obtain ⟨hl', _⟩ := List.append_inj' hsplit rfl
        exact (ih h.init hl').trans_le hgrows

/-- Some interval needs the last of the lanes. -/
theorem exists_busy_eq_lanes (h : Arranged start finish l) (hl : l ≠ []) :
    ∃ before a after, l = before ++ a :: after ∧
      (assign start finish l).1.length = busy finish before (start a) + 1 := by
  induction l using List.reverseRecOn with
  | nil => exact absurd rfl hl
  | append_singleton l b ih =>
      rw [assign_append, place_length]
      split
      · next hany =>
          have hne : l ≠ [] := by
            rintro rfl
            cases hany
          obtain ⟨before, a, after, rfl, heq⟩ := ih h.init hne
          exact ⟨before, a, after ++ [b], by simp, heq⟩
      · next hfull =>
          refine ⟨l, b, [], rfl, ?_⟩
          rw [← countP_ends h.init h.le_last, List.countP_eq_length.mpr]
          intro e he
          by_contra hended
          exact hfull (List.any_eq_true.mpr ⟨e, he, by simpa using hended⟩)

/-! ## One lane -/

/-- What the lanes say of the intervals placed: each interval has a lane, its lane has not been
given up before its end, and the intervals of a lane follow each other. -/
structure Laid (start finish : α → τ) (l : List α) (state : List τ × List ℕ) : Prop where
  length : state.2.length = l.length
  lane : ∀ i ∈ state.2, i < state.1.length
  ends : ∀ (k i : ℕ) (a : α) (e : τ), state.2[k]? = some i → l[k]? = some a →
    state.1[i]? = some e → finish a ≤ e
  apart : ∀ (j k i : ℕ) (a b : α), j < k → state.2[j]? = some i → state.2[k]? = some i →
    l[j]? = some a → l[k]? = some b → finish a ≤ start b

theorem Laid.snoc {state : List τ × List ℕ} (h : Laid start finish l state)
    (hforward : start a ≤ finish a) {ends : List τ} {lane : ℕ}
    (hlane : ∀ i < state.1.length, i < ends.length) (hnew : ends[lane]? = some (finish a))
    (hold : ∀ (i : ℕ) (e : τ), i < state.1.length → i ≠ lane → ends[i]? = some e → state.1[i]? = some e)
    (hfree : ∀ e : τ, state.1[lane]? = some e → e ≤ start a) :
    Laid start finish (l ++ [a]) (ends, state.2 ++ [lane]) := by
  have hprior : ∀ (k i : ℕ) (b : α), state.2[k]? = some i → l[k]? = some b → i = lane →
      finish b ≤ start a := by
    rintro k i b hk hb rfl
    have hi := h.lane i (List.mem_of_getElem? hk)
    have hget : state.1[i]? = some state.1[i] := List.getElem?_eq_getElem hi
    exact (h.ends k i b _ hk hb hget).trans (hfree _ hget)
  have hcases : ∀ (k i : ℕ) (b : α), (state.2 ++ [lane])[k]? = some i → (l ++ [a])[k]? = some b →
      state.2[k]? = some i ∧ l[k]? = some b ∨ k = l.length ∧ i = lane ∧ b = a := by
    intro k i b hk hb
    have hlt : k < l.length + 1 := by
      simpa using (List.getElem?_eq_some_iff.mp hb).1
    rcases Nat.lt_succ_iff_lt_or_eq.mp hlt with hin | rfl
    · rw [List.getElem?_append_left (h.length.symm ▸ hin)] at hk
      rw [List.getElem?_append_left hin] at hb
      exact Or.inl ⟨hk, hb⟩
    · rw [← h.length, List.getElem?_concat_length] at hk
      rw [List.getElem?_concat_length] at hb
      exact Or.inr ⟨rfl, (Option.some.inj hk).symm, (Option.some.inj hb).symm⟩
  constructor
  · simp [h.length]
  · intro i hi
    rcases List.mem_append.mp hi with hin | hlast
    · exact hlane i (h.lane i hin)
    · rw [List.mem_singleton.mp hlast]
      exact (List.getElem?_eq_some_iff.mp hnew).1
  · intro k i b e hk hb he
    rcases hcases k i b hk hb with ⟨hk', hb'⟩ | ⟨_, rfl, rfl⟩
    · have hi := h.lane i (List.mem_of_getElem? hk')
      by_cases hsame : i = lane
      · have hbefore := hprior k i b hk' hb' hsame
        rw [hsame, hnew, Option.some.injEq] at he
        exact he ▸ hbefore.trans hforward
      · exact h.ends k i b e hk' hb' (hold i e hi hsame he)
    · rw [hnew, Option.some.injEq] at he
      exact he.le
  · intro j k i b c hjk hj hk hb hc
    rcases hcases k i c hk hc with ⟨hk', hc'⟩ | ⟨hkl, hi, rfl⟩
    · have hkl : k < l.length := (List.getElem?_eq_some_iff.mp hc').1
      rcases hcases j i b hj hb with ⟨hj', hb'⟩ | ⟨rfl, _⟩
      · exact h.apart j k i b c hjk hj' hk' hb' hc'
      · exact absurd hjk (by omega)
    · rcases hcases j i b hj hb with ⟨hj', hb'⟩ | ⟨rfl, _⟩
      · exact hprior j i b hj' hb' hi
      · exact absurd hjk (by omega)

theorem assign_laid (h : Arranged start finish l) :
    Laid start finish l (assign start finish l) := by
  induction l using List.reverseRecOn with
  | nil => exact ⟨rfl, by simp [assign], by simp [assign], by simp [assign]⟩
  | append_singleton l a ih =>
      have hlaid := ih h.init
      have hforward := h.forward a (List.mem_append_right _ (List.mem_singleton_self a))
      rw [assign_append]
      unfold place
      split
      · next i hfree =>
          obtain ⟨hi, hle, _⟩ := List.findIdx?_eq_some_iff_getElem.mp hfree
          refine hlaid.snoc hforward (fun j hj => by rwa [List.length_set]) ?_ ?_ ?_
          · rw [List.getElem?_set_self hi]
          · intro j e _ hne he
            rwa [List.getElem?_set_ne (Ne.symm hne)] at he
          · intro e he
            rw [List.getElem?_eq_getElem hi, Option.some.injEq] at he
            exact he ▸ of_decide_eq_true hle
      · refine hlaid.snoc hforward (fun j hj => ?_) ?_ ?_ ?_
        · rw [List.length_append]
          omega
        · rw [List.getElem?_concat_length]
        · intro j e hj _ he
          rwa [List.getElem?_append_left hj] at he
        · intro e he
          simp at he

/-! ## The sweep -/

variable (start finish) in
/-- One entry and one exit of every interval. -/
def deltas (l : List α) : List (τ × ℤ) := l.flatMap (fun a => [(start a, 1), (finish a, -1)])

/-- At a tie exits come before entries. -/
def ExitsFirst (x y : τ × ℤ) : Prop := x.1 < y.1 ∨ x.1 = y.1 ∧ x.2 ≤ y.2

instance : DecidableRel (@ExitsFirst τ _) := fun x y =>
  inferInstanceAs (Decidable (x.1 < y.1 ∨ x.1 = y.1 ∧ x.2 ≤ y.2))

instance : Std.Total (@ExitsFirst τ _) where
  total x y := by
    rcases lt_trichotomy x.1 y.1 with hlt | heq | hgt
    · exact Or.inl (Or.inl hlt)
    · rcases le_total x.2 y.2 with hle | hle
      · exact Or.inl (Or.inr ⟨heq, hle⟩)
      · exact Or.inr (Or.inr ⟨heq.symm, hle⟩)
    · exact Or.inr (Or.inl hgt)

instance : IsTrans (τ × ℤ) ExitsFirst where
  trans x y z hxy hyz := by
    rcases hxy with hxy | ⟨hxy, hle⟩
    · rcases hyz with hyz | ⟨hyz, _⟩
      · exact Or.inl (hxy.trans hyz)
      · exact Or.inl (hyz ▸ hxy)
    · rcases hyz with hyz | ⟨hyz, hle'⟩
      · exact Or.inl (hxy ▸ hyz)
      · exact Or.inr ⟨hxy.trans hyz, hle.trans hle'⟩

/-- Add up the changes, with a sample at each of them. -/
def sweep (active : ℤ) : List (τ × ℤ) → List (τ × ℤ)
  | [] => []
  | (t, delta) :: rest => (t, max (active + delta) 0) :: sweep (active + delta) rest

def changes (l : List (τ × ℤ)) : ℤ := (l.map Prod.snd).sum

def peak (samples : List (τ × ℤ)) : ℤ := (samples.map Prod.snd).foldr max 0

omit [LinearOrder τ] in
theorem changes_append (l l' : List (τ × ℤ)) : changes (l ++ l') = changes l + changes l' := by
  simp [changes]

omit [LinearOrder τ] in
theorem le_peak {l front back : List (τ × ℤ)} {active : ℤ} (hl : l = front ++ back)
    (hfront : front ≠ []) : active + changes front ≤ peak (sweep active l) := by
  induction l generalizing front active with
  | nil => simp [hfront] at hl
  | cons x l ih =>
      obtain ⟨y, front, rfl⟩ := List.exists_cons_of_ne_nil hfront
      obtain ⟨rfl, hrest⟩ := List.cons.inj hl
      have hhead : changes (x :: front) = x.2 + changes front := by simp [changes]
      have hpeak : peak (sweep active (x :: l)) =
          max (max (active + x.2) 0) (peak (sweep (active + x.2) l)) := rfl
      rw [hhead, hpeak]
      cases front with
      | nil =>
          have hnil : changes ([] : List (τ × ℤ)) = 0 := rfl
          rw [hnil, add_zero]
          exact (le_max_left _ _).trans (le_max_left _ _)
      | cons z front =>
          have hmore : active + x.2 + changes (z :: front) ≤ peak (sweep (active + x.2) l) :=
            ih hrest (List.cons_ne_nil _ _)
          rw [← add_assoc]
          exact hmore.trans (le_max_right _ _)

omit [LinearOrder τ] in
theorem peak_le {l : List (τ × ℤ)} {active m : ℤ} (hm : 0 ≤ m)
    (h : ∀ front back, l = front ++ back → active + changes front ≤ m) :
    peak (sweep active l) ≤ m := by
  induction l generalizing active with
  | nil => exact hm
  | cons x l ih =>
      have hpeak : peak (sweep active (x :: l)) =
          max (max (active + x.2) 0) (peak (sweep (active + x.2) l)) := rfl
      have hhead : ∀ front : List (τ × ℤ), changes (x :: front) = x.2 + changes front := by
        simp [changes]
      rw [hpeak]
      refine max_le (max_le ?_ hm) (ih (fun front back hl => ?_))
      · simpa [changes] using h [x] l rfl
      · rw [add_assoc, ← hhead]
        exact h (x :: front) back (by rw [hl, List.cons_append])

/-- The changes up to `t` leave the intervals in progress at `t`. -/
theorem changes_deltas (hforward : ∀ a ∈ l, start a ≤ finish a) (t : τ) :
    changes ((deltas start finish l).filter (fun x => x.1 ≤ t)) = overlap start finish l t := by
  induction l with
  | nil => rfl
  | cons a l ih =>
      have hrest := ih (fun b hb => hforward b (List.mem_cons_of_mem _ hb))
      have hle := hforward a List.mem_cons_self
      have hsplit : deltas start finish (a :: l) =
          [(start a, 1), (finish a, -1)] ++ deltas start finish l := rfl
      have hcount : overlap start finish (a :: l) t = overlap start finish l t +
          if start a ≤ t ∧ t < finish a then 1 else 0 := by
        simp [overlap, List.countP_cons]
      rw [hsplit, List.filter_append, changes_append, hrest, hcount, add_comm, Nat.cast_add]
      congr 1
      by_cases hstart : start a ≤ t
      · by_cases hfinish : finish a ≤ t
        · simp [changes, hstart, hfinish]
        · simp [changes, hstart, hfinish, not_le.mp hfinish]
      · have hfinish : ¬ finish a ≤ t := fun h => hstart (hle.trans h)
        simp [changes, hstart, hfinish]

variable (start finish) in
/-- The count of intervals in progress, sampled at every change. -/
def counter (l : List α) : List (τ × ℤ) :=
  sweep 0 ((deltas start finish l).insertionSort ExitsFirst)

omit [LinearOrder τ] in
theorem mem_deltas {x : τ × ℤ} (h : x ∈ deltas start finish l) :
    (∃ a ∈ l, x = (start a, 1)) ∨ x.2 = -1 := by
  obtain ⟨a, ha, hx⟩ := List.mem_flatMap.mp h
  rcases List.mem_cons.mp hx with rfl | hx
  · exact Or.inl ⟨a, ha, rfl⟩
  · rw [List.mem_singleton.mp hx]
    exact Or.inr rfl

theorem overlap_le_peak (hforward : ∀ a ∈ l, start a ≤ finish a) (ha : a ∈ l) :
    (overlap start finish l (start a) : ℤ) ≤ peak (counter start finish l) := by
  have hperm := List.perm_insertionSort ExitsFirst (deltas start finish l)
  have hsorted := List.pairwise_insertionSort ExitsFirst (deltas start finish l)
  generalize hs : (deltas start finish l).insertionSort ExitsFirst = sorted at hperm hsorted
  have hfilter : sorted.filter (fun x => x.1 ≤ start a) =
      sorted.takeWhile (fun x => x.1 ≤ start a) := by
    clear hs hperm
    induction sorted with
    | nil => rfl
    | cons x sorted ih =>
        obtain ⟨hx, hrest⟩ := List.pairwise_cons.mp hsorted
        by_cases hle : x.1 ≤ start a
        · simp only [List.filter_cons, List.takeWhile_cons, hle, decide_true, if_true, ih hrest]
        · simp only [List.filter_cons, List.takeWhile_cons, hle, decide_false]
          refine List.filter_eq_nil_iff.mpr (fun y hy hyle => ?_)
          rcases hx y hy with hlt | ⟨heq, _⟩
          · exact hle (hlt.le.trans (of_decide_eq_true hyle))
          · exact hle (heq.le.trans (of_decide_eq_true hyle))
  have hentry : (start a, (1 : ℤ)) ∈ sorted.filter (fun x => x.1 ≤ start a) := by
    refine List.mem_filter.mpr ⟨hperm.mem_iff.mpr ?_, decide_eq_true le_rfl⟩
    exact List.mem_flatMap.mpr ⟨a, ha, List.mem_cons_self⟩
  have hchanges : changes (sorted.filter (fun x => x.1 ≤ start a)) =
      overlap start finish l (start a) := by
    rw [← changes_deltas hforward]
    exact ((hperm.filter _).map Prod.snd).sum_eq
  have hpeak : 0 + changes (sorted.takeWhile (fun x => x.1 ≤ start a)) ≤
      peak (sweep 0 sorted) :=
    le_peak List.takeWhile_append_dropWhile.symm (hfilter ▸ List.ne_nil_of_mem hentry)
  rw [← hfilter, hchanges, zero_add] at hpeak
  rw [counter, hs]
  exact hpeak

theorem peak_le_overlap (hforward : ∀ a ∈ l, start a ≤ finish a) {m : ℤ} (hm : 0 ≤ m)
    (h : ∀ a ∈ l, (overlap start finish l (start a) : ℤ) ≤ m) :
    peak (counter start finish l) ≤ m := by
  have hperm := List.perm_insertionSort ExitsFirst (deltas start finish l)
  have hsorted := List.pairwise_insertionSort ExitsFirst (deltas start finish l)
  rw [counter]
  generalize (deltas start finish l).insertionSort ExitsFirst = sorted at hperm hsorted
  refine peak_le hm (fun front back hsplit => ?_)
  rw [zero_add]
  induction front using List.reverseRecOn generalizing back with
  | nil => exact hm
  | append_singleton front x ih =>
      have hx : x ∈ deltas start finish l :=
        hperm.mem_iff.mp (hsplit ▸ List.mem_append_left _ (by simp))
      rcases mem_deltas hx with ⟨a, ha, rfl⟩ | hexit
      · have hchanges : changes (sorted.filter (fun x => x.1 ≤ start a)) =
            overlap start finish l (start a) := by
          rw [← changes_deltas hforward]
          exact ((hperm.filter _).map Prod.snd).sum_eq
        obtain ⟨hfront, hback, hcross⟩ := List.pairwise_append.mp (hsplit ▸ hsorted)
        have hkept : (front ++ [(start a, (1 : ℤ))]).filter (fun x => x.1 ≤ start a) =
            front ++ [(start a, 1)] := by
          refine List.filter_eq_self.mpr (fun y hy => decide_eq_true ?_)
          rcases List.mem_append.mp hy with hy | hy
          · have hle := (List.pairwise_append.mp hfront).2.2 y hy _ (List.mem_singleton_self _)
            rcases hle with hlt | ⟨heq, _⟩
            · exact hlt.le
            · exact heq.le
          · exact (List.mem_singleton.mp hy ▸ le_rfl)
        have hmore : 0 ≤ changes (back.filter (fun x => x.1 ≤ start a)) := by
          refine List.sum_nonneg (fun d hd => ?_)
          obtain ⟨y, hy, rfl⟩ := List.mem_map.mp hd
          obtain ⟨hyback, hyle⟩ := List.mem_filter.mp hy
          rcases hcross (start a, 1) (by simp) y hyback with hlt | ⟨_, hle⟩
          · exact absurd (of_decide_eq_true hyle) (not_le.mpr hlt)
          · exact le_trans Int.one_nonneg hle
        rw [hsplit, List.filter_append, changes_append, hkept] at hchanges
        have hbound := h a ha
        omega
      · have hprior := ih (x :: back) (by rw [hsplit]; simp)
        have hlast : changes [x] = -1 := by simp [changes, hexit]
        rw [changes_append, hlast]
        omega

/-! ## Lanes against the sweep -/

theorem exists_overlap_le_busy (h : Arranged start finish l) {t : τ}
    (hpos : 0 < overlap start finish l t) :
    ∃ before a after, l = before ++ a :: after ∧ start a < finish a ∧
      overlap start finish l t ≤ busy finish before (start a) + 1 := by
  induction l using List.reverseRecOn with
  | nil => cases hpos
  | append_singleton l b ih =>
      have hcount : overlap start finish (l ++ [b]) t = overlap start finish l t +
          if start b ≤ t ∧ t < finish b then 1 else 0 := by
        simp [overlap, List.countP_append, List.countP_cons]
      by_cases hb : start b ≤ t ∧ t < finish b
      · refine ⟨l, b, [], rfl, hb.1.trans_lt hb.2, ?_⟩
        rw [hcount, if_pos hb]
        refine Nat.succ_le_succ (List.countP_mono_left (fun c hc hin => ?_))
        exact decide_eq_true (hb.1.trans_lt (of_decide_eq_true hin).2)
      · rw [if_neg hb, add_zero] at hcount
        rw [hcount] at hpos ⊢
        obtain ⟨before, a, after, rfl, hlt, hle⟩ := ih h.init hpos
        exact ⟨before, a, after ++ [b], by simp, hlt, hle⟩

theorem busy_lt_overlap (h : Arranged start finish l) (hl : l = before ++ a :: after)
    (hlt : start a < finish a) :
    busy finish before (start a) < overlap start finish l (start a) := by
  rw [hl, overlap, List.countP_append, List.countP_cons, if_pos (by simpa using hlt)]
  have hbefore : busy finish before (start a) ≤
      before.countP (fun b => start b ≤ start a ∧ start a < finish b) := by
    refine List.countP_mono_left (fun b hb hin => decide_eq_true ⟨?_, of_decide_eq_true hin⟩)
    exact (List.pairwise_append.mp (hl ▸ h.starts)).2.2 b hb a List.mem_cons_self
  omega

/-- The lanes are as many as the sweep's peak exactly when no empty interval starts among more
intervals in progress than every interval that lasts. -/
theorem length_eq_peak_iff (h : Arranged start finish l) :
    ((assign start finish l).1.length : ℤ) = peak (counter start finish l) ↔
      ∀ before a after, l = before ++ a :: after → finish a = start a →
        ∃ before' b after', l = before' ++ b :: after' ∧ start b < finish b ∧
          busy finish before (start a) ≤ busy finish before' (start b) := by
  have hlasting : ∀ before a after, l = before ++ a :: after → start a < finish a →
      (busy finish before (start a) + 1 : ℤ) ≤ peak (counter start finish l) := by
    intro before a after hl hlt
    have ha : a ∈ l := by rw [hl]; simp
    have hbusy := busy_lt_overlap h hl hlt
    have hpeak := overlap_le_peak h.forward ha
    omega
  have hreached : ∀ t, 0 < overlap start finish l t → ∃ before b after,
      l = before ++ b :: after ∧ start b < finish b ∧
        overlap start finish l t ≤ busy finish before (start b) + 1 :=
    fun t hpos => exists_overlap_le_busy h hpos
  constructor
  · intro heq before a after hl hempty
    have hlanes := busy_lt_lanes h hl
    by_contra hnone
    have hpeak : peak (counter start finish l) ≤ busy finish before (start a) := by
      refine peak_le_overlap h.forward (Int.natCast_nonneg _) (fun b hb => ?_)
      by_contra hover
      obtain ⟨before', c, after', hl', hlt, hle⟩ := hreached (start b) (by omega)
      exact hnone ⟨before', c, after', hl', hlt, by omega⟩
    omega
  · intro hcond
    apply le_antisymm
    · by_cases hl : l = []
      · subst hl
        simp [assign, counter, deltas, sweep, peak]
      · obtain ⟨before, a, after, hsplit, hlanes⟩ := exists_busy_eq_lanes h hl
        have ha : a ∈ l := by rw [hsplit]; simp
        rcases (h.forward a ha).lt_or_eq with hlt | hempty
        · have hpeak := hlasting before a after hsplit hlt
          omega
        · obtain ⟨before', b, after', hl', hlt, hle⟩ := hcond before a after hsplit hempty.symm
          have hpeak := hlasting before' b after' hl' hlt
          omega
    · refine peak_le_overlap h.forward (Int.natCast_nonneg _) (fun a _ => ?_)
      by_cases hpos : 0 < overlap start finish l (start a)
      · obtain ⟨before, b, after, hl, _, hle⟩ := hreached (start a) hpos
        have hlanes := busy_lt_lanes h hl
        omega
      · omega

end Intervals
