import Mathlib.Logic.Function.Iterate
import Mathlib.Data.List.Induction
import Mathlib.Data.Nat.Init
import Mathlib.Algebra.Order.Group.Nat

/-!
# Consume-once choice

A choice among ascending candidates takes the first that is still free, the first of all
when none is. Repeated choices among the same candidates reach every one of them.
-/

namespace ConsumeOnce

variable {consumed : List Bool} {rivals : List ℕ} {i j : ℕ}

def isFree (consumed : List Bool) (i : ℕ) : Bool := !consumed.getD i false

def pick (consumed : List Bool) (rivals : List ℕ) : Option ℕ :=
  (rivals.find? (isFree consumed)).or rivals.head?

def consume (consumed : List Bool) : Option ℕ → List Bool
  | none => consumed
  | some i => consumed.set i true

@[simp] theorem length_consume (choice : Option ℕ) :
    (consume consumed choice).length = consumed.length := by
  cases choice with
  | none => rfl
  | some i => exact List.length_set

theorem isFree_consume (hi : i < consumed.length) :
    isFree (consume consumed (some i)) j = (isFree consumed j && decide (j ≠ i)) := by
  by_cases hj : j = i
  · subst hj
    simp [isFree, consume, List.getD_eq_getElem?_getD, hi]
  · simp [isFree, consume, List.getD_eq_getElem?_getD, Ne.symm hj, hj]

theorem mem_of_pick (h : pick consumed rivals = some i) : i ∈ rivals := by
  rcases Option.or_eq_some_iff.mp h with hfind | ⟨_, hhead⟩
  · exact List.mem_of_find?_eq_some hfind
  · exact List.mem_of_head? hhead

theorem pick_isSome (consumed : List Bool) (h : rivals ≠ []) : (pick consumed rivals).isSome := by
  cases rivals with
  | nil => exact absurd rfl h
  | cons j rest => simp [pick]

theorem pick_congr {consumed' : List Bool}
    (h : ∀ i ∈ rivals, isFree consumed i = isFree consumed' i) :
    pick consumed rivals = pick consumed' rivals := by
  have hfind : rivals.find? (isFree consumed) = rivals.find? (isFree consumed') := by
    induction rivals with
    | nil => rfl
    | cons j rest ih =>
        rw [List.find?_cons, List.find?_cons, h j List.mem_cons_self,
          ih (fun i hi => h i (List.mem_cons_of_mem _ hi))]
  rw [pick, pick, hfind]

theorem free_of_pick (hfree : ∃ j ∈ rivals, isFree consumed j = true)
    (h : pick consumed rivals = some i) : isFree consumed i = true := by
  rcases Option.or_eq_some_iff.mp h with hfind | ⟨hnone, _⟩
  · exact List.find?_some hfind
  · obtain ⟨j, hj, hjfree⟩ := hfree
    rw [List.find?_eq_none] at hnone
    exact absurd hjfree (hnone j hj)

/-- Among ascending rivals, a free one is picked exactly when every rival before it is taken. -/
theorem pick_eq_iff (hsorted : rivals.Pairwise (· < ·)) (hi : i ∈ rivals)
    (hfree : isFree consumed i = true) :
    pick consumed rivals = some i ↔ ∀ j ∈ rivals, j < i → isFree consumed j = false := by
  have hfound : ∃ k, rivals.find? (isFree consumed) = some k := by
    cases hfind : rivals.find? (isFree consumed) with
    | none => exact absurd hfree (List.find?_eq_none.mp hfind i hi)
    | some k => exact ⟨k, rfl⟩
  obtain ⟨k, hk⟩ := hfound
  have hpick : pick consumed rivals = some k := by rw [pick, hk, Option.some_or]
  obtain ⟨hkfree, before, after, hsplit, hbefore⟩ := List.find?_eq_some_iff_append.mp hk
  rw [hsplit, List.pairwise_append] at hsorted
  have hleast : ∀ j ∈ rivals, isFree consumed j = true → k ≤ j := by
    intro j hj hjfree
    rw [hsplit, List.mem_append, List.mem_cons] at hj
    rcases hj with hj | rfl | hj
    · have htaken := hbefore j hj
      rw [hjfree] at htaken
      cases htaken
    · exact le_rfl
    · exact Nat.le_of_lt (List.rel_of_pairwise_cons hsorted.2.1 hj)
  rw [hpick, Option.some.injEq]
  constructor
  · rintro rfl j hj hlt
    by_contra hjfree
    have := hleast j hj (by simpa using hjfree)
    omega
  · intro htaken
    by_contra hne
    have hle := hleast i hi hfree
    have hkmem : k ∈ rivals := List.mem_of_find?_eq_some hk
    have := htaken k hkmem (by omega)
    rw [hkfree] at this
    cases this

/-- A free rival is picked after enough picks among the same rivals. -/
theorem eventually_picked (hin : ∀ j ∈ rivals, j < consumed.length) (hi : i ∈ rivals)
    (hfree : isFree consumed i = true) :
    ∃ n, pick ((fun c => consume c (pick c rivals))^[n] consumed) rivals = some i := by
  induction hcount : consumed.count false using Nat.strong_induction_on
    generalizing consumed with
  | _ count ih =>
    obtain ⟨j, hpick⟩ := Option.isSome_iff_exists.mp
      (pick_isSome consumed (List.ne_nil_of_mem hi))
    have hj := mem_of_pick hpick
    have hjfree := free_of_pick ⟨i, hi, hfree⟩ hpick
    by_cases hij : i = j
    · exact ⟨0, hij ▸ hpick⟩
    · have hnext : ∀ k, isFree (consume consumed (some j)) k =
          (isFree consumed k && decide (k ≠ j)) := fun k => isFree_consume (hin j hj)
      have hfewer : (consume consumed (some j)).count false < count := by
        have hlt := hin j hj
        have hget : consumed[j] = false := by
          simpa [isFree, List.getD_eq_getElem?_getD, hlt] using hjfree
        have hpos : 0 < consumed.count false :=
          List.count_pos_iff.mpr (hget ▸ List.getElem_mem hlt)
        rw [← hcount, consume, List.count_set hlt, hget]
        simp only [beq_self_eq_true, if_true]
        have hother : (true == false) = false := rfl
        simp only [hother, Bool.false_eq_true, if_false]
        omega
      obtain ⟨n, hn⟩ := @ih _ hfewer (consume consumed (some j))
        (by simpa using hin) (by simp [hnext, hfree, hij]) rfl
      exact ⟨n + 1, by rw [Function.iterate_succ_apply, hpick]; exact hn⟩

/-! ## Sequences of choices -/

section Sequences

variable {α : Type*} {R S : α → List ℕ} {consumed taken : List Bool} {as : List α} {a : α}

/-- What is consumed after a choice among the rivals of each of `as`, in order. -/
def chooseAll (R : α → List ℕ) (consumed : List Bool) (as : List α) : List Bool :=
  as.foldl (fun consumed a => consume consumed (pick consumed (R a))) consumed

theorem chooseAll_append (as bs : List α) :
    chooseAll R consumed (as ++ bs) = chooseAll R (chooseAll R consumed as) bs :=
  List.foldl_append

theorem chooseAll_map {β : Type*} (f : β → α) (bs : List β) :
    chooseAll R consumed (bs.map f) = chooseAll (fun b => R (f b)) consumed bs :=
  List.foldl_map

@[simp] theorem length_chooseAll : (chooseAll R consumed as).length = consumed.length := by
  induction as generalizing consumed with
  | nil => rfl
  | cons a as ih => exact ih.trans (length_consume _)

theorem chooseAll_replicate (n : ℕ) :
    chooseAll R consumed (List.replicate n a) =
      (fun c => consume c (pick c (R a)))^[n] consumed := by
  induction n generalizing consumed with
  | zero => rfl
  | succ n ih => exact ih

/-- Two families of rivals over the same positions. `left` and `right`: a position that occurs in
both families is known to each family wherever the other has it. -/
structure Linked (size : ℕ) (R S : α → List ℕ) : Prop where
  sortedLeft : ∀ a, (R a).Pairwise (· < ·)
  sortedRight : ∀ a, (S a).Pairwise (· < ·)
  ltLeft : ∀ a, ∀ i ∈ R a, i < size
  ltRight : ∀ a, ∀ i ∈ S a, i < size
  left : ∀ a b i, i ∈ R a → i ∈ S b → S a ≠ []
  right : ∀ a b i, i ∈ S a → i ∈ R b → R a ≠ []

theorem Linked.symm {size : ℕ} (h : Linked size R S) : Linked size S R :=
  ⟨h.sortedRight, h.sortedLeft, h.ltRight, h.ltLeft, h.right, h.left⟩

/-- Both families have taken the same of the positions they share. -/
def Alike (R S : α → List ℕ) (consumed taken : List Bool) : Prop :=
  ∀ a b i, i ∈ R a → i ∈ S b → isFree consumed i = isFree taken i

theorem eq_of_mem_iff {l l' : List ℕ} (hl : l.Pairwise (· < ·)) (hl' : l'.Pairwise (· < ·))
    (h : ∀ i, i ∈ l ↔ i ∈ l') : l = l' := by
  have hperm : l.Perm l' := by
    rw [List.perm_ext_iff_of_nodup (hl.imp Nat.ne_of_lt) (hl'.imp Nat.ne_of_lt)]
    exact h
  exact hperm.eq_of_pairwise (fun i j _ _ hij hji => absurd hij (Nat.lt_asymm hji)) hl hl'

theorem Alike.pick_eq {size : ℕ} (h : Alike R S consumed taken) (hlinked : Linked size R S)
    (hsame : ∀ i, i ∈ R a ↔ i ∈ S a) : pick consumed (R a) = pick taken (S a) := by
  rw [← eq_of_mem_iff (hlinked.sortedLeft a) (hlinked.sortedRight a) hsame]
  exact pick_congr (fun i hi => h a a i hi ((hsame i).mp hi))

theorem Alike.choose {size : ℕ} (h : Alike R S consumed taken) (hlinked : Linked size R S)
    (hconsumed : consumed.length = size) (htaken : taken.length = size)
    (hsame : ∀ a, R a ≠ [] → S a ≠ [] → ∀ i, i ∈ R a ↔ i ∈ S a) (a : α) :
    Alike R S (consume consumed (pick consumed (R a))) (consume taken (pick taken (S a))) := by
  intro b c i hb hc
  cases hR : pick consumed (R a) with
  | none =>
      cases hS : pick taken (S a) with
      | none => exact h b c i hb hc
      | some j =>
          have hj := mem_of_pick hS
          have hne : i ≠ j := by
            rintro rfl
            obtain ⟨k, hk⟩ := Option.isSome_iff_exists.mp
              (pick_isSome consumed (hlinked.right a b i hj hb))
            rw [hR] at hk
            cases hk
          rw [isFree_consume (htaken ▸ hlinked.ltRight a j hj), consume, h b c i hb hc]
          simp [hne]
  | some j =>
      have hj := mem_of_pick hR
      have hjlt : j < consumed.length := hconsumed ▸ hlinked.ltLeft a j hj
      cases hS : pick taken (S a) with
      | none =>
          have hne : i ≠ j := by
            rintro rfl
            obtain ⟨k, hk⟩ := Option.isSome_iff_exists.mp
              (pick_isSome taken (hlinked.left a c i hj hc))
            rw [hS] at hk
            cases hk
          rw [isFree_consume hjlt, consume, h b c i hb hc]
          simp [hne]
      | some k =>
          have hk := mem_of_pick hS
          have heq := h.pick_eq hlinked (hsame a (List.ne_nil_of_mem hj) (List.ne_nil_of_mem hk))
          rw [hR, hS, Option.some.injEq] at heq
          subst heq
          rw [isFree_consume hjlt, isFree_consume (htaken ▸ hlinked.ltRight a j hk),
            h b c i hb hc]

/-- A position that only one family has where both have some is chosen by that family alone. -/
theorem Linked.mem_of_agree {size : ℕ} (hlinked : Linked size R S)
    (hconsumed : consumed.length = size) (hfree : ∀ i, i < size → isFree consumed i = true)
    (hagree : ∀ as a i j, pick (chooseAll R consumed as) (R a) = some i →
      pick (chooseAll S taken as) (S a) = some j → i = j)
    {i : ℕ} (hi : i ∈ R a) (hS : S a ≠ []) : i ∈ S a := by
  have hilt := hlinked.ltLeft a i hi
  obtain ⟨n, hn⟩ := eventually_picked (fun j hj => hconsumed ▸ hlinked.ltLeft a j hj) hi
    (hfree i hilt)
  rw [← chooseAll_replicate] at hn
  obtain ⟨j, hj⟩ := Option.isSome_iff_exists.mp
    (pick_isSome (chooseAll S taken (List.replicate n a)) hS)
  have heq := hagree _ a i j hn hj
  subst heq
  exact mem_of_pick hj

/-- Two linked families always choose alike exactly when they have the same rivals wherever both
have some. -/
theorem Linked.agree_iff {size : ℕ} (hlinked : Linked size R S)
    (hconsumed : consumed.length = size) (hfree : ∀ i, i < size → isFree consumed i = true) :
    (∀ as a i j, pick (chooseAll R consumed as) (R a) = some i →
        pick (chooseAll S consumed as) (S a) = some j → i = j) ↔
      ∀ a, R a ≠ [] → S a ≠ [] → ∀ i, i ∈ R a ↔ i ∈ S a := by
  constructor
  · intro hagree a hR hS i
    constructor
    · exact fun hi => hlinked.mem_of_agree hconsumed hfree hagree hi hS
    · intro hi
      have hback : ∀ as a i j, pick (chooseAll S consumed as) (S a) = some i →
          pick (chooseAll R consumed as) (R a) = some j → i = j :=
        fun as a i j hi hj => (hagree as a j i hj hi).symm
      exact hlinked.symm.mem_of_agree hconsumed hfree hback hi hR
  · intro hsame as
    have halike : Alike R S (chooseAll R consumed as) (chooseAll S consumed as) := by
      induction as using List.reverseRecOn with
      | nil => exact fun _ _ _ _ _ => rfl
      | append_singleton as a ih =>
          rw [chooseAll_append, chooseAll_append]
          exact ih.choose hlinked (by simpa using hconsumed) (by simpa using hconsumed) hsame a
    intro a i j hi hj
    have heq := halike.pick_eq hlinked (hsame a (List.ne_nil_of_mem (mem_of_pick hi))
      (List.ne_nil_of_mem (mem_of_pick hj)))
    rw [hi, hj, Option.some.injEq] at heq
    exact heq

end Sequences

/-! ## Requests with a position of their own -/

section Own

variable {α : Type*} {R : α → List ℕ} {consumed : List Bool} {as : List (α × ℕ)}

/-- A property of each entry of a list and of the entries before it. -/
def Each (Q : List (α × ℕ) → α × ℕ → Prop) (as : List (α × ℕ)) : Prop :=
  ∀ k a, as[k]? = some a → Q (as.take k) a

theorem each_snoc {Q : List (α × ℕ) → α × ℕ → Prop} {a : α × ℕ} :
    Each Q (as ++ [a]) ↔ Each Q as ∧ Q as a := by
  constructor
  · intro h
    constructor
    · intro k b hk
      have hlt : k < as.length := (List.getElem?_eq_some_iff.mp hk).1
      have hb := h k b (by rw [List.getElem?_append_left hlt, hk])
      rwa [List.take_append_of_le_length hlt.le] at hb
    · have hlast := h as.length a (by simp)
      rwa [List.take_left'] at hlast
      rfl
  · rintro ⟨hinit, hlast⟩ k b hk
    by_cases hlt : k < as.length
    · rw [List.getElem?_append_left hlt] at hk
      rw [List.take_append_of_le_length hlt.le]
      exact hinit k b hk
    · have hlength := (List.getElem?_eq_some_iff.mp hk).1
      simp only [List.length_append, List.length_singleton] at hlength
      have hlen : k = as.length := by omega
      subst hlen
      simp only [List.getElem?_concat_length, Option.some.injEq] at hk
      subst hk
      rwa [List.take_left' rfl]

/-- Every request is given its own position. -/
def AllOwn (R : α → List ℕ) (consumed : List Bool) (as : List (α × ℕ)) : Prop :=
  Each (fun pre a => pick (chooseAll R consumed (pre.map Prod.fst)) (R a.1) = some a.2) as

/-- Every rival below a request's own position is the own position of an earlier request. -/
def RivalsFirst (R : α → List ℕ) (as : List (α × ℕ)) : Prop :=
  Each (fun pre a => ∀ j ∈ R a.1, j < a.2 → j ∈ pre.map Prod.snd) as

theorem AllOwn.isFree {size : ℕ} (h : AllOwn R consumed as) (hconsumed : consumed.length = size)
    (hfree : ∀ i, i < size → isFree consumed i = true) (hown : ∀ a ∈ as, a.2 < size) {j : ℕ}
    (hj : j < size) :
    isFree (chooseAll R consumed (as.map Prod.fst)) j = true ↔ j ∉ as.map Prod.snd := by
  induction as using List.reverseRecOn with
  | nil => simpa [chooseAll] using hfree j hj
  | append_singleton as a ih =>
      obtain ⟨hinit, hlast⟩ := each_snoc.mp h
      have hrest := ih hinit (fun b hb => hown b (List.mem_append_left _ hb))
      have ha : a.2 < size := hown a (List.mem_append_right _ (List.mem_singleton_self a))
      rw [List.map_append, List.map_append, chooseAll_append]
      change ConsumeOnce.isFree (consume _ (pick _ (R a.1))) j = true ↔ _
      rw [hlast, isFree_consume (by simpa [hconsumed] using ha), Bool.and_eq_true, hrest,
        decide_eq_true_eq, List.mem_append, List.map_singleton, List.mem_singleton, not_or]

/-- Requests of pairwise different own positions all get them exactly when no rival below a
request's own position is still free. -/
theorem allOwn_iff {size : ℕ} (hsorted : ∀ a, (R a).Pairwise (· < ·))
    (hlt : ∀ a, ∀ i ∈ R a, i < size) (hconsumed : consumed.length = size)
    (hfree : ∀ i, i < size → isFree consumed i = true) (hown : ∀ a ∈ as, a.2 ∈ R a.1)
    (hnodup : (as.map Prod.snd).Nodup) : AllOwn R consumed as ↔ RivalsFirst R as := by
  induction as using List.reverseRecOn with
  | nil => exact iff_of_true (fun k a h => by cases h) (fun k a h => by cases h)
  | append_singleton as a ih =>
      have hownInit : ∀ b ∈ as, b.2 ∈ R b.1 := fun b hb => hown b (List.mem_append_left _ hb)
      have ha : a.2 ∈ R a.1 := hown a (List.mem_append_right _ (List.mem_singleton_self a))
      rw [List.map_append, List.nodup_append] at hnodup
      have hinit := ih hownInit hnodup.1
      rw [AllOwn, RivalsFirst, each_snoc, each_snoc]
      change (AllOwn R consumed as ∧ _) ↔ (RivalsFirst R as ∧ _)
      rw [← hinit]
      apply and_congr_right
      intro hall
      have hisFree := fun {j} (hj : j < size) => hall.isFree hconsumed hfree
        (fun b hb => hlt _ _ (hownInit b hb)) hj
      have hnew : a.2 ∉ as.map Prod.snd :=
        fun hmem => hnodup.2.2 a.2 hmem a.2 (by simp) rfl
      rw [pick_eq_iff (hsorted a.1) ha ((hisFree (hlt _ _ ha)).mpr hnew)]
      apply forall_congr'
      intro j
      apply forall_congr'
      intro hj
      apply imp_congr_right
      intro _
      rw [← not_iff_not, ← hisFree (hlt _ _ hj), Bool.not_eq_false]

end Own

end ConsumeOnce
