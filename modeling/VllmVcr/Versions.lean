import Mathlib.Algebra.Order.Monoid.Unbundled.WithTop
import Mathlib.Data.Prod.Lex
import Mathlib.Data.String.Basic
import Mathlib.Order.WithBot
import VllmVcr.DatasetFile
import VllmVcr.FirstMatch

/-!
# Versions

vLLM's release tags, their order, and the release candidate to track among the tags that
`git ls-remote` lists.
-/

namespace VllmVcr

/-- `str::parse::<u32>`. -/
def parseU32 (text : List Char) : Option ℕ :=
  (match text with
  | '+' :: digits => parseDigits digits
  | digits => parseDigits digits).filter (fun n => n < 2 ^ 32)

/-- `split_once`. -/
def splitOnce (text pat : List Char) : Option (List Char × List Char) := text.dropInfix? pat

/-- `vMAJOR.MINOR.PATCH`, or its `rcN` pre-release. -/
structure VllmVersion where
  major : ℕ
  minor : ℕ
  patch : ℕ
  rc : Option ℕ
deriving DecidableEq, Repr

namespace VllmVersion

def parse (tag : String) : Option VllmVersion :=
  match ((trim tag.toList).dropWhile (· = 'v')).splitOn '.' with
  | [major, minor, patchField] =>
      (parseU32 major).bind (fun major => (parseU32 minor).bind (fun minor =>
        match splitOnce patchField "rc".toList with
        | some (patch, n) =>
            (parseU32 n).bind (fun n => (parseU32 patch).map (⟨major, minor, ·, some n⟩))
        | none => (parseU32 patchField).map (⟨major, minor, ·, none⟩)))
  | _ => none

def minorLine (v : VllmVersion) : String := s!"{v.major}.{v.minor}"

/-- A final release comes after its candidates. -/
def cmp (v w : VllmVersion) : Ordering :=
  ((compare v.major w.major).then ((compare v.minor w.minor).then
    (compare v.patch w.patch))).then
      (match v.rc, w.rc with
      | none, none => .eq
      | none, some _ => .gt
      | some _, none => .lt
      | some a, some b => compare a b)

/-- A final release ranks above every candidate. -/
def candidateRank : Option ℕ → WithTop ℕ
  | none => ⊤
  | some n => n

theorem candidateRank_injective : Function.Injective candidateRank := by
  rintro (_ | a) (_ | b) h
  · rfl
  · exact absurd h WithTop.top_ne_coe
  · exact absurd h WithTop.coe_ne_top
  · obtain rfl : a = b := WithTop.coe_injective h
    rfl

/-- The numbers in the order they count. -/
def key (v : VllmVersion) : ℕ ×ₗ ℕ ×ₗ ℕ ×ₗ WithTop ℕ :=
  toLex (v.major, toLex (v.minor, toLex (v.patch, candidateRank v.rc)))

theorem key_injective : Function.Injective key := by
  rintro ⟨major, minor, patch, rc⟩ ⟨major', minor', patch', rc'⟩ h
  simp only [key, EmbeddingLike.apply_eq_iff_eq, Prod.mk.injEq] at h
  obtain ⟨rfl, rfl, rfl, hrc⟩ := h
  rw [candidateRank_injective hrc]

theorem key_lt_iff {v w : VllmVersion} : key v < key w ↔ v.major < w.major ∨ v.major = w.major ∧
    (v.minor < w.minor ∨ v.minor = w.minor ∧ (v.patch < w.patch ∨ v.patch = w.patch ∧
      candidateRank v.rc < candidateRank w.rc)) := by
  simp only [key, Prod.Lex.toLex_lt_toLex]

theorem cmp_eq_lt_iff {v w : VllmVersion} : v.cmp w = .lt ↔ key v < key w := by
  have hrc : (match v.rc, w.rc with
      | none, none => Ordering.eq
      | none, some _ => .gt
      | some _, none => .lt
      | some a, some b => compare a b) = .lt ↔ candidateRank v.rc < candidateRank w.rc := by
    cases v.rc with
    | none => cases w.rc <;> exact iff_of_false (by simp) not_top_lt
    | some a =>
      cases w.rc with
      | none => exact iff_of_true rfl (WithTop.coe_lt_top a)
      | some b => exact Nat.compare_eq_lt.trans WithTop.coe_lt_coe.symm
  rw [cmp, key_lt_iff, Ordering.then_eq_lt, Ordering.then_eq_lt, Ordering.then_eq_lt,
    Ordering.then_eq_eq, Ordering.then_eq_eq, hrc]
  simp only [Nat.compare_eq_lt, Nat.compare_eq_eq]
  tauto

theorem cmp_eq_eq_iff {v w : VllmVersion} : v.cmp w = .eq ↔ v = w := by
  have hrc : (match v.rc, w.rc with
      | none, none => Ordering.eq
      | none, some _ => .gt
      | some _, none => .lt
      | some a, some b => compare a b) = .eq ↔ v.rc = w.rc := by
    cases v.rc with
    | none => cases w.rc <;> simp
    | some a => cases w.rc <;> simp
  rw [cmp, Ordering.then_eq_eq, Ordering.then_eq_eq, Ordering.then_eq_eq, hrc]
  simp only [Nat.compare_eq_eq]
  cases v
  cases w
  rw [mk.injEq]
  tauto

/-- The order of the source's comparison. -/
instance instLinearOrder : LinearOrder VllmVersion where
  __ := LinearOrder.lift' key key_injective
  compare := cmp
  compare_eq_compareOfLessAndEq v w := by
    rw [compareOfLessAndEq]
    by_cases hlt : v < w
    · rw [if_pos hlt]
      exact cmp_eq_lt_iff.mpr hlt
    · rw [if_neg hlt]
      by_cases heq : v = w
      · rw [if_pos heq]
        exact cmp_eq_eq_iff.mpr heq
      · rw [if_neg heq]
        cases hcmp : v.cmp w with
        | lt => exact absurd (cmp_eq_lt_iff.mp hcmp) hlt
        | eq => exact absurd (cmp_eq_eq_iff.mp hcmp) heq
        | gt => rfl

theorem lt_iff {v w : VllmVersion} : v < w ↔ v.major < w.major ∨ v.major = w.major ∧
    (v.minor < w.minor ∨ v.minor = w.minor ∧ (v.patch < w.patch ∨ v.patch = w.patch ∧
      candidateRank v.rc < candidateRank w.rc)) :=
  key_lt_iff

/-! ## Lines -/

theorem toList_minorLine (v : VllmVersion) :
    v.minorLine.toList = Nat.toDigits 10 v.major ++ '.' :: Nat.toDigits 10 v.minor := by
  have hline : v.minorLine = (v.major.repr ++ ".") ++ v.minor.repr := rfl
  rw [hline, String.toList_append, String.toList_append, Nat.toList_repr, Nat.toList_repr]
  simp

theorem dot_not_mem_toDigits (n : ℕ) : '.' ∉ Nat.toDigits 10 n := by
  intro h
  have hdigit := Nat.isDigit_of_mem_toDigits (by omega) (by omega) h
  revert hdigit
  decide

theorem toDigits_injective {m n : ℕ} (h : Nat.toDigits 10 m = Nat.toDigits 10 n) : m = n := by
  have hm : Nat.ofDigitChars 10 (Nat.toDigits 10 m) 0 = m :=
    Nat.ofDigitChars_toDigits (by omega) (by omega)
  rw [← hm, h]
  exact Nat.ofDigitChars_toDigits (by omega) (by omega)

/-- A line's label tells its major and minor number. -/
theorem minorLine_eq_iff {v w : VllmVersion} :
    v.minorLine = w.minorLine ↔ v.major = w.major ∧ v.minor = w.minor := by
  constructor
  · intro h
    have hlist := congrArg String.toList h
    rw [toList_minorLine, toList_minorLine] at hlist
    obtain ⟨hmajor, -, hminor⟩ := (List.append_cons_inj_of_notMem (dot_not_mem_toDigits _)
      (dot_not_mem_toDigits _)).mp hlist
    exact ⟨toDigits_injective hmajor, toDigits_injective hminor⟩
  · rintro ⟨hmajor, hminor⟩
    rw [minorLine, minorLine, hmajor, hminor]

/-- Versions of different lines are in the order of their lines. -/
theorem lt_of_lines {u v w : VllmVersion} (huv : u < v) (hline : u.minorLine ≠ v.minorLine)
    (hw : w.minorLine = u.minorLine) : w < v := by
  rw [Ne, minorLine_eq_iff] at hline
  rw [minorLine_eq_iff] at hw
  rw [lt_iff] at huv ⊢
  omega

end VllmVersion

/-! ## Tags -/

/-- `git ls-remote --tags` output, with the commit an annotated tag points at. -/
def parseLsRemote (text : List Char) : SortedMap String String :=
  (lines text).foldl (fun tags line =>
    match splitOnce line ['\t'] with
    | none => tags
    | some (sha, refname) =>
        match (trim refname).dropPrefix? "refs/tags/".toList with
        | none => tags
        | some tag =>
            match tag.dropSuffix? "^{}".toList with
            | some name => tags.insert (String.ofList name) (String.ofList (trim sha))
            | none =>
                if tags.contains (String.ofList tag) then tags
                else tags.insert (String.ofList tag) (String.ofList (trim sha)))
    SortedMap.empty

/-- The newest release candidate above `stable`, the last of equal ones. -/
def pickLatestRc (tags : SortedMap String String) (stable : VllmVersion) :
    Option (String × String) :=
  let candidates := (tags.entries.filterMap (fun e =>
    (VllmVersion.parse e.1).map (fun v => (v, e)))).filter (fun c => c.1.rc.isSome && stable < c.1)
  (candidates.foldl (fun best c =>
    match best with
    | none => some c
    | some b => if b.1.cmp c.1 = .gt then some b else some c) none).map Prod.snd

end VllmVcr
