import Mathlib.Data.List.Basic
import Mathlib.Data.List.Infix
import VllmVcr.Protocol

/-!
# JSON texts

The texts of a JSON value: any whitespace between its tokens, its scalars spelled in any way. A
text keeps its brackets balanced, strings aside, so no object's text continues another's.
-/

namespace VllmVcr.JsonText

/-! ## The grammar -/

def isSpace (c : Char) : Bool := c = ' ' || c = '\t' || c = '\n' || c = '\r'

def Space (t : List Char) : Prop := ∀ c ∈ t, isSpace c

/-- What stands between the quotes of a string. -/
inductive StringBody : List Char → Prop
  | nil : StringBody []
  | plain (c : Char) (rest : List Char) (hquote : c ≠ '"') (hslash : c ≠ '\\') (hlow : ' ' ≤ c)
      (h : StringBody rest) : StringBody (c :: rest)
  | escape (c : Char) (rest : List Char) (hlow : ' ' ≤ c) (h : StringBody rest) :
      StringBody ('\\' :: c :: rest)

def NumberText (t : List Char) : Prop :=
  t ≠ [] ∧ ∀ c ∈ t, c.isDigit ∨ c ∈ ['+', '-', '.', 'e', 'E']

/-- An element of an array or the value of a member, with the whitespace around it. -/
structure Item where
  value : JsonValue
  before : List Char
  text : List Char
  after : List Char

def Item.padded (item : Item) : List Char := item.before ++ item.text ++ item.after

def Item.Spaced (item : Item) : Prop := Space item.before ∧ Space item.after

/-- A member of an object, with the whitespace around its name. -/
structure Member where
  name : String
  before : List Char
  nameBody : List Char
  after : List Char
  item : Item

def Member.padded (member : Member) : List Char :=
  member.before ++ ('"' :: member.nameBody ++ ['"']) ++ member.after ++ ':' :: member.item.padded

structure Member.Spaced (member : Member) : Prop where
  before : Space member.before
  name : StringBody member.nameBody
  after : Space member.after
  item : member.item.Spaced

/-- A member of a name seen before replaces its value. -/
def insertMember (fields : List (String × JsonValue)) (member : Member) :
    List (String × JsonValue) :=
  if member.name ∈ fields.map Prod.fst then
    fields.map (fun f => if f.1 = member.name then (f.1, member.item.value) else f)
  else fields ++ [(member.name, member.item.value)]

/-- The texts of a value; which number or string a scalar stands for is left open. -/
inductive Text : JsonValue → List Char → Prop
  | null : Text .null ['n', 'u', 'l', 'l']
  | true : Text (.bool .true) ['t', 'r', 'u', 'e']
  | false : Text (.bool .false) ['f', 'a', 'l', 's', 'e']
  | number (n : ℤ) (t : List Char) (h : NumberText t) : Text (.number n) t
  | float (q : ℚ) (t : List Char) (h : NumberText t) : Text (.float q) t
  | string (s : String) (body : List Char) (h : StringBody body) :
      Text (.string s) ('"' :: body ++ ['"'])
  | emptyArray (space : List Char) (h : Space space) : Text (.array []) ('[' :: space ++ [']'])
  | array (items : List Item) (hne : items ≠ []) (hspaced : ∀ i ∈ items, i.Spaced)
      (h : ∀ i ∈ items, Text i.value i.text) :
      Text (.array (items.map Item.value))
        ('[' :: [','].intercalate (items.map Item.padded) ++ [']'])
  | emptyObject (space : List Char) (h : Space space) : Text (.object []) ('{' :: space ++ ['}'])
  | object (members : List Member) (hne : members ≠ []) (hspaced : ∀ m ∈ members, m.Spaced)
      (h : ∀ m ∈ members, Text m.item.value m.item.text) :
      Text (.object (members.foldl insertMember []))
        ('{' :: [','].intercalate (members.map Member.padded) ++ ['}'])

/-- A document: a value with whitespace around it. -/
def Document (v : JsonValue) (t : List Char) : Prop :=
  ∃ before text after, t = before ++ text ++ after ∧ Space before ∧ Space after ∧ Text v text

/-! ## Scanning -/

inductive Mode where
  | outside
  | string
  | escaped
  deriving DecidableEq

/-- How deep in brackets the scan is, and whether in a string. -/
structure Scan where
  depth : ℤ
  mode : Mode

def opens (c : Char) : Bool := c = '{' || c = '['

def closes (c : Char) : Bool := c = '}' || c = ']'

def Scan.step (s : Scan) (c : Char) : Scan :=
  match s.mode with
  | .escaped => { s with mode := .string }
  | .string =>
    if c = '"' then { s with mode := .outside }
    else if c = '\\' then { s with mode := .escaped }
    else s
  | .outside =>
    if c = '"' then { s with mode := .string }
    else if opens c then { s with depth := s.depth + 1 }
    else if closes c then { s with depth := s.depth - 1 }
    else s

def Scan.run (s : Scan) (t : List Char) : Scan := t.foldl Scan.step s

@[simp] theorem Scan.run_nil (s : Scan) : s.run [] = s := rfl

@[simp] theorem Scan.run_cons (s : Scan) (c : Char) (t : List Char) :
    s.run (c :: t) = (s.step c).run t := rfl

theorem Scan.run_append (s : Scan) (t u : List Char) : s.run (t ++ u) = (s.run t).run u :=
  List.foldl_append

/-- The text ends as deep as it began, outside of strings, and is nowhere less deep. -/
structure Balanced (t : List Char) : Prop where
  ends : ∀ d, (Scan.mk d .outside).run t = ⟨d, .outside⟩
  above : ∀ d u, u <+: t → d ≤ ((Scan.mk d .outside).run u).depth

theorem balanced_nil : Balanced [] := by
  refine ⟨fun d => rfl, fun d u hu => ?_⟩
  rw [List.prefix_nil.mp hu]
  exact le_refl d

theorem within_or_past {u s t : List Char} (h : u <+: s ++ t) :
    u <+: s ∨ ∃ v, v <+: t ∧ u = s ++ v := by
  by_cases hlength : u.length ≤ s.length
  · exact .inl (List.prefix_of_prefix_length_le h (List.prefix_append s t) hlength)
  · obtain ⟨v, rfl⟩ := List.prefix_of_prefix_length_le (List.prefix_append s t) h (by omega)
    exact .inr ⟨v, (List.prefix_append_right_inj s).mp h, rfl⟩

theorem Balanced.append {s t : List Char} (hs : Balanced s) (ht : Balanced t) :
    Balanced (s ++ t) := by
  refine ⟨fun d => by rw [Scan.run_append, hs.ends, ht.ends], fun d u hu => ?_⟩
  rcases within_or_past hu with hshort | ⟨v, hv, rfl⟩
  · exact hs.above d u hshort
  · rw [Scan.run_append, hs.ends]
    exact ht.above d v hv

/-- Neither a quote nor a bracket. -/
def Plain (c : Char) : Prop := c ≠ '"' ∧ opens c = false ∧ closes c = false

instance (c : Char) : Decidable (Plain c) := inferInstanceAs (Decidable (_ ∧ _))

theorem balanced_plain {c : Char} (hc : Plain c) : Balanced [c] := by
  obtain ⟨hquote, hopens, hcloses⟩ := hc
  have hstep : ∀ d, (Scan.mk d .outside).step c = ⟨d, .outside⟩ := by
    intro d
    simp [Scan.step, hquote, hopens, hcloses]
  refine ⟨fun d => by rw [Scan.run_cons, hstep, Scan.run_nil], fun d u hu => ?_⟩
  rcases List.prefix_cons_iff.mp hu with rfl | ⟨v, rfl, hv⟩
  · exact le_refl d
  · rw [List.prefix_nil.mp hv, Scan.run_cons, hstep]
    exact le_refl d

theorem balanced_of_plain {t : List Char} (h : ∀ c ∈ t, Plain c) : Balanced t := by
  induction t with
  | nil => exact balanced_nil
  | cons c t ih =>
      obtain ⟨hc, ht⟩ := List.forall_mem_cons.mp h
      exact (balanced_plain hc).append (ih ht)

theorem balanced_space {t : List Char} (h : Space t) : Balanced t := by
  refine balanced_of_plain (fun c hc => ?_)
  have hspace := h c hc
  simp only [isSpace, Bool.or_eq_true, decide_eq_true_eq] at hspace
  rcases hspace with ((rfl | rfl) | rfl) | rfl <;> decide

theorem balanced_number {t : List Char} (h : NumberText t) : Balanced t := by
  refine balanced_of_plain (fun c hc => ?_)
  have hdigit : ∀ d : Char, d.isDigit = .false → c.isDigit = .true → c ≠ d := by
    rintro d hd hcd rfl
    rw [hd] at hcd
    cases hcd
  rcases h.2 c hc with hcd | hmark
  · refine ⟨hdigit _ rfl hcd, ?_, ?_⟩
    · simp [opens, hdigit '{' rfl hcd, hdigit '[' rfl hcd]
    · simp [closes, hdigit '}' rfl hcd, hdigit ']' rfl hcd]
  · simp only [List.mem_cons, List.not_mem_nil, or_false] at hmark
    rcases hmark with rfl | rfl | rfl | rfl | rfl <;> decide

/-- The scan of a string's body stays in the string, at the same depth. -/
theorem scan_body {body : List Char} (h : StringBody body) (d : ℤ) :
    (Scan.mk d .string).run body = ⟨d, .string⟩ ∧
      ∀ u, u <+: body → ((Scan.mk d .string).run u).depth = d := by
  induction h with
  | nil =>
      refine ⟨rfl, fun u hu => ?_⟩
      rw [List.prefix_nil.mp hu]
      rfl
  | plain c rest hquote hslash _ _ ih =>
      have hstep : (Scan.mk d .string).step c = ⟨d, .string⟩ := by
        simp [Scan.step, hquote, hslash]
      refine ⟨by rw [Scan.run_cons, hstep, ih.1], fun u hu => ?_⟩
      rcases List.prefix_cons_iff.mp hu with rfl | ⟨v, rfl, hv⟩
      · rfl
      · rw [Scan.run_cons, hstep]
        exact ih.2 v hv
  | escape c rest _ _ ih =>
      have hstep : ((Scan.mk d .string).step '\\').step c = ⟨d, .string⟩ := by
        simp [Scan.step]
      refine ⟨by rw [Scan.run_cons, Scan.run_cons, hstep, ih.1], fun u hu => ?_⟩
      rcases List.prefix_cons_iff.mp hu with rfl | ⟨v, rfl, hv⟩
      · rfl
      · rcases List.prefix_cons_iff.mp hv with rfl | ⟨w, rfl, hw⟩
        · simp [Scan.step]
        · rw [Scan.run_cons, Scan.run_cons, hstep]
          exact ih.2 w hw

theorem balanced_string {body : List Char} (h : StringBody body) :
    Balanced ('"' :: body ++ ['"']) := by
  have hopen : ∀ d, (Scan.mk d .outside).step '"' = ⟨d, .string⟩ := fun d => by simp [Scan.step]
  have hclose : ∀ d, (Scan.mk d .string).step '"' = ⟨d, .outside⟩ := fun d => by simp [Scan.step]
  constructor
  · intro d
    rw [List.cons_append, Scan.run_cons, hopen, Scan.run_append, (scan_body h d).1, Scan.run_cons,
      hclose, Scan.run_nil]
  · intro d u hu
    rcases within_or_past hu with hshort | ⟨v, hv, rfl⟩
    · rcases List.prefix_cons_iff.mp hshort with rfl | ⟨w, rfl, hw⟩
      · exact le_refl d
      · rw [Scan.run_cons, hopen, (scan_body h d).2 w hw]
    · rw [List.cons_append, Scan.run_cons, hopen, Scan.run_append, (scan_body h d).1]
      rcases List.prefix_cons_iff.mp hv with rfl | ⟨w, rfl, hw⟩
      · exact le_refl d
      · rw [List.prefix_nil.mp hw, Scan.run_cons, hclose]
        exact le_refl d

/-- Between its brackets a balanced text is one deeper. -/
theorem balanced_enclosed {left right : Char} (hleft : opens left) (hright : closes right)
    {t : List Char} (h : Balanced t) : Balanced (left :: t ++ [right]) := by
  have hopen : ∀ d, (Scan.mk d .outside).step left = ⟨d + 1, .outside⟩ := by
    intro d
    have hquote : left ≠ '"' := by
      rintro rfl
      cases hleft
    simp [Scan.step, hquote, hleft]
  have hclose : ∀ d, (Scan.mk (d + 1) .outside).step right = ⟨d, .outside⟩ := by
    intro d
    have hquote : right ≠ '"' := by
      rintro rfl
      cases hright
    have hnot : opens right = .false := by
      simp only [closes, Bool.or_eq_true, decide_eq_true_eq] at hright
      rcases hright with rfl | rfl <;> decide
    simp [Scan.step, hquote, hright, hnot]
  constructor
  · intro d
    rw [List.cons_append, Scan.run_cons, hopen, Scan.run_append, h.ends, Scan.run_cons, hclose,
      Scan.run_nil]
  · intro d u hu
    rcases within_or_past hu with hshort | ⟨v, hv, rfl⟩
    · rcases List.prefix_cons_iff.mp hshort with rfl | ⟨w, rfl, hw⟩
      · exact le_refl d
      · rw [Scan.run_cons, hopen]
        have habove := h.above (d + 1) w hw
        omega
    · rw [List.cons_append, Scan.run_cons, hopen, Scan.run_append, h.ends]
      rcases List.prefix_cons_iff.mp hv with rfl | ⟨w, rfl, hw⟩
      · change d ≤ d + 1
        omega
      · rw [List.prefix_nil.mp hw, Scan.run_cons, hclose]
        exact le_refl d

theorem balanced_intercalate {parts : List (List Char)} (h : ∀ t ∈ parts, Balanced t) :
    Balanced ([','].intercalate parts) := by
  induction parts with
  | nil => exact balanced_nil
  | cons t parts ih =>
      obtain ⟨ht, hrest⟩ := List.forall_mem_cons.mp h
      cases parts with
      | nil => simpa using ht
      | cons t' parts =>
          rw [List.intercalate_cons_cons]
          exact (ht.append (balanced_plain (by decide))).append (ih hrest)

theorem balanced_item {item : Item} (hspaced : item.Spaced) (h : Balanced item.text) :
    Balanced item.padded :=
  ((balanced_space hspaced.1).append h).append (balanced_space hspaced.2)

theorem balanced_member {member : Member} (hspaced : member.Spaced)
    (h : Balanced member.item.text) : Balanced member.padded := by
  have hname := ((balanced_space hspaced.before).append (balanced_string hspaced.name)).append
    (balanced_space hspaced.after)
  exact hname.append ((balanced_plain (c := ':') (by decide)).append
    (balanced_item hspaced.item h))

theorem Text.balanced {v : JsonValue} {t : List Char} (h : Text v t) : Balanced t := by
  induction h with
  | null => exact balanced_of_plain (by simp [Plain, opens, closes])
  | true => exact balanced_of_plain (by simp [Plain, opens, closes])
  | false => exact balanced_of_plain (by simp [Plain, opens, closes])
  | number n t h => exact balanced_number h
  | float q t h => exact balanced_number h
  | string s body h => exact balanced_string h
  | emptyArray space h => exact balanced_enclosed rfl rfl (balanced_space h)
  | array items _ hspaced _ ih =>
      refine balanced_enclosed rfl rfl (balanced_intercalate (fun t ht => ?_))
      obtain ⟨item, hitem, rfl⟩ := List.mem_map.mp ht
      exact balanced_item (hspaced item hitem) (ih item hitem)
  | emptyObject space h => exact balanced_enclosed rfl rfl (balanced_space h)
  | object members _ hspaced _ ih =>
      refine balanced_enclosed rfl rfl (balanced_intercalate (fun t ht => ?_))
      obtain ⟨member, hmember, rfl⟩ := List.mem_map.mp ht
      exact balanced_member (hspaced member hmember) (ih member hmember)

/-- A text that opens with a brace is that of an object. -/
theorem Text.object_of_brace {v : JsonValue} {rest : List Char} (h : Text v ('{' :: rest)) :
    ∃ inner, rest = inner ++ ['}'] ∧ Balanced inner := by
  generalize ht : '{' :: rest = t at h
  cases h with
  | number n t h =>
      rcases h.2 '{' (ht ▸ List.mem_cons_self) with hdigit | hmark
      · cases hdigit
      · simp at hmark
  | float q t h =>
      rcases h.2 '{' (ht ▸ List.mem_cons_self) with hdigit | hmark
      · cases hdigit
      · simp at hmark
  | emptyObject space h => exact ⟨space, (List.cons.inj ht).2, balanced_space h⟩
  | object members _ hspaced h =>
      refine ⟨_, (List.cons.inj ht).2, balanced_intercalate (fun t ht => ?_)⟩
      obtain ⟨member, hmember, rfl⟩ := List.mem_map.mp ht
      exact balanced_member (hspaced member hmember) (h member hmember).balanced
  | null => simp at ht
  | true => simp at ht
  | false => simp at ht
  | string s body h => simp at ht
  | emptyArray space h => simp at ht
  | array items _ hspaced h => simp at ht

theorem Text.array_opens {items : List JsonValue} {t : List Char} (h : Text (.array items) t) :
    ∃ rest, t = '[' :: rest := by
  cases h with
  | emptyArray space h => exact ⟨_, rfl⟩
  | array items _ _ _ => exact ⟨_, rfl⟩

theorem Text.object_opens {fields : List (String × JsonValue)} {t : List Char}
    (h : Text (.object fields) t) : ∃ rest, t = '{' :: rest := by
  generalize hv : JsonValue.object fields = v at h
  cases h with
  | emptyObject space h => exact ⟨_, rfl⟩
  | object members _ _ _ => exact ⟨_, rfl⟩
  | null => cases hv
  | true => cases hv
  | false => cases hv
  | number n t h => cases hv
  | float q t h => cases hv
  | string s body h => cases hv
  | emptyArray space h => cases hv
  | array items _ _ _ => cases hv

theorem Text.ne_nil {v : JsonValue} {t : List Char} (h : Text v t) : t ≠ [] := by
  cases h with
  | number n t h => exact h.1
  | float q t h => exact h.1
  | _ => simp

theorem Document.ne_nil {v : JsonValue} {t : List Char} (h : Document v t) : t ≠ [] := by
  obtain ⟨before, text, after, rfl, -, -, htext⟩ := h
  simp [Text.ne_nil htext]

/-- No object's text continues another's. -/
theorem brace_unique {inner inner' : List Char} (h : Balanced inner) (h' : Balanced inner')
    {rest rest' : List Char} (heq : inner ++ '}' :: rest = inner' ++ '}' :: rest') :
    rest = rest' := by
  have hshort : ∀ {s s' : List Char} {r r' : List Char}, Balanced s → Balanced s' →
      s ++ '}' :: r = s' ++ '}' :: r' → ¬ s.length < s'.length := by
    intro s s' r r' hs hs' hsame hlt
    have hbefore : s ++ ['}'] <+: s' := by
      have hboth : s ++ ['}'] <+: s' ++ '}' :: r' := ⟨r, by rw [← hsame]; simp⟩
      refine List.prefix_of_prefix_length_le hboth (List.prefix_append _ _) ?_
      rw [List.length_append, List.length_singleton]
      omega
    have habove := hs'.above 1 _ hbefore
    rw [Scan.run_append, hs.ends] at habove
    simp [Scan.step, opens, closes] at habove
  have hlength : inner.length = inner'.length :=
    le_antisymm (not_lt.mp (hshort h' h heq.symm)) (not_lt.mp (hshort h h' heq))
  obtain ⟨-, hrest⟩ := List.append_inj heq hlength
  exact (List.cons.inj hrest).2

/-! ## Compact texts -/

def intText : ℤ → List Char
  | .ofNat n => Nat.toDigits 10 n
  | .negSucc n => '-' :: Nat.toDigits 10 (n + 1)

/-- The text of a float that is a number of tenths and not negative. -/
def floatText (q : ℚ) : List Char :=
  Nat.toDigits 10 ((q * 10).floor.toNat / 10) ++ '.' :: Nat.toDigits 10 ((q * 10).floor.toNat % 10)

/-- The text of a value without whitespace, when no string of it needs an escape. -/
def compactText : JsonValue → List Char
  | .null => ['n', 'u', 'l', 'l']
  | .bool true => ['t', 'r', 'u', 'e']
  | .bool false => ['f', 'a', 'l', 's', 'e']
  | .number n => intText n
  | .float q => floatText q
  | .string s => '"' :: s.toList ++ ['"']
  | .array items => '[' :: [','].intercalate (elements items) ++ [']']
  | .object fields => '{' :: [','].intercalate (members fields) ++ ['}']
where
  elements : List JsonValue → List (List Char)
    | [] => []
    | v :: rest => compactText v :: elements rest
  members : List (String × JsonValue) → List (List Char)
    | [] => []
    | (name, v) :: rest => ('"' :: name.toList ++ '"' :: ':' :: compactText v) :: members rest

def unescapedChar (c : Char) : Bool := c ≠ '"' && c ≠ '\\' && 32 ≤ c.toNat

/-- No string of the value needs an escape, and no object of it repeats a member. -/
def unescaped : JsonValue → Bool
  | .null => true
  | .bool _ => true
  | .number _ => true
  | .float _ => true
  | .string s => s.toList.all unescapedChar
  | .array items => elements items
  | .object fields => decide (fields.map Prod.fst).Nodup && members fields
where
  elements : List JsonValue → Bool
    | [] => true
    | v :: rest => unescaped v && elements rest
  members : List (String × JsonValue) → Bool
    | [] => true
    | (name, v) :: rest => name.toList.all unescapedChar && (unescaped v && members rest)

theorem stringBody_of_unescaped {body : List Char} (h : body.all unescapedChar = true) :
    StringBody body := by
  induction body with
  | nil => exact .nil
  | cons c body ih =>
      rw [List.all_cons, Bool.and_eq_true] at h
      simp only [unescapedChar, Bool.and_eq_true, decide_eq_true_eq] at h
      obtain ⟨⟨⟨hquote, hslash⟩, hlow⟩, hbody⟩ := h
      have hspace : ' ' ≤ c := Char.le_def.mpr (UInt32.le_iff_toNat_le.mpr hlow)
      exact .plain c body hquote hslash hspace (ih hbody)

theorem isDigit_toDigits {n : ℕ} {c : Char} (h : c ∈ Nat.toDigits 10 n) : c.isDigit = true :=
  Nat.isDigit_of_mem_toDigits (by decide) le_rfl h

theorem numberText_intText (n : ℤ) : NumberText (intText n) := by
  cases n with
  | ofNat n => exact ⟨Nat.toDigits_ne_nil, fun c hc => .inl (isDigit_toDigits hc)⟩
  | negSucc n =>
      refine ⟨List.cons_ne_nil _ _, fun c hc => ?_⟩
      rcases List.mem_cons.mp hc with rfl | hdigit
      · exact .inr (by decide)
      · exact .inl (isDigit_toDigits hdigit)

theorem numberText_floatText (q : ℚ) : NumberText (floatText q) := by
  refine ⟨by simp [floatText], fun c hc => ?_⟩
  rcases List.mem_append.mp hc with hwhole | hrest
  · exact .inl (isDigit_toDigits hwhole)
  · rcases List.mem_cons.mp hrest with rfl | hdigit
    · exact .inr (by decide)
    · exact .inl (isDigit_toDigits hdigit)

def compactItem (v : JsonValue) : Item := ⟨v, [], compactText v, []⟩

def compactMember (e : String × JsonValue) : Member where
  name := e.1
  before := []
  nameBody := e.1.toList
  after := []
  item := compactItem e.2

def Member.entry (m : Member) : String × JsonValue := (m.name, m.item.value)

theorem compactItem_spaced (v : JsonValue) : (compactItem v).Spaced :=
  ⟨List.forall_mem_nil _, List.forall_mem_nil _⟩

theorem elements_eq_map (items : List JsonValue) :
    compactText.elements items = (items.map compactItem).map Item.padded := by
  induction items with
  | nil => rfl
  | cons v rest ih =>
      have hpadded : (compactItem v).padded = compactText v := List.append_nil _
      rw [compactText.elements, ih, List.map_cons, List.map_cons, hpadded]

theorem members_eq_map (fields : List (String × JsonValue)) :
    compactText.members fields = (fields.map compactMember).map Member.padded := by
  induction fields with
  | nil => rfl
  | cons e rest ih =>
      have hpadded : (compactMember e).padded =
          '"' :: e.1.toList ++ '"' :: ':' :: compactText e.2 := by
        simp [compactMember, compactItem, Member.padded, Item.padded]
      rw [compactText.members, ih, List.map_cons, List.map_cons, hpadded]

/-- Members of different names stand in the object as they are. -/
theorem foldl_insertMember {members : List Member} {fields : List (String × JsonValue)}
    (h : ((fields ++ members.map Member.entry).map Prod.fst).Nodup) :
    members.foldl insertMember fields = fields ++ members.map Member.entry := by
  induction members generalizing fields with
  | nil => exact (List.append_nil _).symm
  | cons m rest ih =>
      have hsplit : fields ++ (m :: rest).map Member.entry =
          (fields ++ [m.entry]) ++ rest.map Member.entry := by
        rw [List.map_cons, List.append_assoc]
        rfl
      have hnew : m.name ∉ fields.map Prod.fst := by
        rw [List.map_append, List.nodup_append] at h
        exact fun hmem => h.2.2 _ hmem _ List.mem_cons_self rfl
      rw [hsplit] at h ⊢
      rw [List.foldl_cons, insertMember, if_neg hnew]
      exact ih h

mutual

/-- The compact text of a value that can be written without escapes is one of its texts. -/
theorem compactText_text : ∀ v : JsonValue, unescaped v = true → Text v (compactText v)
  | .null, _ => .null
  | .bool true, _ => .true
  | .bool false, _ => .false
  | .number n, _ => .number n _ (numberText_intText n)
  | .float q, _ => .float q _ (numberText_floatText q)
  | .string s, h => .string s _ (stringBody_of_unescaped h)
  | .array [], _ => .emptyArray [] (List.forall_mem_nil _)
  | .array (v :: rest), h => by
      have htexts := elements_text (v :: rest) h
      have hall := Text.array ((v :: rest).map compactItem) (by simp)
        (List.forall_mem_map.mpr (fun v _ => compactItem_spaced v)) (List.forall_mem_map.mpr htexts)
      have hvalues : ((v :: rest).map compactItem).map Item.value = v :: rest := by
        rw [List.map_map]
        exact List.map_id _
      rw [hvalues, ← elements_eq_map] at hall
      exact hall
  | .object [], _ => .emptyObject [] (List.forall_mem_nil _)
  | .object (e :: rest), h => by
      rw [unescaped, Bool.and_eq_true, decide_eq_true_eq] at h
      have htexts := members_text (e :: rest) h.2
      have hall := Text.object ((e :: rest).map compactMember) (by simp)
        (List.forall_mem_map.mpr (fun e he => ⟨List.forall_mem_nil _, (htexts e he).1,
          List.forall_mem_nil _, compactItem_spaced e.2⟩))
        (List.forall_mem_map.mpr (fun e he => (htexts e he).2))
      have hentries : ((e :: rest).map compactMember).map Member.entry =
          e :: rest := by
        rw [List.map_map]
        exact List.map_id _
      have hnodup : (([] ++ ((e :: rest).map compactMember).map Member.entry).map
          Prod.fst).Nodup := by
        rw [List.nil_append, hentries]
        exact h.1
      rw [foldl_insertMember hnodup, List.nil_append, hentries, ← members_eq_map] at hall
      exact hall

theorem elements_text : ∀ items : List JsonValue, unescaped.elements items = true →
    ∀ v ∈ items, Text v (compactText v)
  | [], _ => List.forall_mem_nil _
  | v :: rest, h => by
      rw [unescaped.elements, Bool.and_eq_true] at h
      exact List.forall_mem_cons.mpr ⟨compactText_text v h.1, elements_text rest h.2⟩

theorem members_text : ∀ fields : List (String × JsonValue), unescaped.members fields = true →
    ∀ e ∈ fields, StringBody e.1.toList ∧ Text e.2 (compactText e.2)
  | [], _ => List.forall_mem_nil _
  | (name, v) :: rest, h => by
      rw [unescaped.members, Bool.and_eq_true, Bool.and_eq_true] at h
      exact List.forall_mem_cons.mpr
        ⟨⟨stringBody_of_unescaped h.1, compactText_text v h.2.1⟩, members_text rest h.2.2⟩

end

end VllmVcr.JsonText
