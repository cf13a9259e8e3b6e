import VllmVcr.Protocol

/-!
# JSON codecs

How values are written as JSON and read back, value by value, and how the members of a record
stand in an object, or in an array in place of one. A text keeps repeated members, which a
value does not, and its floats are read back through a function that need not be the identity.
-/

namespace VllmVcr

namespace JsonValue

/-! ## Floats and repeated members -/

mutual

def mapFloats (f : ℚ → ℚ) : JsonValue → JsonValue
  | null => null
  | bool b => bool b
  | number n => number n
  | float q => float (f q)
  | string s => string s
  | array items => array (mapItems f items)
  | object fields => object (mapMembers f fields)

def mapItems (f : ℚ → ℚ) : List JsonValue → List JsonValue
  | [] => []
  | v :: rest => mapFloats f v :: mapItems f rest

def mapMembers (f : ℚ → ℚ) : List (String × JsonValue) → List (String × JsonValue)
  | [] => []
  | (name, v) :: rest => (name, mapFloats f v) :: mapMembers f rest

end

mutual

/-- The value a parsed text stands for: of repeated members the last is kept. -/
def toValue : JsonValue → JsonValue
  | null => null
  | bool b => bool b
  | number n => number n
  | float q => float q
  | string s => string s
  | array items => array (toValues items)
  | object fields => object (toMembers fields)

def toValues : List JsonValue → List JsonValue
  | [] => []
  | v :: rest => toValue v :: toValues rest

def toMembers : List (String × JsonValue) → List (String × JsonValue)
  | [] => []
  | (name, v) :: rest =>
    if name ∈ rest.map Prod.fst then toMembers rest else (name, toValue v) :: toMembers rest

end

/-- No object in the value repeats a member. -/
def Settled (v : JsonValue) : Prop := v.toValue = v

theorem mapItems_eq_map (f : ℚ → ℚ) (items : List JsonValue) :
    mapItems f items = items.map (mapFloats f) := by
  induction items with
  | nil => rfl
  | cons v rest ih => rw [mapItems, ih, List.map_cons]

theorem mapMembers_eq_map (f : ℚ → ℚ) (fields : List (String × JsonValue)) :
    mapMembers f fields = fields.map (fun m => (m.1, m.2.mapFloats f)) := by
  induction fields with
  | nil => rfl
  | cons m rest ih => rw [mapMembers, ih, List.map_cons]

theorem toValues_eq_map (items : List JsonValue) : toValues items = items.map toValue := by
  induction items with
  | nil => rfl
  | cons v rest ih => rw [toValues, ih, List.map_cons]

theorem names_mapMembers (f : ℚ → ℚ) (fields : List (String × JsonValue)) :
    (mapMembers f fields).map Prod.fst = fields.map Prod.fst := by
  rw [mapMembers_eq_map, List.map_map]
  rfl

theorem mem_names_toMembers {fields : List (String × JsonValue)} {name : String} :
    name ∈ (toMembers fields).map Prod.fst ↔ name ∈ fields.map Prod.fst := by
  induction fields with
  | nil => exact Iff.rfl
  | cons m rest ih =>
      obtain ⟨other, v⟩ := m
      rw [toMembers, List.map_cons, List.mem_cons]
      by_cases hagain : other ∈ rest.map Prod.fst
      · rw [if_pos hagain, ih]
        constructor
        · exact .inr
        · rintro (rfl | h)
          · exact hagain
          · exact h
      · rw [if_neg hagain, List.map_cons, List.mem_cons, ih]

theorem nodup_toMembers (fields : List (String × JsonValue)) :
    ((toMembers fields).map Prod.fst).Nodup := by
  induction fields with
  | nil => exact List.nodup_nil
  | cons m rest ih =>
      obtain ⟨name, v⟩ := m
      rw [toMembers]
      by_cases hagain : name ∈ rest.map Prod.fst
      · rwa [if_pos hagain]
      · rw [if_neg hagain, List.map_cons, List.nodup_cons]
        exact ⟨fun h => hagain (mem_names_toMembers.mp h), ih⟩

theorem toMembers_eq_self {fields : List (String × JsonValue)}
    (hnodup : (fields.map Prod.fst).Nodup) (hsettled : ∀ m ∈ fields, m.2.Settled) :
    toMembers fields = fields := by
  induction fields with
  | nil => rfl
  | cons m rest ih =>
      obtain ⟨name, v⟩ := m
      obtain ⟨hhead, htail⟩ := List.forall_mem_cons.mp hsettled
      rw [List.map_cons, List.nodup_cons] at hnodup
      rw [toMembers, if_neg hnodup.1, ih hnodup.2 htail, show v.toValue = v from hhead]

mutual

theorem mapFloats_id : ∀ v : JsonValue, v.mapFloats id = v
  | null => rfl
  | bool _ => rfl
  | number _ => rfl
  | float _ => rfl
  | string _ => rfl
  | array items => congrArg array (mapItems_id items)
  | object fields => congrArg object (mapMembers_id fields)

theorem mapItems_id : ∀ items : List JsonValue, mapItems id items = items
  | [] => rfl
  | v :: rest => by rw [mapItems, mapFloats_id v, mapItems_id rest]

theorem mapMembers_id : ∀ fields : List (String × JsonValue), mapMembers id fields = fields
  | [] => rfl
  | (name, v) :: rest => by rw [mapMembers, mapFloats_id v, mapMembers_id rest]

end

mutual

theorem toValue_mapFloats (f : ℚ → ℚ) : ∀ v : JsonValue,
    (v.mapFloats f).toValue = v.toValue.mapFloats f
  | null => rfl
  | bool _ => rfl
  | number _ => rfl
  | float _ => rfl
  | string _ => rfl
  | array items => by rw [mapFloats, toValue, toValue, mapFloats, toValues_mapItems f items]
  | object fields => by rw [mapFloats, toValue, toValue, mapFloats, toMembers_mapMembers f fields]

theorem toValues_mapItems (f : ℚ → ℚ) : ∀ items : List JsonValue,
    toValues (mapItems f items) = mapItems f (toValues items)
  | [] => rfl
  | v :: rest => by
      rw [mapItems, toValues, toValues, mapItems, toValue_mapFloats f v, toValues_mapItems f rest]

theorem toMembers_mapMembers (f : ℚ → ℚ) : ∀ fields : List (String × JsonValue),
    toMembers (mapMembers f fields) = mapMembers f (toMembers fields)
  | [] => rfl
  | (name, v) :: rest => by
      have hrest := toMembers_mapMembers f rest
      have hv := toValue_mapFloats f v
      rw [mapMembers, toMembers, toMembers, names_mapMembers]
      by_cases hagain : name ∈ rest.map Prod.fst
      · rw [if_pos hagain, if_pos hagain, hrest]
      · rw [if_neg hagain, if_neg hagain, hrest, hv, mapMembers]

end

mutual

theorem settled_toValue : ∀ v : JsonValue, v.toValue.Settled
  | null => rfl
  | bool _ => rfl
  | number _ => rfl
  | float _ => rfl
  | string _ => rfl
  | array items => by
      have hitems := settled_toValues items
      rw [Settled, toValue, toValue, toValues_eq_map (toValues items)]
      exact congrArg array ((List.map_congr_left hitems).trans (List.map_id _))
  | object fields => by
      rw [Settled, toValue, toValue,
        toMembers_eq_self (nodup_toMembers fields) (settled_toMembers fields)]

theorem settled_toValues : ∀ items : List JsonValue, ∀ v ∈ toValues items, v.Settled
  | [] => by simp [toValues]
  | v :: rest => by
      rw [toValues, List.forall_mem_cons]
      exact ⟨settled_toValue v, settled_toValues rest⟩

theorem settled_toMembers : ∀ fields : List (String × JsonValue),
    ∀ m ∈ toMembers fields, m.2.Settled
  | [] => by simp [toMembers]
  | (name, v) :: rest => by
      have hrest := settled_toMembers rest
      have hv := settled_toValue v
      rw [toMembers]
      by_cases hagain : name ∈ rest.map Prod.fst
      · rwa [if_pos hagain]
      · rw [if_neg hagain, List.forall_mem_cons]
        exact ⟨hv, hrest⟩

end

theorem Settled.mapFloats {v : JsonValue} (h : v.Settled) (f : ℚ → ℚ) :
    (v.mapFloats f).Settled := by
  rw [Settled, toValue_mapFloats, show v.toValue = v from h]

end JsonValue

/-! ## Codecs -/

/-- How a value is written and read; `round` is what reading back makes of its floats. -/
structure JsonCodec (α : Type) where
  write : α → JsonValue
  read : JsonValue → Option α
  round : (ℚ → ℚ) → α → α
  Writable : α → Prop

namespace JsonCodec

variable {α : Type}

structure Lawful (c : JsonCodec α) : Prop where
  read_write : ∀ f a, c.Writable a → c.read ((c.write a).mapFloats f) = some (c.round f a)
  settled : ∀ a, (c.write a).Settled
  writable : ∀ v a, c.read v = some a → c.Writable a
  read_null : c.read .null = none

/-- An unsigned integer below the bound. -/
def uint (bound : ℕ) : JsonCodec ℕ where
  write := fun n => .number n
  read
    | .number n => if 0 ≤ n ∧ n < bound then some n.toNat else none
    | _ => none
  round := fun _ n => n
  Writable := fun n => n < bound

def u32 : JsonCodec UInt32 where
  write := fun n => .number n.toNat
  read := fun v => ((uint (2 ^ 32)).read v).map UInt32.ofNat
  round := fun _ n => n
  Writable := fun _ => True

def u64 : JsonCodec UInt64 where
  write := fun n => .number n.toNat
  read := fun v => ((uint (2 ^ 64)).read v).map UInt64.ofNat
  round := fun _ n => n
  Writable := fun _ => True

def f64 : JsonCodec ℚ where
  write := .float
  read
    | .number n => some n
    | .float q => some q
    | _ => none
  round := fun f q => f q
  Writable := fun _ => True

def text : JsonCodec String where
  write := .string
  read := JsonValue.asStr
  round := fun _ s => s
  Writable := fun _ => True

def list (c : JsonCodec α) : JsonCodec (List α) where
  write := fun items => .array (items.map c.write)
  read
    | .array items => items.mapM c.read
    | _ => none
  round := fun f items => items.map (c.round f)
  Writable := fun items => ∀ a ∈ items, c.Writable a

theorem uint_read {bound : ℕ} {v : JsonValue} {n : ℕ} (h : (uint bound).read v = some n) :
    n < bound := by
  cases v with
  | number k =>
      simp only [uint] at h
      by_cases hk : 0 ≤ k ∧ k < bound
      · rw [if_pos hk] at h
        cases h
        omega
      · rw [if_neg hk] at h
        cases h
  | null => cases h
  | bool b => cases h
  | float q => cases h
  | string s => cases h
  | array items => cases h
  | object fields => cases h

theorem uint_number {bound n : ℕ} (h : n < bound) : (uint bound).read (.number n) = some n := by
  have hrange : (0 : ℤ) ≤ n ∧ (n : ℤ) < bound := by omega
  exact if_pos hrange

theorem uint_lawful (bound : ℕ) : (uint bound).Lawful where
  read_write := fun _ _ h => uint_number h
  settled := fun _ => rfl
  writable := fun _ _ h => uint_read h
  read_null := rfl

theorem u32_lawful : u32.Lawful where
  read_write := by
    intro f n _
    have hread := uint_number n.toNat_lt
    simp only [u32, JsonValue.mapFloats, hread, Option.map_some, UInt32.ofNat_toNat]
  settled := fun _ => rfl
  writable := fun _ _ _ => trivial
  read_null := rfl

theorem u64_lawful : u64.Lawful where
  read_write := by
    intro f n _
    have hread := uint_number n.toNat_lt
    simp only [u64, JsonValue.mapFloats, hread, Option.map_some, UInt64.ofNat_toNat]
  settled := fun _ => rfl
  writable := fun _ _ _ => trivial
  read_null := rfl

theorem f64_lawful : f64.Lawful where
  read_write := fun _ _ _ => rfl
  settled := fun _ => rfl
  writable := fun _ _ _ => trivial
  read_null := rfl

theorem text_lawful : text.Lawful where
  read_write := fun _ _ _ => rfl
  settled := fun _ => rfl
  writable := fun _ _ _ => trivial
  read_null := rfl

theorem mapM_read_write {c : JsonCodec α} (hc : c.Lawful) (f : ℚ → ℚ) {items : List α}
    (h : ∀ a ∈ items, c.Writable a) :
    ((items.map c.write).map (JsonValue.mapFloats f)).mapM c.read =
      some (items.map (c.round f)) := by
  induction items with
  | nil => rfl
  | cons a items ih =>
      obtain ⟨ha, hitems⟩ := List.forall_mem_cons.mp h
      rw [List.map_cons, List.map_cons, List.mapM_cons, hc.read_write f a ha, ih hitems]
      rfl

theorem mapM_writable {c : JsonCodec α} (hc : c.Lawful) {items : List JsonValue} {values : List α}
    (h : items.mapM c.read = some values) : ∀ a ∈ values, c.Writable a := by
  induction items generalizing values with
  | nil =>
      cases h
      exact List.forall_mem_nil _
  | cons v items ih =>
      rw [List.mapM_cons] at h
      obtain ⟨a, ha, h⟩ := Option.bind_eq_some_iff.mp h
      obtain ⟨rest, hrest, h⟩ := Option.bind_eq_some_iff.mp h
      cases h
      exact List.forall_mem_cons.mpr ⟨hc.writable v a ha, ih hrest⟩

theorem list_lawful {c : JsonCodec α} (hc : c.Lawful) : c.list.Lawful where
  read_write := by
    intro f items h
    have hitems := mapM_read_write hc f h
    rw [list, JsonValue.mapFloats, JsonValue.mapItems_eq_map]
    exact hitems
  settled := by
    intro items
    have hitems : (items.map c.write).map JsonValue.toValue = items.map c.write := by
      rw [List.map_map]
      exact List.map_congr_left (fun a _ => hc.settled a)
    rw [JsonValue.Settled, list, JsonValue.toValue, JsonValue.toValues_eq_map, hitems]
  writable := by
    intro v items h
    cases v with
    | array values => exact mapM_writable hc h
    | null => cases h
    | bool b => cases h
    | number n => cases h
    | float q => cases h
    | string s => cases h
    | object fields => cases h
  read_null := rfl

theorem list_round {c : JsonCodec α} {f : ℚ → ℚ} (h : c.round f = id) : c.list.round f = id :=
  funext (fun items => (congrArg (List.map · items) h).trans (List.map_id items))

end JsonCodec

/-! ## Members -/

/-- The members of a record by their names, in an object or by place in an array; a record's own
member must not be repeated. -/
def JsonValue.membersOf (names : List String) : JsonValue → Option (String → Option JsonValue)
  | .object fields =>
    if ((fields.map Prod.fst).filter (fun name => name ∈ names)).Nodup then
      some (fun name => fields.lookup name)
    else none
  | .array items =>
    if items.length ≤ names.length then some (fun name => items[names.idxOf name]?) else none
  | _ => none

/-- The members that are there. -/
def JsonValue.present (slots : List (String × Option JsonValue)) : List (String × JsonValue) :=
  slots.filterMap (fun s => s.2.map (s.1, ·))

namespace JsonCodec

variable {α : Type} (c : JsonCodec α)

def required (slot : Option JsonValue) : Option α := slot.bind c.read

def defaulted (default : α) : Option JsonValue → Option α
  | none => some default
  | some v => c.read v

def optional : Option JsonValue → Option (Option α)
  | none => some none
  | some .null => some none
  | some v => (c.read v).map some

end JsonCodec

namespace JsonValue

theorem lookup_present {slots : List (String × Option JsonValue)}
    (hnodup : (slots.map Prod.fst).Nodup) {name : String} {slot : Option JsonValue}
    (h : (name, slot) ∈ slots) : (present slots).lookup name = slot := by
  induction slots with
  | nil => cases h
  | cons s rest ih =>
      obtain ⟨other, value⟩ := s
      rw [List.map_cons, List.nodup_cons] at hnodup
      have habsent : name = other → (present rest).lookup name = none := by
        rintro rfl
        rw [List.lookup_eq_none_iff]
        intro m hm
        obtain ⟨s, hs, hsome⟩ := List.mem_filterMap.mp hm
        obtain ⟨v, -, rfl⟩ := Option.map_eq_some_iff.mp hsome
        have hne : name ≠ s.1 := by
          rintro rfl
          exact hnodup.1 (List.mem_map.mpr ⟨s, hs, rfl⟩)
        simpa using hne
      rcases List.mem_cons.mp h with heq | hrest
      · obtain ⟨rfl, rfl⟩ := Prod.mk.inj heq
        cases slot with
        | none => exact habsent rfl
        | some v => simp [present]
      · have hne : name ≠ other := by
          rintro rfl
          exact hnodup.1 (List.mem_map.mpr ⟨_, hrest, rfl⟩)
        have hskip := ih hnodup.2 hrest
        cases value with
        | none => exact hskip
        | some v =>
            rw [present, List.filterMap_cons_some (by rfl), List.lookup_cons, beq_false_of_ne hne]
            exact hskip

theorem lookup_eq_some_iff_mem {fields : List (String × JsonValue)}
    (hnodup : (fields.map Prod.fst).Nodup) {name : String} {v : JsonValue} :
    fields.lookup name = some v ↔ (name, v) ∈ fields := by
  induction fields with
  | nil => simp
  | cons m rest ih =>
      obtain ⟨other, w⟩ := m
      rw [List.map_cons, List.nodup_cons] at hnodup
      rw [List.lookup_cons, List.mem_cons, Prod.mk.injEq]
      by_cases hname : name = other
      · subst hname
        have habsent : (name, v) ∉ rest := fun h => hnodup.1 (List.mem_map.mpr ⟨_, h, rfl⟩)
        simp [habsent, eq_comm]
      · rw [beq_false_of_ne hname]
        simp only [hname, false_and, false_or]
        exact ih hnodup.2

/-- The order of the members does not matter. -/
theorem membersOf_perm {fields fields' : List (String × JsonValue)} (h : fields.Perm fields')
    (hnodup : (fields.map Prod.fst).Nodup) (names : List String) :
    (object fields').membersOf names = (object fields).membersOf names := by
  have hnodup' : (fields'.map Prod.fst).Nodup := (h.map Prod.fst).nodup hnodup
  have hlookup : ∀ name, fields'.lookup name = fields.lookup name := by
    intro name
    apply Option.ext
    intro v
    rw [lookup_eq_some_iff_mem hnodup, lookup_eq_some_iff_mem hnodup', h.mem_iff]
  have hown : ∀ {l : List (String × JsonValue)}, (l.map Prod.fst).Nodup →
      ((l.map Prod.fst).filter (fun name => name ∈ names)).Nodup := fun hl => hl.filter _
  rw [membersOf, membersOf, if_pos (hown hnodup'), if_pos (hown hnodup)]
  exact congrArg some (funext hlookup)

theorem names_present (slots : List (String × Option JsonValue)) :
    ((present slots).map Prod.fst).Sublist (slots.map Prod.fst) := by
  induction slots with
  | nil => exact List.Sublist.refl _
  | cons s rest ih =>
      obtain ⟨name, value⟩ := s
      cases value with
      | none => exact ih.cons name
      | some v => exact ih.cons_cons name

theorem present_mapFloats (f : ℚ → ℚ) (slots : List (String × Option JsonValue)) :
    mapMembers f (present slots) =
      present (slots.map (fun s => (s.1, s.2.map (JsonValue.mapFloats f)))) := by
  rw [mapMembers_eq_map, present, List.map_filterMap, present, List.filterMap_map]
  refine List.filterMap_congr (fun s _ => ?_)
  simp [Function.comp_def]

/-- The members of a written record are found where they were written, whatever members of other
names follow. -/
theorem membersOf_present {slots : List (String × Option JsonValue)}
    (hnodup : (slots.map Prod.fst).Nodup) {others : List (String × JsonValue)}
    (hothers : ∀ m ∈ others, m.1 ∉ slots.map Prod.fst) :
    ∃ member, (object (present slots ++ others)).membersOf (slots.map Prod.fst) = some member ∧
      ∀ s ∈ slots, member s.1 = s.2 := by
  have hnone : (others.map Prod.fst).filter (fun name => name ∈ slots.map Prod.fst) = [] := by
    rw [List.filter_eq_nil_iff]
    intro name hname
    obtain ⟨m, hm, rfl⟩ := List.mem_map.mp hname
    simpa using hothers m hm
  have hown : (((present slots ++ others).map Prod.fst).filter
      (fun name => name ∈ slots.map Prod.fst)).Nodup := by
    rw [List.map_append, List.filter_append, hnone, List.append_nil]
    exact ((names_present slots).nodup hnodup).filter _
  refine ⟨_, if_pos hown, fun s hs => ?_⟩
  have hlookup : others.lookup s.1 = none := by
    rw [List.lookup_eq_none_iff]
    intro m hm
    have hne : s.1 ≠ m.1 := by
      intro heq
      exact hothers m hm (heq ▸ List.mem_map_of_mem hs)
    simpa using hne
  rw [List.lookup_append, lookup_present hnodup hs, hlookup, Option.or_none]

theorem present_settled {slots : List (String × Option JsonValue)}
    (hsettled : ∀ s ∈ slots, ∀ v ∈ s.2, v.Settled) : ∀ m ∈ present slots, m.2.Settled := by
  intro m hm
  obtain ⟨s, hs, hsome⟩ := List.mem_filterMap.mp hm
  obtain ⟨v, hv, rfl⟩ := Option.map_eq_some_iff.mp hsome
  exact hsettled s hs v hv

theorem object_settled {fields : List (String × JsonValue)} (hnodup : (fields.map Prod.fst).Nodup)
    (hsettled : ∀ m ∈ fields, m.2.Settled) : (object fields).Settled :=
  congrArg object (toMembers_eq_self hnodup hsettled)

end JsonValue

namespace JsonCodec.Lawful

variable {α : Type} {c : JsonCodec α}

theorem required_write (h : c.Lawful) {f : ℚ → ℚ} {a : α} {slot : Option JsonValue}
    (hslot : slot = (some (c.write a)).map (JsonValue.mapFloats f)) (ha : c.Writable a) :
    c.required slot = some (c.round f a) :=
  hslot ▸ h.read_write f a ha

theorem defaulted_write (h : c.Lawful) {f : ℚ → ℚ} (default : α) {a : α} {slot : Option JsonValue}
    (hslot : slot = (some (c.write a)).map (JsonValue.mapFloats f)) (ha : c.Writable a) :
    c.defaulted default slot = some (c.round f a) :=
  hslot ▸ h.read_write f a ha

theorem optional_write (h : c.Lawful) {f : ℚ → ℚ} {o : Option α} {slot : Option JsonValue}
    (hslot : slot = (o.map c.write).map (JsonValue.mapFloats f)) (ho : ∀ a ∈ o, c.Writable a) :
    c.optional slot = some (o.map (c.round f)) := by
  subst hslot
  cases o with
  | none => rfl
  | some a =>
      have hread := h.read_write f a (ho a rfl)
      rw [Option.map_some, Option.map_some]
      cases hv : (c.write a).mapFloats f with
      | null =>
          rw [hv, h.read_null] at hread
          cases hread
      | _ =>
          rw [hv] at hread
          exact congrArg (Option.map some) hread

theorem settled_some (h : c.Lawful) (a : α) : ∀ v ∈ some (c.write a), v.Settled := by
  rintro _ ⟨⟩
  exact h.settled a

theorem settled_map (h : c.Lawful) (o : Option α) : ∀ v ∈ o.map c.write, v.Settled := by
  intro v hv
  obtain ⟨a, -, rfl⟩ := Option.map_eq_some_iff.mp hv
  exact h.settled a

theorem required_writable (h : c.Lawful) {slot : Option JsonValue} {a : α}
    (hread : c.required slot = some a) :
    c.Writable a := by
  obtain ⟨v, -, hv⟩ := Option.bind_eq_some_iff.mp hread
  exact h.writable v a hv

theorem defaulted_writable (h : c.Lawful) {default : α} (hdefault : c.Writable default)
    {slot : Option JsonValue} {a : α} (hread : c.defaulted default slot = some a) :
    c.Writable a := by
  cases slot with
  | none =>
      cases hread
      exact hdefault
  | some v => exact h.writable v a hread

theorem optional_writable (h : c.Lawful) {slot : Option JsonValue} {o : Option α}
    (hread : c.optional slot = some o) : ∀ a ∈ o, c.Writable a := by
  cases slot with
  | none =>
      cases hread
      simp
  | some v =>
      cases v with
      | null =>
          cases hread
          simp
      | _ =>
          obtain ⟨a, ha, rfl⟩ := Option.map_eq_some_iff.mp hread
          rintro _ ⟨⟩
          exact h.writable _ a ha

end JsonCodec.Lawful

theorem bind_read {α β : Type} {read : Option α} {a : α} {rest : α → Option β} {b : β}
    (ha : read = some a) (hb : rest a = some b) : read.bind rest = some b :=
  Option.bind_eq_some_iff.mpr ⟨a, ha, hb⟩

/-! ## Records -/

/-- A record by its members, in the order they are written in. -/
structure RecordCodec (α : Type) where
  names : List String
  slots : α → List (String × Option JsonValue)
  ofMembers : (String → Option JsonValue) → Option α
  round : (ℚ → ℚ) → α → α
  Writable : α → Prop

namespace RecordCodec

variable {α : Type} (c : RecordCodec α)

def codec : JsonCodec α where
  write := fun a => .object (JsonValue.present (c.slots a))
  read := fun v => (v.membersOf c.names).bind c.ofMembers
  round := c.round
  Writable := c.Writable

structure Lawful : Prop where
  names : ∀ a, (c.slots a).map Prod.fst = c.names
  nodup : c.names.Nodup
  ofMembers : ∀ f a member, c.Writable a →
    (∀ s ∈ c.slots a, member s.1 = s.2.map (JsonValue.mapFloats f)) →
    c.ofMembers member = some (c.round f a)
  settled : ∀ a, ∀ s ∈ c.slots a, ∀ v ∈ s.2, v.Settled
  writable : ∀ member a, c.ofMembers member = some a → c.Writable a

variable {c}

/-- The members are read back, whatever members of other names follow. -/
theorem Lawful.membersOf_write (h : c.Lawful) (f : ℚ → ℚ) (a : α)
    {others : List (String × JsonValue)} (hothers : ∀ m ∈ others, m.1 ∉ c.names) :
    ∃ member, (JsonValue.object (JsonValue.mapMembers f (JsonValue.present (c.slots a)) ++
        others)).membersOf c.names = some member ∧
      ∀ s ∈ c.slots a, member s.1 = s.2.map (JsonValue.mapFloats f) := by
  have hnames : ((c.slots a).map (fun s => (s.1, s.2.map (JsonValue.mapFloats f)))).map Prod.fst =
      c.names := by
    rw [List.map_map]
    exact h.names a
  obtain ⟨member, hmembers, hmember⟩ :=
    JsonValue.membersOf_present (hnames ▸ h.nodup) (hnames ▸ hothers)
  rw [hnames, ← JsonValue.present_mapFloats] at hmembers
  exact ⟨member, hmembers, fun s hs => hmember _ (List.mem_map_of_mem hs)⟩

theorem Lawful.nodup_write (h : c.Lawful) (a : α) :
    ((JsonValue.present (c.slots a)).map Prod.fst).Nodup :=
  (JsonValue.names_present _).nodup (h.names a ▸ h.nodup)

theorem Lawful.codec (h : c.Lawful) : c.codec.Lawful where
  read_write := by
    intro f a ha
    have hothers : ∀ m ∈ ([] : List (String × JsonValue)), m.1 ∉ c.names := List.forall_mem_nil _
    obtain ⟨member, hmembers, hmember⟩ := h.membersOf_write f a hothers
    rw [List.append_nil] at hmembers
    exact (congrArg (Option.bind · c.ofMembers) hmembers).trans (h.ofMembers f a member ha hmember)
  settled := fun a =>
    JsonValue.object_settled (h.nodup_write a) (JsonValue.present_settled (h.settled a))
  writable := by
    intro v a hread
    obtain ⟨member, -, ha⟩ := Option.bind_eq_some_iff.mp hread
    exact h.writable member a ha
  read_null := rfl

end RecordCodec

end VllmVcr
