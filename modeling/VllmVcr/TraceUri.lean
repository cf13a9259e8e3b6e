import Mathlib.Algebra.GroupWithZero.Nat
import Mathlib.Data.List.Basic
import Mathlib.Data.List.Infix

/-!
# Trace locations

`TraceUri::from_str` and what it calls. Text is UTF-8: a slice of it ends after a number of bytes,
and gives nothing where the source panics, inside a character. Parsing a URL is a parameter.
-/

namespace VllmVcr

def byteLen (text : List Char) : ℕ := (text.map Char.utf8Size).sum

/-- `&text[..bytes]`. -/
def sliceTo : ℕ → List Char → Option (List Char)
  | 0, _ => some []
  | _ + 1, [] => none
  | n + 1, c :: text =>
    if c.utf8Size ≤ n + 1 then (sliceTo (n + 1 - c.utf8Size) text).map (c :: ·) else none

def eqIgnoreAsciiCase (text other : List Char) : Bool :=
  text.map Char.toLower = other.map Char.toLower

/-- Whether a raw path is an `s3://` or `hf://` URI. -/
def isRemote (uri : List Char) : Option Bool :=
  if 5 ≤ byteLen uri then
    (sliceTo 5 uri).map (fun scheme =>
      eqIgnoreAsciiCase scheme "s3://".toList || eqIgnoreAsciiCase scheme "hf://".toList)
  else some false

inductive TraceUri where
  | localPath (path : List Char)
  | s3 (bucket key : List Char)
  | huggingFace (repo file : List Char)
  deriving DecidableEq

/-- What a URL is parsed into. -/
structure Url where
  scheme : List Char
  host : Option (List Char)
  path : List Char

/-- `Url::parse`, with the text of its error. -/
abbrev UrlParser := List Char → Except (List Char) Url

def withUriContext (context uri : List Char) (parsed : Except (List Char) Url) :
    Except (List Char) Url :=
  parsed.mapError (fun e => context ++ uri ++ ": ".toList ++ e)

def wrongScheme (expected : List Char) (url : Url) (uri : List Char) : List Char :=
  "expected an ".toList ++ expected ++ ":// URI, got scheme \"".toList ++ url.scheme ++
    "\": ".toList ++ uri

def Url.bareHost (url : Url) : Option (List Char) := url.host.filter (fun host => !host.isEmpty)

def Url.barePath (url : Url) : List Char := url.path.dropWhile (· = '/')

def parseS3Uri (parse : UrlParser) (uri : List Char) :
    Except (List Char) (List Char × List Char) := do
  let url ← withUriContext "parsing S3 URI: ".toList uri (parse uri)
  if url.scheme ≠ "s3".toList then throw (wrongScheme "s3".toList url uri)
  match url.bareHost with
  | none => throw ("S3 URI has no bucket: ".toList ++ uri)
  | some bucket =>
    if url.barePath = [] then throw ("S3 URI has no object key: ".toList ++ uri)
    return (bucket, url.barePath)

/-- The host and the parts of the path, without the empty ones. -/
def Url.segments (url : Url) : List (List Char) :=
  url.bareHost.toList ++
    ((url.barePath.splitOn '/').filter (fun segment => !segment.isEmpty))

def parseHfUri (parse : UrlParser) (uri : List Char) :
    Except (List Char) (List Char × List Char) := do
  let url ← withUriContext "parsing HuggingFace URI: ".toList uri (parse uri)
  if url.scheme ≠ "hf".toList then throw (wrongScheme "hf".toList url uri)
  match url.segments with
  | org :: name :: first :: rest =>
    let file := ['/'].intercalate (first :: rest)
    if file = [] then throw ("HuggingFace URI has no file path: ".toList ++ uri)
    return (org ++ '/' :: name, file)
  | _ => throw ("HuggingFace URI must be hf://org/repo/file (got ".toList ++ uri ++ [')'])

/-- `TraceUri::from_str`; `none` is a panic. -/
def TraceUri.fromStr (parse : UrlParser) (s : List Char) :
    Option (Except (List Char) TraceUri) :=
  (isRemote s).map (fun remote =>
    if remote then
      if "s3://".toList.isPrefixOf s || "S3://".toList.isPrefixOf s then
        (parseS3Uri parse s).map (fun parsed => .s3 parsed.1 parsed.2)
      else if "hf://".toList.isPrefixOf s || "HF://".toList.isPrefixOf s then
        (parseHfUri parse s).map (fun parsed => .huggingFace parsed.1 parsed.2)
      else .error "unknown remote URI scheme (expected s3:// or hf://)".toList
    else .ok (.localPath s))

/-! ## Slices -/

@[simp] theorem byteLen_nil : byteLen [] = 0 := rfl

@[simp] theorem byteLen_cons (c : Char) (text : List Char) :
    byteLen (c :: text) = c.utf8Size + byteLen text := by
  simp [byteLen]

theorem byteLen_eq_zero {text : List Char} : byteLen text = 0 ↔ text = [] := by
  cases text with
  | nil => simp
  | cons c text =>
      have := c.utf8Size_pos
      simp
      omega

/-- A slice is the part of the text with that many bytes. -/
theorem sliceTo_eq_some_iff {n : ℕ} {text slice : List Char} :
    sliceTo n text = some slice ↔ slice <+: text ∧ byteLen slice = n := by
  induction text generalizing n slice with
  | nil =>
      cases n with
      | zero =>
          simp only [sliceTo, Option.some.injEq, List.prefix_nil, byteLen_eq_zero, and_self]
          exact eq_comm
      | succ n =>
          simp only [sliceTo, List.prefix_nil, reduceCtorEq, false_iff, not_and]
          rintro rfl
          simp
  | cons c text ih =>
      cases n with
      | zero =>
          simp only [sliceTo, Option.some.injEq, byteLen_eq_zero]
          exact ⟨fun h => by simp [← h], fun h => h.2.symm⟩
      | succ n =>
          have hpos := c.utf8Size_pos
          rw [sliceTo]
          cases slice with
          | nil =>
              simp only [byteLen_nil, List.nil_prefix, true_and]
              by_cases hc : c.utf8Size ≤ n + 1 <;> simp [hc]
          | cons d slice =>
              simp only [List.cons_prefix_cons, byteLen_cons]
              by_cases hc : c.utf8Size ≤ n + 1
              · simp only [if_pos hc, Option.map_eq_some_iff, List.cons.injEq]
                constructor
                · rintro ⟨p, hp, rfl, rfl⟩
                  obtain ⟨hp, hlen⟩ := ih.mp hp
                  exact ⟨⟨rfl, hp⟩, by omega⟩
                · rintro ⟨⟨rfl, hp⟩, hlen⟩
                  exact ⟨slice, ih.mpr ⟨hp, by omega⟩, rfl, rfl⟩
              · simp only [if_neg hc, reduceCtorEq, false_iff, not_and]
                rintro ⟨rfl, _⟩
                omega

theorem sliceTo_isSome_iff {n : ℕ} {text : List Char} :
    (sliceTo n text).isSome ↔ ∃ slice, slice <+: text ∧ byteLen slice = n := by
  simp only [Option.isSome_iff_exists, sliceTo_eq_some_iff]

/-! ## Schemes -/

/-- The text starts with one of the two schemes, in capitals or not. -/
def HasScheme (text : List Char) : Prop :=
  ∃ scheme, scheme <+: text ∧
    (eqIgnoreAsciiCase scheme "s3://".toList ∨ eqIgnoreAsciiCase scheme "hf://".toList)

theorem isRemote_eq_none_iff {text : List Char} :
    isRemote text = none ↔
      5 ≤ byteLen text ∧ ¬ ∃ slice, slice <+: text ∧ byteLen slice = 5 := by
  rw [isRemote]
  by_cases h : 5 ≤ byteLen text
  · rw [if_pos h, Option.map_eq_none_iff, ← sliceTo_isSome_iff]
    simp [h]
  · simp [h]

theorem HasScheme.of_isRemote {text : List Char} (h : isRemote text = some true) :
    HasScheme text := by
  rw [isRemote] at h
  by_cases hlen : 5 ≤ byteLen text
  · rw [if_pos hlen, Option.map_eq_some_iff] at h
    obtain ⟨scheme, hslice, heq⟩ := h
    obtain ⟨hinitial, _⟩ := sliceTo_eq_some_iff.mp hslice
    exact ⟨scheme, hinitial, (Bool.or_eq_true _ _).mp heq⟩
  · rw [if_neg hlen] at h
    cases h

theorem fromStr_local {parse : UrlParser} {s : List Char} (h : isRemote s = some false) :
    TraceUri.fromStr parse s = some (.ok (.localPath s)) := by
  simp only [TraceUri.fromStr, h, Option.map_some, Bool.false_eq_true, if_false]

theorem fromStr_eq_none_iff {parse : UrlParser} {s : List Char} :
    TraceUri.fromStr parse s = none ↔ isRemote s = none := by
  rw [TraceUri.fromStr, Option.map_eq_none_iff]

theorem fromStr_schemeless {parse : UrlParser} {s : List Char} (hs : ¬HasScheme s)
    (h : isRemote s ≠ none) : TraceUri.fromStr parse s = some (.ok (.localPath s)) := by
  apply fromStr_local
  cases hremote : isRemote s with
  | none => exact absurd hremote h
  | some remote =>
      cases remote with
      | false => rfl
      | true => exact absurd (HasScheme.of_isRemote hremote) hs

/-- A location parses, and one without a scheme as that local path, unless its byte 5 is inside a
character. -/
theorem fromStr_total_iff (parse : UrlParser) (s : List Char) :
    ((∃ parsed, TraceUri.fromStr parse s = some parsed) ∧
        (¬HasScheme s → TraceUri.fromStr parse s = some (.ok (.localPath s)))) ↔
      (byteLen s < 5 ∨ ∃ start, start <+: s ∧ byteLen start = 5) := by
  constructor
  · rintro ⟨⟨parsed, hparsed⟩, _⟩
    have hremote : isRemote s ≠ none := by
      rw [Ne, ← @fromStr_eq_none_iff parse, hparsed]
      exact Option.some_ne_none parsed
    rw [Ne, isRemote_eq_none_iff] at hremote
    by_cases hlen : byteLen s < 5
    · exact Or.inl hlen
    · exact Or.inr (by_contra fun h => hremote ⟨by omega, h⟩)
  · intro h
    have hremote : isRemote s ≠ none := by
      rw [Ne, isRemote_eq_none_iff]
      rintro ⟨hlen, hnone⟩
      rcases h with h | h
      · omega
      · exact hnone h
    have hparsed : TraceUri.fromStr parse s ≠ none := by
      rwa [Ne, fromStr_eq_none_iff]
    exact ⟨Option.ne_none_iff_exists'.mp hparsed, fun hs => fromStr_schemeless hs hremote⟩

/-- The path `abcdé` stops the program. -/
theorem fromStr_accented :
    ¬ ∀ (parse : UrlParser) (s : List Char),
      (∃ parsed, TraceUri.fromStr parse s = some parsed) ∧
        (¬HasScheme s → TraceUri.fromStr parse s = some (.ok (.localPath s))) := by
  intro h
  have hnone : isRemote ['a', 'b', 'c', 'd', 'é'] = none := by decide
  obtain ⟨parsed, hparsed⟩ := (h (fun _ => .error []) ['a', 'b', 'c', 'd', 'é']).1
  rw [fromStr_eq_none_iff.mpr hnone] at hparsed
  cases hparsed

end VllmVcr
