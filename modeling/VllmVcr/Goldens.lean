import VllmVcr.DatasetFile
import VllmVcr.FirstMatch

/-!
# Goldens blocks

The blocks of generated entries in the goldens manifest, one for each line between its BEGIN and
END markers, and the two editors that work on them by searching the text.
-/

namespace VllmVcr

open FirstMatch

def trimEnd (text : List Char) : List Char := (text.reverse.dropWhile isWhitespace).reverse

/-- `trim_start_matches('\n')`. -/
def dropNewlines (text : List Char) : List Char := text.dropWhile (· = '\n')

def beginMarker (label : List Char) : List Char := "# BEGIN ".toList ++ label ++ " GOLDENS".toList

def endMarker (label : List Char) : List Char := "# END ".toList ++ label ++ " GOLDENS".toList

/-- A block with its markers, and what stands before and after it. -/
structure GoldensCut where
  before : List Char
  block : List Char
  after : List Char

/-- The text from the first BEGIN marker to the next END marker. -/
def findBlock (label manifest : List Char) : Option GoldensCut :=
  (manifest.dropInfix? (beginMarker label)).bind (fun start =>
    ((beginMarker label ++ start.2).dropInfix? (endMarker label)).map (fun stop =>
      ⟨start.1, stop.1 ++ endMarker label, stop.2⟩))

def goldensBlock (label entries : List Char) : List Char :=
  beginMarker label ++ '\n' :: (trim entries ++ '\n' :: endMarker label)

section Editors

variable (upper : List Char → List Char)

/-- `upper` stands for `to_uppercase`. -/
def replaceGoldensBlock (manifest entries line : List Char) : List Char :=
  let label := upper line
  match findBlock label manifest with
  | some cut =>
      trimEnd cut.before ++ '\n' :: '\n' :: (goldensBlock label entries ++
        '\n' :: dropNewlines cut.after)
  | none => trimEnd manifest ++ '\n' :: '\n' :: (goldensBlock label entries ++ ['\n'])

def removeGoldensBlock (manifest line : List Char) : List Char :=
  match findBlock (upper line) manifest with
  | none => manifest
  | some cut =>
      if dropNewlines cut.after = [] then trimEnd cut.before ++ ['\n']
      else trimEnd cut.before ++ '\n' :: '\n' :: dropNewlines cut.after

end Editors

/-! ## Trimming -/

@[simp] theorem isWhitespace_newline : isWhitespace '\n' = true := by decide

theorem trimEnd_append_cons {c : Char} (hc : isWhitespace c = false) (text more : List Char) :
    trimEnd (text ++ c :: more) = text ++ c :: trimEnd more := by
  have hsplit : ∀ l : List Char, (l ++ c :: text.reverse).dropWhile isWhitespace =
      l.dropWhile isWhitespace ++ c :: text.reverse := by
    intro l
    induction l with
    | nil => simp [hc]
    | cons d l ih =>
        rw [List.cons_append, List.dropWhile_cons, List.dropWhile_cons]
        by_cases hd : isWhitespace d
        · rw [if_pos hd, if_pos hd, ih]
        · rw [if_neg hd, if_neg hd, List.cons_append]
  rw [trimEnd, trimEnd, List.reverse_append, List.reverse_cons, List.append_assoc,
    List.singleton_append, hsplit, List.reverse_append, List.reverse_cons, List.reverse_reverse,
    List.append_assoc, List.singleton_append]

theorem trimEnd_append_space {space : List Char} (hspace : ∀ c ∈ space, isWhitespace c = true)
    (text : List Char) : trimEnd (text ++ space) = trimEnd text := by
  rw [trimEnd, trimEnd, List.reverse_append, List.dropWhile_append_of_pos]
  exact fun c hc => hspace c (List.mem_reverse.mp hc)

/-- Text is its trimmed self and whitespace behind it. -/
theorem trimEnd_spec (text : List Char) :
    ∃ space, text = trimEnd text ++ space ∧ ∀ c ∈ space, isWhitespace c = true := by
  refine ⟨(text.reverse.takeWhile isWhitespace).reverse, ?_, fun c hc => ?_⟩
  · rw [trimEnd, ← List.reverse_append, List.takeWhile_append_dropWhile, List.reverse_reverse]
  · exact List.mem_takeWhile_imp (List.mem_reverse.mp hc)

theorem trimEnd_trimEnd (text : List Char) : trimEnd (trimEnd text) = trimEnd text := by
  obtain ⟨space, htext, hspace⟩ := trimEnd_spec text
  conv_rhs => rw [htext, trimEnd_append_space hspace]

theorem trimEnd_newlines (text : List Char) :
    trimEnd (trimEnd text ++ ['\n', '\n']) = trimEnd text := by
  rw [trimEnd_append_space (by simp), trimEnd_trimEnd]

theorem trimEnd_initial (text : List Char) : trimEnd text <+: text := by
  obtain ⟨space, htext, _⟩ := trimEnd_spec text
  exact ⟨space, htext.symm⟩

theorem dropNewlines_suffix (text : List Char) : dropNewlines text <:+ text :=
  List.dropWhile_suffix _

theorem dropNewlines_cons_newline (text : List Char) :
    dropNewlines ('\n' :: text) = dropNewlines text := by
  simp [dropNewlines]

theorem dropNewlines_dropNewlines (text : List Char) :
    dropNewlines (dropNewlines text) = dropNewlines text := by
  induction text with
  | nil => rfl
  | cons c text ih =>
      by_cases hc : c = '\n'
      · subst hc
        rw [dropNewlines_cons_newline, ih]
      · simp [dropNewlines, hc]

theorem dropNewlines_append_cons {c : Char} (hc : c ≠ '\n') (text more : List Char) :
    dropNewlines (text ++ c :: more) = dropNewlines text ++ c :: more := by
  induction text with
  | nil => simp [dropNewlines, hc]
  | cons d text ih =>
      by_cases hd : d = '\n'
      · subst hd
        rw [List.cons_append, dropNewlines_cons_newline, dropNewlines_cons_newline, ih]
      · simp [dropNewlines, hd]

theorem trim_within (text : List Char) : trim text <:+: text := by
  obtain ⟨before, after, htext, _⟩ := trim_spec text
  exact ⟨before, after, htext.symm⟩

/-! ## Markers -/

theorem beginMarker_eq (label : List Char) : beginMarker label =
    '#' :: ' ' :: 'B' :: (['E', 'G', 'I', 'N', ' '] ++ label ++
      [' ', 'G', 'O', 'L', 'D', 'E', 'N', 'S']) := rfl

theorem endMarker_eq (label : List Char) : endMarker label =
    '#' :: ' ' :: 'E' :: (['N', 'D', ' '] ++ label ++
      [' ', 'G', 'O', 'L', 'D', 'E', 'N', 'S']) := rfl

section Markers

variable {label : List Char}

theorem newline_beginMarker (h : '\n' ∉ label) : '\n' ∉ beginMarker label := by
  simp [beginMarker_eq, h]

theorem newline_endMarker (h : '\n' ∉ label) : '\n' ∉ endMarker label := by
  simp [endMarker_eq, h]

theorem beginMarker_ne_nil : beginMarker label ≠ [] := by simp [beginMarker_eq]

/-- A block's own BEGIN marker does not contain its END marker. -/
theorem endMarker_beginMarker : ¬ endMarker label <:+: beginMarker label := by
  rintro ⟨a, b, h⟩
  have hlength := congrArg List.length h
  rw [beginMarker_eq, endMarker_eq] at h hlength
  simp only [List.length_append, List.length_cons, List.length_nil] at hlength
  match a with
  | [] => simp at h
  | [_] => simp at h
  | [_, _] => simp at h
  | _ :: _ :: _ :: _ =>
      simp only [List.length_cons] at hlength
      omega

end Markers

/-! ## Finding a block -/

section Find

variable {label manifest : List Char} {cut : GoldensCut}

/-- What is found starts with the first BEGIN marker and ends with the first END marker behind it. -/
theorem findBlock_eq_some_iff : findBlock label manifest = some cut ↔
    ∃ w t, cut.block = beginMarker label ++ w ∧ cut.block = t ++ endMarker label ∧
      manifest.dropInfix? (beginMarker label) = some (cut.before, w ++ cut.after) ∧
      (cut.block ++ cut.after).dropInfix? (endMarker label) = some (t, cut.after) := by
  rw [findBlock, Option.bind_eq_some_iff]
  constructor
  · rintro ⟨⟨before, rest⟩, hstart, hmap⟩
    obtain ⟨⟨t, after⟩, hstop, rfl⟩ := Option.map_eq_some_iff.mp hmap
    have hsplit := (dropInfix?_eq_some.mp hstop).1
    have hwhole : beginMarker label ++ rest = (t ++ endMarker label) ++ after := by
      rw [hsplit, List.append_assoc]
    rcases List.append_eq_append_iff.mp hwhole with ⟨w, hblock, hrest⟩ | ⟨w, hmarker, _⟩
    · refine ⟨w, t, hblock, rfl, ?_, ?_⟩
      · rw [← hrest]
        exact hstart
      · rw [← hwhole]
        exact hstop
    · exact absurd ⟨t, w, hmarker.symm⟩ endMarker_beginMarker
  · rintro ⟨w, t, hbegin, hend, hstart, hstop⟩
    refine ⟨(cut.before, w ++ cut.after), hstart, ?_⟩
    rw [hbegin, List.append_assoc] at hstop
    rw [hstop, Option.map_some]
    exact congrArg some (by rw [← hend])

theorem findBlock_text (h : findBlock label manifest = some cut) :
    manifest = cut.before ++ (cut.block ++ cut.after) := by
  obtain ⟨w, _, hbegin, _, hstart, _⟩ := findBlock_eq_some_iff.mp h
  rw [hbegin, List.append_assoc]
  exact (dropInfix?_eq_some.mp hstart).1

/-- Elsewhere, the same block is found where the first BEGIN marker is its own. -/
theorem findBlock_moved (h : findBlock label manifest = some cut) {before after rest : List Char}
    (hfirst : (before ++ (cut.block ++ after)).dropInfix? (beginMarker label) =
      some (before, rest)) :
    findBlock label (before ++ (cut.block ++ after)) = some ⟨before, cut.block, after⟩ := by
  obtain ⟨w, t, hbegin, hend, _, hstop⟩ := findBlock_eq_some_iff.mp h
  refine findBlock_eq_some_iff.mpr ⟨w, t, hbegin, hend, ?_, ?_⟩
  · have htext := (dropInfix?_eq_some.mp hfirst).1
    rw [hbegin, List.append_assoc] at htext
    rw [hfirst, ← List.append_cancel_left (List.append_cancel_left htext)]
  · have hmoved := dropInfix?_rest hstop after
    rwa [← List.append_assoc, ← hend] at hmoved

/-- What stands behind a block has no part in finding it. -/
theorem findBlock_rest (h : findBlock label manifest = some cut) (after : List Char) :
    findBlock label (cut.before ++ (cut.block ++ after)) =
      some ⟨cut.before, cut.block, after⟩ := by
  obtain ⟨w, _, hbegin, _, hstart, _⟩ := findBlock_eq_some_iff.mp h
  have hfirst := dropInfix?_rest hstart (w ++ after)
  rw [← List.append_assoc (beginMarker label), ← hbegin] at hfirst
  exact findBlock_moved h hfirst

end Find

/-- The manifests that the editors keep in order: every BEGIN marker stands once and before its
END marker, and no two blocks overlap. -/
structure Tidy (labels : Set (List Char)) (manifest : List Char) : Prop where
  once : ∀ label ∈ labels, ∀ u v u' v', manifest = u ++ (beginMarker label ++ v) →
    manifest = u' ++ (beginMarker label ++ v') → u.length = u'.length
  closed : ∀ label ∈ labels, ∀ u v, manifest = u ++ (beginMarker label ++ v) →
    endMarker label <:+: v
  apart : ∀ label ∈ labels, ∀ other ∈ labels, label ≠ other → ∀ cut cut',
    findBlock label manifest = some cut → findBlock other manifest = some cut' →
      (cut.before ++ cut.block).length ≤ cut'.before.length ∨
        (cut'.before ++ cut'.block).length ≤ cut.before.length

/-- Text without any of the markers. -/
def Unmarked (labels : Set (List Char)) (text : List Char) : Prop :=
  ∀ label ∈ labels, ¬ beginMarker label <:+: text ∧ ¬ endMarker label <:+: text

theorem Unmarked.trim {labels : Set (List Char)} {entries : List Char}
    (h : Unmarked labels entries) : Unmarked labels (trim entries) := by
  intro label hlabel
  exact ⟨fun hbegin => (h label hlabel).1 (hbegin.trans (trim_within entries)),
    fun hend => (h label hlabel).2 (hend.trans (trim_within entries))⟩

section Replaced

variable {labels : Set (List Char)} {manifest entries label : List Char}

def keptBefore (label manifest : List Char) : List Char :=
  match findBlock label manifest with
  | some cut => trimEnd cut.before
  | none => trimEnd manifest

def keptAfter (label manifest : List Char) : List Char :=
  match findBlock label manifest with
  | some cut => dropNewlines cut.after
  | none => []

theorem replaceGoldensBlock_eq (upper : List Char → List Char) (manifest entries line : List Char) :
    replaceGoldensBlock upper manifest entries line =
      keptBefore (upper line) manifest ++ '\n' :: '\n' :: (goldensBlock (upper line) entries ++
        '\n' :: keptAfter (upper line) manifest) := by
  rw [replaceGoldensBlock, keptBefore, keptAfter]
  cases findBlock (upper line) manifest <;> rfl

theorem Tidy.findBlock_none (h : Tidy labels manifest) (hlabel : label ∈ labels) :
    findBlock label manifest = none ↔ ¬ beginMarker label <:+: manifest := by
  constructor
  · rintro hnone ⟨u, v, huv⟩
    cases hstart : manifest.dropInfix? (beginMarker label) with
    | none => exact dropInfix?_eq_none.mp hstart ⟨u, v, huv⟩
    | some start =>
        rw [findBlock, hstart, Option.bind_some, Option.map_eq_none_iff,
          dropInfix?_eq_none] at hnone
        have hend := h.closed label hlabel _ _ (dropInfix?_eq_some.mp hstart).1
        exact hnone (hend.trans (List.suffix_append _ _).isInfix)
  · intro hnot
    rw [findBlock, dropInfix?_eq_none.mpr hnot]
    rfl

/-- What is kept before a block does not contain its BEGIN marker. -/
theorem Tidy.not_infix_keptBefore (h : Tidy labels manifest) (hlabel : label ∈ labels) :
    ¬ beginMarker label <:+: keptBefore label manifest := by
  rw [keptBefore]
  cases hcut : findBlock label manifest with
  | none =>
      exact fun hbegin => (h.findBlock_none hlabel).mp hcut
        (hbegin.trans (trimEnd_initial manifest).isInfix)
  | some cut =>
      obtain ⟨_, _, _, _, hstart, _⟩ := findBlock_eq_some_iff.mp hcut
      exact fun hbegin => not_infix_of_dropInfix? beginMarker_ne_nil hstart
        (hbegin.trans (trimEnd_initial cut.before).isInfix)

/-- The new block is what is found for its label. -/
theorem Tidy.findBlock_replaced (h : Tidy labels manifest) (hlabel : label ∈ labels)
    (hline : '\n' ∉ label) (hentries : Unmarked labels entries) (after : List Char) :
    findBlock label (keptBefore label manifest ++ '\n' :: '\n' ::
        (goldensBlock label entries ++ '\n' :: after)) =
      some ⟨keptBefore label manifest ++ ['\n', '\n'], goldensBlock label entries,
        '\n' :: after⟩ := by
  have hbegin := newline_beginMarker hline
  have hend := newline_endMarker hline
  have hnil : ¬ beginMarker label <:+: [] := by simp [beginMarker_ne_nil]
  refine findBlock_eq_some_iff.mpr ⟨'\n' :: (trim entries ++ '\n' :: endMarker label),
    beginMarker label ++ '\n' :: (trim entries ++ ['\n']), rfl, by simp [goldensBlock], ?_, ?_⟩
  · have hskip := dropInfix?_skip hbegin hnil (goldensBlock label entries ++ '\n' :: after)
    rw [List.nil_append] at hskip
    rw [dropInfix?_skip hbegin (h.not_infix_keptBefore hlabel), hskip, goldensBlock,
      List.append_assoc, dropInfix?_append, Option.map_some, Option.map_some]
    simp
  · have htext : goldensBlock label entries ++ '\n' :: after = beginMarker label ++
        '\n' :: (trim entries ++ '\n' :: (endMarker label ++ '\n' :: after)) := by
      simp [goldensBlock]
    rw [htext, dropInfix?_skip hend endMarker_beginMarker,
      dropInfix?_skip hend (hentries.trim label hlabel).2, dropInfix?_append, Option.map_some,
      Option.map_some]

end Replaced

/-! ## Other blocks -/

section Others

variable {labels : Set (List Char)} {manifest entries label other : List Char} {cut : GoldensCut}

/-- Trimming what follows a block does not touch the block. -/
theorem trimEnd_block (h : findBlock label manifest = some cut) (before after : List Char) :
    trimEnd (before ++ (cut.block ++ after)) = before ++ (cut.block ++ trimEnd after) := by
  obtain ⟨_, t, _, hend, _, _⟩ := findBlock_eq_some_iff.mp h
  have hlast : ∃ q, cut.block = q ++ ['S'] := by
    rw [hend, endMarker_eq]
    exact ⟨t ++ ('#' :: ' ' :: 'E' :: (['N', 'D', ' '] ++ label ++
      [' ', 'G', 'O', 'L', 'D', 'E', 'N'])), by simp⟩
  obtain ⟨q, hq⟩ := hlast
  have hsplit : ∀ more, before ++ (cut.block ++ more) = (before ++ q) ++ 'S' :: more := by
    intro more
    rw [hq]
    simp
  rw [hsplit, hsplit, trimEnd_append_cons (by decide)]

theorem dropNewlines_block (h : findBlock label manifest = some cut) (before after : List Char) :
    dropNewlines (before ++ (cut.block ++ after)) =
      dropNewlines before ++ (cut.block ++ after) := by
  obtain ⟨w, _, hbegin, _, _, _⟩ := findBlock_eq_some_iff.mp h
  have hfirst : ∃ q, cut.block = '#' :: q := by
    rw [hbegin, beginMarker_eq]
    exact ⟨_, rfl⟩
  obtain ⟨q, hq⟩ := hfirst
  rw [hq, List.cons_append, dropNewlines_append_cons (by decide)]

/-- The only BEGIN marker of a label is that of its block. -/
theorem Tidy.not_infix_before (h : Tidy labels manifest) (hlabel : label ∈ labels)
    (hcut : findBlock label manifest = some cut) {before text after : List Char}
    (htext : manifest = before ++ (text ++ after))
    (hle : (before ++ text).length ≤ cut.before.length) : ¬ beginMarker label <:+: text := by
  rintro ⟨a, b, hab⟩
  obtain ⟨w, _, hbegin, _, hstart, _⟩ := findBlock_eq_some_iff.mp hcut
  have hsame := h.once label hlabel (before ++ a) (b ++ after) cut.before (w ++ cut.after)
    (by rw [htext, ← hab]; simp) (dropInfix?_eq_some.mp hstart).1
  have hne : beginMarker label ≠ [] := beginMarker_ne_nil
  have hpos := List.length_pos_iff.mpr hne
  rw [← hab] at hle
  simp only [List.length_append] at hle hsame
  omega

/-- A block behind the replaced one is found unchanged. -/
theorem Tidy.findBlock_behind (h : Tidy labels manifest) (hlines : ∀ l ∈ labels, '\n' ∉ l)
    (hentries : Unmarked labels entries) (hother : other ∈ labels) {own : GoldensCut}
    (hown : findBlock label manifest = some own) (hcut : findBlock other manifest = some cut)
    (hbehind : (own.before ++ own.block).length ≤ cut.before.length) :
    ∃ before after, findBlock other (trimEnd own.before ++ '\n' :: '\n' ::
      (goldensBlock label entries ++ '\n' :: dropNewlines own.after)) =
        some ⟨before, cut.block, after⟩ := by
  have htext := findBlock_text hcut
  have hown' := findBlock_text hown
  obtain ⟨w, t, hbegin, hend, _, _⟩ := findBlock_eq_some_iff.mp hown
  have hprefix : own.before ++ own.block <+: cut.before := by
    refine @List.prefix_of_prefix_length_le _ _ _ manifest ?_ ?_ hbehind
    · exact ⟨own.after, by rw [List.append_assoc, ← hown']⟩
    · exact ⟨cut.block ++ cut.after, htext.symm⟩
  obtain ⟨between, hbetween⟩ := hprefix
  have hafter : own.after = between ++ (cut.block ++ cut.after) := by
    have hsame := htext
    rw [← hbetween, hown', List.append_assoc, List.append_assoc] at hsame
    exact List.append_cancel_left (List.append_cancel_left hsame)
  -- no line of the new text up to the old end of this block holds the other's marker
  have hmarker := newline_beginMarker (hlines other hother)
  have hparts : ∀ before text after : List Char, manifest = before ++ (text ++ after) →
      (before ++ text).length ≤ (own.before ++ own.block).length →
        ¬ beginMarker other <:+: text :=
    fun _ _ _ hsplit hle => h.not_infix_before hother hcut hsplit (hle.trans hbehind)
  have hnil : ¬ beginMarker other <:+: [] := by simp [beginMarker_ne_nil]
  have hbefore : ¬ beginMarker other <:+: trimEnd own.before := by
    intro hin
    refine hparts [] own.before _ (by rw [List.nil_append]; exact hown') ?_
      (hin.trans (trimEnd_initial own.before).isInfix)
    simp
  have hstart : ¬ beginMarker other <:+: beginMarker label :=
    hparts own.before _ (w ++ own.after)
      (by rw [hown', hbegin]; simp) (by rw [hbegin]; simp)
  have hstop : ¬ beginMarker other <:+: endMarker label :=
    hparts (own.before ++ t) _ own.after
      (by rw [hown', hend]; simp) (by rw [hend]; simp)
  have hlast : (dropNewlines between ++ (cut.block ++ cut.after)).dropInfix?
      (beginMarker other) =
        some (dropNewlines between, cut.block.drop (beginMarker other).length ++ cut.after) := by
    obtain ⟨w', _, hbegin', _, _, _⟩ := findBlock_eq_some_iff.mp hcut
    obtain ⟨dropped, hdropped⟩ := dropNewlines_suffix between
    refine dropInfix?_eq_some.mpr ⟨by simp [hbegin'], fun u' v' hmatch => ?_⟩
    have hsame := h.once other hother (own.before ++ own.block ++ dropped ++ u') v'
      cut.before (w' ++ cut.after) (by
        rw [hown', hafter, ← hdropped, List.append_assoc dropped, hmatch]
        simp) (by rw [htext, hbegin']; simp)
    rw [← hbetween, ← hdropped] at hsame
    simp only [List.length_append] at hsame ⊢
    omega
  have hfirst : (trimEnd own.before ++ '\n' :: '\n' :: (goldensBlock label entries ++
      '\n' :: dropNewlines own.after)).dropInfix? (beginMarker other) =
        some (trimEnd own.before ++ '\n' :: '\n' :: (goldensBlock label entries ++
          '\n' :: dropNewlines between),
          cut.block.drop (beginMarker other).length ++ cut.after) := by
    have hskip := dropInfix?_skip hmarker hnil
      (goldensBlock label entries ++ '\n' :: dropNewlines own.after)
    rw [List.nil_append] at hskip
    have hblock : goldensBlock label entries ++ '\n' :: dropNewlines own.after =
        beginMarker label ++ '\n' :: (trim entries ++ '\n' :: (endMarker label ++
          '\n' :: dropNewlines own.after)) := by
      simp [goldensBlock]
    rw [dropInfix?_skip hmarker hbefore, hskip, hblock, dropInfix?_skip hmarker hstart,
      dropInfix?_skip hmarker (hentries.trim other hother).1, dropInfix?_skip hmarker hstop,
      hafter, dropNewlines_block hcut, hlast]
    simp [goldensBlock]
  have hwhole : trimEnd own.before ++ '\n' :: '\n' :: (goldensBlock label entries ++
      '\n' :: dropNewlines own.after) = (trimEnd own.before ++ '\n' :: '\n' ::
        (goldensBlock label entries ++ '\n' :: dropNewlines between)) ++
          (cut.block ++ cut.after) := by
    rw [hafter, dropNewlines_block hcut]
    simp
  rw [hwhole] at hfirst ⊢
  exact ⟨_, _, findBlock_moved hcut hfirst⟩

/-- A block before the replaced one is found unchanged. -/
theorem findBlock_ahead {own : GoldensCut} (hown : findBlock label manifest = some own)
    (hcut : findBlock other manifest = some cut)
    (hahead : (cut.before ++ cut.block).length ≤ own.before.length) (more : List Char) :
    ∃ before after, findBlock other (trimEnd own.before ++ more) =
      some ⟨before, cut.block, after⟩ := by
  have hprefix : cut.before ++ cut.block <+: own.before := by
    refine @List.prefix_of_prefix_length_le _ _ _ manifest ?_ ?_ hahead
    · exact ⟨cut.after, by rw [List.append_assoc, ← findBlock_text hcut]⟩
    · exact ⟨own.block ++ own.after, (findBlock_text hown).symm⟩
  obtain ⟨between, hbetween⟩ := hprefix
  rw [← hbetween, List.append_assoc, trimEnd_block hcut, List.append_assoc, List.append_assoc]
  exact ⟨_, _, findBlock_rest hcut _⟩

/-- Another line's block is found unchanged. -/
theorem Tidy.findBlock_other (h : Tidy labels manifest) (hlines : ∀ l ∈ labels, '\n' ∉ l)
    (hentries : Unmarked labels entries) (hlabel : label ∈ labels) (hother : other ∈ labels)
    (hne : label ≠ other) (hcut : findBlock other manifest = some cut) :
    ∃ before after, findBlock other (keptBefore label manifest ++ '\n' :: '\n' ::
      (goldensBlock label entries ++ '\n' :: keptAfter label manifest)) =
        some ⟨before, cut.block, after⟩ := by
  rw [keptBefore, keptAfter]
  cases hown : findBlock label manifest with
  | none =>
      have hkept : trimEnd manifest = cut.before ++ (cut.block ++ trimEnd cut.after) := by
        conv_lhs => rw [findBlock_text hcut]
        exact trimEnd_block hcut _ _
      simp only [hkept, List.append_assoc]
      exact ⟨_, _, findBlock_rest hcut _⟩
  | some own =>
      rcases h.apart label hlabel other hother hne own cut hown hcut with hbehind | hahead
      · exact h.findBlock_behind hlines hentries hother hown hcut hbehind
      · exact findBlock_ahead hown hcut hahead _

end Others

/-! ## The editors -/

/-- The text that is not whitespace. -/
def solid (text : List Char) : List Char := text.filter (fun c => !isWhitespace c)

/-- The text around a label's block. -/
def outside (label manifest : List Char) : List Char :=
  match findBlock label manifest with
  | some cut => cut.before ++ cut.after
  | none => manifest

theorem solid_trimEnd (text : List Char) : solid (trimEnd text) = solid text := by
  obtain ⟨space, htext, hspace⟩ := trimEnd_spec text
  have hnil : solid space = [] := by
    rw [solid, List.filter_eq_nil_iff]
    exact fun c hc => by simp [hspace c hc]
  conv_rhs => rw [htext, solid, List.filter_append]
  rw [← solid, ← solid, hnil, List.append_nil]

theorem solid_dropNewlines (text : List Char) : solid (dropNewlines text) = solid text := by
  induction text with
  | nil => rfl
  | cons c text ih =>
      by_cases hc : c = '\n'
      · subst hc
        rw [dropNewlines_cons_newline, ih, solid, solid,
          List.filter_cons_of_neg (by simp)]
      · rw [dropNewlines, List.dropWhile_cons_of_neg (by simpa using hc)]

theorem solid_kept (label manifest : List Char) :
    solid (keptBefore label manifest) ++ solid (keptAfter label manifest) =
      solid (outside label manifest) := by
  rw [keptBefore, keptAfter, outside]
  cases findBlock label manifest with
  | none => exact (List.append_nil _).trans (solid_trimEnd manifest)
  | some cut =>
      dsimp only
      rw [solid_trimEnd, solid_dropNewlines, solid, solid, solid, List.filter_append]

theorem keptBefore_trimmed (label manifest : List Char) :
    trimEnd (keptBefore label manifest ++ ['\n', '\n']) = keptBefore label manifest := by
  rw [keptBefore]
  cases findBlock label manifest <;> exact trimEnd_newlines _

theorem keptAfter_trimmed (label manifest : List Char) :
    dropNewlines ('\n' :: keptAfter label manifest) = keptAfter label manifest := by
  rw [keptAfter, dropNewlines_cons_newline]
  cases findBlock label manifest with
  | none => rfl
  | some cut => exact dropNewlines_dropNewlines _

/-- Replacing a line's block edits the manifest locally: the new block is found, with the text
around it and the other blocks as they were, replacing it again changes nothing, and removing it
leaves what removing the old block leaves, up to whitespace at the end. -/
theorem replaceGoldensBlock_local (upper : List Char → List Char) {labels : Set (List Char)}
    {manifest entries line : List Char} (hlines : ∀ label ∈ labels, '\n' ∉ label)
    (hline : upper line ∈ labels) (htidy : Tidy labels manifest)
    (hentries : Unmarked labels entries) :
    (∃ cut, findBlock (upper line) (replaceGoldensBlock upper manifest entries line) = some cut ∧
      cut.block = beginMarker (upper line) ++
        '\n' :: (trim entries ++ '\n' :: endMarker (upper line)) ∧
      solid (cut.before ++ cut.after) = solid (outside (upper line) manifest)) ∧
    (∀ other ∈ labels, upper line ≠ other → ∀ cut, findBlock other manifest = some cut →
      ∃ cut', findBlock other (replaceGoldensBlock upper manifest entries line) = some cut' ∧
        cut'.block = cut.block) ∧
    replaceGoldensBlock upper (replaceGoldensBlock upper manifest entries line) entries line =
      replaceGoldensBlock upper manifest entries line ∧
    trimEnd (removeGoldensBlock upper (replaceGoldensBlock upper manifest entries line) line) =
      trimEnd (removeGoldensBlock upper manifest line) := by
  have hfound := htidy.findBlock_replaced hline (hlines _ hline) hentries
    (keptAfter (upper line) manifest)
  rw [← replaceGoldensBlock_eq] at hfound
  refine ⟨⟨_, hfound, rfl, ?_⟩, ?_, ?_, ?_⟩
  · rw [← solid_kept]
    simp [solid]
  · intro other hother hne cut hcut
    obtain ⟨before, after, hblock⟩ :=
      htidy.findBlock_other hlines hentries hline hother hne hcut
    rw [← replaceGoldensBlock_eq] at hblock
    exact ⟨_, hblock, rfl⟩
  · conv_lhs => rw [replaceGoldensBlock_eq, keptBefore, keptAfter, hfound]
    dsimp only
    rw [keptBefore_trimmed, keptAfter_trimmed, ← replaceGoldensBlock_eq]
  · rw [removeGoldensBlock, hfound]
    dsimp only
    rw [keptBefore_trimmed, keptAfter_trimmed, removeGoldensBlock, keptBefore, keptAfter]
    cases findBlock (upper line) manifest with
    | none =>
        rw [if_pos rfl, trimEnd_append_space (by simp), trimEnd_trimEnd]
    | some cut => rfl

/-! ## Manifests -/

/-- Whether the editors keep a manifest with these labels in order. -/
def tidy (labels : List (List Char)) (manifest : List Char) : Bool :=
  labels.all (fun label => match manifest.dropInfix? (beginMarker label) with
    | none => true
    | some start =>
        ((beginMarker label ++ start.2).tail.dropInfix? (beginMarker label)).isNone &&
          (start.2.dropInfix? (endMarker label)).isSome) &&
  labels.all (fun label => labels.all (fun other => label = other ||
    match findBlock label manifest, findBlock other manifest with
    | some cut, some cut' => (cut.before ++ cut.block).length ≤ cut'.before.length ||
        (cut'.before ++ cut'.block).length ≤ cut.before.length
    | _, _ => true))

theorem Tidy.of_tidy {labels : List (List Char)} {manifest : List Char}
    (h : tidy labels manifest = true) : Tidy {label | label ∈ labels} manifest := by
  rw [tidy, Bool.and_eq_true, List.all_eq_true, List.all_eq_true] at h
  have hfirst : ∀ label ∈ labels, ∀ u v, manifest = u ++ (beginMarker label ++ v) →
      manifest.dropInfix? (beginMarker label) = some (u, v) ∧ endMarker label <:+: v := by
    intro label hlabel u v htext
    have hone := h.1 label hlabel
    cases hstart : manifest.dropInfix? (beginMarker label) with
    | none => exact absurd (Separators.infix_of_eq htext) (dropInfix?_eq_none.mp hstart)
    | some start =>
        rw [hstart, Bool.and_eq_true, Option.isNone_iff_eq_none] at hone
        obtain ⟨hfound, hleast⟩ := dropInfix?_eq_some.mp hstart
        have hle := hleast u v htext
        -- a later match would lie behind the first symbol of the first
        obtain ⟨x, hx⟩ : start.1 <+: u := by
          refine @List.prefix_of_prefix_length_le _ _ _ manifest ?_ ?_ hle
          · exact ⟨beginMarker label ++ start.2, hfound.symm⟩
          · exact ⟨beginMarker label ++ v, htext.symm⟩
        have hrest : beginMarker label ++ start.2 = x ++ (beginMarker label ++ v) := by
          rw [← hx, hfound, List.append_assoc] at htext
          exact List.append_cancel_left htext
        cases x with
        | cons c x =>
            refine absurd ?_ (dropInfix?_eq_none.mp hone.1)
            exact ⟨x, v, by rw [hrest]; simp⟩
        | nil =>
            rw [List.append_nil] at hx
            have hv : start.2 = v := List.append_cancel_left hrest
            refine ⟨congrArg some (Prod.ext hx hv), ?_⟩
            obtain ⟨s, hs⟩ := Option.isSome_iff_exists.mp hone.2
            rw [← hv]
            exact Separators.infix_of_eq (dropInfix?_eq_some.mp hs).1
  constructor
  · intro label hlabel u v u' v' htext htext'
    have hsame := (hfirst label hlabel u v htext).1.symm.trans
      (hfirst label hlabel u' v' htext').1
    rw [(Prod.mk.inj (Option.some.inj hsame)).1]
  · exact fun label hlabel u v htext => (hfirst label hlabel u v htext).2
  · intro label hlabel other hother hne cut cut' hcut hcut'
    have hpair := List.all_eq_true.mp (h.2 label hlabel) other hother
    rw [hcut, hcut'] at hpair
    simpa [hne] using hpair

def unmarked (labels : List (List Char)) (text : List Char) : Bool :=
  labels.all (fun label => (text.dropInfix? (beginMarker label)).isNone &&
    (text.dropInfix? (endMarker label)).isNone)

theorem Unmarked.of_unmarked {labels : List (List Char)} {text : List Char}
    (h : unmarked labels text = true) : Unmarked {label | label ∈ labels} text := by
  intro label hlabel
  have hboth := List.all_eq_true.mp h label hlabel
  rw [Bool.and_eq_true, Option.isNone_iff_eq_none, Option.isNone_iff_eq_none, dropInfix?_eq_none,
    dropInfix?_eq_none] at hboth
  exact hboth

def twoLines : List Char :=
  ("header\n\n# BEGIN 0.25 GOLDENS\nold\n# END 0.25 GOLDENS\n\n" ++
    "# BEGIN 0.26 GOLDENS\nv026\n# END 0.26 GOLDENS\n").toList

def twoLabels : List (List Char) := ["0.25".toList, "0.26".toList]

theorem twoLines_edited :
    (findBlock "0.26".toList
      (replaceGoldensBlock id twoLines " new \n".toList "0.25".toList)).map GoldensCut.block =
        some "# BEGIN 0.26 GOLDENS\nv026\n# END 0.26 GOLDENS".toList := by
  have hlocal := @replaceGoldensBlock_local id {label | label ∈ twoLabels} twoLines
    " new \n".toList "0.25".toList
    (by
      intro label hlabel
      have hall : twoLabels.all (fun label => !label.contains '\n') = true := by decide +kernel
      simpa using List.all_eq_true.mp hall label hlabel)
    (by
      change _ ∈ twoLabels
      decide +kernel) (Tidy.of_tidy (by decide +kernel)) (Unmarked.of_unmarked (by decide +kernel))
  have hblock : (findBlock "0.26".toList twoLines).map GoldensCut.block =
      some "# BEGIN 0.26 GOLDENS\nv026\n# END 0.26 GOLDENS".toList := by decide +kernel
  obtain ⟨cut, hcut, hsame⟩ := Option.map_eq_some_iff.mp hblock
  have hother : "0.26".toList ∈ twoLabels := by decide +kernel
  obtain ⟨cut', hcut', hkept⟩ := hlocal.2.1 "0.26".toList hother (by decide +kernel) cut hcut
  rw [hcut', Option.map_some, hkept, hsame]

def UpToNewline (text text' : List Char) : Prop :=
  text = text' ∨ text = text' ++ ['\n'] ∨ text' = text ++ ['\n']

/-- Two labels, the second of two lines, the second of which is an END marker of the first. -/
def brokenLabels : List (List Char) := ["L".toList, "A\n# END L".toList]

def brokenLines : List Char :=
  ("# BEGIN L GOLDENS\nold\n# END L GOLDENS\n" ++
    "# BEGIN A\n# END L GOLDENS\nother\n# END A\n# END L GOLDENS\n").toList

/-- A manifest without the line may lose a space at its end, and a label of two lines may be
read across the entries and the END marker of another. -/
theorem goldens_trimmed_and_broken :
    (¬ ∀ (labels : List (List Char)) (manifest entries line : List Char),
      (∀ label ∈ labels, '\n' ∉ label) → line ∈ labels →
        Tidy {label | label ∈ labels} manifest → Unmarked {label | label ∈ labels} entries →
          UpToNewline (removeGoldensBlock id (replaceGoldensBlock id manifest entries line) line)
            (removeGoldensBlock id manifest line)) ∧
    ¬ ∀ (labels : List (List Char)) (manifest entries line other : List Char),
      line ∈ labels → other ∈ labels → line ≠ other →
        Tidy {label | label ∈ labels} manifest → Unmarked {label | label ∈ labels} entries →
          (findBlock other (replaceGoldensBlock id manifest entries line)).map GoldensCut.block =
            (findBlock other manifest).map GoldensCut.block := by
  constructor
  · intro hclaim
    have hsame := hclaim ["L".toList] ['a', ' '] ['x'] "L".toList (by simp) (by simp)
      (Tidy.of_tidy (by decide +kernel)) (Unmarked.of_unmarked (by decide +kernel))
    have hdiffer : ¬ UpToNewline
        (removeGoldensBlock id (replaceGoldensBlock id ['a', ' '] ['x'] "L".toList) "L".toList)
        (removeGoldensBlock id ['a', ' '] "L".toList) := by
      unfold UpToNewline
      decide +kernel
    exact hdiffer hsame
  · intro hclaim
    have hsame := hclaim brokenLabels brokenLines "# BEGIN A".toList "L".toList
      "A\n# END L".toList (by decide +kernel) (by decide +kernel) (by decide +kernel)
      (Tidy.of_tidy (by decide +kernel)) (Unmarked.of_unmarked (by decide +kernel))
    exact absurd hsame (by decide +kernel)

end VllmVcr
