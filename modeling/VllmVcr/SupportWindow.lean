import VllmVcr.Goldens
import VllmVcr.Positions
import VllmVcr.Versions

/-!
# The support window

compat.toml, the list of the vLLM lines the repository builds against, and the two watchers that
move its lines when vLLM tags a release or a candidate.
-/

namespace VllmVcr

/-- One `[[vllm]]` entry of compat.toml. -/
structure VllmLine where
  line : String
  tag : String
  protocolRev : String
  patchRepo : Option String := none
  patchRev : Option String := none
  default : Bool := false
deriving DecidableEq, Repr

namespace VllmLine

/-- A `nightly` or `rc` line rides ahead of the stable ones. -/
def isTracker (l : VllmLine) : Bool := l.line = "nightly" || l.line = "rc"

def isStable (l : VllmLine) : Bool := !l.isTracker

def demote (l : VllmLine) : VllmLine := { l with default := false }

/-- The patch fields come together or not at all. -/
def paired (l : VllmLine) : Bool := l.patchRepo.isSome = l.patchRev.isSome

end VllmLine

structure CompatManifest where
  lines : List VllmLine
deriving DecidableEq, Repr

namespace CompatManifest

def validate (m : CompatManifest) : Except String Unit :=
  if m.lines.isEmpty then .error "compat.toml defines no [[vllm]] lines"
  else
    let defaults := m.lines.countP VllmLine.default
    if defaults ≠ 1 then
      .error s!"compat.toml must have exactly one line with default = true, found {defaults}"
    else match m.lines.find? (fun l => !l.paired) with
      | some l =>
          let label := l.line
          .error (s!"compat.toml line {label} sets only one of patch_repo/patch_rev;" ++
            " set both or neither")
      | none => .ok ()

def parse (lines : List VllmLine) : Except String CompatManifest :=
  (validate ⟨lines⟩).map (fun _ => ⟨lines⟩)

def defaultLine (m : CompatManifest) : Except String VllmLine :=
  match m.lines.find? VllmLine.default with
  | some l => .ok l
  | none => .error "compat.toml has no default line"

/-- The line with this label. -/
def line (m : CompatManifest) (minor : String) : Option VllmLine :=
  m.lines.find? (fun l => l.line = minor)

end CompatManifest

/-! ## Edits -/

/-- `tag` and `rev` of the line with this label, and whether they changed. -/
def applySetLine (doc : List VllmLine) (line : String) (tag rev : Option String) :
    Except String (List VllmLine × Bool) :=
  match doc.find? (fun l => l.line = line) with
  | none => .error s!"no [[vllm]] entry with line = \"{line}\" in compat.toml"
  | some entry =>
      let tag := tag.getD entry.tag
      let rev := rev.getD entry.protocolRev
      .ok (doc.modify (doc.findIdx (fun l => l.line = line))
          (fun l => { l with tag := tag, protocolRev := rev }),
        entry.tag ≠ tag || entry.protocolRev ≠ rev)

def firstStableIndex (doc : List VllmLine) : ℕ := doc.findIdx VllmLine.isStable

def stableIndices (doc : List VllmLine) : List ℕ := doc.findIdxs VllmLine.isStable

/-- The trimming loop; each round removes a stable line, so a round for every line is enough. -/
def trimStable (maxStable : ℕ) : ℕ → List VllmLine → List VllmLine
  | 0, doc => doc
  | rounds + 1, doc =>
      if maxStable < (stableIndices doc).length then
        match (stableIndices doc).getLast? with
        | some oldest => trimStable maxStable rounds (doc.eraseIdx oldest)
        | none => trimStable maxStable rounds doc
      else doc

def applyRollStable (doc : List VllmLine) (minor tag rev : String) (maxStable : ℕ) :
    List VllmLine :=
  let demoted := doc.map VllmLine.demote
  let entry : VllmLine := { line := minor, tag := tag, protocolRev := rev, default := true }
  let inserted := demoted.insertIdx (firstStableIndex demoted) entry
  trimStable maxStable inserted.length inserted

/-! ## Watchers -/

inductive WatchOutcome where
  | unchanged
  | changedTransient
  | changedDefault
deriving DecidableEq, Repr

/-- What a watcher prints; with nothing to pin only that nothing changed. -/
structure WatchSummary where
  outcome : WatchOutcome
  pinned : Option (String × String × String)
deriving DecidableEq, Repr

/-- The output of `git ls-remote --tags` in a file. -/
structure TagsFile where
  path : String
  text : List Char

/-- compat.toml's entries, and the goldens manifest when there is one. -/
structure WatchFiles where
  compat : List VllmLine
  manifest : Option (List Char)
deriving DecidableEq, Repr

def notARelease (latestStable : String) : String :=
  s!"--latest-stable '{latestStable}' is not a vX.Y.Z release tag (expected e.g. v0.24.0)"

def watchRc (files : WatchFiles) (tagsFile : TagsFile) (latestStable : String) :
    WatchFiles × Except String WatchSummary :=
  match VllmVersion.parse latestStable with
  | none => (files, .error (notARelease latestStable))
  | some stable =>
      match pickLatestRc (parseLsRemote tagsFile.text) stable with
      | none => (files, .ok ⟨.unchanged, none⟩)
      | some (tag, rev) =>
          match applySetLine files.compat "rc" (some tag) (some rev) with
          | .error e => (files, .error e)
          | .ok (doc, changed) =>
              if changed then
                ({ files with compat := doc }, .ok ⟨.changedTransient, some (tag, "rc", rev)⟩)
              else (files, .ok ⟨.unchanged, some (tag, "rc", rev)⟩)

section Stable

variable (upper : List Char → List Char)

/-- A release of a line in the window moves that line. -/
def patchBump (files : WatchFiles) (existing : VllmLine) (new : VllmVersion)
    (latestStable rev : String) : WatchFiles × Except String WatchSummary :=
  let minor := new.minorLine
  match VllmVersion.parse existing.tag with
  | none =>
      let tag := existing.tag
      (files, .error s!"line {minor} tag {tag} is unparseable")
  | some current =>
      if new ≤ current then (files, .ok ⟨.unchanged, none⟩)
      else match applySetLine files.compat minor (some latestStable) (some rev) with
        | .error e => (files, .error e)
        | .ok (doc, _) =>
            ({ files with compat := doc },
              (CompatManifest.defaultLine ⟨files.compat⟩).map (fun l =>
                ⟨if l.line = minor then .changedDefault else .changedTransient,
                  some (latestStable, minor, rev)⟩))

/-- The goldens manifest without the goldens of the lines that left the window. -/
def dropGoldens (before after : List VllmLine) (manifest : List Char) : List Char :=
  (before.filter (fun l => (CompatManifest.line ⟨after⟩ l.line).isNone)).foldl
    (fun text l => removeGoldensBlock upper text l.line.toList) manifest

/-- A release of a new line becomes the default. -/
def roll (files : WatchFiles) (new : VllmVersion) (latestStable rev : String) (maxStable : ℕ) :
    WatchFiles × Except String WatchSummary :=
  match CompatManifest.defaultLine ⟨files.compat⟩ with
  | .error e => (files, .error e)
  | .ok default =>
      match VllmVersion.parse default.tag with
      | none =>
          let tag := default.tag
          (files, .error s!"current default tag {tag} is unparseable")
      | some current =>
          if new ≤ current then (files, .ok ⟨.unchanged, none⟩)
          else
            let minor := new.minorLine
            let doc := applyRollStable files.compat minor latestStable rev maxStable
            match CompatManifest.parse doc with
            | .error e => ({ files with compat := doc }, .error e)
            | .ok rolled =>
                (⟨doc, files.manifest.map (dropGoldens upper files.compat rolled.lines)⟩,
                  .ok ⟨.changedDefault, some (latestStable, minor, rev)⟩)

def watchStable (files : WatchFiles) (tagsFile : TagsFile) (latestStable : String)
    (maxStable : ℕ) : WatchFiles × Except String WatchSummary :=
  match VllmVersion.parse latestStable with
  | none => (files, .error (notARelease latestStable))
  | some new =>
      if new.rc.isSome then
        (files, .error
          s!"--latest-stable {latestStable} is a pre-release; expected a final release")
      else match (parseLsRemote tagsFile.text).get? latestStable with
        | none =>
            let path := tagsFile.path
            (files, .error s!"tag {latestStable} not found in {path}")
        | some rev =>
            match CompatManifest.parse files.compat with
            | .error e => (files, .error e)
            | .ok manifest =>
                match manifest.line new.minorLine with
                | some existing => patchBump files existing new latestStable rev
                | none => roll upper files new latestStable rev maxStable

end Stable

/-! ## Windows -/

def stableLines (doc : List VllmLine) : List VllmLine := doc.filter VllmLine.isStable

def trackerLines (doc : List VllmLine) : List VllmLine := doc.filter (fun l => !l.isStable)

namespace VllmLine

/-- `l` is of a newer release than `l'`. -/
def Newer (l l' : VllmLine) : Prop :=
  ∃ v v', VllmVersion.parse l.tag = some v ∧ VllmVersion.parse l'.tag = some v' ∧ v' < v

/-- The line is named after its tag. -/
def Labelled (l : VllmLine) : Prop :=
  ∃ v, VllmVersion.parse l.tag = some v ∧ l.line = v.minorLine

instance decidableNewer (l l' : VllmLine) : Decidable (l.Newer l') :=
  decidable_of_iff (∃ v ∈ VllmVersion.parse l.tag, ∃ v' ∈ VllmVersion.parse l'.tag, v' < v)
    (by simp [Newer])

instance decidableLabelled (l : VllmLine) : Decidable l.Labelled :=
  decidable_of_iff (∃ v ∈ VllmVersion.parse l.tag, l.line = v.minorLine) (by simp [Labelled])

end VllmLine

/-- The stable lines are newest first, with the default in front. -/
structure Window (doc : List VllmLine) : Prop where
  valid : CompatManifest.validate ⟨doc⟩ = .ok ()
  labelled : ∀ l ∈ stableLines doc, l.Labelled
  newestFirst : (stableLines doc).Pairwise VllmLine.Newer
  defaultFirst : ∃ l rest, stableLines doc = l :: rest ∧ l.default = true

instance decidableWindow (doc : List VllmLine) : Decidable (Window doc) :=
  decidable_of_iff
    (CompatManifest.validate ⟨doc⟩ = .ok () ∧ (∀ l ∈ stableLines doc, l.Labelled) ∧
      (stableLines doc).Pairwise VllmLine.Newer ∧ ((stableLines doc).head?.any VllmLine.default))
    (by
      constructor
      · rintro ⟨hvalid, hlabelled, hnewest, hfirst⟩
        refine ⟨hvalid, hlabelled, hnewest, ?_⟩
        cases hstable : stableLines doc with
        | nil =>
          rw [hstable] at hfirst
          cases hfirst
        | cons l rest =>
          rw [hstable] at hfirst
          exact ⟨l, rest, rfl, hfirst⟩
      · rintro ⟨hvalid, hlabelled, hnewest, l, rest, hstable, hl⟩
        exact ⟨hvalid, hlabelled, hnewest, by rw [hstable]; exact hl⟩)

/-- A window by its two kinds of lines, wherever they stand among each other. -/
structure WindowLines (stable trackers : List VllmLine) : Prop where
  labelled : ∀ l ∈ stable, l.Labelled
  newestFirst : stable.Pairwise VllmLine.Newer
  defaultFirst : ∃ n, stable.map VllmLine.default = true :: List.replicate n false
  undefaulted : ∀ l ∈ trackers, l.default = false
  paired : ∀ l ∈ stable ++ trackers, l.paired = true

namespace CompatManifest

theorem validate_iff {m : CompatManifest} : m.validate = .ok () ↔
    m.lines.countP VllmLine.default = 1 ∧ ∀ l ∈ m.lines, l.paired = true := by
  rw [validate]
  by_cases hempty : m.lines.isEmpty = true
  · rw [if_pos hempty]
    rw [List.isEmpty_iff] at hempty
    simp [hempty]
  · rw [if_neg hempty]
    dsimp only
    by_cases hdefaults : m.lines.countP VllmLine.default = 1
    · rw [if_neg (not_not.mpr hdefaults)]
      cases hfind : m.lines.find? (fun l => !l.paired) with
      | some l =>
        have hl := List.find?_some hfind
        have hmem := List.mem_of_find?_eq_some hfind
        refine iff_of_false (by simp) (fun h => ?_)
        rw [h.2 l hmem] at hl
        cases hl
      | none =>
        refine iff_of_true rfl ⟨hdefaults, fun l hl => ?_⟩
        simpa using List.find?_eq_none.mp hfind l hl
    · rw [if_pos hdefaults]
      exact iff_of_false (by simp) (fun h => hdefaults h.1)

theorem parse_of_valid {doc : List VllmLine} (h : validate ⟨doc⟩ = .ok ()) :
    parse doc = .ok ⟨doc⟩ := by
  rw [parse, h]
  rfl

end CompatManifest

theorem mem_stable_or_tracker {doc : List VllmLine} {l : VllmLine} :
    l ∈ doc ↔ l ∈ stableLines doc ++ trackerLines doc := by
  rw [List.mem_append, stableLines, trackerLines, List.mem_filter, List.mem_filter]
  cases l.isStable <;> simp

theorem countP_stable_add {doc : List VllmLine} (q : VllmLine → Bool) :
    doc.countP q = (stableLines doc).countP q + (trackerLines doc).countP q := by
  rw [stableLines, trackerLines, List.countP_eq_countP_filter_add doc q VllmLine.isStable]

theorem window_iff {doc : List VllmLine} :
    Window doc ↔ WindowLines (stableLines doc) (trackerLines doc) := by
  constructor
  · intro hw
    obtain ⟨hcount, hpaired⟩ := CompatManifest.validate_iff.mp hw.valid
    obtain ⟨l, rest, hstable, hl⟩ := hw.defaultFirst
    change doc.countP VllmLine.default = 1 at hcount
    -- the default in front is the only one
    rw [countP_stable_add, hstable, List.countP_cons, if_pos hl] at hcount
    have hrest : rest.countP VllmLine.default = 0 := by omega
    have htrackers : (trackerLines doc).countP VllmLine.default = 0 := by omega
    rw [List.countP_eq_zero] at hrest htrackers
    exact ⟨hw.labelled, hw.newestFirst,
      ⟨rest.length, by
        rw [hstable, List.map_cons, hl, List.map_eq_replicate_iff.mpr
          (fun l' hl' => by simpa using hrest l' hl')]⟩,
      fun l' hl' => by simpa using htrackers l' hl',
      fun l' hl' => hpaired l' (mem_stable_or_tracker.mpr hl')⟩
  · intro hs
    obtain ⟨n, hn⟩ := hs.defaultFirst
    have hcount : (stableLines doc).countP VllmLine.default = 1 := by
      have hmap : ((stableLines doc).map VllmLine.default).countP id =
          (stableLines doc).countP VllmLine.default := List.countP_map
      rw [← hmap, hn, List.countP_cons,
        List.countP_eq_zero.mpr (fun b hb => by simp [List.eq_of_mem_replicate hb])]
      rfl
    have htrackers : (trackerLines doc).countP VllmLine.default = 0 :=
      List.countP_eq_zero.mpr (fun l' hl' => by simp [hs.undefaulted l' hl'])
    refine ⟨CompatManifest.validate_iff.mpr ⟨?_, fun l' hl' =>
      hs.paired l' (mem_stable_or_tracker.mp hl')⟩, hs.labelled, hs.newestFirst, ?_⟩
    · change doc.countP VllmLine.default = 1
      rw [countP_stable_add, hcount, htrackers]
    · cases hstable : stableLines doc with
      | nil =>
        rw [hstable] at hn
        cases hn
      | cons l rest =>
        rw [hstable, List.map_cons] at hn
        exact ⟨l, rest, rfl, (List.cons.inj hn).1⟩

/-! ## What the edits do -/

theorem applySetLine_ok {doc doc' : List VllmLine} {line tag rev : String} {changed : Bool}
    (h : applySetLine doc line (some tag) (some rev) = .ok (doc', changed)) :
    ∃ before l after, doc = before ++ l :: after ∧ l.line = line ∧
      (∀ x ∈ before, x.line ≠ line) ∧
      doc' = before ++ { l with tag := tag, protocolRev := rev } :: after ∧
      changed = (l.tag ≠ tag || l.protocolRev ≠ rev : Bool) := by
  rw [applySetLine] at h
  split at h
  · cases h
  · next entry hfind =>
    obtain ⟨hline, before, after, hdoc, hbefore⟩ := List.find?_eq_some_iff_append.mp hfind
    dsimp only [Option.getD_some] at h
    cases h
    refine ⟨before, entry, after, hdoc, by simpa using hline, fun x hx => by
      simpa using hbefore x hx, ?_, rfl⟩
    exact Positions.modify_findIdx _ (fun x hx => by simpa using hbefore x hx) hline hdoc

/-- The first line with the label is found. -/
theorem line_append {before : List VllmLine} {l : VllmLine} (after : List VllmLine)
    (hbefore : ∀ x ∈ before, x.line ≠ l.line) :
    CompatManifest.line ⟨before ++ l :: after⟩ l.line = some l := by
  rw [CompatManifest.line, List.find?_eq_some_iff_append]
  exact ⟨by simp, before, after, rfl, fun x hx => by simpa using hbefore x hx⟩

theorem applySetLine_append {before : List VllmLine} {l : VllmLine} (after : List VllmLine)
    (tag rev : String) (hbefore : ∀ x ∈ before, x.line ≠ l.line) :
    applySetLine (before ++ l :: after) l.line (some tag) (some rev) =
      .ok (before ++ { l with tag := tag, protocolRev := rev } :: after,
        l.tag ≠ tag || l.protocolRev ≠ rev) := by
  have hfind := line_append after hbefore
  rw [CompatManifest.line] at hfind
  rw [applySetLine, hfind]
  dsimp only [Option.getD_some]
  rw [Positions.modify_findIdx _ (fun x hx => by simpa using hbefore x hx) (by simp) rfl]

theorem trimStable_kinds (maxStable : ℕ) {rounds : ℕ} {doc : List VllmLine}
    (hrounds : (stableLines doc).length ≤ rounds) :
    stableLines (trimStable maxStable rounds doc) = (stableLines doc).take maxStable ∧
      trackerLines (trimStable maxStable rounds doc) = trackerLines doc := by
  induction rounds generalizing doc with
  | zero =>
    have hnil : stableLines doc = [] := List.length_eq_zero_iff.mp (by omega)
    rw [trimStable, hnil]
    exact ⟨by simp, rfl⟩
  | succ rounds ih =>
    rw [trimStable, stableIndices, Positions.length_findIdxs_eq]
    change stableLines (if maxStable < (stableLines doc).length then _ else doc) = _ ∧
      trackerLines (if maxStable < (stableLines doc).length then _ else doc) = _
    by_cases hmax : maxStable < (stableLines doc).length
    · have hsome : stableLines doc ≠ [] := by
        intro hnil
        rw [hnil] at hmax
        simp at hmax
      obtain ⟨oldest, holdest⟩ := Positions.getLast?_findIdxs_isSome hsome
      obtain ⟨hstable, htrackers⟩ := Positions.eraseIdx_last holdest
      change stableLines (doc.eraseIdx oldest) = (stableLines doc).dropLast at hstable
      change trackerLines (doc.eraseIdx oldest) = trackerLines doc at htrackers
      have hlength : (stableLines (doc.eraseIdx oldest)).length ≤ rounds := by
        rw [hstable, List.length_dropLast]
        omega
      obtain ⟨ihstable, ihtrackers⟩ := ih hlength
      rw [if_pos hmax, holdest]
      dsimp only
      rw [ihstable, ihtrackers, hstable, htrackers, List.dropLast_eq_take, List.take_take,
        min_eq_left (by omega)]
      exact ⟨rfl, rfl⟩
    · rw [if_neg hmax, List.take_of_length_le (by omega)]
      exact ⟨rfl, rfl⟩

@[simp] theorem VllmLine.isStable_demote (l : VllmLine) : l.demote.isStable = l.isStable := rfl

theorem VllmLine.demote_eq_self {l : VllmLine} (h : l.default = false) : l.demote = l := by
  cases l
  cases h
  rfl

theorem stableLines_demote (doc : List VllmLine) :
    stableLines (doc.map VllmLine.demote) = (stableLines doc).map VllmLine.demote := by
  rw [stableLines, stableLines, List.filter_map]
  rfl

theorem trackerLines_demote {doc : List VllmLine}
    (h : ∀ l ∈ trackerLines doc, l.default = false) :
    trackerLines (doc.map VllmLine.demote) = trackerLines doc := by
  rw [trackerLines, List.filter_map]
  change (trackerLines doc).map VllmLine.demote = trackerLines doc
  exact (List.map_congr_left (fun l hl => VllmLine.demote_eq_self (h l hl))).trans (List.map_id _)

/-- A new default in front, the old lines behind it, and the oldest cut off. -/
theorem applyRollStable_kinds {doc : List VllmLine} {minor tag rev : String} (maxStable : ℕ)
    (hstable : (⟨minor, tag, rev, none, none, true⟩ : VllmLine).isStable = true)
    (htrackers : ∀ l ∈ trackerLines doc, l.default = false) :
    stableLines (applyRollStable doc minor tag rev maxStable) =
        ((⟨minor, tag, rev, none, none, true⟩ : VllmLine) ::
          (stableLines doc).map VllmLine.demote).take maxStable ∧
      trackerLines (applyRollStable doc minor tag rev maxStable) = trackerLines doc := by
  rw [applyRollStable]
  obtain ⟨hkept, hothers⟩ := trimStable_kinds maxStable
    (List.length_filter_le VllmLine.isStable _)
  rw [hkept, hothers, ← stableLines_demote, ← trackerLines_demote htrackers]
  constructor
  · rw [stableLines, firstStableIndex, Positions.filter_insertIdx_findIdx hstable]
    rfl
  · exact Positions.filter_not_insertIdx hstable _ _

/-! ## What the watchers do -/

/-- The version of the default line's tag. -/
def defaultVersion (doc : List VllmLine) : Option VllmVersion :=
  match CompatManifest.defaultLine ⟨doc⟩ with
  | .ok l => VllmVersion.parse l.tag
  | .error _ => none

/-- `tag` is a final release that the tags file lists at `rev`. -/
def Released (tagsFile : TagsFile) (tag : String) (v : VllmVersion) (rev : String) : Prop :=
  VllmVersion.parse tag = some v ∧ v.rc = none ∧
    (parseLsRemote tagsFile.text).get? tag = some rev

/-- A release of a line outside the window, newer than the default, enters as `entry`. -/
def Rolls (doc : List VllmLine) (tagsFile : TagsFile) (tag : String) (entry : VllmLine) : Prop :=
  ∃ v rev current, Released tagsFile tag v rev ∧
    CompatManifest.line ⟨doc⟩ v.minorLine = none ∧ defaultVersion doc = some current ∧
    current < v ∧ entry = ⟨v.minorLine, tag, rev, none, none, true⟩

/-- `l`, the first line with its label, is moved to another tag. -/
def Moves (doc doc' : List VllmLine) (l : VllmLine) (tag rev : String) : Prop :=
  ∃ before after, doc = before ++ l :: after ∧ (∀ x ∈ before, x.line ≠ l.line) ∧
    doc' = before ++ { l with tag := tag, protocolRev := rev } :: after

theorem watchRc_cases (files : WatchFiles) (tagsFile : TagsFile) (latestStable : String) :
    (watchRc files tagsFile latestStable).1 = files ∨
      ∃ stable tag rev l doc, VllmVersion.parse latestStable = some stable ∧
        pickLatestRc (parseLsRemote tagsFile.text) stable = some (tag, rev) ∧
        l.line = "rc" ∧ Moves files.compat doc l tag rev ∧
        (watchRc files tagsFile latestStable).1 = { files with compat := doc } := by
  rw [watchRc]
  cases hparse : VllmVersion.parse latestStable with
  | none => exact Or.inl rfl
  | some stable =>
    dsimp only
    cases hpick : pickLatestRc (parseLsRemote tagsFile.text) stable with
    | none => exact Or.inl rfl
    | some pinned =>
      obtain ⟨tag, rev⟩ := pinned
      dsimp only
      cases hset : applySetLine files.compat "rc" (some tag) (some rev) with
      | error e => exact Or.inl rfl
      | ok moved =>
        obtain ⟨doc, changed⟩ := moved
        obtain ⟨before, l, after, hdoc, hline, hbefore, hdoc', -⟩ := applySetLine_ok hset
        cases changed with
        | false => exact Or.inl rfl
        | true =>
          exact Or.inr ⟨stable, tag, rev, l, doc, rfl, hpick, hline,
            ⟨before, after, hdoc, by rwa [hline], hdoc'⟩, rfl⟩

section Stable

variable {upper : List Char → List Char} {files : WatchFiles} {tagsFile : TagsFile}
  {latestStable : String} {maxStable : ℕ}

theorem defaultLine_of_version {doc : List VllmLine} {current : VllmVersion}
    (h : defaultVersion doc = some current) :
    ∃ l, CompatManifest.defaultLine ⟨doc⟩ = .ok l ∧ VllmVersion.parse l.tag = some current := by
  rw [defaultVersion] at h
  cases hl : CompatManifest.defaultLine ⟨doc⟩ with
  | error e =>
    rw [hl] at h
    cases h
  | ok l =>
    rw [hl] at h
    exact ⟨l, rfl, h⟩

theorem roll_cases (upper : List Char → List Char) (files : WatchFiles) (v : VllmVersion)
    (latestStable rev : String) (maxStable : ℕ) :
    (roll upper files v latestStable rev maxStable).1 = files ∨
      ∃ current, defaultVersion files.compat = some current ∧ current < v ∧
        (roll upper files v latestStable rev maxStable).1.compat =
          applyRollStable files.compat v.minorLine latestStable rev maxStable := by
  rw [roll, defaultVersion]
  cases hdefault : CompatManifest.defaultLine ⟨files.compat⟩ with
  | error e => exact Or.inl rfl
  | ok l =>
    dsimp only
    cases hparse : VllmVersion.parse l.tag with
    | none => exact Or.inl rfl
    | some current =>
      dsimp only
      by_cases hle : v ≤ current
      · rw [if_pos hle]
        exact Or.inl rfl
      · rw [if_neg hle]
        refine Or.inr ⟨current, rfl, not_le.mp hle, ?_⟩
        cases CompatManifest.parse (applyRollStable files.compat v.minorLine latestStable rev
          maxStable) <;> rfl

theorem roll_of_newer {v current : VllmVersion} {rev : String}
    (hdefault : defaultVersion files.compat = some current) (hlt : current < v) :
    (roll upper files v latestStable rev maxStable).1.compat =
      applyRollStable files.compat v.minorLine latestStable rev maxStable := by
  obtain ⟨l, hl, hparse⟩ := defaultLine_of_version hdefault
  rw [roll, hl]
  dsimp only
  rw [hparse]
  dsimp only
  rw [if_neg (not_le.mpr hlt)]
  cases CompatManifest.parse (applyRollStable files.compat v.minorLine latestStable rev
    maxStable) <;> rfl

theorem patchBump_cases (files : WatchFiles) (existing : VllmLine) (v : VllmVersion)
    (latestStable rev : String) :
    (patchBump files existing v latestStable rev).1 = files ∨
      ∃ current l doc, VllmVersion.parse existing.tag = some current ∧ current < v ∧
        l.line = v.minorLine ∧ Moves files.compat doc l latestStable rev ∧
        (patchBump files existing v latestStable rev).1 = { files with compat := doc } := by
  rw [patchBump]
  cases hparse : VllmVersion.parse existing.tag with
  | none => exact Or.inl rfl
  | some current =>
    dsimp only
    by_cases hle : v ≤ current
    · rw [if_pos hle]
      exact Or.inl rfl
    · rw [if_neg hle]
      cases hset : applySetLine files.compat v.minorLine (some latestStable) (some rev) with
      | error e => exact Or.inl rfl
      | ok moved =>
        obtain ⟨doc, changed⟩ := moved
        obtain ⟨before, l, after, hdoc, hline, hbefore, hdoc', -⟩ := applySetLine_ok hset
        exact Or.inr ⟨current, l, doc, rfl, not_le.mp hle, hline,
          ⟨before, after, hdoc, by rwa [hline], hdoc'⟩, rfl⟩

/-- A run that reaches the manifest. -/
theorem watchStable_released {v : VllmVersion} {rev : String}
    (hvalid : CompatManifest.validate ⟨files.compat⟩ = .ok ())
    (h : Released tagsFile latestStable v rev) :
    watchStable upper files tagsFile latestStable maxStable =
      match CompatManifest.line ⟨files.compat⟩ v.minorLine with
      | some existing => patchBump files existing v latestStable rev
      | none => roll upper files v latestStable rev maxStable := by
  obtain ⟨hparse, hrc, hrev⟩ := h
  rw [watchStable, hparse]
  dsimp only
  rw [if_neg (by simp [hrc]), hrev, CompatManifest.parse_of_valid hvalid]

theorem watchStable_unreleased
    (h : ∀ v rev, ¬ Released tagsFile latestStable v rev) :
    (watchStable upper files tagsFile latestStable maxStable).1 = files := by
  rw [watchStable]
  cases hparse : VllmVersion.parse latestStable with
  | none => rfl
  | some v =>
    dsimp only
    by_cases hrc : v.rc.isSome = true
    · rw [if_pos hrc]
    · rw [if_neg hrc]
      cases hrev : (parseLsRemote tagsFile.text).get? latestStable with
      | none => rfl
      | some rev =>
        exact absurd ⟨hparse, by simpa using hrc, hrev⟩ (h v rev)

end Stable

/-! ## Windows are kept -/

namespace Moves

variable {doc doc' : List VllmLine} {l : VllmLine} {tag rev : String}

theorem line_eq (h : Moves doc doc' l tag rev) : CompatManifest.line ⟨doc⟩ l.line = some l := by
  obtain ⟨before, after, rfl, hbefore, -⟩ := h
  exact line_append after hbefore

theorem line_moved (h : Moves doc doc' l tag rev) :
    CompatManifest.line ⟨doc'⟩ l.line = some { l with tag := tag, protocolRev := rev } := by
  obtain ⟨before, after, -, hbefore, rfl⟩ := h
  exact line_append (l := { l with tag := tag, protocolRev := rev }) after hbefore

/-- A line moves among the lines of its kind. -/
theorem filter (h : Moves doc doc' l tag rev) (p : VllmLine → Bool)
    (hp : ∀ x y : VllmLine, x.line = y.line → p x = p y) :
    (p l = true → Moves (doc.filter p) (doc'.filter p) l tag rev) ∧
      (p l = false → doc'.filter p = doc.filter p) := by
  obtain ⟨before, after, rfl, hbefore, rfl⟩ := h
  have hmoved : p { l with tag := tag, protocolRev := rev } = p l := hp _ _ rfl
  constructor
  · intro hl
    refine ⟨before.filter p, after.filter p, ?_, fun x hx => hbefore x (List.mem_filter.mp hx).1,
      ?_⟩
    · simp [hl]
    · simp [hmoved, hl]
  · intro hl
    simp [hmoved, hl]

theorem map_eq (h : Moves doc doc' l tag rev) {α : Type*} (f : VllmLine → α)
    (hf : f { l with tag := tag, protocolRev := rev } = f l) : doc'.map f = doc.map f := by
  obtain ⟨before, after, rfl, -, rfl⟩ := h
  simp [hf]

end Moves

theorem VllmLine.isStable_congr {x y : VllmLine} (h : x.line = y.line) :
    x.isStable = y.isStable := by
  rw [isStable, isStable, isTracker, isTracker, h]

theorem Moves.kinds {doc doc' : List VllmLine} {l : VllmLine} {tag rev : String}
    (h : Moves doc doc' l tag rev) :
    (l.isStable = true → Moves (stableLines doc) (stableLines doc') l tag rev ∧
        trackerLines doc' = trackerLines doc) ∧
      (l.isStable = false → stableLines doc' = stableLines doc ∧
        Moves (trackerLines doc) (trackerLines doc') l tag rev) := by
  obtain ⟨hstable, hother⟩ := h.filter VllmLine.isStable (fun x y => VllmLine.isStable_congr)
  obtain ⟨htracker, hkept⟩ := h.filter (fun x => !x.isStable) (fun x y hxy => by
    rw [VllmLine.isStable_congr hxy])
  constructor
  · intro hl
    exact ⟨hstable hl, hkept (by simp [hl])⟩
  · intro hl
    exact ⟨hother hl, htracker (by simp [hl])⟩

/-- No version's line is a tracker. -/
theorem isStable_of_minorLine {l : VllmLine} {v : VllmVersion} (h : l.line = v.minorLine) :
    l.isStable = true := by
  have hdot : '.' ∈ l.line.toList := by
    rw [h, VllmVersion.toList_minorLine]
    simp
  rw [VllmLine.isStable, VllmLine.isTracker, Bool.not_eq_true', Bool.or_eq_false_iff,
    decide_eq_false_iff_not, decide_eq_false_iff_not]
  constructor
  · intro hline
    rw [hline] at hdot
    revert hdot
    decide
  · intro hline
    rw [hline] at hdot
    revert hdot
    decide

namespace WindowLines

variable {stable trackers : List VllmLine}

theorem move_tracker {trackers' : List VllmLine} {l : VllmLine} {tag rev : String}
    (hs : WindowLines stable trackers) (h : Moves trackers trackers' l tag rev) :
    WindowLines stable trackers' := by
  obtain ⟨before, after, rfl, -, rfl⟩ := h
  refine ⟨hs.labelled, hs.newestFirst, hs.defaultFirst, ?_, ?_⟩
  · have hundefaulted := hs.undefaulted
    simp only [List.forall_mem_append, List.forall_mem_cons] at hundefaulted ⊢
    exact hundefaulted
  · have hpaired := hs.paired
    simp only [List.forall_mem_append, List.forall_mem_cons] at hpaired ⊢
    exact hpaired

theorem move_stable {stable' : List VllmLine} {l : VllmLine} {tag rev : String}
    {v current : VllmVersion} (hs : WindowLines stable trackers)
    (h : Moves stable stable' l tag rev) (hline : l.line = v.minorLine)
    (hv : VllmVersion.parse tag = some v) (hcurrent : VllmVersion.parse l.tag = some current)
    (hlt : current < v) : WindowLines stable' trackers := by
  have hdefaults := h.map_eq VllmLine.default rfl
  obtain ⟨before, after, rfl, hbefore, rfl⟩ := h
  have hlabelled := hs.labelled
  have hpaired := hs.paired
  obtain ⟨hfirst, hrest, hacross⟩ := List.pairwise_append.mp hs.newestFirst
  obtain ⟨hbehind, hafter⟩ := List.pairwise_cons.mp hrest
  simp only [List.forall_mem_append, List.forall_mem_cons] at hlabelled hpaired
  obtain ⟨hlb, ⟨u, hu, hlu⟩, hla⟩ := hlabelled
  obtain rfl : current = u := Option.some.inj (hcurrent.symm.trans hu)
  refine ⟨?_, List.pairwise_append.mpr ⟨hfirst, List.pairwise_cons.mpr ⟨?_, hafter⟩, ?_⟩, ?_,
    hs.undefaulted, ?_⟩
  · simp only [List.forall_mem_append, List.forall_mem_cons]
    exact ⟨hlb, ⟨v, hv, hline⟩, hla⟩
  · rintro x hx
    obtain ⟨w, w', hw, hw', hlt'⟩ := hbehind x hx
    obtain rfl : current = w := Option.some.inj (hcurrent.symm.trans hw)
    exact ⟨v, w', hv, hw', hlt'.trans hlt⟩
  · intro x hx y hy
    rcases List.mem_cons.mp hy with rfl | hy
    · -- another line's release stays above every release of this line
      obtain ⟨w, w', hw, hw', hlt'⟩ := hacross x hx l List.mem_cons_self
      obtain ⟨t, ht, hxt⟩ := hlb x hx
      obtain rfl : current = w' := Option.some.inj (hcurrent.symm.trans hw')
      obtain rfl : w = t := Option.some.inj (hw.symm.trans ht)
      refine ⟨w, v, hw, hv, VllmVersion.lt_of_lines hlt' ?_ ?_⟩
      · rw [← hlu, ← hxt]
        exact fun hsame => hbefore x hx hsame.symm
      · rw [← hline, hlu]
    · exact hacross x hx y (List.mem_cons_of_mem _ hy)
  · obtain ⟨n, hn⟩ := hs.defaultFirst
    exact ⟨n, hdefaults.trans hn⟩
  · simp only [List.forall_mem_append, List.forall_mem_cons]
    exact hpaired

/-- The default's version is the newest. -/
theorem exists_default (hs : WindowLines stable trackers) :
    ∃ l rest v, stable = l :: rest ∧ l.default = true ∧ (∀ x ∈ rest, x.default = false) ∧
      VllmVersion.parse l.tag = some v ∧
      ∀ x ∈ stable, ∃ w, VllmVersion.parse x.tag = some w ∧ w ≤ v := by
  obtain ⟨n, hn⟩ := hs.defaultFirst
  cases stable with
  | nil => cases hn
  | cons l rest =>
    obtain ⟨v, hv, -⟩ := hs.labelled l List.mem_cons_self
    rw [List.map_cons, List.cons.injEq] at hn
    refine ⟨l, rest, v, rfl, hn.1, fun x hx => ?_, hv, fun x hx => ?_⟩
    · exact List.eq_of_mem_replicate (hn.2 ▸ List.mem_map_of_mem hx)
    · rcases List.mem_cons.mp hx with rfl | hx
      · exact ⟨v, hv, le_rfl⟩
      · obtain ⟨u, w, hu, hw, hlt⟩ := (List.pairwise_cons.mp hs.newestFirst).1 x hx
        obtain rfl : v = u := Option.some.inj (hv.symm.trans hu)
        exact ⟨w, hw, hlt.le⟩

/-- The new default and the old lines are newest first. -/
theorem newestFirst_roll {entry : VllmLine} {v current : VllmVersion}
    (hs : WindowLines stable trackers) (hv : VllmVersion.parse entry.tag = some v)
    (hle : ∀ x ∈ stable, ∃ w, VllmVersion.parse x.tag = some w ∧ w ≤ current) (hlt : current < v) :
    (entry :: stable.map VllmLine.demote).Pairwise VllmLine.Newer := by
  refine List.pairwise_cons.mpr ⟨fun y hy => ?_, List.pairwise_map.mpr hs.newestFirst⟩
  obtain ⟨x, hx, rfl⟩ := List.mem_map.mp hy
  obtain ⟨w, hw, hwle⟩ := hle x hx
  exact ⟨v, w, hv, hw, hwle.trans_lt hlt⟩

theorem roll {entry : VllmLine} {v : VllmVersion} {maxStable : ℕ}
    (hs : WindowLines stable trackers) (hmax : 1 ≤ maxStable) (hdefault : entry.default = true)
    (hpaired : entry.paired = true) (hv : VllmVersion.parse entry.tag = some v)
    (hline : entry.line = v.minorLine)
    (hnewest : (entry :: stable.map VllmLine.demote).Pairwise VllmLine.Newer) :
    WindowLines ((entry :: stable.map VllmLine.demote).take maxStable) trackers := by
  obtain ⟨m, rfl⟩ : ∃ m, maxStable = m + 1 := ⟨maxStable - 1, by omega⟩
  refine ⟨fun l hl => ?_, hnewest.sublist (List.take_sublist _ _), ?_, hs.undefaulted, ?_⟩
  · rcases List.mem_cons.mp (List.mem_of_mem_take hl) with rfl | hl
    · exact ⟨v, hv, hline⟩
    · obtain ⟨x, hx, rfl⟩ := List.mem_map.mp hl
      exact hs.labelled x hx
  · refine ⟨min m stable.length, ?_⟩
    have hdemoted : (stable.map VllmLine.demote).map VllmLine.default =
        List.replicate stable.length false := by
      rw [List.map_map, List.map_eq_replicate_iff]
      exact fun _ _ => rfl
    rw [List.take_succ_cons, List.map_cons, hdefault, List.map_take, hdemoted,
      List.take_replicate]
  · intro l hl
    rcases List.mem_append.mp hl with hl | hl
    · rcases List.mem_cons.mp (List.mem_of_mem_take hl) with rfl | hl
      · exact hpaired
      · obtain ⟨x, hx, rfl⟩ := List.mem_map.mp hl
        exact hs.paired x (List.mem_append_left _ hx)
    · exact hs.paired l (List.mem_append_right _ hl)

end WindowLines

/-- The default line is the first stable one. -/
theorem Window.defaultVersion_eq {doc : List VllmLine} (hw : Window doc) :
    ∃ l rest v, stableLines doc = l :: rest ∧ VllmVersion.parse l.tag = some v ∧
      defaultVersion doc = some v := by
  have hs := window_iff.mp hw
  obtain ⟨l, rest, v, hstable, hl, hrest, hv, -⟩ := hs.exists_default
  refine ⟨l, rest, v, hstable, hv, ?_⟩
  have hmem : l ∈ doc := mem_stable_or_tracker.mpr (by simp [hstable])
  have hfound : doc.find? VllmLine.default = some l := by
    cases hfind : doc.find? VllmLine.default with
    | none => exact absurd hl (by simpa using List.find?_eq_none.mp hfind l hmem)
    | some x =>
      have hx : x.default = true := List.find?_some hfind
      have hxmem := mem_stable_or_tracker.mp (List.mem_of_find?_eq_some hfind)
      rw [hstable, List.mem_append, List.mem_cons] at hxmem
      rcases hxmem with (rfl | hxrest) | hxtracker
      · rfl
      · rw [hrest x hxrest] at hx
        cases hx
      · rw [hs.undefaulted x hxtracker] at hx
        cases hx
  rw [defaultVersion, CompatManifest.defaultLine, hfound]
  exact hv

/-! ## Runs -/

/-- A run of `watch_rc` or `watch_stable` with its arguments. -/
inductive WatchRun where
  | rc (tagsFile : TagsFile) (latestStable : String)
  | stable (tagsFile : TagsFile) (latestStable : String) (maxStable : ℕ)

namespace WatchRun

/-- The window has room for a line. -/
def roomy : WatchRun → Prop
  | rc _ _ => True
  | stable _ _ maxStable => 1 ≤ maxStable

def after (upper : List Char → List Char) (files : WatchFiles) : WatchRun → WatchFiles
  | rc tagsFile latestStable => (watchRc files tagsFile latestStable).1
  | stable tagsFile latestStable maxStable =>
      (watchStable upper files tagsFile latestStable maxStable).1

/-- What a run does to the lines: `watch_rc` moves at most the rc line; `watch_stable` leaves the
trackers and, when it rolls, the newest of the old stable lines and the new one. -/
def Effect (doc doc' : List VllmLine) : WatchRun → Prop
  | rc _ _ => doc' = doc ∨ ∃ l tag rev, l.line = "rc" ∧ Moves doc doc' l tag rev
  | stable tagsFile latestStable maxStable =>
      trackerLines doc' = trackerLines doc ∧
      (∀ entry, Rolls doc tagsFile latestStable entry →
        (entry :: (stableLines doc).map VllmLine.demote).Pairwise VllmLine.Newer ∧
        stableLines doc' = (entry :: (stableLines doc).map VllmLine.demote).take maxStable) ∧
      ((¬ ∃ entry, Rolls doc tagsFile latestStable entry) →
        (stableLines doc').map VllmLine.line = (stableLines doc).map VllmLine.line)

end WatchRun

section Runs

variable (upper : List Char → List Char) {files : WatchFiles} {tagsFile : TagsFile}
  {latestStable : String}

/-- The runs of `watch_stable` from a window. -/
theorem watchStable_cases (hw : Window files.compat) (tagsFile : TagsFile) (latestStable : String)
    (maxStable : ℕ) :
    (watchStable upper files tagsFile latestStable maxStable).1 = files ∨
      (∃ v rev l current doc, Released tagsFile latestStable v rev ∧ l.line = v.minorLine ∧
        VllmVersion.parse l.tag = some current ∧ current < v ∧
        Moves files.compat doc l latestStable rev ∧
        (watchStable upper files tagsFile latestStable maxStable).1 =
          { files with compat := doc }) ∨
      ∃ v rev, Released tagsFile latestStable v rev ∧
        Rolls files.compat tagsFile latestStable ⟨v.minorLine, latestStable, rev, none, none, true⟩ ∧
        (watchStable upper files tagsFile latestStable maxStable).1.compat =
          applyRollStable files.compat v.minorLine latestStable rev maxStable := by
  by_cases hreleased : ∃ v rev, Released tagsFile latestStable v rev
  · obtain ⟨v, rev, hreleased⟩ := hreleased
    rw [watchStable_released hw.valid hreleased]
    cases hline : CompatManifest.line ⟨files.compat⟩ v.minorLine with
    | some existing =>
      rcases patchBump_cases files existing v latestStable rev with hsame | hmove
      · exact Or.inl hsame
      · obtain ⟨current, l, doc, hcurrent, hlt, hl, hmoves, hafter⟩ := hmove
        have hfound := hmoves.line_eq
        rw [hl, hline] at hfound
        obtain rfl := Option.some.inj hfound
        exact Or.inr (Or.inl ⟨v, rev, existing, current, doc, hreleased, hl, hcurrent, hlt,
          hmoves, hafter⟩)
    | none =>
      rcases roll_cases upper files v latestStable rev maxStable with hsame | hroll
      · exact Or.inl hsame
      · obtain ⟨current, hcurrent, hlt, hafter⟩ := hroll
        exact Or.inr (Or.inr ⟨v, rev, hreleased,
          ⟨v, rev, current, hreleased, hline, hcurrent, hlt, rfl⟩, hafter⟩)
  · exact Or.inl (watchStable_unreleased (fun v rev h => hreleased ⟨v, rev, h⟩))

theorem Released.unique {v v' : VllmVersion} {rev rev' : String}
    (h : Released tagsFile latestStable v rev) (h' : Released tagsFile latestStable v' rev') :
    v = v' ∧ rev = rev' :=
  ⟨Option.some.inj (h.1.symm.trans h'.1), Option.some.inj (h.2.2.symm.trans h'.2.2)⟩

theorem Rolls.unique {doc : List VllmLine} {entry entry' : VllmLine}
    (h : Rolls doc tagsFile latestStable entry) (h' : Rolls doc tagsFile latestStable entry') :
    entry = entry' := by
  obtain ⟨v, rev, _, hreleased, -, -, -, rfl⟩ := h
  obtain ⟨v', rev', _, hreleased', -, -, -, rfl⟩ := h'
  obtain ⟨rfl, rfl⟩ := hreleased.unique hreleased'
  rfl

/-- What a roll leaves. -/
theorem Rolls.kinds {entry : VllmLine} (h : Rolls files.compat tagsFile latestStable entry)
    (hw : Window files.compat) (maxStable : ℕ) :
    (entry :: (stableLines files.compat).map VllmLine.demote).Pairwise VllmLine.Newer ∧
      stableLines (watchStable upper files tagsFile latestStable maxStable).1.compat =
        (entry :: (stableLines files.compat).map VllmLine.demote).take maxStable ∧
      trackerLines (watchStable upper files tagsFile latestStable maxStable).1.compat =
        trackerLines files.compat := by
  obtain ⟨v, rev, current, hreleased, hline, hcurrent, hlt, rfl⟩ := h
  have hs := window_iff.mp hw
  obtain ⟨l, rest, u, hstable, hu, hversion⟩ := hw.defaultVersion_eq
  obtain ⟨l', rest', u', hstable', -, -, hu', hle⟩ := hs.exists_default
  rw [hstable] at hstable'
  obtain ⟨rfl, -⟩ := List.cons.inj hstable'
  obtain rfl : u = u' := Option.some.inj (hu.symm.trans hu')
  obtain rfl : current = u := Option.some.inj (hcurrent.symm.trans hversion)
  have hafter : (watchStable upper files tagsFile latestStable maxStable).1.compat =
      applyRollStable files.compat v.minorLine latestStable rev maxStable := by
    rw [watchStable_released hw.valid hreleased, hline]
    exact roll_of_newer hcurrent hlt
  rw [hafter]
  exact ⟨hs.newestFirst_roll hreleased.1 hle hlt,
    applyRollStable_kinds maxStable (isStable_of_minorLine rfl) hs.undefaulted⟩

/-- A release the window is at changes nothing. -/
theorem watchStable_settled (files : WatchFiles) (l : VllmLine) {v : VllmVersion} (hw : Window files.compat)
    (hv : VllmVersion.parse latestStable = some v) (hl : VllmVersion.parse l.tag = some v)
    (hline : CompatManifest.line ⟨files.compat⟩ v.minorLine = some l) (tagsFile : TagsFile)
    (maxStable : ℕ) :
    (watchStable upper files tagsFile latestStable maxStable).1 = files := by
  rcases watchStable_cases upper hw tagsFile latestStable maxStable with hsame | hmove | hroll
  · exact hsame
  · obtain ⟨v', rev, l', current, doc, hreleased, hl', hcurrent, hlt, hmoves, -⟩ := hmove
    obtain rfl : v = v' := Option.some.inj (hv.symm.trans hreleased.1)
    have hfound := hmoves.line_eq
    rw [hl', hline] at hfound
    obtain rfl := Option.some.inj hfound
    obtain rfl : v = current := Option.some.inj (hl.symm.trans hcurrent)
    exact absurd hlt (lt_irrefl _)
  · obtain ⟨v', rev, hreleased, ⟨v'', rev', _, hreleased', hnone, -, -, -⟩, -⟩ := hroll
    obtain rfl : v = v'' := Option.some.inj (hv.symm.trans hreleased'.1)
    rw [hline] at hnone
    cases hnone

/-- A version's line is looked up among the stable ones. -/
theorem line_eq_find?_stable (doc : List VllmLine) (v : VllmVersion) :
    CompatManifest.line ⟨doc⟩ v.minorLine =
      (stableLines doc).find? (fun l => l.line = v.minorLine) := by
  rw [CompatManifest.line, stableLines, List.find?_filter]
  congr 1
  funext l
  by_cases hl : l.line = v.minorLine
  · simp [hl, isStable_of_minorLine hl]
  · simp [hl]

namespace WatchRun

variable (run : WatchRun)

theorem window (hw : Window files.compat) (hrun : run.roomy) :
    Window (run.after upper files).compat := by
  have hs := window_iff.mp hw
  cases run with
  | rc tagsFile latestStable =>
    rcases watchRc_cases files tagsFile latestStable with hsame | hmove
    · rw [after, hsame]
      exact hw
    · obtain ⟨stable, tag, rev, l, doc, -, -, hl, hmoves, hafter⟩ := hmove
      have htracker : l.isStable = false := by simp [VllmLine.isStable, VllmLine.isTracker, hl]
      obtain ⟨hstable, htrackers⟩ := hmoves.kinds.2 htracker
      rw [after, hafter]
      change Window doc
      rw [window_iff, hstable]
      exact hs.move_tracker htrackers
  | stable tagsFile latestStable maxStable =>
    rcases watchStable_cases upper hw tagsFile latestStable maxStable with hsame | hmove | hroll
    · rw [after, hsame]
      exact hw
    · obtain ⟨v, rev, l, current, doc, hreleased, hl, hcurrent, hlt, hmoves, hafter⟩ := hmove
      obtain ⟨hstable, htrackers⟩ := hmoves.kinds.1 (isStable_of_minorLine hl)
      rw [after, hafter]
      change Window doc
      rw [window_iff, htrackers]
      exact hs.move_stable hstable hl hreleased.1 hcurrent hlt
    · obtain ⟨v, rev, hreleased, hrolls, -⟩ := hroll
      obtain ⟨hnewest, hstable, htrackers⟩ :=
        hrolls.kinds upper hw maxStable
      rw [window_iff, after, hstable, htrackers]
      exact hs.roll hrun rfl rfl hreleased.1 rfl hnewest

theorem nodup_lines (hw : Window files.compat)
    (hlines : ((stableLines files.compat).map VllmLine.line).Nodup) :
    ((stableLines (run.after upper files).compat).map VllmLine.line).Nodup := by
  cases run with
  | rc tagsFile latestStable =>
    rcases watchRc_cases files tagsFile latestStable with hsame | hmove
    · rw [after, hsame]
      exact hlines
    · obtain ⟨stable, tag, rev, l, doc, -, -, hl, hmoves, hafter⟩ := hmove
      have htracker : l.isStable = false := by simp [VllmLine.isStable, VllmLine.isTracker, hl]
      rw [after, hafter]
      change ((stableLines doc).map VllmLine.line).Nodup
      rw [(hmoves.kinds.2 htracker).1]
      exact hlines
  | stable tagsFile latestStable maxStable =>
    rcases watchStable_cases upper hw tagsFile latestStable maxStable with hsame | hmove | hroll
    · rw [after, hsame]
      exact hlines
    · obtain ⟨v, rev, l, current, doc, -, hl, -, -, hmoves, hafter⟩ := hmove
      rw [after, hafter]
      change ((stableLines doc).map VllmLine.line).Nodup
      rw [(hmoves.kinds.1 (isStable_of_minorLine hl)).1.map_eq VllmLine.line rfl]
      exact hlines
    · obtain ⟨v, rev, hreleased, hrolls, -⟩ := hroll
      obtain ⟨-, hstable, -⟩ := hrolls.kinds upper hw maxStable
      obtain ⟨v', rev', _, hreleased', hnone, -, -, -⟩ := hrolls
      obtain ⟨rfl, -⟩ := hreleased.unique hreleased'
      rw [line_eq_find?_stable, List.find?_eq_none] at hnone
      have hfresh : ((⟨v.minorLine, latestStable, rev, none, none, true⟩ ::
          (stableLines files.compat).map VllmLine.demote).map VllmLine.line).Nodup := by
        rw [List.map_cons, List.map_map]
        refine List.nodup_cons.mpr ⟨fun hmem => ?_, hlines⟩
        obtain ⟨l, hl, hline⟩ := List.mem_map.mp hmem
        exact hnone l hl (by simpa [VllmLine.demote] using hline)
      rw [after, hstable, List.map_take]
      exact hfresh.sublist (List.take_sublist _ _)

/-- The default only moves to newer releases. -/
theorem defaultVersion_mono (hw : Window files.compat) (hrun : run.roomy) :
    ∃ v v', defaultVersion files.compat = some v ∧
      defaultVersion (run.after upper files).compat = some v' ∧ v ≤ v' := by
  obtain ⟨l, rest, v, hstable, hv, hversion⟩ := hw.defaultVersion_eq
  obtain ⟨l', rest', v', hstable', hv', hversion'⟩ :=
    (run.window upper hw hrun).defaultVersion_eq
  refine ⟨v, v', hversion, hversion', ?_⟩
  -- the same first stable line has the same version
  have hkept : l' = l → v ≤ v' := by
    rintro rfl
    exact (Option.some.inj (hv.symm.trans hv')).le
  cases run with
  | rc tagsFile latestStable =>
    rcases watchRc_cases files tagsFile latestStable with hsame | hmove
    · rw [after, hsame, hstable] at hstable'
      exact hkept (List.cons.inj hstable').1.symm
    · obtain ⟨stable, tag, rev, m, doc, -, -, hm, hmoves, hafter⟩ := hmove
      have htracker : m.isStable = false := by simp [VllmLine.isStable, VllmLine.isTracker, hm]
      rw [after, hafter] at hstable'
      change stableLines doc = l' :: rest' at hstable'
      rw [(hmoves.kinds.2 htracker).1, hstable] at hstable'
      exact hkept (List.cons.inj hstable').1.symm
  | stable tagsFile latestStable maxStable =>
    rcases watchStable_cases upper hw tagsFile latestStable maxStable with hsame | hmove | hroll
    · rw [after, hsame, hstable] at hstable'
      exact hkept (List.cons.inj hstable').1.symm
    · obtain ⟨w, rev, m, current, doc, hreleased, hm, hcurrent, hlt, hmoves, hafter⟩ := hmove
      rw [after, hafter] at hstable'
      change stableLines doc = l' :: rest' at hstable'
      obtain ⟨before, behind, hbefore, -, hmoved⟩ :=
        (hmoves.kinds.1 (isStable_of_minorLine hm)).1
      rw [hstable] at hbefore
      rw [hstable'] at hmoved
      cases before with
      | nil =>
        -- the default's own line moves up
        obtain ⟨rfl, -⟩ := List.cons.inj hbefore
        obtain ⟨rfl, -⟩ := List.cons.inj hmoved
        obtain rfl : v = current := Option.some.inj (hv.symm.trans hcurrent)
        obtain rfl : w = v' := Option.some.inj (hreleased.1.symm.trans hv')
        exact hlt.le
      | cons first before =>
        obtain ⟨rfl, -⟩ := List.cons.inj hbefore
        exact hkept (List.cons.inj hmoved).1
    · obtain ⟨w, rev, hreleased, hrolls, -⟩ := hroll
      obtain ⟨-, hrolled, -⟩ := hrolls.kinds upper hw maxStable
      obtain ⟨w', rev', current, hreleased', -, hcurrent, hlt, -⟩ := hrolls
      obtain ⟨rfl, -⟩ := hreleased.unique hreleased'
      obtain ⟨m, rfl⟩ : ∃ m, maxStable = m + 1 := ⟨maxStable - 1, by
        have : 1 ≤ maxStable := hrun
        omega⟩
      rw [after, hrolled, List.take_succ_cons] at hstable'
      obtain ⟨rfl, -⟩ := List.cons.inj hstable'
      obtain rfl : w = v' := Option.some.inj (hreleased.1.symm.trans hv')
      obtain rfl : v = current := Option.some.inj (hversion.symm.trans hcurrent)
      exact hlt.le

theorem effect (hw : Window files.compat) :
    run.Effect files.compat (run.after upper files).compat := by
  cases run with
  | rc tagsFile latestStable =>
    rcases watchRc_cases files tagsFile latestStable with hsame | hmove
    · rw [after, hsame]
      exact Or.inl rfl
    · obtain ⟨stable, tag, rev, l, doc, -, -, hl, hmoves, hafter⟩ := hmove
      rw [after, hafter]
      exact Or.inr ⟨l, tag, rev, hl, hmoves⟩
  | stable tagsFile latestStable maxStable =>
    have hrolls : ∀ entry, Rolls files.compat tagsFile latestStable entry → _ :=
      fun entry h => h.kinds upper hw maxStable
    rcases watchStable_cases upper hw tagsFile latestStable maxStable with hsame | hmove | hroll
    · refine ⟨?_, fun entry h => ⟨(hrolls entry h).1, (hrolls entry h).2.1⟩, fun _ => ?_⟩
      · rw [after, hsame]
      · rw [after, hsame]
    · obtain ⟨v, rev, l, current, doc, -, hl, -, -, hmoves, hafter⟩ := hmove
      obtain ⟨hstable, htrackers⟩ := hmoves.kinds.1 (isStable_of_minorLine hl)
      refine ⟨?_, fun entry h => ⟨(hrolls entry h).1, (hrolls entry h).2.1⟩, fun _ => ?_⟩
      · rw [after, hafter]
        exact htrackers
      · rw [after, hafter]
        exact hstable.map_eq VllmLine.line rfl
    · obtain ⟨v, rev, -, hroll, -⟩ := hroll
      exact ⟨(hrolls _ hroll).2.2, fun entry h => ⟨(hrolls entry h).1, (hrolls entry h).2.1⟩,
        fun hnone => absurd ⟨_, hroll⟩ hnone⟩

/-- Run again with the same arguments, a watcher finds what it pinned. -/
theorem after_after (hw : Window files.compat) (hrun : run.roomy) :
    run.after upper (run.after upper files) = run.after upper files := by
  have hw' := run.window upper hw hrun
  cases run with
  | rc tagsFile latestStable =>
    rcases watchRc_cases files tagsFile latestStable with hsame | hmove
    · rw [after, after, hsame, hsame]
    · obtain ⟨stable, tag, rev, l, doc, hparse, hpick, hl, hmoves, hafter⟩ := hmove
      rw [after, after, hafter]
      obtain ⟨before, behind, -, hbefore, rfl⟩ := hmoves
      obtain ⟨line, oldTag, oldRev, repo, patch, isDefault⟩ := l
      dsimp only at hl
      subst hl
      have hset := applySetLine_append (l := ⟨"rc", tag, rev, repo, patch, isDefault⟩) behind
        tag rev hbefore
      rw [watchRc, hparse]
      dsimp only
      rw [hpick]
      dsimp only
      rw [hset]
      simp
  | stable tagsFile latestStable maxStable =>
    rcases watchStable_cases upper hw tagsFile latestStable maxStable with hsame | hmove | hroll
    · rw [after, after, hsame, hsame]
    · obtain ⟨v, rev, l, current, doc, hreleased, hl, -, -, hmoves, hafter⟩ := hmove
      have hline := hmoves.line_moved
      rw [hl] at hline
      rw [after, hafter] at hw'
      rw [after, after, hafter]
      exact watchStable_settled upper ⟨doc, files.manifest⟩
        { l with line := v.minorLine, tag := latestStable, protocolRev := rev } hw' hreleased.1
        hreleased.1 hline tagsFile maxStable
    · obtain ⟨v, rev, hreleased, hrolls, -⟩ := hroll
      obtain ⟨-, hrolled, -⟩ := hrolls.kinds upper hw maxStable
      obtain ⟨m, rfl⟩ : ∃ m, maxStable = m + 1 := ⟨maxStable - 1, by
        have : 1 ≤ maxStable := hrun
        omega⟩
      rw [after] at hw'
      rw [after, after]
      refine watchStable_settled upper _ ⟨v.minorLine, latestStable, rev, none, none, true⟩ hw'
        hreleased.1 hreleased.1 ?_ tagsFile (m + 1)
      rw [line_eq_find?_stable, hrolled, List.take_succ_cons, List.find?_cons_of_pos (by simp)]

end WatchRun

/-- The files a sequence of runs leaves. -/
def watched (files : WatchFiles) (runs : List WatchRun) :
    WatchFiles :=
  runs.foldl (fun files run => run.after upper files) files

theorem watched_kept (hw : Window files.compat) {runs : List WatchRun}
    (hruns : ∀ run ∈ runs, run.roomy) :
    Window (watched upper files runs).compat ∧
      (((stableLines files.compat).map VllmLine.line).Nodup →
        ((stableLines (watched upper files runs).compat).map VllmLine.line).Nodup) := by
  induction runs generalizing files with
  | nil => exact ⟨hw, fun h => h⟩
  | cons run runs ih =>
    obtain ⟨hrun, hrest⟩ := List.forall_mem_cons.mp hruns
    obtain ⟨hwindow, hlines⟩ := ih (run.window upper hw hrun) hrest
    exact ⟨hwindow, fun h => hlines (run.nodup_lines upper hw h)⟩

/-- After any sequence of runs, one more run keeps the window, leaves what it says it leaves, and
changes nothing when it is repeated. -/
theorem supportWindow_kept (files : WatchFiles)
    (runs : List WatchRun) (run : WatchRun) (hw : Window files.compat)
    (hruns : ∀ run ∈ runs, run.roomy) (hrun : run.roomy) :
    let before := watched upper files runs
    let after := run.after upper before
    Window after.compat ∧
    (((stableLines files.compat).map VllmLine.line).Nodup →
      ((stableLines after.compat).map VllmLine.line).Nodup) ∧
    (∃ v v', defaultVersion before.compat = some v ∧ defaultVersion after.compat = some v' ∧
      v ≤ v') ∧
    run.Effect before.compat after.compat ∧ run.after upper after = after := by
  obtain ⟨hwindow, hlines⟩ := watched_kept upper hw hruns
  exact ⟨run.window upper hwindow hrun, fun h => run.nodup_lines upper hwindow (hlines h),
    run.defaultVersion_mono upper hwindow hrun, run.effect upper hwindow, run.after_after upper hwindow hrun⟩

end Runs

/-! ## A window of three lines -/

def threeLines : List VllmLine := [
  { line := "nightly", tag := "nightly", protocolRev := "ef93" },
  { line := "rc", tag := "v0.32.1rc0", protocolRev := "2365" },
  { line := "0.33", tag := "v0.33.0", protocolRev := "4ba7", default := true },
  { line := "0.32", tag := "v0.32.0", protocolRev := "5df6" },
  { line := "0.31", tag := "v0.31.0", protocolRev := "db95" }]

/-- A patch release of an old line, then a new line. -/
def releases : List WatchRun := [
  .stable ⟨"tags", "aa\trefs/tags/v0.32.1".toList⟩ "v0.32.1" 3,
  .stable ⟨"tags", "bb\trefs/tags/v0.34.0".toList⟩ "v0.34.0" 3]

/-- The next release's first candidate. -/
def candidate : WatchRun := .rc ⟨"tags", "cc\trefs/tags/v0.35.0rc1".toList⟩ "v0.34.0"

theorem threeLines_window : Window threeLines := by decide +kernel

/-- The patched line has moved, the oldest is gone, and the candidate is tracked. -/
example : ((candidate.after id (watched id ⟨threeLines, none⟩ releases)).compat.map
    VllmLine.tag) = ["nightly", "v0.35.0rc1", "v0.34.0", "v0.33.0", "v0.32.1"] := by
  decide +kernel

theorem roomy_three {tagsFile : TagsFile} {latestStable : String} :
    (WatchRun.stable tagsFile latestStable 3).roomy := by
  change 1 ≤ 3
  omega

theorem supportWindow_kept_releases :
    let before := watched id ⟨threeLines, none⟩ releases
    let after := candidate.after id before
    Window after.compat ∧
    (((stableLines threeLines).map VllmLine.line).Nodup →
      ((stableLines after.compat).map VllmLine.line).Nodup) ∧
    (∃ v v', defaultVersion before.compat = some v ∧ defaultVersion after.compat = some v' ∧
      v ≤ v') ∧
    candidate.Effect before.compat after.compat ∧ candidate.after id after = after :=
  supportWindow_kept id ⟨threeLines, none⟩ releases candidate threeLines_window
    (List.forall_mem_cons.mpr ⟨roomy_three, List.forall_mem_cons.mpr ⟨roomy_three, by simp⟩⟩)
    trivial

end VllmVcr
