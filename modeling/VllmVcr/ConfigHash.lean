import VllmVcr.Separators

/-!
# The configuration fingerprint

The deployment inputs that decide whether a captured trace may be replayed, and the string of
them that is hashed. SHA-256 enters as a function on strings.
-/

namespace VllmVcr

/-- `SCHEME`, the version of the canonical form. -/
def fingerprintScheme : String := "config-fingerprint-v3"

@[ext] structure ConfigFingerprint where
  gpu : String
  vllmTag : String
  engineConfig : String
  deriving DecidableEq

namespace ConfigFingerprint

/-- The string that gets hashed. -/
def canonical (f : ConfigFingerprint) : String :=
  fingerprintScheme ++ "\n" ++ ("gpu=" ++ f.gpu ++ "\n") ++ ("vllm_tag=" ++ f.vllmTag ++ "\n") ++
    ("engine_config=" ++ f.engineConfig ++ "\n")

def hash (sha256Hex : String → String) (f : ConfigFingerprint) : String := sha256Hex f.canonical

def tagLabel : List Char := "vllm_tag=".toList

def configLabel : List Char := "engine_config=".toList

/-- No value holds the label of a later field where a line starts. The value of `engine_config`
may hold that of `vllm_tag`, and that of `gpu` the one of `engine_config`. -/
structure Plain (f : ConfigFingerprint) : Prop where
  gpu : ¬ '\n' :: tagLabel <:+: f.gpu.toList
  vllmTag : ¬ '\n' :: tagLabel <:+: f.vllmTag.toList
  vllmTagConfig : ¬ '\n' :: configLabel <:+: f.vllmTag.toList
  engineConfig : ¬ '\n' :: configLabel <:+: f.engineConfig.toList

theorem canonical_eq_iff {f f' : ConfigFingerprint} : f.canonical = f'.canonical ↔
    f.gpu.toList ++ ('\n' :: tagLabel ++ (f.vllmTag.toList ++
        ('\n' :: configLabel ++ f.engineConfig.toList))) =
      f'.gpu.toList ++ ('\n' :: tagLabel ++ (f'.vllmTag.toList ++
        ('\n' :: configLabel ++ f'.engineConfig.toList))) := by
  have hbreak : "\n".toList = ['\n'] := rfl
  have hfields : ∀ scheme gpuLabel tagLabel configLabel gpu tag config : String,
      (scheme ++ "\n" ++ (gpuLabel ++ gpu ++ "\n") ++ (tagLabel ++ tag ++ "\n") ++
        (configLabel ++ config ++ "\n")).toList =
      (scheme.toList ++ '\n' :: gpuLabel.toList) ++ ((gpu.toList ++ ('\n' :: tagLabel.toList ++
        (tag.toList ++ ('\n' :: configLabel.toList ++ config.toList)))) ++ ['\n']) := by
    intro scheme gpuLabel tagLabel configLabel gpu tag config
    simp only [String.toList_append, hbreak, List.append_assoc, List.cons_append, List.nil_append]
  have htext : ∀ f : ConfigFingerprint, f.canonical.toList =
      (fingerprintScheme.toList ++ '\n' :: "gpu=".toList) ++ ((f.gpu.toList ++
        ('\n' :: tagLabel ++ (f.vllmTag.toList ++
          ('\n' :: configLabel ++ f.engineConfig.toList)))) ++ ['\n']) :=
    fun f => hfields _ _ _ _ _ _ _
  rw [← String.toList_inj, htext f, htext f', List.append_cancel_left_eq,
    List.append_cancel_right_eq]

theorem canonical_unique_iff (f : ConfigFingerprint) :
    (∀ f' : ConfigFingerprint, f.canonical = f'.canonical → f = f') ↔ f.Plain := by
  have htag : '\n' ∉ tagLabel := by decide
  have hconfig : '\n' ∉ configLabel := by decide
  have hne : ∀ b c, '\n' :: tagLabel ++ b ≠ '\n' :: configLabel ++ c := by
    intro b c heq
    obtain ⟨_, hlabels⟩ := List.cons.inj heq
    obtain ⟨hfirst, _⟩ := List.cons.inj (hlabels : 'v' :: _ = 'e' :: _)
    exact absurd hfirst (by decide)
  have hunique := Separators.triple_unique_iff (g := f.gpu.toList) (t := f.vllmTag.toList)
    (e := f.engineConfig.toList) htag hconfig hne
  constructor
  · intro h
    obtain ⟨h₁, h₂, h₃, h₄⟩ := hunique.mp (fun x y z heq => by
      have hsame := h ⟨.ofList x, .ofList y, .ofList z⟩ (canonical_eq_iff.mpr (by simpa using heq))
      rw [ConfigFingerprint.ext_iff] at hsame
      obtain ⟨hx, hy, hz⟩ := hsame
      exact ⟨by simp [hx], by simp [hy], by simp [hz]⟩)
    exact ⟨h₁, h₂, h₃, h₄⟩
  · rintro ⟨h₁, h₂, h₃, h₄⟩ f' heq
    obtain ⟨hx, hy, hz⟩ := hunique.mpr ⟨h₁, h₂, h₃, h₄⟩ _ _ _ (canonical_eq_iff.mp heq)
    exact ConfigFingerprint.ext (String.toList_inj.mp hx) (String.toList_inj.mp hy)
      (String.toList_inj.mp hz)

/-- A fingerprint shares its canonical form and its hash with no other exactly when its values
hold no field label. -/
theorem fingerprint_unambiguous_iff {sha256Hex : String → String}
    (hsha : Function.Injective sha256Hex) (f : ConfigFingerprint) :
    ((∀ f' : ConfigFingerprint, f.canonical = f'.canonical → f = f') ↔ f.Plain) ∧
      ((∀ f' : ConfigFingerprint, f.hash sha256Hex = f'.hash sha256Hex → f = f') ↔ f.Plain) := by
  refine ⟨f.canonical_unique_iff, ?_⟩
  rw [← canonical_unique_iff]
  constructor
  · exact fun h f' heq => h f' (congrArg sha256Hex heq)
  · exact fun h f' heq => h f' (hsha heq)

def sample : ConfigFingerprint where
  gpu := "H200"
  vllmTag := "v0.23.0"
  engineConfig := "block_size=16;enforce_eager=true"

theorem sample_plain : sample.Plain where
  gpu := by decide
  vllmTag := by decide
  vllmTagConfig := by decide
  engineConfig := by decide

/-- The same on another GPU. -/
def sampleH100 : ConfigFingerprint := { sample with gpu := "H100" }

/-- SHA-256 on the two samples, and no digest elsewhere. -/
def sampleSha256 (text : String) : String :=
  if text = sample.canonical then
    "7958e7e6665e3fae4341fdba95fa884a98390807362579294e417f7706014be9"
  else if text = sampleH100.canonical then
    "d833e0c7ecf0f34821064a7769b87afd1e412f9e668453c98bb1ea2931c8f6ac"
  else "-" ++ text

theorem sampleSha256_injective : Function.Injective sampleSha256 := by
  have hdigest : ∀ {digest text : String}, digest.toList.head? ≠ some '-' →
      digest ≠ "-" ++ text := by
    intro digest text hhead heq
    rw [heq, String.toList_append] at hhead
    exact hhead rfl
  intro text text' h
  rw [sampleSha256, sampleSha256] at h
  split at h
  · next hfirst =>
      split at h
      · next hfirst' => exact hfirst.trans hfirst'.symm
      · split at h
        · exact absurd h (by decide)
        · exact absurd h (hdigest (by decide))
  · split at h
    · next hsecond =>
        split at h
        · exact absurd h (by decide)
        · split at h
          · next hsecond' => exact hsecond.trans hsecond'.symm
          · exact absurd h (hdigest (by decide))
    · split at h
      · exact absurd h.symm (hdigest (by decide))
      · split at h
        · exact absurd h.symm (hdigest (by decide))
        · exact (String.append_right_inj _).mp h

theorem sample_unambiguous : sample.Plain ∧
    ∀ f : ConfigFingerprint, sample.hash sampleSha256 = f.hash sampleSha256 → sample = f :=
  ⟨sample_plain,
    (fingerprint_unambiguous_iff sampleSha256_injective sample).2.mpr sample_plain⟩

/-- A line break and a label in the GPU's name take over the next field. -/
theorem canonical_bleeds : ¬ Function.Injective canonical := by
  intro hinjective
  have hsame : canonical ⟨"H200\nvllm_tag=a", "b", ""⟩ = canonical ⟨"H200", "a\nvllm_tag=b", ""⟩ := by
    decide
  have hgpu := congrArg ConfigFingerprint.gpu (hinjective hsame)
  exact absurd hgpu (by decide)

end ConfigFingerprint

end VllmVcr
