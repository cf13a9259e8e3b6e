import Mathlib.Algebra.Order.Field.Basic
import Mathlib.Algebra.Order.Ring.Rat
import Mathlib.Tactic.Linarith
import Mathlib.Tactic.Positivity
import VllmVcr.Engine.Caps
import VllmVcr.Engine.Lives
import VllmVcr.Engine.Reception

/-!
# The load of the batch

What the engine reads of its load while it runs: the batch in which `schedule` admits a
request, and the running count that an admission, a composed step and a completed step
pass to the latency model. The admission check counts generating requests; the running
count covers the whole batch, finished requests that wait for their emissions included.
-/

namespace VllmVcr

variable {env : Env}

namespace SimEngine

/-! ## Where requests are admitted -/

/-- At most `n` requests are in the batch or pull, and no call passed the latency model a count
above `n`. -/
structure Within (n : ℕ) (e : SimEngine env) : Prop where
  running : e.numRunning ≤ n
  loads : ∀ m ∈ e.loads, m ≤ n

end SimEngine

/-- From a batch of at most `n`, with room at every admission, no call passes more than `n`. -/
def Priced (n : ℕ) (e : SimEngine env) (us : List (SimEngine env)) (e' : SimEngine env) : Prop :=
  e.Within n → (∀ u ∈ us, u.numRunning < n) → e'.Within n

namespace Priced

variable {n : ℕ} {e e' e'' : SimEngine env} {us us' : List (SimEngine env)}

/-- The batch shrinks or stays, and the calls made pass its size. -/
theorem frame (h : e'.numRunning ≤ e.numRunning)
    (hloads : ∀ m ∈ e'.loads, m ∈ e.loads ∨ m = e.numRunning) : Priced n e [] e' := by
  intro he _
  refine ⟨h.trans he.running, fun m hm => ?_⟩
  rcases hloads m hm with hold | rfl
  · exact he.loads m hold
  · exact he.running

theorem quiet (h : e'.numRunning ≤ e.numRunning) (hloads : e'.loads = e.loads) :
    Priced n e [] e' :=
  frame h (fun _ hm => Or.inl (hloads ▸ hm))

theorem trans (h : Priced n e us e') (h' : Priced n e' us' e'') :
    Priced n e (us ++ us') e'' := by
  intro he hroom
  have hmid := h he (fun u hu => hroom u (List.mem_append_left _ hu))
  exact h' hmid (fun u hu => hroom u (List.mem_append_right _ hu))

theorem after (h : Priced n e [] e') (h' : Priced n e' us e'') : Priced n e us e'' := by
  simpa using h.trans h'

theorem before (h : Priced n e us e') (h' : Priced n e' [] e'') : Priced n e us e'' := by
  simpa using h.trans h'

end Priced

/-! ## What the latency model is asked with -/

namespace SimEngine

variable {n : ℕ} {now : Instant} {e e' : SimEngine env}

end SimEngine

/-! ## The load factor -/

/-- The knob model of the options prices `n` slots up to the factor `f`. -/
structure Opt.Loads (opt : Opt) (n : ℕ) (f : ℚ) : Prop where
  slots : opt.maxNumSeqs = n
  factor : opt.timeFactorUnderLoad = f

theorem Opt.Loads.apply {opt : Opt} {n : ℕ} {f : ℚ} (h : opt.Loads n f) {patch : ConfigPatch}
    (hslots : ∀ m, patch.maxNumSeqs = some m → m = n)
    (hfactor : ∀ g, patch.timeFactorUnderLoad = some g → g = f) :
    (patch.apply opt).Loads n f := by
  refine ⟨ConfigPatch.apply_maxNumSeqs h.slots hslots, ?_⟩
  rw [ConfigPatch.apply]
  cases hg : patch.timeFactorUnderLoad with
  | none => simpa using h.factor
  | some g => simpa using hfactor g hg

/-- Engines whose options fix the load, with the knob model of these options if no trace paces
them. -/
def loaded (env : Env) (n : ℕ) (f : ℚ) : Settings env where
  allows _ opt latency _ := opt.Loads n f ∧
    (opt.latencyTrace = none → latency = opt.latencyModel.model env)
  serves _ _ _ _ _ _ _ h := h
  adds _ _ _ _ _ _ h := h
  finishes _ _ _ _ _ h := h

theorem ConfigPatch.apply_latencyModel {patch : ConfigPatch} (h : patch.changesLatency = false)
    (opt : Opt) : (patch.apply opt).latencyModel = opt.latencyModel := by
  simp only [changesLatency, Bool.or_eq_false_iff, Option.isSome_eq_false_iff,
    Option.isNone_iff_eq_none] at h
  obtain ⟨⟨⟨⟨⟨⟨⟨⟨h₁, h₂⟩, h₃⟩, h₄⟩, h₅⟩, h₆⟩, h₇⟩, h₈⟩, h₉⟩ := h
  simp [apply, Opt.latencyModel, h₁, h₂, h₃, h₄, h₅, h₆, h₇, h₈, h₉]

namespace SimEngine

variable {now : Instant} {e e' : SimEngine env} {n : ℕ} {f : ℚ}

theorem Under.of_emits {s : Settings env} {os : List EngineCoreOutput} {P : Effect → Prop}
    (hemits : Emits P now e os e') (hP : ∀ patch, ¬ P (.configured patch)) (he : e.Under s) :
    e'.Under s := by
  refine hemits.invariant he (fun e effect e' hallow he hmove => hmove.under ?_ he)
  rintro patch rfl
  rcases hallow with ⟨os, hos⟩ | hallowed
  · cases hos
  · exact hP patch hallowed

/-- A patched knob model is the one of the patched options. -/
theorem patched_latency {patch : ConfigPatch} {latency : LatencyModel env.Rng}
    (htrace : e.opt.latencyTrace = none) (hknobs : e.latency = e.opt.latencyModel.model env)
    (h : if patch.changesLatency then (patch.apply e.opt).buildLatency env = .ok latency
      else latency = e.latency) : latency = (patch.apply e.opt).latencyModel.model env := by
  have hsame : (patch.apply e.opt).latencyTrace = none := htrace
  by_cases hchanges : patch.changesLatency
  · rw [if_pos hchanges, Opt.buildLatency, hsame] at h
    exact (Except.ok.inj h).symm
  · rw [if_neg hchanges] at h
    rw [ConfigPatch.apply_latencyModel (Bool.eq_false_iff.mpr hchanges)]
    exact h.trans hknobs

end SimEngine

theorem Fresh.loaded {e : SimEngine env} (h : Fresh e) (n : ℕ) :
    e.Under (VllmVcr.loaded env e.opt.maxNumSeqs e.opt.timeFactorUnderLoad) ∧ e.Within n := by
  obtain ⟨engineIndex, opt, tokenSource, stepSource, hnew⟩ := h
  obtain ⟨latency, hlatency, rfl⟩ := except_map_eq_ok hnew
  refine ⟨⟨⟨rfl, rfl⟩, fun htrace => ?_⟩, Nat.zero_le n, by simp⟩
  have hnone : opt.latencyTrace = none := htrace
  rw [Opt.buildLatency, hnone] at hlatency
  exact (Except.ok.inj hlatency).symm

/-- Engines that no trace paces, with the knob model of their options. -/
def knobbed (env : Env) : Settings env where
  allows _ opt latency _ := opt.latencyTrace = none ∧ latency = opt.latencyModel.model env
  serves _ _ _ _ _ _ _ h := h
  adds _ _ _ _ _ _ h := h
  finishes _ _ _ _ _ h := h

theorem SimEngine.perform_knobbed {now : Instant} {e e' : SimEngine env} {fuel : ℕ} {op : Op}
    {outs : List EngineOutput} (h : e.perform fuel now op = some (e', outs))
    (he : e.Under (knobbed env)) : e'.Under (knobbed env) := by
  by_cases hpatch : ∃ patch, op = .input (.control (.patchConfig patch))
  · obtain ⟨patch, rfl⟩ := hpatch
    simp only [perform, handleInput, handleControl] at h
    split at h
    · next e₁ outs₁ hp =>
        cases h
        obtain ⟨latency, hlatency, heq⟩ := applyPatch_ok hp
        have hset : ({ e with opt := patch.apply e.opt, latency := latency } :
            SimEngine env).Under (knobbed env) :=
          ⟨he.1, patched_latency he.1 he.2 hlatency⟩
        have hrefill := refill_emits (P := fun _ => False) now
          { e with opt := patch.apply e.opt, latency := latency }
        rw [← heq] at hrefill
        exact Under.of_emits hrefill (fun _ hfalse => hfalse) hset
    · cases h
      exact he
  · obtain ⟨os, hemits, _⟩ := perform_emits h
    exact Under.of_emits hemits (fun patch hallowed => hpatch ⟨patch, hallowed⟩) he

theorem Run.knobbed {e₀ e : SimEngine env} {turns : List (Turn env)} {clock : Instant}
    (hfresh : Fresh e₀) (htrace : e₀.opt.latencyTrace = none) (hrun : Run e₀ turns e clock) :
    e.Under (VllmVcr.knobbed env) := by
  refine hrun.turnwise (P := fun _ e _ => e.Under (VllmVcr.knobbed env))
    ⟨htrace, (hfresh.loaded 0).1.2 htrace⟩ ?_
  intro turns clock fuel t ih _ hperform
  exact SimEngine.perform_knobbed hperform ih

namespace SimEngine

end SimEngine

section Played

variable {e e' : SimEngine env} {fuel n : ℕ} {script : List (Instant × Op)}
  {turns : List (Turn env)}

end Played

end VllmVcr
