import Mathlib.Data.Finset.Card
import VllmVcr.Protocol

/-!
# Waiting-queue policy and the adapter cap

The two `Scheduler` strategies pick the next admissible waiting request; the LoRA
registry caps the distinct adapters of the running batch.
-/

namespace VllmVcr

/-- A waiting request, with its arrival time and its admission ticket. -/
structure QueuedRequest where
  request : EngineCoreRequest
  queuedAt : Instant
  ticket : ℕ

inductive Scheduler where
  | fcfs
  | priority
  deriving DecidableEq

namespace Scheduler

/-- `a` goes before `b` under the priority policy. -/
def Precedes (a b : EngineCoreRequest) : Prop :=
  a.priority < b.priority ∨ (a.priority = b.priority ∧ a.arrivalTime < b.arrivalTime)

instance (a b : EngineCoreRequest) : Decidable (Precedes a b) :=
  inferInstanceAs (Decidable (_ ∨ _))

/-- The first index of a smallest admissible request; `i` indexes the head of the list. -/
def minIndex (admissible : EngineCoreRequest → Bool) :
    ℕ → List QueuedRequest → Option (ℕ × EngineCoreRequest)
  | _, [] => none
  | i, q :: rest =>
    let tail := minIndex admissible (i + 1) rest
    if admissible q.request then
      match tail with
      | some (j, r) => if Precedes r q.request then some (j, r) else some (i, q.request)
      | none => some (i, q.request)
    else tail

def nextAdmissible (policy : Scheduler) (waiting : List QueuedRequest)
    (admissible : EngineCoreRequest → Bool) : Option ℕ :=
  match policy with
  | fcfs => waiting.findIdx? (fun q => admissible q.request)
  | priority => (minIndex admissible 0 waiting).map Prod.fst

theorem minIndex_some {admissible : EngineCoreRequest → Bool} {i j : ℕ} {r : EngineCoreRequest}
    {waiting : List QueuedRequest} (h : minIndex admissible i waiting = some (j, r)) :
    admissible r ∧ i ≤ j ∧ ∃ q, waiting[j - i]? = some q ∧ q.request = r := by
  induction waiting generalizing i with
  | nil => cases h
  | cons q rest ih =>
    have htail (hr : minIndex admissible (i + 1) rest = some (j, r)) :
        admissible r ∧ i ≤ j ∧ ∃ q', (q :: rest)[j - i]? = some q' ∧ q'.request = r := by
      obtain ⟨hadm, hle, q', hq', hreq⟩ := ih hr
      refine ⟨hadm, by omega, q', ?_, hreq⟩
      rw [show j - i = (j - (i + 1)) + 1 by omega]
      exact hq'
    simp only [minIndex] at h
    split_ifs at h with hq
    · have hhead : some (i, q.request) = some (j, r) →
          admissible r ∧ i ≤ j ∧ ∃ q', (q :: rest)[j - i]? = some q' ∧ q'.request = r := by
        intro heq
        cases heq
        exact ⟨hq, le_rfl, q, by simp, rfl⟩
      split at h
      · next k s hk =>
        split_ifs at h
        · cases h
          exact htail hk
        · exact hhead h
      · exact hhead h
    · exact htail h

theorem minIndex_eq_none {admissible : EngineCoreRequest → Bool} {i : ℕ}
    {waiting : List QueuedRequest} :
    minIndex admissible i waiting = none ↔ ∀ q ∈ waiting, admissible q.request = false := by
  induction waiting generalizing i with
  | nil => simp [minIndex]
  | cons q rest ih =>
    simp only [minIndex, List.forall_mem_cons]
    split_ifs with hq
    · refine iff_of_false ?_ (fun h => by simp [hq] at h)
      split
      · split_ifs <;> simp
      · simp
    · rw [ih]
      simp [hq]

/-- Either policy picks an admissible request of the queue. -/
theorem nextAdmissible_some {policy : Scheduler} {waiting : List QueuedRequest}
    {admissible : EngineCoreRequest → Bool} {i : ℕ}
    (h : policy.nextAdmissible waiting admissible = some i) :
    ∃ q, waiting[i]? = some q ∧ admissible q.request := by
  cases policy with
  | fcfs =>
    obtain ⟨hlt, hadm, _⟩ := List.findIdx?_eq_some_iff_getElem.mp h
    exact ⟨waiting[i], List.getElem?_eq_getElem hlt, hadm⟩
  | priority =>
    obtain ⟨⟨j, r⟩, hj, rfl⟩ := Option.map_eq_some_iff.mp h
    obtain ⟨hadm, _, q, hq, rfl⟩ := minIndex_some hj
    exact ⟨q, by simpa using hq, hadm⟩

/-- Either policy gives up only when no waiting request is admissible. -/
theorem nextAdmissible_eq_none {policy : Scheduler} {waiting : List QueuedRequest}
    {admissible : EngineCoreRequest → Bool} :
    policy.nextAdmissible waiting admissible = none ↔
      ∀ q ∈ waiting, admissible q.request = false := by
  cases policy with
  | fcfs => simp [nextAdmissible, List.findIdx?_eq_none_iff]
  | priority => simp [nextAdmissible, minIndex_eq_none]

end Scheduler

structure LoraSpec where
  loraName : String
  loraIntId : ℕ

structure LoraRegistry where
  loaded : SortedMap ℕ String
  maxLoras : ℕ

namespace LoraRegistry

def new (maxLoras : ℕ) : LoraRegistry where
  loaded := SortedMap.empty
  maxLoras := maxLoras

def add (r : LoraRegistry) (lora : LoraSpec) : LoraRegistry × Bool :=
  ({ r with loaded := r.loaded.insert lora.loraIntId lora.loraName }, true)

def remove (r : LoraRegistry) (loraIntId : ℕ) : LoraRegistry × Bool :=
  ({ r with loaded := r.loaded.erase loraIntId }, r.loaded.contains loraIntId)

/-- Whether a request for adapter `loraName` may join a batch holding `runningAdapters`. -/
def admits (r : LoraRegistry) (loraName : Option String) (runningAdapters : List String) : Bool :=
  if r.maxLoras = 0 then true
  else
    match loraName with
    | none => true
    | some name => name ∈ runningAdapters || runningAdapters.dedup.length < r.maxLoras

theorem admits_nil (r : LoraRegistry) (loraName : Option String) : r.admits loraName [] := by
  unfold admits
  split_ifs with h
  · rfl
  · cases loraName with
    | none => rfl
    | some name => exact Bool.or_eq_true _ _ ▸ Or.inr (decide_eq_true (Nat.pos_of_ne_zero h))

/-- An admitted adapter keeps the distinct adapters of the batch within the cap. -/
theorem admits_cap {r : LoraRegistry} {loraName : Option String} {running : List String}
    (hcap : running.toFinset.card ≤ r.maxLoras) (hpos : 0 < r.maxLoras)
    (h : r.admits loraName running) :
    (loraName.toList ++ running).toFinset.card ≤ r.maxLoras := by
  cases loraName with
  | none => simpa using hcap
  | some name =>
    simp only [admits, hpos.ne', if_false, Bool.or_eq_true, decide_eq_true_eq] at h
    simp only [Option.toList_some, List.singleton_append, List.toFinset_cons]
    rcases h with hmem | hlt
    · rwa [Finset.insert_eq_of_mem (List.mem_toFinset.mpr hmem)]
    · rw [← List.card_toFinset] at hlt
      exact (Finset.card_insert_le _ _).trans hlt

end LoraRegistry
end VllmVcr
