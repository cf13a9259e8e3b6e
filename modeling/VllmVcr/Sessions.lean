import Mathlib.Data.List.Induction
import Mathlib.Data.Nat.Find
import Mathlib.Logic.Relation
import VllmVcr.SortedMap
import VllmVcr.TraceFile

/-!
# Sessions

The turns of a session are found by their hash chains: a child's prompt extends its parent's. In a
chained replay a turn waits for the end of its parent.
-/

namespace VllmVcr

/-! ## Session parents -/

/-- The latest record by last hash, and the parents found so far. -/
structure SessionPass where
  byLastHash : SortedMap BlockHash ℕ
  parents : List (Option ℕ)

section Inference

variable (records : List TraceRecord)

def chainAt (i : ℕ) : Option (List BlockHash) := records[i]?.bind TraceRecord.blockHashes

/-- A record whose whole chain is `k + 1` long and ends as this prefix of `chain` does. -/
def parentAtDepth (byLastHash : SortedMap BlockHash ℕ) (chain : List BlockHash) (k : ℕ) :
    Option ℕ :=
  (chain[k]?.bind byLastHash.get?).filter
    (fun p => (chainAt records p).map List.length = some (k + 1))

/-- The search from depth `k` down. -/
def searchParent (byLastHash : SortedMap BlockHash ℕ) (chain : List BlockHash) : ℕ → Option ℕ
  | 0 => none
  | k + 1 => (parentAtDepth records byLastHash chain k).orElse
      (fun _ => searchParent byLastHash chain k)

def SessionPass.add (pass : SessionPass) (entry : TraceRecord × ℕ) : SessionPass :=
  match entry.1.blockHashes with
  | none => { pass with parents := pass.parents ++ [none] }
  | some chain => {
      byLastHash := chain.getLast?.elim pass.byLastHash
        (fun last => pass.byLastHash.insert last entry.2)
      parents := pass.parents ++
        [searchParent records pass.byLastHash chain (chain.length - 1)] }

def inferSessionParents : List (Option ℕ) :=
  (records.zipIdx.foldl (SessionPass.add records) ⟨.empty, []⟩).parents

/-- The pass after `n` records. -/
def sessionPass (n : ℕ) : SessionPass :=
  (records.zipIdx.take n).foldl (SessionPass.add records) ⟨.empty, []⟩

/-- Record `p` is earlier than record `i`, and its whole chain is a proper prefix of that one's. -/
def Extends (i p : ℕ) : Prop :=
  p < i ∧ ∃ own chain, chainAt records p = some own ∧ chainAt records i = some chain ∧
    own ≠ [] ∧ own <+: chain ∧ own ≠ chain

def chainLength (i : ℕ) : ℕ := ((chainAt records i).getD []).length

/-- The parent has the longest chain that the record extends, and is the latest with that chain. -/
structure IsParent (i p : ℕ) : Prop where
  extended : Extends records i p
  longest : ∀ q, Extends records i q → chainLength records q ≤ chainLength records p
  latest : ∀ q, Extends records i q → chainAt records q = chainAt records p → q ≤ p

/-- Equal hashes stand for equal prefixes. -/
def HashesIdentify : Prop :=
  ∀ i j a b, chainAt records i = some a → chainAt records j = some b →
    ∀ k l h, a[k]? = some h → b[l]? = some h → a.take (k + 1) = b.take (l + 1)

end Inference

section Pass

variable {records : List TraceRecord}

theorem sessionPass_succ {n : ℕ} {r : TraceRecord} (hr : records[n]? = some r) :
    sessionPass records (n + 1) = (sessionPass records n).add records (r, n) := by
  have hentry : records.zipIdx[n]? = some (r, n) := by
    rw [List.getElem?_zipIdx, hr, Option.map_some, Nat.zero_add]
  rw [sessionPass, List.take_add_one, hentry, Option.toList_some, List.foldl_append]
  rfl

theorem chainAt_of_record {n : ℕ} {r : TraceRecord} (hr : records[n]? = some r) :
    chainAt records n = r.blockHashes := by
  rw [chainAt, hr, Option.bind_some]

/-- The map holds the latest of the records seen that end in a hash. -/
structure LatestByHash (records : List TraceRecord) (n : ℕ) (m : SortedMap BlockHash ℕ) : Prop where
  found : ∀ h p, m.get? h = some p →
    p < n ∧ (chainAt records p).bind List.getLast? = some h ∧
      ∀ q < n, (chainAt records q).bind List.getLast? = some h → q ≤ p
  missing : ∀ h, m.get? h = none → ∀ q < n, (chainAt records q).bind List.getLast? ≠ some h

theorem LatestByHash.insert {n : ℕ} {m : SortedMap BlockHash ℕ} (hm : LatestByHash records n m)
    {last : BlockHash} (hlast : (chainAt records n).bind List.getLast? = some last) :
    LatestByHash records (n + 1) (m.insert last n) := by
  constructor
  · intro h p hp
    rw [SortedMap.get?_insert] at hp
    split_ifs at hp with hh
    · cases hp
      subst hh
      exact ⟨Nat.lt_succ_self _, hlast, fun q hq _ => Nat.le_of_lt_succ hq⟩
    · obtain ⟨hlt, hends, hlatest⟩ := hm.found h p hp
      refine ⟨Nat.lt_succ_of_lt hlt, hends, fun q hq hqends => ?_⟩
      rcases Nat.lt_succ_iff_lt_or_eq.mp hq with hbefore | rfl
      · exact hlatest q hbefore hqends
      · exact absurd (Option.some.inj (hqends.symm.trans hlast)) hh
  · intro h hnone q hq hqends
    rw [SortedMap.get?_insert] at hnone
    split_ifs at hnone with hh
    rcases Nat.lt_succ_iff_lt_or_eq.mp hq with hbefore | rfl
    · exact hm.missing h hnone q hbefore hqends
    · exact hh (Option.some.inj (hqends.symm.trans hlast))

theorem LatestByHash.skip {n : ℕ} {m : SortedMap BlockHash ℕ} (hm : LatestByHash records n m)
    (hnone : (chainAt records n).bind List.getLast? = none) :
    LatestByHash records (n + 1) m := by
  constructor
  · intro h p hp
    obtain ⟨hlt, hends, hlatest⟩ := hm.found h p hp
    refine ⟨Nat.lt_succ_of_lt hlt, hends, fun q hq hqends => ?_⟩
    rcases Nat.lt_succ_iff_lt_or_eq.mp hq with hbefore | rfl
    · exact hlatest q hbefore hqends
    · rw [hnone] at hqends
      cases hqends
  · intro h hmiss q hq hqends
    rcases Nat.lt_succ_iff_lt_or_eq.mp hq with hbefore | rfl
    · exact hm.missing h hmiss q hbefore hqends
    · rw [hnone] at hqends
      cases hqends

theorem sessionPass_latest {n : ℕ} (hn : n ≤ records.length) :
    LatestByHash records n (sessionPass records n).byLastHash := by
  induction n with
  | zero =>
      constructor
      · intro h p hp
        cases hp
      · intro h _ q hq
        omega
  | succ n ih =>
      have hr := List.getElem?_eq_getElem (Nat.lt_of_succ_le hn)
      have hprev := ih (Nat.le_of_succ_le hn)
      rw [sessionPass_succ hr]
      have hchain := chainAt_of_record hr
      unfold SessionPass.add
      split
      · next hnone =>
          exact hprev.skip (by rw [hchain]; exact congrArg (Option.bind · List.getLast?) hnone)
      · next chain hsome =>
          have hown : chainAt records n = some chain := hchain.trans hsome
          dsimp only
          cases hlast : chain.getLast? with
          | none => exact hprev.skip (by rw [hown, Option.bind_some, hlast])
          | some last => exact hprev.insert (by rw [hown, Option.bind_some, hlast])

/-! ## The search -/

/-- The latest record before `i` whose chain is this one. -/
def LatestWithChain (records : List TraceRecord) (i : ℕ) (chain : List BlockHash) (p : ℕ) : Prop :=
  p < i ∧ chainAt records p = some chain ∧
    ∀ q < i, chainAt records q = some chain → q ≤ p

theorem getLast?_take_succ {chain : List BlockHash} {k : ℕ} {h : BlockHash}
    (hk : chain[k]? = some h) : (chain.take (k + 1)).getLast? = some h := by
  rw [List.take_add_one, hk, Option.toList_some, List.getLast?_concat]

section Search

variable {i : ℕ} {chain : List BlockHash} (hchain : chainAt records i = some chain)
  (hhash : HashesIdentify records) {m : SortedMap BlockHash ℕ} (hm : LatestByHash records i m)

include hchain hhash

/-- Records that end in a hash of the chain have the prefix up to it as their whole chain. -/
theorem chain_of_last {k p : ℕ} {h : BlockHash} (hk : chain[k]? = some h)
    (hends : (chainAt records p).bind List.getLast? = some h) :
    chainAt records p = some (chain.take (k + 1)) := by
  obtain ⟨own, hown, hlast⟩ := Option.bind_eq_some_iff.mp hends
  have hne : own ≠ [] := by
    rintro rfl
    cases hlast
  have hpos := List.length_pos_iff.mpr hne
  have hat : own[own.length - 1]? = some h := by rw [← List.getLast?_eq_getElem?, hlast]
  have hsame := hhash p i own chain hown hchain _ _ h hat hk
  rw [Nat.sub_add_cancel hpos, List.take_length] at hsame
  rw [hown, hsame]

include hm

theorem parentAtDepth_some {k p : ℕ} (h : parentAtDepth records m chain k = some p) :
    LatestWithChain records i (chain.take (k + 1)) p := by
  obtain ⟨hfound, -⟩ := Option.filter_eq_some_iff.mp h
  obtain ⟨hash, hk, hget⟩ := Option.bind_eq_some_iff.mp hfound
  obtain ⟨hlt, hends, hlatest⟩ := hm.found hash p hget
  refine ⟨hlt, chain_of_last hchain hhash hk hends, fun q hq hqchain => hlatest q hq ?_⟩
  rw [hqchain, Option.bind_some, getLast?_take_succ hk]

theorem parentAtDepth_none {k : ℕ} (hk : k < chain.length)
    (h : parentAtDepth records m chain k = none) {q : ℕ} (hq : q < i) :
    chainAt records q ≠ some (chain.take (k + 1)) := by
  intro hqchain
  have hat := List.getElem?_eq_getElem hk
  cases hget : m.get? chain[k] with
  | none =>
      refine hm.missing _ hget q hq ?_
      rw [hqchain, Option.bind_some, getLast?_take_succ hat]
  | some p =>
      obtain ⟨-, hends, -⟩ := hm.found _ p hget
      have hown := chain_of_last hchain hhash hat hends
      have hlength : (chain.take (k + 1)).length = k + 1 := by
        rw [List.length_take]
        omega
      rw [parentAtDepth, hat, Option.bind_some, hget, Option.filter_some, hown, Option.map_some,
        hlength, if_pos (by simp)] at h
      cases h

/-- The search gives the deepest prefix that some earlier record has as its whole chain. -/
theorem searchParent_some {depth p : ℕ} (hdepth : depth ≤ chain.length)
    (h : searchParent records m chain depth = some p) :
    ∃ k < depth, LatestWithChain records i (chain.take (k + 1)) p ∧
      ∀ k', k < k' → k' < depth → ∀ q < i, chainAt records q ≠ some (chain.take (k' + 1)) := by
  induction depth with
  | zero => cases h
  | succ depth ih =>
      rw [searchParent] at h
      cases hhere : parentAtDepth records m chain depth with
      | some p' =>
          rw [hhere] at h
          cases h
          refine ⟨depth, Nat.lt_succ_self _, parentAtDepth_some hchain hhash hm hhere, ?_⟩
          intro k' hlow hhigh
          omega
      | none =>
          rw [hhere] at h
          obtain ⟨k, hk, hlatest, hdeeper⟩ := ih (Nat.le_of_succ_le hdepth) h
          refine ⟨k, Nat.lt_succ_of_lt hk, hlatest, fun k' hlow hhigh q hq => ?_⟩
          rcases Nat.lt_succ_iff_lt_or_eq.mp hhigh with hbelow | rfl
          · exact hdeeper k' hlow hbelow q hq
          · exact parentAtDepth_none hchain hhash hm (Nat.lt_of_succ_le hdepth) hhere hq

theorem searchParent_none {depth : ℕ} (hdepth : depth ≤ chain.length)
    (h : searchParent records m chain depth = none) :
    ∀ k < depth, ∀ q < i, chainAt records q ≠ some (chain.take (k + 1)) := by
  induction depth with
  | zero =>
      intro k hk
      omega
  | succ depth ih =>
      rw [searchParent] at h
      cases hhere : parentAtDepth records m chain depth with
      | some p =>
          rw [hhere] at h
          cases h
      | none =>
          rw [hhere] at h
          intro k hk q hq
          rcases Nat.lt_succ_iff_lt_or_eq.mp hk with hbelow | rfl
          · exact ih (Nat.le_of_succ_le hdepth) h k hbelow q hq
          · exact parentAtDepth_none hchain hhash hm (Nat.lt_of_succ_le hdepth) hhere hq

end Search

/-! ## The parents -/

theorem extends_iff {i p : ℕ} {chain : List BlockHash} (hchain : chainAt records i = some chain) :
    Extends records i p ↔ p < i ∧ ∃ k < chain.length - 1,
      chainAt records p = some (chain.take (k + 1)) := by
  constructor
  · rintro ⟨hlt, own, chain', hown, hchain', hne, hbefore, hproper⟩
    obtain rfl : chain = chain' := Option.some.inj (hchain.symm.trans hchain')
    have hpos := List.length_pos_iff.mpr hne
    have hshort : own.length < chain.length :=
      lt_of_le_of_ne hbefore.length_le (fun heq => hproper (hbefore.eq_of_length heq))
    refine ⟨hlt, own.length - 1, by omega, ?_⟩
    rw [Nat.sub_add_cancel hpos, ← List.prefix_iff_eq_take.mp hbefore, hown]
  · rintro ⟨hlt, k, hk, hown⟩
    have hlength : (chain.take (k + 1)).length = k + 1 := by
      rw [List.length_take]
      omega
    refine ⟨hlt, _, chain, hown, hchain, ?_, List.take_prefix _ _, ?_⟩
    · exact List.length_pos_iff.mp (by omega)
    · intro heq
      have := congrArg List.length heq
      omega

theorem extends_chain {i p : ℕ} (h : Extends records i p) :
    ∃ chain, chainAt records i = some chain := by
  obtain ⟨-, _, chain, -, hchain, -⟩ := h
  exact ⟨chain, hchain⟩

theorem chainLength_eq {p : ℕ} {own : List BlockHash} (h : chainAt records p = some own) :
    chainLength records p = own.length := by
  rw [chainLength, h, Option.getD_some]

theorem IsParent.unique {i p p' : ℕ} (h : IsParent records i p) (h' : IsParent records i p') :
    p = p' := by
  obtain ⟨chain, hchain⟩ := extends_chain h.extended
  obtain ⟨-, k, hk, hown⟩ := (extends_iff hchain).mp h.extended
  obtain ⟨-, k', hk', hown'⟩ := (extends_iff hchain).mp h'.extended
  have hle := h.longest p' h'.extended
  have hge := h'.longest p h.extended
  rw [chainLength_eq hown, chainLength_eq hown', List.length_take, List.length_take] at hle hge
  obtain rfl : k = k' := by omega
  have hsame := hown.trans hown'.symm
  exact le_antisymm (h'.latest p h.extended hsame) (h.latest p' h'.extended hsame.symm)

/-- What the pass adds for record `i` is its parent, if it has one. -/
theorem parent_added (hhash : HashesIdentify records) {i : ℕ} {r : TraceRecord}
    (hr : records[i]? = some r) :
    ∃ parent, (sessionPass records (i + 1)).parents = (sessionPass records i).parents ++ [parent] ∧
      (∀ p, parent = some p ↔ IsParent records i p) ∧
      (parent = none ↔ ∀ p, ¬ Extends records i p) := by
  have hi : i < records.length := (List.getElem?_eq_some_iff.mp hr).1
  have hm : LatestByHash records i (sessionPass records i).byLastHash :=
    sessionPass_latest hi.le
  rw [sessionPass_succ hr]
  cases hblocks : r.blockHashes with
  | none =>
      have hnone : ∀ p, ¬ Extends records i p := by
        intro p h
        obtain ⟨chain, hchain⟩ := extends_chain h
        rw [chainAt_of_record hr, hblocks] at hchain
        cases hchain
      refine ⟨none, by rw [SessionPass.add, hblocks], fun p => ?_, iff_of_true rfl hnone⟩
      exact iff_of_false (fun h => by cases h) (fun h => hnone p h.extended)
  | some chain =>
      have hchain : chainAt records i = some chain := (chainAt_of_record hr).trans hblocks
      refine ⟨searchParent records (sessionPass records i).byLastHash chain (chain.length - 1),
        by rw [SessionPass.add, hblocks], ?_⟩
      cases hsearch : searchParent records (sessionPass records i).byLastHash chain
          (chain.length - 1) with
      | none =>
          have hnone : ∀ p, ¬ Extends records i p := by
            intro p h
            obtain ⟨hlt, k, hk, hown⟩ := (extends_iff hchain).mp h
            exact searchParent_none hchain hhash hm (Nat.sub_le _ _) hsearch k hk p hlt hown
          refine ⟨fun p => ?_, iff_of_true rfl hnone⟩
          exact iff_of_false (fun h => by cases h) (fun h => hnone p h.extended)
      | some p =>
          obtain ⟨k, hk, ⟨hlt, hown, hlatest⟩, hdeeper⟩ :=
            searchParent_some hchain hhash hm (Nat.sub_le _ _) hsearch
          have hextends : Extends records i p := (extends_iff hchain).mpr ⟨hlt, k, hk, hown⟩
          have hparent : IsParent records i p := by
            refine ⟨hextends, fun q hq => ?_, fun q hq hsame => ?_⟩
            · obtain ⟨hqlt, k', hk', hqown⟩ := (extends_iff hchain).mp hq
              have hnot : ¬ k < k' := fun h => hdeeper k' h hk' q hqlt hqown
              rw [chainLength_eq hown, chainLength_eq hqown, List.length_take, List.length_take]
              omega
            · exact hlatest q hq.1 (hsame.trans hown)
          refine ⟨fun p' => ?_, iff_of_false (fun h => by cases h) (fun h => h p hextends)⟩
          constructor
          · intro h
            cases h
            exact hparent
          · intro h
            rw [hparent.unique h]

theorem sessionPass_parents (hhash : HashesIdentify records) {n : ℕ} (hn : n ≤ records.length) :
    (sessionPass records n).parents.length = n ∧
      ∀ i < n, ∃ parent, (sessionPass records n).parents[i]? = some parent ∧
        (∀ p, parent = some p ↔ IsParent records i p) ∧
        (parent = none ↔ ∀ p, ¬ Extends records i p) := by
  induction n with
  | zero => exact ⟨rfl, fun i hi => absurd hi (Nat.not_lt_zero i)⟩
  | succ n ih =>
      obtain ⟨hlength, hprev⟩ := ih (Nat.le_of_succ_le hn)
      obtain ⟨parent, hadd, hspec⟩ :=
        parent_added hhash (List.getElem?_eq_getElem (Nat.lt_of_succ_le hn))
      rw [hadd, List.length_append, hlength]
      refine ⟨rfl, fun i hi => ?_⟩
      rcases Nat.lt_succ_iff_lt_or_eq.mp hi with hbefore | rfl
      · obtain ⟨parent', hat, hspec'⟩ := hprev i hbefore
        refine ⟨parent', ?_, hspec'⟩
        rw [List.getElem?_append_left (by omega), hat]
      · refine ⟨parent, ?_, hspec⟩
        rw [List.getElem?_append_right (by omega), hlength, Nat.sub_self, List.getElem?_cons_zero]

theorem inferSessionParents_eq :
    inferSessionParents records = (sessionPass records records.length).parents := by
  rw [inferSessionParents, sessionPass, ← List.length_zipIdx (l := records) (i := 0),
    List.take_length]

end Pass

/-! ## Chained replay -/

inductive SessionPacing where
  | openLoop
  | chained

/-- When a request finished, in source-trace time. -/
def sourceCompletionMs (r : TraceRecord) : ℚ :=
  r.arrivalMs.getD 0 + r.ttftMs +
    ((r.itlMs.map List.sum).orElse
      (fun _ => r.itlSummary.map (fun s => s.meanMs * s.count))).getD 0

/-- The gap between the end of a turn and the next. -/
def thinkMs (timeScale : ℚ) (subset : List TraceRecord) (i p : ℕ) : ℚ :=
  max ((((subset[i]?.bind TraceRecord.arrivalMs).getD 0) -
    (subset[p]?.elim 0 sourceCompletionMs))) 0 / timeScale

/-- What each request sends on when it ends, and what it waits for; a channel goes by the index of
the request it wakes. -/
structure SessionTriggers where
  childTxs : List (List ℕ)
  triggers : List (Option ℚ)

section Replay

variable (timeScale : ℚ) (subset : List TraceRecord)

def SessionTriggers.add (t : SessionTriggers) (entry : Option ℕ × ℕ) : SessionTriggers :=
  match entry.1 with
  | none => t
  | some p => {
      childTxs := t.childTxs.modify p (· ++ [entry.2])
      triggers := t.triggers.set entry.2 (some (thinkMs timeScale subset entry.2 p)) }

def noTriggers : SessionTriggers :=
  ⟨List.replicate subset.length [], List.replicate subset.length none⟩

def sessionTriggers (parents : List (Option ℕ)) : SessionTriggers :=
  parents.zipIdx.foldl (SessionTriggers.add timeScale subset) (noTriggers subset)

def replayTriggers : SessionPacing → SessionTriggers
  | .openLoop => noTriggers subset
  | .chained => sessionTriggers timeScale subset (inferSessionParents subset)

end Replay

/-- The requests sent and ended so far, and the channels sent on or dropped. -/
structure SessionReplay where
  sent : List ℕ
  ended : List ℕ
  woken : List ℕ

/-- A request is sent at its time, or once its trigger has come; it ends when measured, failed or
timed out, and its senders are used or dropped. -/
inductive SessionStep where
  | send (i : ℕ)
  | finish (i : ℕ)

namespace SessionReplay

def start : SessionReplay := ⟨[], [], []⟩

def step (t : SessionTriggers) (s : SessionReplay) : SessionStep → Option SessionReplay
  | .send i =>
    match t.triggers[i]? with
    | none => none
    | some trigger =>
      if i ∉ s.sent ∧ (trigger = none ∨ i ∈ s.woken) then some { s with sent := i :: s.sent }
      else none
  | .finish i =>
    if i ∈ s.sent ∧ i ∉ s.ended then
      some { s with ended := i :: s.ended, woken := t.childTxs.getD i [] ++ s.woken }
    else none

def run (t : SessionTriggers) : SessionReplay → List SessionStep → Option SessionReplay
  | s, [] => some s
  | s, a :: rest => (s.step t a).bind (fun s' => run t s' rest)

/-- Each request is sent at most once and ends at most once, after it was sent, and every child of
an ended one is awake. -/
structure Consistent (t : SessionTriggers) (s : SessionReplay) : Prop where
  sentOnce : s.sent.Nodup
  endedOnce : s.ended.Nodup
  known : ∀ i ∈ s.sent, i < t.triggers.length
  endedSent : s.ended ⊆ s.sent
  awake : ∀ p ∈ s.ended, t.childTxs.getD p [] ⊆ s.woken

variable {t : SessionTriggers} {s s' : SessionReplay}

theorem step_cases {a : SessionStep} (h : s.step t a = some s') :
    (∃ i, a = .send i ∧ i < t.triggers.length ∧ i ∉ s.sent ∧
      s' = { s with sent := i :: s.sent }) ∨
    (∃ i, a = .finish i ∧ i ∈ s.sent ∧ i ∉ s.ended ∧
      s' = { s with ended := i :: s.ended, woken := t.childTxs.getD i [] ++ s.woken }) := by
  cases a with
  | send i =>
      left
      rw [step] at h
      cases htrigger : t.triggers[i]? with
      | none =>
          rw [htrigger] at h
          cases h
      | some trigger =>
          rw [htrigger] at h
          dsimp only at h
          split_ifs at h with hready
          cases h
          exact ⟨i, rfl, (List.getElem?_eq_some_iff.mp htrigger).1, hready.1, rfl⟩
  | finish i =>
      right
      rw [step] at h
      split_ifs at h with hready
      cases h
      exact ⟨i, rfl, hready.1, hready.2, rfl⟩

theorem Consistent.step (hs : Consistent t s) {a : SessionStep} (h : s.step t a = some s') :
    Consistent t s' := by
  obtain ⟨i, -, hknown, hnew, rfl⟩ | ⟨i, -, hsent, hnew, rfl⟩ := step_cases h
  · exact ⟨List.nodup_cons.mpr ⟨hnew, hs.sentOnce⟩, hs.endedOnce,
      List.forall_mem_cons.mpr ⟨hknown, hs.known⟩, fun j hj => List.mem_cons_of_mem _
        (hs.endedSent hj), hs.awake⟩
  · refine ⟨hs.sentOnce, List.nodup_cons.mpr ⟨hnew, hs.endedOnce⟩, hs.known,
      List.cons_subset.mpr ⟨hsent, hs.endedSent⟩, List.forall_mem_cons.mpr ⟨?_, ?_⟩⟩
    · exact List.subset_append_left _ _
    · exact fun p hp => List.subset_append_of_subset_right _ (hs.awake p hp)

/-- A run keeps the state consistent, and each of its steps sends a request or ends one. -/
theorem run_consistent {steps : List SessionStep} (hs : Consistent t s)
    (h : run t s steps = some s') :
    Consistent t s' ∧
      s'.sent.length + s'.ended.length = s.sent.length + s.ended.length + steps.length := by
  induction steps generalizing s with
  | nil =>
      cases h
      exact ⟨hs, rfl⟩
  | cons a steps ih =>
      obtain ⟨mid, hstep, hrest⟩ := Option.bind_eq_some_iff.mp h
      obtain ⟨hend, hcount⟩ := ih (hs.step hstep) hrest
      refine ⟨hend, ?_⟩
      obtain ⟨i, -, -, -, rfl⟩ | ⟨i, -, -, -, rfl⟩ := step_cases hstep
      · simp only [List.length_cons] at hcount ⊢
        omega
      · simp only [List.length_cons] at hcount ⊢
        omega

theorem Consistent.start : Consistent t start :=
  ⟨List.nodup_nil, List.nodup_nil, by simp [SessionReplay.start], by simp [SessionReplay.start],
    by simp [SessionReplay.start]⟩

theorem Consistent.count_le (hs : Consistent t s) :
    s.sent.length + s.ended.length ≤ 2 * t.triggers.length := by
  have hrange : s.sent ⊆ List.range t.triggers.length :=
    fun i hi => List.mem_range.mpr (hs.known i hi)
  have hsent := (hs.sentOnce.subperm hrange).length_le
  have hended := (hs.endedOnce.subperm hs.endedSent).length_le
  rw [List.length_range] at hsent
  omega

/-- When every trigger hangs on an earlier request, some step is possible until all have ended. -/
theorem Consistent.progress (hs : Consistent t s)
    (hearlier : ∀ i think, t.triggers[i]? = some (some think) →
      ∃ p < i, i ∈ t.childTxs.getD p [])
    (hstuck : ∀ a, s.step t a = none) : ∀ i < t.triggers.length, i ∈ s.ended := by
  intro i
  induction i using Nat.strong_induction_on with
  | h i ih =>
      intro hi
      by_contra hopen
      by_cases hsent : i ∈ s.sent
      · have hfinish := hstuck (.finish i)
        rw [SessionReplay.step, if_pos ⟨hsent, hopen⟩] at hfinish
        cases hfinish
      · have hsend := hstuck (.send i)
        have htrigger := List.getElem?_eq_getElem hi
        rw [SessionReplay.step, htrigger] at hsend
        have hready : t.triggers[i] = none ∨ i ∈ s.woken := by
          cases hwait : t.triggers[i] with
          | none => exact .inl rfl
          | some think =>
              obtain ⟨p, hp, hchild⟩ := hearlier i think (htrigger.trans (congrArg some hwait))
              exact .inr (hs.awake p (ih p hp (hp.trans hi)) hchild)
        dsimp only at hsend
        rw [if_pos ⟨hsent, hready⟩] at hsend
        cases hsend

end SessionReplay

/-! ## Triggers -/

section Triggers

variable {timeScale : ℚ} {subset : List TraceRecord}

theorem foldl_triggers (timeScale : ℚ) (subset : List TraceRecord)
    (entries : List (Option ℕ × ℕ)) :
    (entries.foldl (SessionTriggers.add timeScale subset) (noTriggers subset)).triggers.length =
        subset.length ∧
      (entries.foldl (SessionTriggers.add timeScale subset) (noTriggers subset)).childTxs.length =
        subset.length := by
  induction entries using List.reverseRecOn with
  | nil => simp [noTriggers]
  | append_singleton entries entry ih =>
      obtain ⟨parent, j⟩ := entry
      rw [List.foldl_append, List.foldl_cons, List.foldl_nil]
      cases parent with
      | none => exact ih
      | some p => exact ⟨List.length_set.trans ih.1, (List.length_modify _ _ _).trans ih.2⟩

/-- A trigger is one that the request's parent sends on. -/
theorem trigger_of_parent {entries : List (Option ℕ × ℕ)}
    (hparents : ∀ p i, (some p, i) ∈ entries → p < subset.length) {i : ℕ} {think : ℚ}
    (h : (entries.foldl (SessionTriggers.add timeScale subset) (noTriggers subset)).triggers[i]? =
      some (some think)) :
    ∃ p, (some p, i) ∈ entries ∧ i ∈ (entries.foldl (SessionTriggers.add timeScale subset)
      (noTriggers subset)).childTxs.getD p [] := by
  induction entries using List.reverseRecOn generalizing think with
  | nil =>
      simp only [List.foldl_nil, noTriggers, List.getElem?_replicate] at h
      split_ifs at h
      cases h
  | append_singleton entries entry ih =>
      obtain ⟨parent, j⟩ := entry
      have hbefore : ∀ p i, (some p, i) ∈ entries → p < subset.length :=
        fun p i hp => hparents p i (List.mem_append_left _ hp)
      obtain ⟨-, hlength⟩ := foldl_triggers timeScale subset entries
      rw [List.foldl_append, List.foldl_cons, List.foldl_nil] at h ⊢
      cases parent with
      | none =>
          obtain ⟨p, hp, hchild⟩ := ih hbefore h
          exact ⟨p, List.mem_append_left _ hp, hchild⟩
      | some q =>
          have hq := hparents q j (by simp)
          simp only [SessionTriggers.add, List.getElem?_set] at h ⊢
          by_cases hij : j = i
          · subst hij
            refine ⟨q, by simp, ?_⟩
            rw [List.getD_eq_getElem?_getD, List.getElem?_modify,
              List.getElem?_eq_getElem (hlength ▸ hq)]
            simp
          · rw [if_neg hij] at h
            obtain ⟨p, hp, hchild⟩ := ih hbefore h
            refine ⟨p, List.mem_append_left _ hp, ?_⟩
            rw [List.getD_eq_getElem?_getD] at hchild ⊢
            rw [List.getElem?_modify]
            cases hrow : (entries.foldl (SessionTriggers.add timeScale subset)
                (noTriggers subset)).childTxs[p]? with
            | none =>
                rw [hrow] at hchild
                cases hchild
            | some row =>
                rw [hrow] at hchild
                by_cases hqp : q = p
                · simpa [hqp] using .inl hchild
                · simpa [hqp] using hchild

theorem sessionTriggers_length (parents : List (Option ℕ)) :
    (sessionTriggers timeScale subset parents).triggers.length = subset.length :=
  (foldl_triggers _ _ _).1

end Triggers

/-! ## Parents and chained replay -/

/-- Record `i` has session parent `p`. -/
def ParentLink (records : List TraceRecord) (i p : ℕ) : Prop :=
  (inferSessionParents records)[i]? = some (some p)

section Forest

variable {records : List TraceRecord} (hhash : HashesIdentify records)

include hhash

theorem inferSessionParents_length : (inferSessionParents records).length = records.length := by
  rw [inferSessionParents_eq]
  exact (sessionPass_parents hhash le_rfl).1

theorem parentLink_iff {i p : ℕ} : ParentLink records i p ↔ IsParent records i p := by
  obtain ⟨hlength, hspec⟩ := sessionPass_parents hhash (le_refl records.length)
  rw [ParentLink, inferSessionParents_eq]
  by_cases hi : i < records.length
  · obtain ⟨parent, hat, hiff, -⟩ := hspec i hi
    rw [hat, Option.some.injEq]
    exact hiff p
  · rw [List.getElem?_eq_none (by omega)]
    refine iff_of_false (fun h => by cases h) (fun h => hi ?_)
    obtain ⟨chain, hchain⟩ := extends_chain h.extended
    obtain ⟨r, hr, -⟩ := Option.bind_eq_some_iff.mp hchain
    exact (List.getElem?_eq_some_iff.mp hr).1

theorem ParentLink.lt {i p : ℕ} (h : ParentLink records i p) : p < i :=
  ((parentLink_iff hhash).mp h).extended.1

/-- Every record is linked to a root, by links to ever earlier records. -/
theorem exists_root (i : ℕ) :
    ∃ root, Relation.ReflTransGen (ParentLink records) i root ∧
      ∀ p, ¬ ParentLink records root p := by
  induction i using Nat.strong_induction_on with
  | h i ih =>
      by_cases hroot : ∃ p, ParentLink records i p
      · obtain ⟨p, hp⟩ := hroot
        obtain ⟨root, hlinks, hnone⟩ := ih p (ParentLink.lt hhash hp)
        exact ⟨root, hlinks.head hp, hnone⟩
      · exact ⟨i, .refl, not_exists.mp hroot⟩

theorem links_lt {i j : ℕ} (h : Relation.TransGen (ParentLink records) i j) : j < i := by
  induction h with
  | single hlink => exact ParentLink.lt hhash hlink
  | tail _ hlink ih => exact (ParentLink.lt hhash hlink).trans ih

/-- A chained replay that can do nothing more has ended every request. -/
theorem chained_ends {timeScale : ℚ} {steps : List SessionStep} {s : SessionReplay}
    (hrun : SessionReplay.run (replayTriggers timeScale records .chained) .start steps = some s) :
    steps.length ≤ 2 * records.length ∧
      ((∀ a, s.step (replayTriggers timeScale records .chained) a = none) →
        ∀ i < records.length, i ∈ s.ended) := by
  have hlength : (replayTriggers timeScale records .chained).triggers.length = records.length :=
    sessionTriggers_length _
  have hlink : ∀ p i, (some p, i) ∈ (inferSessionParents records).zipIdx →
      ParentLink records i p := by
    intro p i hmem
    exact List.mem_zipIdx_iff_getElem?.mp hmem
  have hknown : ∀ p i, (some p, i) ∈ (inferSessionParents records).zipIdx →
      p < records.length := by
    intro p i hmem
    obtain ⟨-, own, -, hown, -⟩ := ((parentLink_iff hhash).mp (hlink p i hmem)).extended
    obtain ⟨r, hr, -⟩ := Option.bind_eq_some_iff.mp hown
    exact (List.getElem?_eq_some_iff.mp hr).1
  obtain ⟨hconsistent, hcount⟩ := SessionReplay.run_consistent .start hrun
  constructor
  · have hle := hconsistent.count_le
    rw [hlength, hcount] at hle
    simpa [SessionReplay.start] using hle
  · intro hstuck i hi
    refine hconsistent.progress (fun j think htrigger => ?_) hstuck i (hlength.symm ▸ hi)
    obtain ⟨p, hmem, hchild⟩ := trigger_of_parent hknown htrigger
    exact ⟨p, ParentLink.lt hhash (hlink p j hmem), hchild⟩

end Forest

/-- The pass gives every record the latest of the longest chains it extends; the links are a forest,
and a chained replay ends every request. -/
theorem inferSessionParents_spec {records : List TraceRecord} (hhash : HashesIdentify records) :
    (inferSessionParents records).length = records.length ∧
    (∀ i < records.length, ∃ parent, (inferSessionParents records)[i]? = some parent ∧
      (∀ p, parent = some p ↔ IsParent records i p) ∧
      (parent = none ↔ ∀ p, ¬ Extends records i p)) ∧
    (∀ i p, ParentLink records i p → p < i) ∧
    (∀ i, ¬ Relation.TransGen (ParentLink records) i i) ∧
    (∀ i, ∃ root, Relation.ReflTransGen (ParentLink records) i root ∧
      ∀ p, ¬ ParentLink records root p) ∧
    ∀ timeScale steps s,
      SessionReplay.run (replayTriggers timeScale records .chained) .start steps = some s →
      steps.length ≤ 2 * records.length ∧
        ((∀ a, s.step (replayTriggers timeScale records .chained) a = none) →
          ∀ i < records.length, i ∈ s.ended) := by
  refine ⟨inferSessionParents_length hhash, ?_, fun i p => ParentLink.lt hhash,
    fun i h => lt_irrefl i (links_lt hhash h), exists_root hhash,
    fun timeScale steps s hrun => chained_ends hhash hrun⟩
  rw [inferSessionParents_eq]
  exact (sessionPass_parents hhash le_rfl).2

/-- Two interleaved sessions that share their first block. -/
def sharedBlock : List TraceRecord :=
  [{ blockHashes := some [1, 2] }, { blockHashes := some [1, 3, 4] },
    { blockHashes := some [1, 2, 5, 6] }, { blockHashes := some [1, 3, 4, 7, 8] }]

theorem sharedBlock_identifies : HashesIdentify sharedBlock := by
  have hcheck : ∀ a ∈ sharedBlock.filterMap TraceRecord.blockHashes,
      ∀ b ∈ sharedBlock.filterMap TraceRecord.blockHashes, ∀ k < a.length, ∀ l < b.length,
        a[k]? = b[l]? → a.take (k + 1) = b.take (l + 1) := by decide
  have hchain : ∀ i a, chainAt sharedBlock i = some a →
      a ∈ sharedBlock.filterMap TraceRecord.blockHashes := by
    intro i a ha
    obtain ⟨r, hr, hblocks⟩ := Option.bind_eq_some_iff.mp ha
    exact List.mem_filterMap.mpr ⟨r, List.mem_of_getElem? hr, hblocks⟩
  intro i j a b ha hb k l h hk hl
  exact hcheck a (hchain i a ha) b (hchain j b hb) k (List.getElem?_eq_some_iff.mp hk).1 l
    (List.getElem?_eq_some_iff.mp hl).1 (hk.trans hl.symm)

/-- Each second turn follows its own session's first. -/
theorem sharedBlock_parents : inferSessionParents sharedBlock = [none, none, some 0, some 1] ∧
    ∀ i p, ParentLink sharedBlock i p → p < i :=
  ⟨by decide +kernel, (inferSessionParents_spec sharedBlock_identifies).2.2.1⟩

end VllmVcr
