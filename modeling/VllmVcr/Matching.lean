import VllmVcr.ConsumeOnce
import VllmVcr.Tokens

/-!
# Matching prompts to records

`PrefixMatchTokens` and `PrefixSteps` choose once among the records that share the deepest
block hash a prompt has in common with any record they can match. They differ in which
records those are.
-/

namespace VllmVcr

open ConsumeOnce

/-- A record that `PrefixMatchTokens` indexes. -/
def TraceRecord.hasTokens (r : TraceRecord) : Bool := r.outputTokenIds.any (fun t => !t.isEmpty)

/-- A record that `PrefixSteps` indexes. -/
def TraceRecord.hasGaps (r : TraceRecord) : Bool := r.itlMs.isSome

def TraceRecord.holds (r : TraceRecord) (hash : BlockHash) : Bool :=
  hash ∈ r.blockHashes.getD []

/-- The matchable records that hold this hash. -/
def holders (matchable : TraceRecord → Bool) (records : List TraceRecord) (hash : BlockHash) :
    List ℕ :=
  (records.zipIdx.filter (fun r => matchable r.1 && r.1.holds hash)).map Prod.snd

/-- The records that compete for a prompt: those holding its deepest hash that any holds. -/
def rivals (matchable : TraceRecord → Bool) (records : List TraceRecord) (blockSize : ℕ)
    (prompt : List Token) : List ℕ :=
  match (promptBlockHashes prompt blockSize).bind
      (fun chain => chain.reverse.find? (fun hash => holders matchable records hash ≠ [])) with
  | none => []
  | some hash => holders matchable records hash

section Holders

variable {matchable : TraceRecord → Bool} {records : List TraceRecord} {blockSize : ℕ}

theorem mem_holders {hash : BlockHash} {i : ℕ} : i ∈ holders matchable records hash ↔
    ∃ r, records[i]? = some r ∧ matchable r = true ∧ r.holds hash = true := by
  simp only [holders, List.mem_map, List.mem_filter, Bool.and_eq_true]
  constructor
  · rintro ⟨⟨r, j⟩, ⟨hmem, hr⟩, rfl⟩
    exact ⟨r, List.mem_zipIdx_iff_getElem?.mp hmem, hr⟩
  · rintro ⟨r, hr, hmatch⟩
    exact ⟨(r, i), ⟨List.mem_zipIdx_iff_getElem?.mpr hr, hmatch⟩, rfl⟩

theorem holders_sorted (hash : BlockHash) :
    (holders matchable records hash).Pairwise (· < ·) := by
  have hall : (records.zipIdx.map Prod.snd).Pairwise (· < ·) := by
    rw [List.zipIdx_map_snd]
    exact List.pairwise_lt_range'
  exact hall.sublist (List.filter_sublist.map _)

/-- A rival of a prompt holds one of the prompt's hashes. -/
theorem mem_rivals {prompt : List Token} {i : ℕ}
    (h : i ∈ rivals matchable records blockSize prompt) :
    ∃ chain hash, promptBlockHashes prompt blockSize = some chain ∧ hash ∈ chain ∧
      i ∈ holders matchable records hash := by
  unfold rivals at h
  split at h
  · cases h
  · next hash hfound =>
      obtain ⟨chain, hchain, hfind⟩ := Option.bind_eq_some_iff.mp hfound
      exact ⟨chain, hash, hchain, List.mem_reverse.mp (List.mem_of_find?_eq_some hfind), h⟩

theorem rivals_ne_nil {prompt : List Token} {chain : List BlockHash} {hash : BlockHash} {i : ℕ}
    (hchain : promptBlockHashes prompt blockSize = some chain) (hhash : hash ∈ chain)
    (hi : i ∈ holders matchable records hash) :
    rivals matchable records blockSize prompt ≠ [] := by
  unfold rivals
  rw [hchain, Option.bind_some]
  split
  · next hnone =>
      have hheld := List.find?_eq_none.mp hnone hash (List.mem_reverse.mpr hhash)
      simp [List.ne_nil_of_mem hi] at hheld
  · next found hfind => simpa using List.find?_some hfind

theorem rivals_sorted (prompt : List Token) :
    (rivals matchable records blockSize prompt).Pairwise (· < ·) := by
  unfold rivals
  split
  · exact List.Pairwise.nil
  · exact holders_sorted _

theorem rivals_lt {prompt : List Token} {i : ℕ}
    (h : i ∈ rivals matchable records blockSize prompt) : i < records.length := by
  obtain ⟨_, _, _, _, hi⟩ := mem_rivals h
  obtain ⟨r, hr, _⟩ := mem_holders.mp hi
  exact (List.getElem?_eq_some_iff.mp hr).1

end Holders

/-! ## The indexes -/

namespace HashIndex

variable {index : HashIndex}

def listed (index : HashIndex) (hash : BlockHash) : List ℕ := (index.get? hash).getD []

/-- No hash is listed without a record. -/
def Listing (index : HashIndex) : Prop := ∀ hash, index.get? hash ≠ some []

theorem listed_push (i : ℕ) (hash h : BlockHash) :
    (index.push i hash).listed h = index.listed h ++ if h = hash then [i] else [] := by
  rw [listed, push, SortedMap.get?_insert]
  split
  · next heq =>
      subst heq
      rfl
  · exact (List.append_nil _).symm

theorem Listing.push (h : index.Listing) (i : ℕ) (hash : BlockHash) :
    (index.push i hash).Listing := by
  intro k
  rw [HashIndex.push, SortedMap.get?_insert]
  split
  · simp
  · exact h k

theorem listed_foldl_push (i : ℕ) (hashes : List BlockHash) (h : BlockHash) :
    (hashes.foldl (fun index hash => index.push i hash) index).listed h =
      index.listed h ++ List.replicate (hashes.count h) i := by
  induction hashes generalizing index with
  | nil => simp
  | cons hash hashes ih =>
      rw [List.foldl_cons, ih, listed_push, List.append_assoc, List.count_cons]
      by_cases heq : h = hash
      · simp [heq, List.replicate_succ]
      · simp [heq, Ne.symm heq]

theorem Listing.foldl_push (h : index.Listing) (i : ℕ) (hashes : List BlockHash) :
    (hashes.foldl (fun index hash => index.push i hash) index).Listing :=
  List.foldlRecOn (motive := Listing) _ _ h (fun _ h hash _ => h.push i hash)

theorem listed_build (chains : List (List BlockHash × ℕ)) (h : BlockHash) :
    (build chains).listed h =
      chains.flatMap (fun chain => List.replicate (chain.1.count h) chain.2) := by
  induction chains using List.reverseRecOn with
  | nil => rfl
  | append_singleton chains chain ih =>
      rw [build, List.foldl_append, List.foldl_cons, List.foldl_nil, listed_foldl_push,
        List.flatMap_append, List.flatMap_singleton]
      exact congrArg (· ++ _) ih

theorem listing_build (chains : List (List BlockHash × ℕ)) : (build chains).Listing :=
  List.foldlRecOn (motive := Listing) _ _ (fun _ h => by cases h)
    (fun _ h chain _ => h.foldl_push chain.2 chain.1)

/-- A repeated hash of a chain lists its record repeatedly, which no choice notices. -/
theorem find?_listed_build (chains : List (List BlockHash × ℕ)) (h : BlockHash) (p : ℕ → Bool) :
    ((build chains).listed h).find? p =
      ((chains.filter (fun chain => h ∈ chain.1)).map Prod.snd).find? p := by
  rw [listed_build]
  induction chains with
  | nil => rfl
  | cons chain chains ih =>
      rw [List.flatMap_cons, List.find?_append, ih]
      by_cases hmem : h ∈ chain.1
      · obtain ⟨n, hn⟩ := Nat.exists_eq_add_of_lt (List.count_pos_iff.mpr hmem)
        rw [hn, List.filter_cons_of_pos (by simpa using hmem), List.map_cons, List.find?_cons,
          Nat.zero_add, List.find?_replicate]
        cases p chain.2 <;> simp
      · rw [List.count_eq_zero.mpr hmem, List.filter_cons_of_neg (by simpa using hmem)]
        rfl

theorem claim_eq (hlisting : index.Listing) (consumed : List Bool) (chain : List BlockHash) :
    index.claim consumed chain = match chain.find? (fun h => index.listed h ≠ []) with
      | none => none
      | some h => pick consumed (index.listed h) := by
  induction chain with
  | nil => rfl
  | cons hash chain ih =>
      rw [claim, List.find?_cons]
      cases hget : index.get? hash with
      | none =>
          have hlisted : index.listed hash = [] := by rw [listed, hget, Option.getD_none]
          simp only [hlisted]
          exact ih
      | some candidates =>
          have hlisted : index.listed hash = candidates := by rw [listed, hget, Option.getD_some]
          have hne : candidates ≠ [] := by
            rintro rfl
            exact hlisting hash hget
          simp only [hlisted, ne_eq, hne, not_false_eq_true, decide_true]
          rfl

end HashIndex

theorem pick_of_find? {l l' : List ℕ} (consumed : List Bool)
    (h : ∀ p : ℕ → Bool, l.find? p = l'.find? p) : pick consumed l = pick consumed l' := by
  have hhead : ∀ l : List ℕ, l.head? = l.find? (fun _ => true) := by
    intro l
    cases l <;> rfl
  rw [pick, pick, hhead, hhead, h, h]

/-- What two kinds of matchable records have to do with each other. -/
theorem rivals_linked (p q : TraceRecord → Bool) (records : List TraceRecord) (blockSize : ℕ) :
    Linked records.length (rivals p records blockSize) (rivals q records blockSize) := by
  have hknown : ∀ (p q : TraceRecord → Bool) (a b : List Token) i,
      i ∈ rivals p records blockSize a → i ∈ rivals q records blockSize b →
        rivals q records blockSize a ≠ [] := by
    intro p q a b i hp hq
    obtain ⟨chain, hash, hchain, hhash, hi⟩ := mem_rivals hp
    obtain ⟨_, _, _, _, hi'⟩ := mem_rivals hq
    obtain ⟨r, hr, _, hholds⟩ := mem_holders.mp hi
    obtain ⟨r', hr', hmatch, _⟩ := mem_holders.mp hi'
    cases hr.symm.trans hr'
    exact rivals_ne_nil hchain hhash (mem_holders.mpr ⟨r, hr, hmatch, hholds⟩)
  exact ⟨rivals_sorted, rivals_sorted, fun _ _ => rivals_lt, fun _ _ => rivals_lt, hknown p q,
    hknown q p⟩

/-- The chains that a source indexes, those of its matchable records. -/
def indexedChains (matchable : TraceRecord → Bool) (records : List TraceRecord) :
    List (List BlockHash × ℕ) :=
  (records.zipIdx.filter (fun r => matchable r.1)).map (fun r => (r.1.blockHashes.getD [], r.2))

/-- A claim on an index is a choice among the prompt's rivals. -/
theorem claim_indexed (matchable : TraceRecord → Bool) (records : List TraceRecord)
    (blockSize : ℕ) (consumed : List Bool) (prompt : List Token) :
    (promptBlockHashes prompt blockSize).bind (fun chain =>
        (HashIndex.build (indexedChains matchable records)).claim consumed chain.reverse) =
      pick consumed (rivals matchable records blockSize prompt) := by
  have hfind : ∀ hash (p : ℕ → Bool),
      ((HashIndex.build (indexedChains matchable records)).listed hash).find? p =
        (holders matchable records hash).find? p := by
    intro hash p
    rw [HashIndex.find?_listed_build, indexedChains, List.filter_map, List.filter_filter,
      List.map_map]
    congr 2
    exact List.filter_congr (fun r _ => Bool.and_comm _ _)
  have hnil : ∀ hash, (HashIndex.build (indexedChains matchable records)).listed hash ≠ [] ↔
      holders matchable records hash ≠ [] := by
    intro hash
    have hany := hfind hash (fun _ => true)
    cases hl : (HashIndex.build (indexedChains matchable records)).listed hash with
    | nil =>
        cases hh : holders matchable records hash with
        | nil => rfl
        | cons => simp [hl, hh] at hany
    | cons =>
        cases hh : holders matchable records hash with
        | nil => simp [hl, hh] at hany
        | cons => simp
  unfold rivals
  cases hchain : promptBlockHashes prompt blockSize with
  | none => rfl
  | some chain =>
      simp only [Option.bind_some, HashIndex.claim_eq (HashIndex.listing_build _), hnil]
      split
      · rfl
      · exact pick_of_find? consumed (hfind _)

/-! ## The sources -/

namespace PrefixMatchTokens

variable {records : List TraceRecord} {blockSize vocabSize : ℕ}

/-- The record that a prompt is matched to. -/
def matchFor (s : PrefixMatchTokens) (prompt : List Token) : Option ℕ :=
  (promptBlockHashes prompt s.blockSize).bind
    (fun chain => s.byHash.claim s.consumed chain.reverse)

theorem onRequestAdded_eq (s : PrefixMatchTokens) (requestId : String) (prompt : List Token) :
    s.onRequestAdded requestId prompt = match s.matchFor prompt with
      | none => (s, none)
      | some i =>
          ({ s with consumed := s.consumed.set i true, assigned := s.assigned.insert requestId i },
            s.records[i]?.map (fun r => r.tokenIds.length)) := rfl

def admitAll (s : PrefixMatchTokens) (requests : List (String × List Token)) : PrefixMatchTokens :=
  requests.foldl (fun s request => (s.onRequestAdded request.1 request.2).1) s

theorem onRequestAdded_consumed (s : PrefixMatchTokens) (requestId : String)
    (prompt : List Token) : (s.onRequestAdded requestId prompt).1.consumed =
      consume s.consumed (s.matchFor prompt) := by
  rw [onRequestAdded_eq]
  split <;> next heq => rw [heq, consume]

theorem onRequestAdded_index (s : PrefixMatchTokens) (requestId : String) (prompt : List Token) :
    (s.onRequestAdded requestId prompt).1.byHash = s.byHash ∧
      (s.onRequestAdded requestId prompt).1.blockSize = s.blockSize := by
  rw [onRequestAdded_eq]
  split <;> exact ⟨rfl, rfl⟩

/-- What a source has consumed, and what it matches next. -/
theorem matchFor_admitAll (requests : List (String × List Token)) (prompt : List Token) :
    ((fromRecords records blockSize vocabSize).admitAll requests).matchFor prompt =
      pick (chooseAll (rivals TraceRecord.hasTokens records blockSize)
        (List.replicate records.length false) (requests.map Prod.snd))
        (rivals TraceRecord.hasTokens records blockSize prompt) := by
  have hmatch : ∀ s : PrefixMatchTokens,
      s.byHash = HashIndex.build (indexedChains TraceRecord.hasTokens records) →
      s.blockSize = blockSize → ∀ prompt, s.matchFor prompt =
        pick s.consumed (rivals TraceRecord.hasTokens records blockSize prompt) := by
    intro s hindex hblock prompt
    rw [matchFor, hindex, hblock, claim_indexed]
  have hstate : ((fromRecords records blockSize vocabSize).admitAll requests).byHash =
        HashIndex.build (indexedChains TraceRecord.hasTokens records) ∧
      ((fromRecords records blockSize vocabSize).admitAll requests).blockSize = blockSize ∧
      ((fromRecords records blockSize vocabSize).admitAll requests).consumed =
        chooseAll (rivals TraceRecord.hasTokens records blockSize)
          (List.replicate records.length false) (requests.map Prod.snd) := by
    induction requests using List.reverseRecOn with
    | nil => exact ⟨rfl, rfl, rfl⟩
    | append_singleton requests request ih =>
        obtain ⟨hindex, hblock, hconsumed⟩ := ih
        have hkept := onRequestAdded_index
          ((fromRecords records blockSize vocabSize).admitAll requests) request.1 request.2
        rw [admitAll, List.foldl_append, List.foldl_cons, List.foldl_nil]
        refine ⟨hkept.1.trans hindex, hkept.2.trans hblock, ?_⟩
        rw [onRequestAdded_consumed, List.map_append, chooseAll_append, ← hconsumed]
        exact congrArg (consume _) (hmatch _ hindex hblock request.2)
  rw [hmatch _ hstate.1 hstate.2.1, hstate.2.2]

end PrefixMatchTokens

namespace PrefixSteps

variable {records : List TraceRecord} {blockSize : ℕ}

/-- The record that a prompt is matched to. -/
def matchFor (s : PrefixSteps) (prompt : List Token) : Option ℕ :=
  (promptBlockHashes prompt s.blockSize).bind
    (fun chain => s.byHash.claim s.consumed chain.reverse)

theorem takeSchedule_eq (s : PrefixSteps) (prompt : List Token) :
    s.takeSchedule prompt = match s.matchFor prompt with
      | none => (s, none)
      | some i => ({ s with consumed := s.consumed.set i true },
          s.records[i]?.bind (fun r => (scheduleFromRecord r).join)) := rfl

def admitAll (s : PrefixSteps) (requests : List (String × List Token)) : PrefixSteps :=
  requests.foldl (fun s request => (s.takeSchedule request.2).1) s

theorem takeSchedule_consumed (s : PrefixSteps) (prompt : List Token) :
    (s.takeSchedule prompt).1.consumed = consume s.consumed (s.matchFor prompt) := by
  rw [takeSchedule_eq]
  split <;> next heq => rw [heq, consume]

theorem takeSchedule_index (s : PrefixSteps) (prompt : List Token) :
    (s.takeSchedule prompt).1.byHash = s.byHash ∧
      (s.takeSchedule prompt).1.blockSize = s.blockSize := by
  rw [takeSchedule_eq]
  split <;> exact ⟨rfl, rfl⟩

theorem matchFor_admitAll (requests : List (String × List Token)) (prompt : List Token) :
    ((fromRecords records blockSize).admitAll requests).matchFor prompt =
      pick (chooseAll (rivals TraceRecord.hasGaps records blockSize)
        (List.replicate records.length false) (requests.map Prod.snd))
        (rivals TraceRecord.hasGaps records blockSize prompt) := by
  have hmatch : ∀ s : PrefixSteps,
      s.byHash = HashIndex.build (indexedChains TraceRecord.hasGaps records) →
      s.blockSize = blockSize → ∀ prompt, s.matchFor prompt =
        pick s.consumed (rivals TraceRecord.hasGaps records blockSize prompt) := by
    intro s hindex hblock prompt
    rw [matchFor, hindex, hblock, claim_indexed]
  have hstate : ((fromRecords records blockSize).admitAll requests).byHash =
        HashIndex.build (indexedChains TraceRecord.hasGaps records) ∧
      ((fromRecords records blockSize).admitAll requests).blockSize = blockSize ∧
      ((fromRecords records blockSize).admitAll requests).consumed =
        chooseAll (rivals TraceRecord.hasGaps records blockSize)
          (List.replicate records.length false) (requests.map Prod.snd) := by
    induction requests using List.reverseRecOn with
    | nil => exact ⟨rfl, rfl, rfl⟩
    | append_singleton requests request ih =>
        obtain ⟨hindex, hblock, hconsumed⟩ := ih
        have hkept := takeSchedule_index ((fromRecords records blockSize).admitAll requests)
          request.2
        rw [admitAll, List.foldl_append, List.foldl_cons, List.foldl_nil]
        refine ⟨hkept.1.trans hindex, hkept.2.trans hblock, ?_⟩
        rw [takeSchedule_consumed, List.map_append, chooseAll_append, ← hconsumed]
        exact congrArg (consume _) (hmatch _ hindex hblock request.2)
  rw [hmatch _ hstate.1 hstate.2.1, hstate.2.2]

end PrefixSteps

theorem isFree_replicate {n i : ℕ} (h : i < n) : isFree (List.replicate n false) i = true := by
  simp [isFree, List.getD_eq_getElem?_getD, h]

/-- Over one trace, the two sources agree on the record of every request of every sequence exactly
when the same records compete for a prompt in both, wherever both know one. -/
theorem sources_agree_iff (records : List TraceRecord) (blockSize vocabSize : ℕ) :
    (∀ (requests : List (String × List Token)) prompt i j,
        ((PrefixMatchTokens.fromRecords records blockSize vocabSize).admitAll requests).matchFor
          prompt = some i →
        ((PrefixSteps.fromRecords records blockSize).admitAll requests).matchFor prompt = some j →
          i = j) ↔
      ∀ prompt, rivals TraceRecord.hasTokens records blockSize prompt ≠ [] →
        rivals TraceRecord.hasGaps records blockSize prompt ≠ [] →
          ∀ i, i ∈ rivals TraceRecord.hasTokens records blockSize prompt ↔
            i ∈ rivals TraceRecord.hasGaps records blockSize prompt := by
  rw [← (rivals_linked _ _ records blockSize).agree_iff (List.length_replicate)
    (fun i hi => isFree_replicate hi)]
  constructor
  · intro hagree prompts prompt i j hi hj
    have hprompts : (prompts.map (fun prompt => ("", prompt))).map Prod.snd = prompts := by
      rw [List.map_map]
      exact List.map_id prompts
    apply hagree (prompts.map (fun prompt => ("", prompt))) prompt i j
    · rw [PrefixMatchTokens.matchFor_admitAll, hprompts]
      exact hi
    · rw [PrefixSteps.matchFor_admitAll, hprompts]
      exact hj
  · intro hagree requests prompt i j hi hj
    rw [PrefixMatchTokens.matchFor_admitAll] at hi
    rw [PrefixSteps.matchFor_admitAll] at hj
    exact hagree _ prompt i j hi hj

/-- Two captures of one prompt, the first of a single token and so without gaps. -/
def mixedRecords : List TraceRecord :=
  [{ outputTokens := 1
     itlMs := none
     itlTokens := none
     blockHashes := promptBlockHashes [5] 1
     outputTokenIds := some [7]
     finishReason := some .length },
   { outputTokens := 2
     itlMs := some [10]
     itlTokens := none
     blockHashes := promptBlockHashes [5] 1
     outputTokenIds := some [8, 9]
     finishReason := some .length }]

theorem mixedRecords_disagree :
    ¬ ∀ (records : List TraceRecord) blockSize vocabSize (requests : List (String × List Token))
      prompt i j,
        ((PrefixMatchTokens.fromRecords records blockSize vocabSize).admitAll requests).matchFor
          prompt = some i →
        ((PrefixSteps.fromRecords records blockSize).admitAll requests).matchFor prompt = some j →
          i = j := by
  intro hclaim
  have hzero := hclaim mixedRecords 1 10 [] [5] 0 1 (by decide +kernel) (by decide +kernel)
  cases hzero

/-! ## Requests for the records of a capture -/

/-- The request's prompt hashes to the record's chain. -/
def Retells (blockSize : ℕ) (r : TraceRecord) (request : String × List Token) : Prop :=
  ∃ chain, chain ≠ [] ∧ r.blockHashes = some chain ∧
    promptBlockHashes request.2 blockSize = some chain

/-- `s` holds the last hash of the chain of `r`. -/
def TraceRecord.Extends (s r : TraceRecord) : Prop :=
  ∃ hash, (r.blockHashes.getD []).getLast? = some hash ∧ s.holds hash = true

theorem Retells.mem_rivals {matchable : TraceRecord → Bool} {records : List TraceRecord}
    {blockSize i j : ℕ} {r : TraceRecord} {request : String × List Token}
    (h : Retells blockSize r request) (hr : records[i]? = some r) (hmatch : matchable r = true) :
    j ∈ rivals matchable records blockSize request.2 ↔
      ∃ s, records[j]? = some s ∧ matchable s = true ∧ s.Extends r := by
  obtain ⟨chain, hne, hhashes, hchain⟩ := h
  have hlast : chain.getLast? = some (chain.getLast hne) := List.getLast?_eq_some_getLast hne
  have hown : holders matchable records (chain.getLast hne) ≠ [] := by
    apply List.ne_nil_of_mem (a := i)
    refine mem_holders.mpr ⟨r, hr, hmatch, ?_⟩
    rw [TraceRecord.holds, hhashes]
    exact decide_eq_true (List.getLast_mem hne)
  have hfind : chain.reverse.find? (fun hash => holders matchable records hash ≠ []) =
      some (chain.getLast hne) := by
    have hreverse : chain.reverse = chain.getLast hne :: chain.dropLast.reverse := by
      conv_lhs => rw [← List.dropLast_append_getLast hne]
      rw [List.reverse_append, List.reverse_singleton, List.singleton_append]
    rw [hreverse, List.find?_cons]
    simp [hown]
  rw [rivals, hchain, Option.bind_some, hfind, mem_holders]
  constructor
  · rintro ⟨s, hs, hmatched, hholds⟩
    exact ⟨s, hs, hmatched, chain.getLast hne, by rw [hhashes, Option.getD_some, hlast], hholds⟩
  · rintro ⟨s, hs, hmatched, hash, hget, hholds⟩
    rw [hhashes, Option.getD_some, hlast, Option.some.injEq] at hget
    exact ⟨s, hs, hmatched, hget ▸ hholds⟩

theorem Retells.self {blockSize : ℕ} {r : TraceRecord} {request : String × List Token}
    (h : Retells blockSize r request) : r.Extends r := by
  obtain ⟨chain, hne, hhashes, _⟩ := h
  refine ⟨chain.getLast hne, ?_, ?_⟩
  · rw [hhashes, Option.getD_some, List.getLast?_eq_some_getLast hne]
  · rw [TraceRecord.holds, hhashes]
    exact decide_eq_true (List.getLast_mem hne)

/-- What `rivals_own` and the order of requests decide, for either kind of matchable records. -/
theorem allOwn_rivals_iff {matchable : TraceRecord → Bool} {records : List TraceRecord}
    {blockSize : ℕ} {requests : List ((String × List Token) × ℕ)}
    (hmatch : ∀ r ∈ records, matchable r = true)
    (hretells : ∀ q ∈ requests, ∃ r, records[q.2]? = some r ∧ Retells blockSize r q.1)
    (hnodup : (requests.map Prod.snd).Nodup) :
    AllOwn (fun request : String × List Token => rivals matchable records blockSize request.2)
        (List.replicate records.length false) requests ↔
      ∀ k q, requests[k]? = some q → ∀ j r s, j < q.2 → records[q.2]? = some r →
        records[j]? = some s → s.Extends r → j ∈ (requests.take k).map Prod.snd := by
  rw [allOwn_iff (fun request => rivals_sorted request.2) (fun _ _ => rivals_lt)
    List.length_replicate (fun i hi => isFree_replicate hi) ?_ hnodup]
  · constructor
    · intro hfirst k q hk j r s hlt hr hs hextends
      obtain ⟨r', hr', hretell⟩ := hretells q (List.mem_of_getElem? hk)
      cases hr.symm.trans hr'
      refine hfirst k q hk j ?_ hlt
      rw [hretell.mem_rivals hr (hmatch r (List.mem_of_getElem? hr))]
      exact ⟨s, hs, hmatch s (List.mem_of_getElem? hs), hextends⟩
    · intro hfirst k q hk j hj hlt
      obtain ⟨r, hr, hretell⟩ := hretells q (List.mem_of_getElem? hk)
      rw [hretell.mem_rivals hr (hmatch r (List.mem_of_getElem? hr))] at hj
      obtain ⟨s, hs, _, hextends⟩ := hj
      exact hfirst k q hk j r s hlt hr hs hextends
  · intro q hq
    obtain ⟨r, hr, hretell⟩ := hretells q hq
    have hmatched := hmatch r (List.mem_of_getElem? hr)
    exact (hretell.mem_rivals hr hmatched).mpr ⟨r, hr, hmatched, hretell.self⟩

/-- Requests for the records of a capture, in any order, all get their own record exactly when no
request comes before that of an earlier record which extends its own. -/
theorem each_gets_own_iff {records : List TraceRecord} {blockSize : ℕ} (vocabSize : ℕ)
    {requests : List ((String × List Token) × ℕ)} (hmatch : ∀ r ∈ records, r.hasTokens = true)
    (hretells : ∀ q ∈ requests, ∃ r, records[q.2]? = some r ∧ Retells blockSize r q.1)
    (horder : (requests.map Prod.snd).Perm (List.range records.length)) :
    (∀ k q, requests[k]? = some q →
        ((PrefixMatchTokens.fromRecords records blockSize vocabSize).admitAll
          ((requests.take k).map Prod.fst)).matchFor q.1.2 = some q.2) ↔
      ∀ k q, requests[k]? = some q → ∀ j r s, j < q.2 → records[q.2]? = some r →
        records[j]? = some s → s.Extends r → j ∈ (requests.take k).map Prod.snd := by
  rw [← allOwn_rivals_iff hmatch hretells (horder.nodup_iff.mpr List.nodup_range)]
  simp only [AllOwn, Each, PrefixMatchTokens.matchFor_admitAll, chooseAll_map]

def captured (prompt : List Token) : TraceRecord where
  outputTokens := 2
  itlMs := some [10]
  itlTokens := none
  blockHashes := promptBlockHashes prompt 1
  outputTokenIds := some [7, 8]
  finishReason := some .length

theorem captured_retells {prompt : List Token} (requestId : String)
    (h : (promptBlockHashes prompt 1).any (fun chain => chain ≠ []) = true) :
    Retells 1 (captured prompt) (requestId, prompt) := by
  obtain ⟨chain, hchain, hne⟩ := (Option.any_eq_true _ _).mp h
  exact ⟨chain, of_decide_eq_true hne, hchain, hchain⟩

/-- The second turn of a session requested before the first. -/
theorem session_reversed :
    (PrefixMatchTokens.fromRecords [captured [5], captured [5, 6]] 1 10).matchFor [5, 6] = some 1 ∧
      ((PrefixMatchTokens.fromRecords [captured [5], captured [5, 6]] 1 10).admitAll
        [("b", [5, 6])]).matchFor [5] = some 0 := by
  have hown : ∀ k q, ([(("b", [5, 6]), 1), (("a", [5]), 0)] :
      List ((String × List Token) × ℕ))[k]? = some q →
      ((PrefixMatchTokens.fromRecords [captured [5], captured [5, 6]] 1 10).admitAll
        (([(("b", [5, 6]), 1), (("a", [5]), 0)].take k).map Prod.fst)).matchFor q.1.2 =
          some q.2 := by
    apply (each_gets_own_iff 10 (by decide) ?_ (by decide)).mpr
    · intro k q hk j r s hlt hr hs hextends
      match k with
      | 0 =>
          cases hk
          have hj : j = 0 := by
            simp only at hlt
            omega
          subst hj
          cases hr
          cases hs
          obtain ⟨hash, hlast, hholds⟩ := hextends
          cases hlast
          revert hholds
          decide +kernel
      | 1 =>
          cases hk
          cases hlt
      | k + 2 => cases hk
    · intro q hq
      rcases List.mem_cons.mp hq with rfl | hq
      · exact ⟨_, rfl, captured_retells "b" (by decide +kernel)⟩
      · rcases List.mem_cons.mp hq with rfl | hq
        · exact ⟨_, rfl, captured_retells "a" (by decide +kernel)⟩
        · cases hq
  exact ⟨hown 0 _ rfl, hown 1 _ rfl⟩

/-- A prompt requested before an earlier record that extends it. -/
theorem shorter_takes_longer :
    ¬ ∀ (records : List TraceRecord) blockSize vocabSize
      (requests : List ((String × List Token) × ℕ)), (∀ r ∈ records, r.hasTokens = true) →
      (records.map TraceRecord.blockHashes).Nodup →
      (∀ q ∈ requests, ∃ r, records[q.2]? = some r ∧ Retells blockSize r q.1) →
      (requests.map Prod.snd).Perm (List.range records.length) →
        ∀ k q, requests[k]? = some q →
          ((PrefixMatchTokens.fromRecords records blockSize vocabSize).admitAll
            ((requests.take k).map Prod.fst)).matchFor q.1.2 = some q.2 := by
  intro hclaim
  have hretells : ∀ q ∈ ([(("a", [5]), 1), (("b", [5, 6]), 0)] :
      List ((String × List Token) × ℕ)), ∃ r, [captured [5, 6], captured [5]][q.2]? = some r ∧
        Retells 1 r q.1 := by
    intro q hq
    rcases List.mem_cons.mp hq with rfl | hq
    · exact ⟨_, rfl, captured_retells "a" (by decide +kernel)⟩
    · rcases List.mem_cons.mp hq with rfl | hq
      · exact ⟨_, rfl, captured_retells "b" (by decide +kernel)⟩
      · cases hq
  have hfirst := hclaim [captured [5, 6], captured [5]] 1 10 _ (by decide) (by decide +kernel)
    hretells (by decide) 0 _ rfl
  revert hfirst
  decide +kernel

/-- Requests for the records of a capture, in record order, are matched one to one. -/
theorem replay_in_order {records : List TraceRecord} {blockSize : ℕ} (vocabSize : ℕ)
    {requests : List (String × List Token)}
    (h : List.Forall₂ (Retells blockSize) records requests) :
    ((∀ r ∈ records, r.hasTokens = true) → ∀ k q, requests[k]? = some q →
        ((PrefixMatchTokens.fromRecords records blockSize vocabSize).admitAll
          (requests.take k)).matchFor q.2 = some k) ∧
      ((∀ r ∈ records, r.hasGaps = true) → ∀ k q, requests[k]? = some q →
        ((PrefixSteps.fromRecords records blockSize).admitAll
          (requests.take k)).matchFor q.2 = some k) := by
  have hall : ∀ matchable : TraceRecord → Bool, (∀ r ∈ records, matchable r = true) →
      ∀ k q, requests[k]? = some q →
        pick (chooseAll (rivals matchable records blockSize)
          (List.replicate records.length false) ((requests.take k).map Prod.snd))
          (rivals matchable records blockSize q.2) = some k := by
    intro matchable hmatch k q hk
    have hretells : ∀ p ∈ requests.zipIdx, ∃ r, records[p.2]? = some r ∧
        Retells blockSize r p.1 := by
      intro p hp
      have hget := List.mem_zipIdx_iff_getElem?.mp hp
      have hlt : p.2 < records.length := by
        rw [h.length_eq]
        exact (List.getElem?_eq_some_iff.mp hget).1
      refine ⟨records[p.2], List.getElem?_eq_getElem hlt, ?_⟩
      have hpair := List.forall₂_iff_get.mp h
      have hq := (List.getElem?_eq_some_iff.mp hget).2
      have hretell := hpair.2 p.2 hlt (List.getElem?_eq_some_iff.mp hget).1
      rw [List.get_eq_getElem, List.get_eq_getElem, hq] at hretell
      exact hretell
    have hnodup : (requests.zipIdx.map Prod.snd).Nodup := by
      rw [List.zipIdx_map_snd]
      exact List.nodup_range'
    have hown := (allOwn_rivals_iff hmatch hretells hnodup).mpr
    have hlast := hown ?_ k (q, k) (by simp [List.getElem?_zipIdx, hk])
    · simp only [List.map_take, List.zipIdx_map_fst] at hlast
      rw [chooseAll_map]
      exact hlast
    · intro k' p hp j r s hlt _ _ _
      have hindex : p.2 = k' := by
        rw [List.getElem?_zipIdx, Nat.zero_add] at hp
        obtain ⟨q', _, rfl⟩ := Option.map_eq_some_iff.mp hp
        rfl
      have hk' : k' < requests.length := by
        have := (List.getElem?_eq_some_iff.mp hp).1
        rwa [List.length_zipIdx] at this
      rw [List.map_take, List.zipIdx_map_snd, List.take_range'_of_length_ge hk'.le, List.mem_range'_1]
      omega
  constructor
  · intro hmatch k q hk
    rw [PrefixMatchTokens.matchFor_admitAll]
    exact hall _ hmatch k q hk
  · intro hmatch k q hk
    rw [PrefixSteps.matchFor_admitAll]
    exact hall _ hmatch k q hk

/-- A session of two turns whose first prompt was captured twice. -/
theorem session_in_order :
    (∀ k q, ([("a", [5]), ("b", [5, 6]), ("c", [5])] : List (String × List Token))[k]? = some q →
      ((PrefixMatchTokens.fromRecords [captured [5], captured [5, 6], captured [5]] 1 10).admitAll
        ([("a", [5]), ("b", [5, 6]), ("c", [5])].take k)).matchFor q.2 = some k) ∧
    ∀ k q, ([("a", [5]), ("b", [5, 6]), ("c", [5])] : List (String × List Token))[k]? = some q →
      ((PrefixSteps.fromRecords [captured [5], captured [5, 6], captured [5]] 1).admitAll
        ([("a", [5]), ("b", [5, 6]), ("c", [5])].take k)).matchFor q.2 = some k := by
  have hretells : List.Forall₂ (Retells 1) [captured [5], captured [5, 6], captured [5]]
      [("a", [5]), ("b", [5, 6]), ("c", [5])] :=
    .cons (captured_retells "a" (by decide +kernel))
      (.cons (captured_retells "b" (by decide +kernel))
        (.cons (captured_retells "c" (by decide +kernel)) .nil))
  exact ⟨(replay_in_order 10 hretells).1 (by decide), (replay_in_order 10 hretells).2 (by decide)⟩

end VllmVcr
