import VllmVcr.PrefixHashes

/-!
# Prompts rebuilt from block hashes

`prompt_from_block_hashes` expands each recorded hash to a block of tokens and fills up with
tokens keyed by the request's index. A recorded hash that is the index of another request expands
to that request's fill, which may then share a block that the chains do not.
-/

namespace VllmVcr

open CommonStart

def goldenGamma : UInt64 := 0x9E3779B97F4A7C15

def mixMultiplier : UInt64 := 0xBF58476D1CE4E5B9

/-- The token at a position of the stream keyed by `seed`. -/
def mixToken (seed position : UInt64) : Token :=
  let x := seed * goldenGamma + position * mixMultiplier
  ((x ^^^ (x >>> 33)) % 31000).toUInt32

def syntheticPrompt (requestIndex : UInt64) (len : ℕ) : List Token :=
  (List.range len).map (fun j => mixToken requestIndex (UInt64.ofNat j))

def promptFromBlockHashes (hashes : List BlockHash) (promptTokens blockSize : ℕ)
    (requestIndex : UInt64) : List Token :=
  let tokens := (hashes.flatMap (fun h =>
    (List.range blockSize).map (fun j => mixToken h (UInt64.ofNat j)))).take promptTokens
  tokens ++ syntheticPrompt requestIndex (promptTokens - tokens.length)

/-- Different keys expand to different blocks. -/
def KeysDistinct (blockSize : ℕ) (keys : List UInt64) : Prop :=
  ∀ k ∈ keys, ∀ k' ∈ keys, syntheticPrompt k blockSize = syntheticPrompt k' blockSize → k = k'

instance decidableKeysDistinct (blockSize : ℕ) (keys : List UInt64) :
    Decidable (KeysDistinct blockSize keys) :=
  have (k : UInt64) : Decidable (∀ k' ∈ keys,
      syntheticPrompt k blockSize = syntheticPrompt k' blockSize → k = k') :=
    List.decidableBAll _ keys
  List.decidableBAll _ keys

@[simp] theorem length_syntheticPrompt (key : UInt64) (len : ℕ) :
    (syntheticPrompt key len).length = len := by
  simp [syntheticPrompt]

theorem length_expanded (hashes : List BlockHash) (blockSize : ℕ) :
    ((hashes.map (syntheticPrompt · blockSize)).flatten).length = hashes.length * blockSize := by
  induction hashes with
  | nil => simp
  | cons h hashes ih =>
      rw [List.map_cons, List.flatten_cons, List.length_append, ih, length_syntheticPrompt,
        List.length_cons, Nat.add_one_mul, Nat.add_comm]

theorem promptFromBlockHashes_eq (hashes : List BlockHash) (promptTokens blockSize : ℕ)
    (requestIndex : UInt64) :
    promptFromBlockHashes hashes promptTokens blockSize requestIndex =
      ((hashes.map (syntheticPrompt · blockSize)).flatten).take promptTokens ++
        syntheticPrompt requestIndex (promptTokens - hashes.length * blockSize) := by
  have hfill : promptTokens -
      (((hashes.map (syntheticPrompt · blockSize)).flatten).take promptTokens).length =
        promptTokens - hashes.length * blockSize := by
    rw [List.length_take, length_expanded]
    omega
  rw [← hfill]
  rfl

theorem length_promptFromBlockHashes (hashes : List BlockHash) (promptTokens blockSize : ℕ)
    (requestIndex : UInt64) :
    (promptFromBlockHashes hashes promptTokens blockSize requestIndex).length = promptTokens := by
  rw [promptFromBlockHashes, List.length_append, length_syntheticPrompt, List.length_take]
  omega

/-- The fill of a prompt starts with the block of the request's index. -/
theorem chunks_syntheticPrompt {blockSize : ℕ} (hsize : 0 < blockSize) (key : UInt64) {len : ℕ}
    (hlen : blockSize ≤ len) :
    ∃ rest, chunks blockSize (syntheticPrompt key len) = syntheticPrompt key blockSize :: rest := by
  have hsplit : syntheticPrompt key len =
      syntheticPrompt key blockSize ++ (syntheticPrompt key len).drop blockSize := by
    have htake : syntheticPrompt key blockSize = (syntheticPrompt key len).take blockSize := by
      rw [syntheticPrompt, syntheticPrompt, ← List.map_take, List.take_range,
        Nat.min_eq_left hlen]
    rw [htake, List.take_append_drop]
  exact ⟨_, by rw [hsplit, chunks_cons (length_syntheticPrompt _ _) hsize]⟩

/-- The full blocks of a rebuilt prompt are those of its chain, cut to the prompt, and, behind a
chain that is too short, those of its fill. -/
theorem chunks_promptFromBlockHashes {blockSize : ℕ} (hsize : 0 < blockSize)
    (hashes : List BlockHash) (promptTokens : ℕ) (requestIndex : UInt64) :
    ∃ fill, chunks blockSize (promptFromBlockHashes hashes promptTokens blockSize requestIndex) =
        (hashes.take (promptTokens / blockSize)).map (syntheticPrompt · blockSize) ++ fill ∧
      (promptTokens / blockSize ≤ hashes.length → fill = []) ∧
      (hashes.length < promptTokens / blockSize →
        ∃ rest, fill = syntheticPrompt requestIndex blockSize :: rest) := by
  have hblocks : ∀ b ∈ hashes.map (syntheticPrompt · blockSize), b.length = blockSize := by
    intro b hb
    obtain ⟨h, _, rfl⟩ := List.mem_map.mp hb
    exact length_syntheticPrompt h blockSize
  have hlength := length_expanded hashes blockSize
  have hwhole : chunks blockSize ((hashes.map (syntheticPrompt · blockSize)).flatten) =
      hashes.map (syntheticPrompt · blockSize) := by
    have happend := chunks_flatten hblocks hsize []
    have hnil : chunks blockSize ([] : List Token) = [] := chunks_short hsize
    rwa [hnil, List.append_nil, List.append_nil] at happend
  rw [promptFromBlockHashes_eq]
  by_cases hshort : hashes.length < promptTokens / blockSize
  · have hfits : (hashes.length + 1) * blockSize ≤ promptTokens :=
      (Nat.le_div_iff_mul_le hsize).mp hshort
    rw [Nat.add_one_mul] at hfits
    rw [List.take_of_length_le (by omega), chunks_flatten hblocks hsize,
      List.take_of_length_le (by omega)]
    exact ⟨_, rfl, fun h => absurd h (by omega), fun _ =>
      chunks_syntheticPrompt hsize requestIndex (by omega)⟩
  · refine ⟨[], ?_, fun _ => rfl, fun h => absurd h hshort⟩
    by_cases hcut : promptTokens ≤ hashes.length * blockSize
    · rw [Nat.sub_eq_zero_of_le hcut, show syntheticPrompt requestIndex 0 = [] from rfl,
        List.append_nil, List.append_nil, chunks_take _ (by omega), hwhole, List.map_take]
    · have hfew : promptTokens - hashes.length * blockSize < blockSize := by
        have hlt : promptTokens < (hashes.length + 1) * blockSize :=
          (Nat.div_lt_iff_lt_mul hsize).mp (by omega)
        rw [Nat.add_one_mul] at hlt
        omega
      have hcount : promptTokens / blockSize = hashes.length := by
        have hle : hashes.length ≤ promptTokens / blockSize :=
          (Nat.le_div_iff_mul_le hsize).mpr (by omega)
        omega
      rw [List.take_of_length_le (by omega), chunks_flatten hblocks hsize,
        chunks_short (by simpa using hfew), hcount, List.take_length]

/-! ## Shared blocks -/

section Shares

variable {β γ : Type*} [DecidableEq β] [DecidableEq γ] {g : β → γ}

/-- The expansions of two chains share what the chains share, unless one chain is followed by the
key of the other's fill. -/
theorem commonLength_expand_iff {x y : β} (hxy : x ≠ y) {a b : List β} {fill fill' : List γ}
    (hinj : ∀ k ∈ a ++ b ++ [x, y], ∀ k' ∈ a ++ b ++ [x, y], g k = g k' → k = k')
    (hfill : fill = [] ∨ ∃ rest, fill = g x :: rest)
    (hfill' : fill' = [] ∨ ∃ rest, fill' = g y :: rest) :
    commonLength (a.map g ++ fill) (b.map g ++ fill') = commonLength a b ↔
      ¬ ((fill ≠ [] ∧ a ++ [x] <+: b) ∨ (fill' ≠ [] ∧ b ++ [y] <+: a)) := by
  induction a generalizing b with
  | nil =>
      have hx : x ∈ [] ++ b ++ [x, y] := by simp
      have hy : y ∈ [] ++ b ++ [x, y] := by simp
      cases b with
      | nil =>
          refine iff_of_true ?_ (by simp)
          rcases hfill with rfl | ⟨rest, rfl⟩
          · simp
          · rcases hfill' with rfl | ⟨rest', rfl⟩
            · simp
            · exact commonLength_cons_ne (fun heq => hxy (hinj x hx y hy heq)) _ _
      | cons k b =>
          have hk : k ∈ [] ++ (k :: b) ++ [x, y] := by simp
          rcases hfill with rfl | ⟨rest, rfl⟩
          · simp
          · have hshort : ¬ (k :: b) ++ [y] <+: [] := by simp
            by_cases hkx : k = x
            · subst hkx
              simp [commonLength_cons_self]
            · have hgx : g x ≠ g k := fun heq => hkx (hinj x hx k hk heq).symm
              simp only [List.map_nil, List.nil_append, List.map_cons, List.cons_append,
                commonLength_cons_ne hgx, commonLength_nil_left, true_iff]
              simp [Ne.symm hkx]
  | cons k a ih =>
      cases b with
      | nil =>
          have hk : k ∈ (k :: a) ++ [] ++ [x, y] := by simp
          have hy : y ∈ (k :: a) ++ [] ++ [x, y] := by simp
          rcases hfill' with rfl | ⟨rest, rfl⟩
          · simp
          · by_cases hky : k = y
            · subst hky
              simp [commonLength_cons_self]
            · have hgy : g k ≠ g y := fun heq => hky (hinj k hk y hy heq)
              simp only [List.map_nil, List.nil_append, List.map_cons, List.cons_append,
                commonLength_cons_ne hgy, commonLength_nil_right, true_iff]
              simp [Ne.symm hky]
      | cons k' b =>
          have hk : k ∈ (k :: a) ++ (k' :: b) ++ [x, y] := by simp
          have hk' : k' ∈ (k :: a) ++ (k' :: b) ++ [x, y] := by simp
          simp only [List.map_cons, List.cons_append, List.cons_prefix_cons]
          by_cases heq : k = k'
          · subst heq
            rw [commonLength_cons_self, commonLength_cons_self, Nat.add_right_cancel_iff]
            have hinner := ih (b := b) (fun j hj j' hj' => hinj j (by simp at hj ⊢; tauto) j'
              (by simp at hj' ⊢; tauto))
            simpa using hinner
          · have hne : g k ≠ g k' := fun h => heq (hinj k hk k' hk' h)
            rw [commonLength_cons_ne hne, commonLength_cons_ne heq]
            simp [heq, Ne.symm heq]

end Shares

/-- A record of a replayed trace, with its place in it. -/
structure ReplayedRecord where
  blockHashes : List BlockHash
  promptTokens : ℕ
  index : UInt64

namespace ReplayedRecord

def prompt (r : ReplayedRecord) (blockSize : ℕ) : List Token :=
  promptFromBlockHashes r.blockHashes r.promptTokens blockSize r.index

/-- The chain without the entries for which the prompt has no full block. -/
def cutChain (r : ReplayedRecord) (blockSize : ℕ) : List BlockHash :=
  r.blockHashes.take (r.promptTokens / blockSize)

/-- The chain ends before the full blocks do, where the other's goes on with this index. -/
def Overrun (blockSize : ℕ) (r other : ReplayedRecord) : Prop :=
  r.blockHashes.length < r.promptTokens / blockSize ∧
    r.blockHashes ++ [r.index] <+: other.cutChain blockSize

/-- Both prompts have their lengths and share the blocks that the chains share, also by their
new hashes. -/
structure SharesAlike (blockSize : ℕ) (r other : ReplayedRecord) : Prop where
  length : (r.prompt blockSize).length = r.promptTokens
  otherLength : (other.prompt blockSize).length = other.promptTokens
  blocks : commonLength (chunks blockSize (r.prompt blockSize))
    (chunks blockSize (other.prompt blockSize)) =
      commonLength (r.cutChain blockSize) (other.cutChain blockSize)
  hashes : ∀ k : ℕ, (∃ hash, ((promptBlockHashes (r.prompt blockSize) blockSize).getD [])[k]? =
      some hash ∧ ((promptBlockHashes (other.prompt blockSize) blockSize).getD [])[k]? =
        some hash) ↔ k < commonLength (r.cutChain blockSize) (other.cutChain blockSize)

theorem commonLength_blocks_iff {blockSize : ℕ} (hsize : 0 < blockSize) {r other : ReplayedRecord}
    (hindex : r.index ≠ other.index)
    (hkeys : KeysDistinct blockSize
      (r.blockHashes ++ other.blockHashes ++ [r.index, other.index])) :
    commonLength (chunks blockSize (r.prompt blockSize))
        (chunks blockSize (other.prompt blockSize)) =
      commonLength (r.cutChain blockSize) (other.cutChain blockSize) ↔
        ¬ (Overrun blockSize r other ∨ Overrun blockSize other r) := by
  have hfills : ∀ s : ReplayedRecord, ∃ fill,
      chunks blockSize (s.prompt blockSize) =
        (s.cutChain blockSize).map (syntheticPrompt · blockSize) ++ fill ∧
      (fill = [] ∨ ∃ rest, fill = syntheticPrompt s.index blockSize :: rest) ∧
      (fill ≠ [] ↔ s.blockHashes.length < s.promptTokens / blockSize) := by
    intro s
    obtain ⟨fill, hchunks, hnone, hsome⟩ :=
      chunks_promptFromBlockHashes hsize s.blockHashes s.promptTokens s.index
    refine ⟨fill, hchunks, ?_, ?_⟩
    · by_cases hshort : s.blockHashes.length < s.promptTokens / blockSize
      · exact Or.inr (hsome hshort)
      · exact Or.inl (hnone (not_lt.mp hshort))
    · constructor
      · exact fun hne => not_le.mp (mt hnone hne)
      · intro hshort
        obtain ⟨rest, rfl⟩ := hsome hshort
        exact List.cons_ne_nil _ _
  have hcut : ∀ s : ReplayedRecord, s.blockHashes.length < s.promptTokens / blockSize →
      s.cutChain blockSize = s.blockHashes := fun s h => List.take_of_length_le h.le
  obtain ⟨fill, hchunks, hhead, hfill⟩ := hfills r
  obtain ⟨fill', hchunks', hhead', hfill'⟩ := hfills other
  have hover : (fill ≠ [] ∧ r.cutChain blockSize ++ [r.index] <+: other.cutChain blockSize) ↔
      Overrun blockSize r other := by
    rw [hfill]
    exact and_congr_right (fun h => by rw [hcut r h])
  have hover' : (fill' ≠ [] ∧ other.cutChain blockSize ++ [other.index] <+: r.cutChain blockSize) ↔
      Overrun blockSize other r := by
    rw [hfill']
    exact and_congr_right (fun h => by rw [hcut other h])
  have hmem : ∀ k ∈ r.cutChain blockSize ++ other.cutChain blockSize ++ [r.index, other.index],
      k ∈ r.blockHashes ++ other.blockHashes ++ [r.index, other.index] := by
    intro k hk
    rcases List.mem_append.mp hk with hk | hk
    · rcases List.mem_append.mp hk with hk | hk
      · simp [List.mem_of_mem_take hk]
      · simp [List.mem_of_mem_take hk]
    · exact List.mem_append_right _ hk
  rw [hchunks, hchunks', ← hover, ← hover']
  exact commonLength_expand_iff hindex
    (fun k hk k' hk' heq => hkeys k (hmem k hk) k' (hmem k' hk') heq) hhead hhead'

/-- Rebuilt prompts share what their chains share, unless one of the chains is too short for its
prompt and the other goes on with the index of its request. -/
theorem sharesAlike_iff {blockSize : ℕ} (hsize : 0 < blockSize) {r other : ReplayedRecord}
    (hindex : r.index ≠ other.index)
    (hkeys : KeysDistinct blockSize
      (r.blockHashes ++ other.blockHashes ++ [r.index, other.index]))
    (hfold : FoldInjective blockSize [r.prompt blockSize, other.prompt blockSize]) :
    SharesAlike blockSize r other ↔ ¬ (Overrun blockSize r other ∨ Overrun blockSize other r) := by
  rw [← commonLength_blocks_iff hsize hindex hkeys]
  constructor
  · exact fun h => h.blocks
  · intro hblocks
    refine ⟨length_promptFromBlockHashes _ _ _ _, length_promptFromBlockHashes _ _ _ _, hblocks,
      fun k => ?_⟩
    rw [promptBlockHashes_getD, promptBlockHashes_getD, hfold.agree_iff hsize List.mem_cons_self
      (List.mem_cons_of_mem _ List.mem_cons_self), ← commonLength_chunks hsize, hblocks]

theorem sharesAlike_diverging :
    SharesAlike 4 ⟨[7, 8], 10, 0⟩ ⟨[7, 9, 9], 13, 1⟩ :=
  (sharesAlike_iff (by decide) (by decide) (by decide +kernel) (by decide +kernel)).mpr
    (by
      rintro (⟨hshort, _⟩ | ⟨hshort, _⟩)
      · exact absurd hshort (by decide)
      · exact absurd hshort (by decide))

/-- The second record's chain is too short by a block, and the first goes on with index 1. -/
theorem overrun_shares :
    ¬ ∀ (blockSize : ℕ) (r other : ReplayedRecord), 0 < blockSize → r.index ≠ other.index →
      KeysDistinct blockSize (r.blockHashes ++ other.blockHashes ++ [r.index, other.index]) →
      FoldInjective blockSize [r.prompt blockSize, other.prompt blockSize] →
        SharesAlike blockSize r other := by
  intro hclaim
  have halike := hclaim 4 ⟨[3, 1], 8, 0⟩ ⟨[3], 8, 1⟩ (by decide) (by decide) (by decide +kernel)
    (by decide +kernel)
  exact absurd halike.blocks (by decide +kernel)

end ReplayedRecord

end VllmVcr
