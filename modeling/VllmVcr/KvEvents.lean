import Mathlib.Data.List.Nodup
import VllmVcr.RouterView

/-!
# Publishing KV-cache events

The engine queues batches on a bounded channel, and the publisher task takes them off one by
one, encodes and sends them. A sequence number is used up by a successful send only, so it
counts the messages sent and not the batches handed over.
-/

namespace VllmVcr

/-! ## Numbered lists -/

section Numbered

variable {α κ : Type*}

/-- A sublist whose keys are the first ones of the list is the beginning of the list. -/
theorem eq_take_of_keys (key : α → κ) {l whole : List α} (hsub : l.Sublist whole)
    (hnodup : (whole.map key).Nodup) (hkeys : l.map key = (whole.map key).take l.length) :
    l = whole.take l.length := by
  have hlen : l.length ≤ whole.length := hsub.length_le
  apply List.ext_getElem
  · rw [List.length_take]
    omega
  · intro i hi hi'
    rw [List.getElem_take]
    apply List.inj_on_of_nodup_map hnodup (hsub.subset (List.getElem_mem hi)) (List.getElem_mem _)
    have hkey := congrArg (fun keys => keys[i]?) hkeys
    simp only [List.getElem?_map, List.getElem?_take_of_lt hi, List.getElem?_eq_getElem hi,
      List.getElem?_eq_getElem (show i < whole.length by omega), Option.map_some] at hkey
    exact Option.some.inj hkey

/-- Where no number below the first `n` is missing, the first `n` numbers are `0, …, n - 1`. -/
theorem take_eq_range {ns : List ℕ} (hasc : ns.Pairwise (· < ·)) {n : ℕ} (hn : n ≤ ns.length)
    (hfull : ∀ number ∈ ns.take n, ∀ k < number, k ∈ ns) : ns.take n = List.range n := by
  induction n with
  | zero => rfl
  | succ n ih =>
      have hlt : n < ns.length := hn
      have htake : ns.take (n + 1) = ns.take n ++ [ns[n]] := by simp
      have hstart := ih (Nat.le_of_succ_le hn)
        (fun number hmem => hfull number (htake ▸ List.mem_append_left _ hmem))
      have hat : ∀ i (hi : i < n), ns[i] = i := by
        intro i hi
        have hget := congrArg (fun l => l[i]?) hstart
        simp only [List.getElem?_take_of_lt hi, List.getElem?_range hi,
          List.getElem?_eq_getElem (hi.trans hlt)] at hget
        exact Option.some.inj hget
      have hge : n ≤ ns[n] := by
        by_contra hless
        have hbelow : ns[n] < n := by omega
        have hearlier := List.pairwise_iff_getElem.mp hasc ns[n] n (hbelow.trans hlt) hlt hbelow
        rw [hat ns[n] hbelow] at hearlier
        exact absurd hearlier (lt_irrefl _)
      have hle : ns[n] ≤ n := by
        by_contra hmore
        obtain ⟨j, hj, hjn⟩ := List.mem_iff_getElem.mp
          (hfull ns[n] (htake ▸ List.mem_append_right _ List.mem_cons_self) n (by omega))
        by_cases hjlt : j < n
        · have := hat j hjlt
          omega
        · by_cases heq : j = n
          · subst heq
            omega
          · have := List.pairwise_iff_getElem.mp hasc n j hlt hj (by omega)
            omega
      rw [htake, hstart, List.range_succ, Nat.le_antisymm hle hge]

end Numbered

/-! ## The publisher -/

/-- A batch handed to the publisher, with the count of the batches handed over before it. -/
structure EventBatch where
  number : ℕ
  events : List KvCacheEvent
deriving DecidableEq

/-- The sequence number and the payload of a message; its topic is the same for all. -/
structure EventMessage where
  seq : UInt64
  batch : EventBatch
deriving DecidableEq

/-- The channel and the publisher task: the queued batches, the one taken off, the next sequence
number. `published` counts the batches handed over, `sent` holds the messages on the socket. -/
structure KvPublisher where
  running : Bool := true
  queue : List EventBatch := []
  inHand : Option EventBatch := none
  seq : UInt64 := 0
  published : ℕ := 0
  sent : List EventMessage := []

inductive PublisherAct where
  | recv
  | encodeFails
  | sendFails
  | send
  | exit

namespace KvPublisher

def queueCapacity : ℕ := 1024

/-- `KvEventTx::publish`: a full or closed queue drops the batch. -/
def publish (events : List KvCacheEvent) (p : KvPublisher) : KvPublisher :=
  if events.isEmpty then p
  else if p.running ∧ p.queue.length < queueCapacity then
    { p with queue := p.queue ++ [⟨p.published, events⟩], published := p.published + 1 }
  else { p with published := p.published + 1 }

/-- One step of the task; a shutdown is seen between two batches and closes the queue. -/
def act : PublisherAct → KvPublisher → Option KvPublisher
  | .recv, p =>
    match p.inHand, p.queue with
    | none, batch :: rest => if p.running then some { p with queue := rest, inHand := some batch }
        else none
    | _, _ => none
  | .encodeFails, p | .sendFails, p => p.inHand.map (fun _ => { p with inHand := none })
  | .send, p => p.inHand.map fun batch =>
      { p with inHand := none, seq := p.seq + 1, sent := p.sent ++ [⟨p.seq, batch⟩] }
  | .exit, p => if p.inHand.isNone then some { p with running := false, queue := [] } else none

/-- The batches that were not dropped, oldest first. -/
def batches (p : KvPublisher) : List EventBatch :=
  p.sent.map EventMessage.batch ++ p.inHand.toList ++ p.queue

/-- The batches kept are among those of `history` and in their order, and the messages sent are
numbered one by one. -/
structure InOrder (history : List (List KvCacheEvent)) (p : KvPublisher) : Prop where
  published : p.published = history.length
  ascending : (p.batches.map EventBatch.number).Pairwise (· < ·)
  known : ∀ batch ∈ p.batches, history[batch.number]? = some batch.events
  numbered : p.sent.map EventMessage.seq = (List.range p.sent.length).map UInt64.ofNat
  next : p.seq = UInt64.ofNat p.sent.length

variable {history : List (List KvCacheEvent)} {p p' : KvPublisher}

theorem InOrder.init : InOrder [] {} where
  published := rfl
  ascending := List.Pairwise.nil
  known := fun _ h => absurd h List.not_mem_nil
  numbered := rfl
  next := rfl

theorem InOrder.number_lt (h : InOrder history p) {batch : EventBatch} (hmem : batch ∈ p.batches) :
    batch.number < history.length :=
  (List.getElem?_eq_some_iff.mp (h.known batch hmem)).1

theorem InOrder.publish (h : InOrder history p) (events : List KvCacheEvent) :
    InOrder (if events.isEmpty then history else history ++ [events]) (p.publish events) := by
  have hknown : ∀ batch ∈ p.batches, (history ++ [events])[batch.number]? = some batch.events :=
    fun batch hmem => by
      rw [List.getElem?_append_left (h.number_lt hmem)]
      exact h.known batch hmem
  have hlen : p.published + 1 = (history ++ [events]).length := by
    rw [List.length_append, h.published, List.length_singleton]
  unfold KvPublisher.publish
  split
  · exact h
  · split
    · have hsame : KvPublisher.batches { p with
          queue := p.queue ++ [⟨p.published, events⟩], published := p.published + 1 } =
          p.batches ++ [⟨p.published, events⟩] := by simp [batches]
      refine ⟨hlen, ?_, ?_, h.numbered, h.next⟩
      · rw [hsame, List.map_append, List.pairwise_append]
        refine ⟨h.ascending, List.pairwise_singleton _ _, ?_⟩
        intro number hnumber last hlast
        obtain ⟨batch, hmem, rfl⟩ := List.mem_map.mp hnumber
        obtain rfl := List.mem_singleton.mp hlast
        exact h.published ▸ h.number_lt hmem
      · intro batch hmem
        rw [hsame] at hmem
        rcases List.mem_append.mp hmem with hold | hnew
        · exact hknown batch hold
        · obtain rfl := List.mem_singleton.mp hnew
          simp [h.published]
    · exact ⟨hlen, h.ascending, hknown, h.numbered, h.next⟩

/-- A step of the task that sends nothing keeps the order of what is left. -/
theorem InOrder.of_sublist (h : InOrder history p) (hsub : p'.batches.Sublist p.batches)
    (hpublished : p'.published = p.published) (hsent : p'.sent = p.sent) (hseq : p'.seq = p.seq) :
    InOrder history p' where
  published := hpublished.trans h.published
  ascending := h.ascending.sublist (hsub.map _)
  known := fun batch hmem => h.known batch (hsub.subset hmem)
  numbered := hsent ▸ h.numbered
  next := by rw [hseq, hsent, h.next]

theorem InOrder.act (h : InOrder history p) {a : PublisherAct} (hact : p.act a = some p') :
    InOrder history p' := by
  cases a with
  | recv =>
      simp only [KvPublisher.act] at hact
      split at hact
      · next batch rest hhand hqueue =>
          split at hact
          · cases hact
            refine h.of_sublist ?_ rfl rfl rfl
            simp [batches, hhand, hqueue]
          · cases hact
      · cases hact
  | encodeFails | sendFails =>
      obtain ⟨batch, hhand, rfl⟩ := Option.map_eq_some_iff.mp hact
      refine h.of_sublist ?_ rfl rfl rfl
      simp [batches, hhand]
  | send =>
      obtain ⟨batch, hhand, rfl⟩ := Option.map_eq_some_iff.mp hact
      have hsame : KvPublisher.batches { p with
          inHand := none, seq := p.seq + 1, sent := p.sent ++ [⟨p.seq, batch⟩] } = p.batches := by
        simp [batches, hhand]
      refine ⟨h.published, hsame ▸ h.ascending, hsame ▸ h.known, ?_, ?_⟩
      · simp only [List.map_append, h.numbered, List.length_append, List.length_singleton,
          List.range_succ, List.map_cons, List.map_nil, h.next]
      · simp only [h.next, List.length_append, List.length_singleton]
        exact (UInt64.ofNat_add _ _).symm
  | exit =>
      simp only [KvPublisher.act] at hact
      split at hact
      · cases hact
        refine h.of_sublist ?_ rfl rfl rfl
        simp [batches]
      · cases hact

/-! ## What a subscriber can tell -/

/-- A subscriber that has seen the first sequence numbers has missed no message sent before. -/
theorem InOrder.received_take (h : InOrder history p) {received : List EventMessage}
    (hsub : received.Sublist p.sent) (hfew : p.sent.length ≤ 2 ^ 64)
    (hseqs : received.map EventMessage.seq = (List.range received.length).map UInt64.ofNat) :
    received = p.sent.take received.length := by
  have hlen := hsub.length_le
  apply eq_take_of_keys EventMessage.seq hsub
  · rw [h.numbered]
    apply List.Nodup.map_on _ List.nodup_range
    intro i hi j hj heq
    have hi' := List.mem_range.mp hi
    have hj' := List.mem_range.mp hj
    have hnat := congrArg UInt64.toNat heq
    rw [UInt64.toNat_ofNat_of_lt' (show i < 2 ^ 64 by omega),
      UInt64.toNat_ofNat_of_lt' (show j < 2 ^ 64 by omega)] at hnat
    exact hnat
  · rw [h.numbered, hseqs, ← List.map_take, List.take_range, Nat.min_eq_left hlen]

/-- Where nothing handed over before them was dropped, the first messages sent carry the first
batches handed over. -/
theorem InOrder.sent_history (h : InOrder history p) {n : ℕ} (hn : n ≤ p.sent.length)
    (hkept : ∀ m ∈ p.sent.take n, ∀ k < m.batch.number, ∃ m' ∈ p.sent, m'.batch.number = k) :
    (p.sent.take n).map (fun m => m.batch.events) = history.take n := by
  have hmem : ∀ m ∈ p.sent, m.batch ∈ p.batches := fun m hm =>
    List.mem_append_left _ (List.mem_append_left _ (List.mem_map_of_mem hm))
  have hasc : (p.sent.map (fun m => m.batch.number)).Pairwise (· < ·) := by
    have hall := h.ascending
    rw [batches, List.append_assoc, List.map_append, List.pairwise_append, List.map_map] at hall
    exact hall.1
  have hrange := take_eq_range hasc (n := n) (by simpa using hn) (by
    rw [← List.map_take]
    intro number hnumber k hk
    obtain ⟨m, hm, rfl⟩ := List.mem_map.mp hnumber
    obtain ⟨m', hm', rfl⟩ := hkept m hm k hk
    exact List.mem_map_of_mem hm')
  apply List.ext_getElem?
  intro i
  by_cases hi : i < n
  · have hnumber := congrArg (fun l => l[i]?) hrange
    have hlt : i < p.sent.length := by omega
    simp only [List.getElem?_take_of_lt hi, List.getElem?_map, List.getElem?_range hi,
      List.getElem?_eq_getElem hlt, Option.map_some] at hnumber
    have hknown := h.known _ (hmem _ (List.getElem_mem hlt))
    rw [Option.some.inj hnumber] at hknown
    rw [List.getElem?_map, List.getElem?_take_of_lt hi, List.getElem?_take_of_lt hi, hknown,
      List.getElem?_eq_getElem hlt, Option.map_some]
  · rw [List.getElem?_eq_none (by simp; omega), List.getElem?_eq_none (by simp; omega)]

end KvPublisher
end VllmVcr
