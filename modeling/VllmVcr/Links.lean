import Mathlib.Logic.Relation
import VllmVcr.Paths

/-!
# First-in first-out links

A one-way connection that delivers what is sent, in order, and a rule for showing that a system
behaves like such a connection: each of its steps is a step of the link or leaves it alone.
-/

namespace VllmVcr

/-- A link, with what was ever sent over it and received from it. -/
structure Link (α : Type*) where
  sent : List α
  queue : List α
  received : List α

namespace Link

variable {α β σ ℓ : Type*}

def empty : Link α := ⟨[], [], []⟩

def send (a : α) (k : Link α) : Link α := { k with sent := k.sent ++ [a], queue := k.queue ++ [a] }

inductive Step : Link α → Link α → Prop
  | sends (k : Link α) (a : α) : Step k (k.send a)
  | receives {k : Link α} {a : α} {rest : List α} (hqueue : k.queue = a :: rest) :
      Step k { k with queue := rest, received := k.received ++ [a] }

/-- A state that sending and receiving lead to. -/
def Reached (k : Link α) : Prop := Relation.ReflTransGen Step empty k

theorem Reached.empty : Reached (Link.empty : Link α) := Relation.ReflTransGen.refl

/-- Nothing is lost, duplicated or reordered. -/
theorem Reached.conserved {k : Link α} (h : Reached k) : k.sent = k.received ++ k.queue := by
  induction h with
  | refl => rfl
  | @tail k k' _ hstep heq =>
      cases hstep with
      | sends a =>
          change k.sent ++ [a] = k.received ++ (k.queue ++ [a])
          rw [heq, List.append_assoc]
      | @receives a rest hqueue =>
          change k.sent = (k.received ++ [a]) ++ rest
          rw [heq, hqueue, List.append_assoc, List.singleton_append]

theorem Reached.received_sent {k : Link α} (h : Reached k) : k.received <+: k.sent :=
  ⟨k.queue, h.conserved.symm⟩

/-- A system each of whose steps takes one step on the link, or none, only reaches states whose
link is reached. -/
theorem reached_of_path {next : σ → ℓ → σ → Prop} {link : σ → Link α} {s t : σ} {ls : List ℓ}
    (h : Path next s ls t) (hinit : Reached (link s))
    (hstep : ∀ s l t, next s l t → link t = link s ∨ Step (link s) (link t)) :
    Reached (link t) := by
  apply h.invariant (I := fun s => Reached (link s)) hinit
  intro s l t hreached hnext
  rcases hstep s l t hnext with hsame | hone
  · rwa [hsame]
  · exact hreached.tail hone

/-! ## Links in stages -/

/-- A link whose messages wait on a wire and then, stamped, in a channel, behind what was taken off
the channel and lost. -/
def staged (sent lost : List α) (channel : List (β × α)) (wire received : List α) : Link α :=
  ⟨sent, lost ++ (channel.map Prod.snd ++ wire), received⟩

section Staged

variable {sent lost wire wire' received received' : List α} {channel rest : List (β × α)}
  {stamp : β} {a : α}

theorem staged_send (a : α) : Step (staged sent lost channel wire received)
    (staged (sent ++ [a]) lost channel (wire ++ [a]) received) := by
  have hsend := Step.sends (staged sent lost channel wire received) a
  rw [send, staged, List.append_assoc, List.append_assoc] at hsend
  exact hsend

theorem staged_drain (hwire : wire = a :: wire') :
    staged sent lost (channel ++ [(stamp, a)]) wire' received =
      staged sent lost channel wire received := by
  rw [hwire, staged, staged, List.map_append, List.append_assoc]
  rfl

theorem staged_receive (hlost : lost = []) (hchannel : channel = (stamp, a) :: rest)
    (hreceived : received' = received ++ [a]) : Step (staged sent lost channel wire received)
      (staged sent lost rest wire received') := by
  subst hlost hchannel hreceived
  exact Step.receives rfl

theorem staged_lose (hlost : lost = []) (hchannel : channel = (stamp, a) :: rest) :
    staged sent [a] rest wire received = staged sent lost channel wire received := by
  subst hlost hchannel
  rfl

end Staged

end Link
end VllmVcr
