import BehaviorTree.Proofs.History
import BehaviorTree.Proofs.Round

/-!
# The course of a node

What happens to a node by itself are ticks at any moment in any world, resets, and children pushed
to it. A pass of the node goes from its construction or a reset to an answer of success or failure,
and the next pass begins with that answer. The course of a node keeps the ticks of the present pass,
each with the node as it stood before; what the children answered in the pass is read off them.
-/

namespace BehaviorTree

variable {ω : Type}

inductive Move (ω : Type) where
  | tick (m : Moment) (w : World ω)
  | reset
  | push (child : Node ω)

def Move.change : Move ω → Change ω
  | tick m w => .tick [] m w
  | reset => .reset []
  | push child => .push [] child

/-- A tick of the node, before it is done. -/
structure Visit (ω : Type) where
  node : Node ω
  moment : Moment
  world : World ω

namespace Visit

def step (v : Visit ω) : Step Status (Node ω) (World ω) := Node.tick v.moment v.node v.world

def round (v : Visit ω) : Step (List (Option Status)) (List (Node ω)) (World ω) :=
  Node.round v.moment (v.node.calls v.moment v.world) v.node.children v.world

def answer? (v : Visit ω) (i : Nat) : Option Status := v.round.answer[i]?.join

def answers (vs : List (Visit ω)) (i : Nat) : List Status := vs.filterMap (·.answer? i)

theorem answers_concat (vs : List (Visit ω)) (v : Visit ω) (i : Nat) :
    answers (vs ++ [v]) i = answers vs i ++ (v.answer? i).toList := by
  rw [answers, List.filterMap_append]
  cases h : v.answer? i <;> simp [answers, h]

theorem answer?_eq_none {v : Visit ω} {i : Nat} (h : v.node.children.length ≤ i) :
    v.answer? i = none := by
  have hlen : v.round.answer.length ≤ i := by
    rwa [round, Node.length_answer_round]
  rw [answer?, List.getElem?_eq_none hlen]
  rfl

def EachAfter (P : List (Visit ω) → Visit ω → Prop) (vs : List (Visit ω)) : Prop :=
  ∀ before v after, vs = before ++ v :: after → P before v

theorem eachAfter_nil (P : List (Visit ω) → Visit ω → Prop) : EachAfter P [] := by
  intro before v after h
  simp at h

theorem eachAfter_concat {P : List (Visit ω) → Visit ω → Prop} {vs : List (Visit ω)}
    {v : Visit ω} : EachAfter P (vs ++ [v]) ↔ EachAfter P vs ∧ P vs v := by
  constructor
  · intro h
    refine ⟨?_, h vs v [] rfl⟩
    intro before u after hsplit
    exact h before u (after ++ [v]) (by simp [hsplit])
  · rintro ⟨hvs, hv⟩ before u after hsplit
    rcases List.eq_nil_or_concat after with rfl | ⟨after, x, rfl⟩
    · obtain ⟨rfl, rfl⟩ := by simpa using hsplit
      exact hv
    · rw [List.concat_eq_append, ← List.cons_append, ← List.append_assoc] at hsplit
      exact hvs before u after (List.append_inj_left' hsplit rfl)

end Visit

structure Course (ω : Type) where
  node : Node ω
  visits : List (Visit ω) := []

namespace Course

/-- The ticks of the pass in which the move leaves the node. -/
def visitsAfter (c : Course ω) : Move ω → List (Visit ω)
  | .tick m w =>
    if (Node.tick m c.node w).answer.isTerminal then [] else c.visits ++ [⟨c.node, m, w⟩]
  | .reset => []
  | .push _ => c.visits

def apply (c : Course ω) (move : Move ω) : Course ω :=
  ⟨move.change.apply c.node, c.visitsAfter move⟩

def after (c : Course ω) (moves : List (Move ω)) : Course ω := moves.foldl apply c

theorem visits_tick_of_ended {c : Course ω} {m : Moment} {w : World ω}
    (h : (Node.tick m c.node w).answer.isTerminal = true) : (c.apply (.tick m w)).visits = [] :=
  if_pos h

theorem visits_tick_of_running {c : Course ω} {m : Moment} {w : World ω}
    (h : (Node.tick m c.node w).answer = .running) :
    (c.apply (.tick m w)).visits = c.visits ++ [⟨c.node, m, w⟩] :=
  if_neg (by simp [h, Status.isTerminal])

/-- What holds at the start and is kept by each of the moves holds after them. -/
theorem after_induction {P : Course ω → Prop} {c : Course ω} {moves : List (Move ω)} (hc : P c)
    (hmove : ∀ d, P d → ∀ move ∈ moves, P (d.apply move)) : P (c.after moves) :=
  List.foldlRecOn moves apply hc hmove

theorem blueprint_apply (c : Course ω) (move : Move ω) :
    (c.apply move).node.blueprint = c.node.blueprint := by
  cases move with
  | tick m w => exact Node.blueprint_tick m _ w
  | reset => exact Node.blueprint_reset _
  | push child => exact Node.blueprint_push _ child

theorem blueprint_after (c : Course ω) (moves : List (Move ω)) :
    (c.after moves).node.blueprint = c.node.blueprint :=
  after_induction (P := fun d => d.node.blueprint = c.node.blueprint) rfl
    fun d hd move _ => (d.blueprint_apply move).trans hd

def Grown (c : Course ω) : Prop :=
  ∀ v ∈ c.visits, v.node.children.length ≤ c.node.children.length

theorem Grown.apply {c : Course ω} (hc : c.Grown) (move : Move ω) : (c.apply move).Grown := by
  intro v hv
  cases move with
  | tick m w =>
    have hlen := (Node.successor_children m c.node w).length_eq
    simp only [Course.apply, visitsAfter] at hv
    split at hv
    · cases hv
    · refine Nat.le_trans ?_ (Nat.le_of_eq hlen)
      rcases List.mem_append.mp hv with hv | hv
      · exact hc v hv
      · obtain rfl := List.mem_singleton.mp hv
        exact Nat.le_refl _
  | reset => cases hv
  | push child =>
    refine Nat.le_trans (hc v hv) ?_
    change _ ≤ (c.node.push child).children.length
    cases c.node <;> simp [Node.push, Node.children]

end Course

end BehaviorTree
