import BehaviorTree.Proofs.Step

/-!
# Blueprints

What construction fixes about a node by itself: everything except its recorded answer,
its continuation state, its children and, for a nested tree, the driver's last answer, the
blackboard and the count of ticks. No operation changes it.
-/

namespace BehaviorTree

variable {ω : Type}

/-- Counters, clocks and cursors stand at their initial values. -/
inductive Blueprint (ω : Type) where
  | condition (name : String) (test : Option (Predicate ω))
  | action (name : String) (run : Option (Action ω))
  | decorator (name : String) (kind : Decorator)
  | composite (name : String) (order : Order) (cursor : Cursor)
  | parallel (name : String) (quorums : Quorums)
  | subtree (name : String) (scope : Scope) (report : Report) (channel : Option String)

namespace Node

def blueprint : Node ω → Blueprint ω
  | condition h test => .condition h.name test
  | action h run => .action h.name run
  | decorator h kind _ => .decorator h.name kind.rewind
  | composite h order cursor _ => .composite h.name order cursor.rewind
  | parallel h quorums _ _ => .parallel h.name quorums
  | subtree h scope report tree => .subtree h.name scope report tree.channel

@[simp] theorem rewind_judge (seconds : Float32) (kind : Decorator) (s : Status) :
    (kind.judge seconds s).kind.rewind = kind.rewind := by
  cases kind with
  | inverter => rfl
  | succeeder => cases s <;> rfl
  | repeater limit completed =>
    cases s with
    | success =>
      simp only [Decorator.judge]
      split <;> rfl
    | failure | running => rfl
  | timer =>
    simp only [Decorator.judge]
    split <;> rfl

theorem blueprint_reset (n : Node ω) : n.reset.blueprint = n.blueprint := by
  cases n with
  | condition | action | parallel => rfl
  | decorator => simp [reset, blueprint, Head.clear]
  | composite _ _ cursor _ => cases cursor <;> rfl
  | subtree => simp [reset, blueprint, resetTree_eq, Head.clear]

theorem channel_tickTree (m : Moment) (t : Tree ω) (w : World ω) :
    (tickTree m t w).state.channel = t.channel := by
  obtain ⟨root, _, _, _, _⟩ := t
  cases root <;> rfl

theorem blueprint_tick (m : Moment) (n : Node ω) (w : World ω) :
    (tick m n w).state.blueprint = n.blueprint := by
  cases n with
  | condition h test => cases test <;> rfl
  | action h run => cases run <;> rfl
  | decorator h kind c =>
    cases c with
    | none => rfl
    | some c =>
      by_cases hdue : kind.isDue = true
      · rw [tick_decorator_of_due m h c w hdue]
        simp [blueprint, Head.record]
      · rw [tick_decorator_of_not_due m h c w hdue]
        simp [blueprint, Head.record]
  | composite h order cursor cs =>
    rw [tick_composite]
    simp [blueprint, Head.record]
  | parallel h q stalled ls =>
    by_cases hls : ls = []
    · subst hls
      rw [tick_parallel_nil]
      rfl
    · rw [tick_parallel_of_ne_nil m h q stalled w hls]
      rfl
  | subtree h scope report t =>
    cases scope with
    | shared =>
      rw [tick_subtree_shared]
      simp [blueprint, Head.record, channel_tickTree]
    | isolated =>
      rw [tick_subtree_isolated]
      simp [blueprint, Head.record, channel_tickTree]

theorem blueprint_push (n child : Node ω) : (n.push child).blueprint = n.blueprint := by
  cases n <;> rfl

theorem blueprint_withChildren (n : Node ω) (cs : List (Node ω)) :
    (n.withChildren cs).blueprint = n.blueprint := by
  cases n <;> rfl

theorem exists_parallel_of_blueprint {n : Node ω} {name : String} {q : Quorums}
    (h : n.blueprint = .parallel name q) :
    ∃ status stalled ls, n = parallel ⟨name, status⟩ q stalled ls := by
  cases n with
  | parallel head q' stalled ls =>
    cases h
    exact ⟨head.status, stalled, ls, rfl⟩
  | _ => cases h

end Node

end BehaviorTree
