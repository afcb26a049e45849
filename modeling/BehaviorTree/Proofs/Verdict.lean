import BehaviorTree.Proofs.Course

/-!
# Verdicts

A decorator that is due ends its pass without calling its child. Otherwise it calls the child once,
and its verdict on the answer says what it answers itself, what becomes of its counter or clock, and
whether it resets the child.
-/

namespace BehaviorTree

variable {ω : Type}

namespace Visit

def call (v : Visit ω) (child : Node ω) : Step Status (Node ω) (World ω) :=
  Node.tick v.moment child v.world

/-- The child is called once and then reset or not. Nothing else happens to it, and nothing else
happens in the world. -/
structure CallsChild (v : Visit ω) (child : Node ω) (resets : Bool) : Prop where
  answer : v.answer? 0 = some (v.call child).answer
  world : v.step.world = (v.call child).world
  emitted : v.step.emitted =
    (v.call child).emitted ++ if resets then (v.call child).state.resetEmissions else []
  children : v.step.state.children =
    [if resets then (v.call child).state.reset else (v.call child).state]

structure SparesChild (v : Visit ω) (child : Node ω) : Prop where
  answer : v.answer? 0 = none
  world : v.step.world = v.world
  emitted : v.step.emitted = child.resetEmissions
  children : v.step.state.children = [child.reset]

section

variable {v : Visit ω} {h : Head} {kind : Decorator} {child : Node ω}

theorem spares_of_due (hv : v.node = .decorator h kind (some child)) (hdue : kind.isDue = true) :
    v.SparesChild child ∧ v.step.answer = .success ∧
      v.step.state = .decorator (h.record .success) kind.rewind (some child.reset) := by
  obtain ⟨n, m, w⟩ := v
  subst hv
  have hstep := Node.tick_decorator_of_due m h child w hdue
  refine ⟨⟨?_, ?_, ?_, ?_⟩, ?_, ?_⟩
  · simp [answer?, round, Node.calls, Node.children, hdue, Node.round_cons_false, Node.round]
  · exact congrArg Step.world hstep
  · exact congrArg Step.emitted hstep
  · exact congrArg (fun s => s.state.children) hstep
  · exact congrArg Step.answer hstep
  · exact congrArg Step.state hstep

theorem calls_of_not_due (hv : v.node = .decorator h kind (some child))
    (hdue : ¬ kind.isDue = true) :
    let verdict := kind.judge v.moment.elapsed (v.call child).answer
    v.CallsChild child verdict.resetsChild ∧ v.step.answer = verdict.status ∧
      v.step.state = .decorator (h.record verdict.status) verdict.kind
        (some (if verdict.resetsChild then (v.call child).state.reset
          else (v.call child).state)) := by
  obtain ⟨n, m, w⟩ := v
  subst hv
  have hstep := Node.tick_decorator_of_not_due m h child w hdue
  refine ⟨⟨?_, ?_, ?_, ?_⟩, ?_, ?_⟩
  · simp [answer?, round, Node.calls, Node.children, hdue, Node.round_cons_true, call]
  all_goals
    rw [step, hstep]
    rfl

end

end Visit

namespace Course

def ofDecorator (name : String) (kind : Decorator) (child : Node ω) : Course ω :=
  { node := (Node.decorate kind (some child)).named name }

theorem node_reset_of_decorator {c : Course ω} {h : Head} {kind : Decorator} {child : Node ω}
    (hc : c.node = .decorator h kind (some child)) :
    (c.apply .reset).node = .decorator ⟨h.name, none⟩ kind.rewind (some child.reset) := by
  change c.node.reset = _
  rw [hc, Node.reset, Node.resetChild_eq_map]
  rfl

theorem apply_push_of_decorator {c : Course ω} {h : Head} {kind : Decorator}
    {child : Option (Node ω)} (hc : c.node = .decorator h kind child) (other : Node ω) :
    c.apply (.push other) = c := by
  obtain ⟨n, visits⟩ := c
  subst hc
  rfl

end Course

end BehaviorTree
