import BehaviorTree.Document

/-!
# Fields of definitions

Which fields the body of a node has, which of them must be written, and what the
others stand for if they are not.
-/

namespace BehaviorTree

inductive Field where
  | binding
  | name
  | child
  | limit
  | duration
  | memory
  | children
  | success
  | failure
  | tree
  | blackboard
  | report
  deriving DecidableEq, Repr

namespace Field

def word : Field → String
  | binding => "binding"
  | name => "name"
  | child => "child"
  | limit => "limit"
  | duration => "duration"
  | memory => "memory"
  | children => "children"
  | success => "success"
  | failure => "failure"
  | tree => "tree"
  | blackboard => "blackboard"
  | report => "report"

end Field

namespace NodeKind

/-- In the order in which they are written. -/
def fields : NodeKind → List Field
  | condition | action => [.binding, .name]
  | inverter | succeeder => [.name, .child]
  | repeater => [.name, .limit, .child]
  | timer => [.name, .duration, .child]
  | sequence | selector => [.name, .memory, .children]
  | parallel => [.name, .success, .failure, .children]
  | subtree => [.name, .tree, .blackboard, .report]

def isRequired : NodeKind → Field → Bool
  | condition, .binding | action, .binding | timer, .duration | subtree, .tree => true
  | _, _ => false

def bodyName : NodeKind → String
  | condition | action => "LeafSpec"
  | inverter | succeeder => "DecoratorSpec"
  | repeater => "RepeaterSpec"
  | timer => "TimerSpec"
  | sequence | selector => "CompositeSpec"
  | parallel => "ParallelSpec"
  | subtree => "SubtreeSpec"

end NodeKind

structure Body where
  binding : Option String := none
  name : Option (Option String) := none
  child : Option (Option Spec) := none
  limit : Option Int32 := none
  duration : Option Float32 := none
  memory : Option Bool := none
  children : Option (List Spec) := none
  success : Option Quorum := none
  failure : Option Quorum := none
  tree : Option String := none
  scope : Option Scope := none
  report : Option Report := none

namespace Body

def has (b : Body) : Field → Bool
  | .binding => b.binding.isSome
  | .name => b.name.isSome
  | .child => b.child.isSome
  | .limit => b.limit.isSome
  | .duration => b.duration.isSome
  | .memory => b.memory.isSome
  | .children => b.children.isSome
  | .success => b.success.isSome
  | .failure => b.failure.isSome
  | .tree => b.tree.isSome
  | .blackboard => b.scope.isSome
  | .report => b.report.isSome

def missing? (b : Body) (kind : NodeKind) : Option Field :=
  kind.fields.find? fun f => kind.isRequired f && !b.has f

def toSpec (b : Body) (kind : NodeKind) : Spec :=
  let name := b.name.getD none
  let child := b.child.getD none
  let children := b.children.getD []
  let composite (order : Order) : Spec := .composite order (b.memory.getD false) name children
  match kind with
  | .condition => .leaf .condition (b.binding.getD "") name
  | .action => .leaf .action (b.binding.getD "") name
  | .inverter => .decorator .inverter name child
  | .succeeder => .decorator .succeeder name child
  | .repeater => .decorator (.repeater (b.limit.getD (-1))) name child
  | .timer => .decorator (.timer (b.duration.getD 0)) name child
  | .sequence => composite .sequence
  | .selector => composite .selector
  | .parallel =>
    .parallel ⟨b.success.getD .requireAll, b.failure.getD .requireOne⟩ name children
  | .subtree =>
    .subtree (b.scope.getD .shared) (b.report.getD .forward) (b.tree.getD "") name

end Body

end BehaviorTree
