import BehaviorTree.Blackboard
import BehaviorTree.Node
import Std.Data.ExtTreeSet

/-!
# Documents

A document defines trees by name and says which of them to run. A definition names
the bindings of its leaves and the trees that it embeds.
-/

namespace BehaviorTree

inductive LeafKind where
  | condition
  | action
  deriving DecidableEq, Repr

inductive DecoratorSpec where
  | inverter
  | succeeder
  /-- A negative limit stands for none. -/
  | repeater (limit : Int32)
  | timer (duration : Float32)
  deriving BEq

/-- A set of names, smallest first. -/
abbrev Names := Std.ExtTreeSet String compare

inductive Spec where
  | leaf (kind : LeafKind) (binding : String) (name : Option String)
  | decorator (kind : DecoratorSpec) (name : Option String) (child : Option Spec)
  | composite (order : Order) (memory : Bool) (name : Option String) (children : List Spec)
  | parallel (quorums : Quorums) (name : Option String) (children : List Spec)
  | subtree (scope : Scope) (report : Report) (tree : String) (name : Option String)

instance : Inhabited Spec := ⟨.leaf .condition "" none⟩

structure Document where
  root : String
  blackboard : Blackboard := {}
  trees : Table Spec := ∅

inductive NodeKind where
  | condition
  | action
  | inverter
  | succeeder
  | repeater
  | timer
  | sequence
  | selector
  | parallel
  | subtree
  deriving DecidableEq, Repr

namespace NodeKind

def all : List NodeKind :=
  [condition, action, inverter, succeeder, repeater, timer, sequence, selector, parallel, subtree]

def word : NodeKind → String
  | condition => "condition"
  | action => "action"
  | inverter => "inverter"
  | succeeder => "succeeder"
  | repeater => "repeater"
  | timer => "timer"
  | sequence => "sequence"
  | selector => "selector"
  | parallel => "parallel"
  | subtree => "subtree"

end NodeKind

namespace Spec

def kind : Spec → NodeKind
  | leaf .condition _ _ => .condition
  | leaf .action _ _ => .action
  | decorator .inverter _ _ => .inverter
  | decorator .succeeder _ _ => .succeeder
  | decorator (.repeater _) _ _ => .repeater
  | decorator (.timer _) _ _ => .timer
  | composite .sequence _ _ _ => .sequence
  | composite .selector _ _ _ => .selector
  | parallel .. => .parallel
  | subtree .. => .subtree

/-- Direct children in evaluation order; trees referred to are not among them. -/
def children : Spec → List Spec
  | leaf .. | subtree .. => []
  | decorator _ _ child => child.toList
  | composite _ _ _ children | parallel _ _ children => children

mutual

def preorder : Spec → List Spec
  | leaf k b n => [leaf k b n]
  | decorator k n c => decorator k n c :: preorderChild c
  | composite o m n cs => composite o m n cs :: preorderAll cs
  | parallel q n cs => parallel q n cs :: preorderAll cs
  | subtree s r t n => [subtree s r t n]

def preorderChild : Option Spec → List Spec
  | none => []
  | some s => s.preorder

def preorderAll : List Spec → List Spec
  | [] => []
  | s :: ss => s.preorder ++ preorderAll ss

end

def binding? (kind : LeafKind) : Spec → Option String
  | leaf k b _ => if k = kind then some b else none
  | _ => none

def reference? : Spec → Option String
  | subtree _ _ t _ => some t
  | _ => none

mutual

/-- The same definition, numbers compared as numbers. -/
def same : Spec → Spec → Bool
  | leaf k b n, leaf k' b' n' => k = k' && b = b' && n = n'
  | decorator k n c, decorator k' n' c' => k == k' && n = n' && sameChild c c'
  | composite o m n cs, composite o' m' n' cs' => o = o' && m = m' && n = n' && sameAll cs cs'
  | parallel q n cs, parallel q' n' cs' => q = q' && n = n' && sameAll cs cs'
  | subtree s r t n, subtree s' r' t' n' => s = s' && r = r' && t = t' && n = n'
  | _, _ => false

def sameChild : Option Spec → Option Spec → Bool
  | none, none => true
  | some s, some s' => s.same s'
  | _, _ => false

def sameAll : List Spec → List Spec → Bool
  | [], [] => true
  | s :: ss, s' :: ss' => s.same s' && sameAll ss ss'
  | _, _ => false

end

end Spec

namespace Document

/-- All nodes of all definitions, the definitions in the order of their names. -/
def specs (d : Document) : List Spec := d.trees.toList.flatMap fun (_, spec) => spec.preorder

def bindings (d : Document) (kind : LeafKind) : Names :=
  .ofList (d.specs.filterMap (Spec.binding? kind)) compare

def same (d e : Document) : Bool :=
  let pairs := d.trees.toList.zip e.trees.toList
  d.root = e.root && d.blackboard.sameEntries e.blackboard && d.trees.size = e.trees.size &&
    pairs.all fun (a, b) => a.1 = b.1 && a.2.same b.2

end Document

end BehaviorTree
