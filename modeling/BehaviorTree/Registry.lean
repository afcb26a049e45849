import BehaviorTree.Document
import BehaviorTree.Text.Inspection

/-!
# Registries

The closures that documents bind leaves to, by name and kind. An action may be made
anew for each leaf: it is given the leaf's position in the built tree, by which it can
keep a state of its own apart from that of other leaves.
-/

namespace BehaviorTree

abbrev Position := List Nat

structure Registry (ω : Type) where
  conditions : Table (Predicate ω) := ∅
  actions : Table (Position → Action ω) := ∅

namespace Registry

variable {ω : Type}

def withCondition (r : Registry ω) (name : String) (test : Predicate ω) : Registry ω :=
  { r with conditions := r.conditions.insert name test }

/-- An action that all its leaves share. -/
def withAction (r : Registry ω) (name : String) (run : Action ω) : Registry ω :=
  { r with actions := r.actions.insert name fun _ => run }

/-- An action of which every leaf has an instance of its own. -/
def withActionFactory (r : Registry ω) (name : String) (make : Position → Action ω) :
    Registry ω :=
  { r with actions := r.actions.insert name make }

def condition? (r : Registry ω) (name : String) : Option (Predicate ω) := r.conditions[name]?

def action? (r : Registry ω) (name : String) (leaf : Position) : Option (Action ω) :=
  r.actions[name]?.map (· leaf)

def has (r : Registry ω) : LeafKind → String → Bool
  | .condition, name => r.conditions.contains name
  | .action, name => r.actions.contains name

def inspect (r : Registry ω) : Inspection :=
  .record "BindingRegistry" [
    ("conditions", .list (r.conditions.keys.map .string)),
    ("actions", .list (r.actions.keys.map .string))]

end Registry

end BehaviorTree
