import BehaviorTree.Document.Fields
import BehaviorTree.Yaml.Printer

/-!
# Writing documents

A document as a YAML node. All fields of every node are written, in order; an absent
name or child is a null. The entries of a section of the blackboard may stand in any order.
-/

namespace BehaviorTree

open Yaml (Node)

namespace Spec

def wrap (kind : NodeKind) (fields : List (Field × Yaml.Node)) : Yaml.Node :=
  .record [(kind.word, .record (fields.map fun (field, value) => (field.word, value)))]

def labelToYaml : Option String → Yaml.Node
  | none => .null
  | some name => .ofString name

mutual

def toYaml : Spec → Yaml.Node
  | leaf kind binding name =>
    wrap (leaf kind binding name).kind [(.binding, .ofString binding), (.name, labelToYaml name)]
  | decorator kind name child =>
    let inner := childToYaml child
    wrap (decorator kind name child).kind (match kind with
      | .inverter | .succeeder => [(.name, labelToYaml name), (.child, inner)]
      | .repeater limit =>
        [(.name, labelToYaml name), (.limit, .ofInt limit), (.child, inner)]
      | .timer duration =>
        [(.name, labelToYaml name), (.duration, .ofSingle duration), (.child, inner)])
  | composite order memory name children =>
    let inner := allToYaml children
    wrap (composite order memory name children).kind
      [(.name, labelToYaml name), (.memory, .ofBool memory), (.children, .list inner)]
  | parallel quorums name children =>
    let inner := allToYaml children
    wrap .parallel
      [(.name, labelToYaml name), (.success, .ofString quorums.success.word),
        (.failure, .ofString quorums.failure.word), (.children, .list inner)]
  | subtree scope report tree name =>
    wrap .subtree
      [(.name, labelToYaml name), (.tree, .ofString tree), (.blackboard, .ofString scope.word),
        (.report, .ofString report.word)]

def childToYaml : Option Spec → Yaml.Node
  | none => .null
  | some spec => spec.toYaml

def allToYaml : List Spec → List Yaml.Node
  | [] => []
  | spec :: specs => spec.toYaml :: allToYaml specs

end

end Spec

def Vec3.toYaml (v : Vec3) : Yaml.Node :=
  .record [("x", .ofSingle v.x), ("y", .ofSingle v.y), ("z", .ofSingle v.z)]

def Kind.valueToYaml : (k : Kind) → k.Value → Yaml.Node
  | .float, x => .ofSingle x
  | .int, n => .ofInt n
  | .bool, b => .ofBool b
  | .vector, v => v.toYaml
  | .string, s => .ofString s

namespace Blackboard

/-- An order in which the entries of each section are written; sections themselves have none. -/
structure Listing (b : Blackboard) where
  members : (k : Kind) → List (String × k.Value)
  perm : ∀ k, (members k).Perm (b.entries k).toList

def byKey (b : Blackboard) : b.Listing := ⟨fun k => (b.entries k).toList, fun _ => .refl _⟩

def Listing.toYaml {b : Blackboard} (listing : b.Listing) : Yaml.Node :=
  .record (Kind.all.map fun k =>
    (k.sectionName,
      .record ((listing.members k).map fun (key, value) => (key, k.valueToYaml value))))

end Blackboard

namespace Document

def toYaml (d : Document) (listing : d.blackboard.Listing) : Yaml.Node :=
  .record [("root", .ofString d.root), ("blackboard", listing.toYaml),
    ("trees", .record (d.trees.toList.map fun (name, spec) => (name, spec.toYaml)))]

def writeListing (d : Document) (listing : d.blackboard.Listing) : String :=
  Yaml.write (d.toYaml listing)

/-- The text with each section by key, one of those that `writeListing` gives. -/
def write (d : Document) : String := d.writeListing d.blackboard.byKey

end Document

end BehaviorTree
