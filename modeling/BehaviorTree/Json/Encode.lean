import BehaviorTree.Json.Basic
import BehaviorTree.Blackboard
import BehaviorTree.Trace

/-!
# JSON texts of values
-/

namespace BehaviorTree

def Vec3.toJson (v : Vec3) : Json :=
  .record [("x", .ofSingle v.x), ("y", .ofSingle v.y), ("z", .ofSingle v.z)]

def Event.toJson (e : Event) : Json :=
  .record [("tick", .ofNat e.tick.toNat), ("tag", .string e.tag), ("a", .ofNat e.a.toNat),
    ("b", .ofNat e.b.toNat)]

def Log.toJson (L : Log) : Json := .record [("events", .list (L.events.toList.map Event.toJson))]

def Kind.valueToJson : (k : Kind) → k.Value → Json
  | .float, x => .ofSingle x
  | .int, n => .ofInt n.toInt
  | .bool, b => .bool b
  | .vector, v => v.toJson
  | .string, s => .string s

namespace Blackboard

def sectionMembers (b : Blackboard) (k : Kind) : List (String × Json) :=
  (b.entries k).toList.map fun (key, value) => (key, k.valueToJson value)

def toJson (b : Blackboard) : Json :=
  .record (Kind.all.map fun k => (k.sectionName, .record (b.sectionMembers k)))

end Blackboard

end BehaviorTree
