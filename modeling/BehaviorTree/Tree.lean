import BehaviorTree.Node.Tick
import BehaviorTree.Node.Position
import BehaviorTree.Text.Inspection

/-!
# Trees

A tree owns its root, a blackboard and a count of ticks. It can run on a clock of its
own or at a moment given from outside, on its own blackboard or on a lent one; every
step counts.
-/

namespace BehaviorTree

def Blackboard.inspect (b : Blackboard) : Inspection :=
  .record "Blackboard" (Kind.all.map fun k =>
    (k.sectionName, .table ((b.entries k).toList.map fun (key, value) =>
      (.string key, inspectValue k value))))
where
  inspectValue : (k : Kind) → k.Value → Inspection
    | .float, x => .single x
    | .int, n => .atom (toString n.toInt)
    | .bool, b => .atom (toString b)
    | .vector, v => .record "Vec3" [("x", .single v.x), ("y", .single v.y), ("z", .single v.z)]
    | .string, s => .string s

variable {ω : Type}

namespace Tree

def ofRoot (root : Option (Node ω)) : Tree ω := { root }

/-- One step at the given moment on the blackboard of the given world. -/
def tickOn (m : Moment) (t : Tree ω) (w : World ω) :
    Step (Option Status) (Tree ω) (World ω) :=
  Node.tickTree m t w

def tickAt (m : Moment) (t : Tree ω) (host : ω) : Step (Option Status) (Tree ω) ω :=
  let s := Node.tickTree m t ⟨t.blackboard, host⟩
  { s with state := { s.state with blackboard := s.world.blackboard }, world := s.world.host }

def tick (seconds : Float32) (t : Tree ω) (host : ω) : Step (Option Status) (Tree ω) ω :=
  tickAt ⟨t.ticks, seconds⟩ t host

/-- Abandons the pass and keeps the blackboard. -/
def resetRoot (t : Tree ω) : Tree ω := Node.resetTree t

def resetRootEmissions (t : Tree ω) : List Emission := Node.resetTreeEmissions t

/-- Abandons the pass and empties the blackboard. -/
def reset (t : Tree ω) : Tree ω := { resetRoot t with blackboard := {} }

def resetEmissions (t : Tree ω) : List Emission :=
  .diagnostic (.treeReset t.ticks) :: resetRootEmissions t

def setRoot (root : Node ω) (t : Tree ω) : Tree ω := { t with root := some root, last := none }

def outline (t : Tree ω) : List (Nat × String × Option Status) :=
  (t.root.map Node.outline).getD []

def inspect (t : Tree ω) : Inspection :=
  .record "BehaviorTree" [
    ("root", .option (fun r => .string r.name) t.root),
    ("last", .option (fun s => .atom s.label) t.last),
    ("tick", .atom (toString t.ticks.toNat)),
    ("blackboard", t.blackboard.inspect)]

end Tree

end BehaviorTree
