import BehaviorTree.Blackboard
import BehaviorTree.Emission

/-!
# Nodes

A node carries its continuation state (cursors, counters, clocks, slots) from one
tick to the next. Leaves run closures of the host program. A closure may keep state
of its own, private or shared with other leaves: all of it is part of one host state
`ω`, which is threaded through every call.
-/

namespace BehaviorTree

/-- The moment of a tick: its index, and the seconds since the tick before it. -/
structure Moment where
  index : UInt64
  elapsed : Float32
  deriving BEq

structure World (ω : Type) where
  blackboard : Blackboard
  host : ω

abbrev Predicate (ω : Type) := World ω → Bool × ω

/-- Runs for the given seconds. -/
abbrev Action (ω : Type) := Float32 → World ω → Status × World ω

structure Head where
  name : String
  /-- The answer of the latest tick since the node was built or reset. -/
  status : Option Status := none
  deriving DecidableEq, Repr

namespace Head

def record (h : Head) (s : Status) : Head := { h with status := some s }

def clear (h : Head) : Head := { h with status := none }

end Head

inductive Decorator where
  | inverter
  | succeeder
  /-- `none` repeats for ever. -/
  | repeater (limit : Option UInt32) (completed : UInt32)
  | timer (duration elapsed : Float32)

inductive Order where
  | sequence
  | selector
  deriving DecidableEq, Repr

/-- The child answer after which the walk goes on to the next child. -/
def Order.pass : Order → Status
  | sequence => .success
  | selector => .failure

/-- Where the next tick starts: always at the first child, or at a remembered one. -/
inductive Cursor where
  | restart
  | resume (index : Nat)
  deriving DecidableEq, Repr

namespace Cursor

def start : Cursor → Nat
  | restart => 0
  | resume index => index

def moveTo : Cursor → Nat → Cursor
  | restart, _ => restart
  | resume _, index => resume index

def rewind (c : Cursor) : Cursor := c.moveTo 0

end Cursor

structure Quorums where
  success : Quorum
  failure : Quorum
  deriving DecidableEq, Repr

/-- A child of a parallel with its answer in the current pass. -/
structure Lane (ν : Type) where
  slot : Status := .running
  node : ν

structure Rooted (ν : Type) where
  root : Option ν
  last : Option Status := none
  channel : Option String := none
  blackboard : Blackboard := {}
  ticks : UInt64 := 0

instance (ν : Type) : Inhabited (Rooted ν) := ⟨{ root := none }⟩

inductive Node (ω : Type) where
  | condition (head : Head) (test : Option (Predicate ω))
  | action (head : Head) (run : Option (Action ω))
  | decorator (head : Head) (kind : Decorator) (child : Option (Node ω))
  | composite (head : Head) (order : Order) (cursor : Cursor) (children : List (Node ω))
  | parallel (head : Head) (quorums : Quorums) (stalled : Bool) (lanes : List (Lane (Node ω)))
  | subtree (head : Head) (scope : Scope) (report : Report) (tree : Rooted (Node ω))

abbrev Tree (ω : Type) := Rooted (Node ω)

instance (ω : Type) : Inhabited (Node ω) := ⟨.condition ⟨"", none⟩ none⟩

variable {ω : Type}

namespace Decorator

def rewind : Decorator → Decorator
  | inverter => inverter
  | succeeder => succeeder
  | repeater limit _ => repeater limit 0
  | timer duration _ => timer duration 0

@[simp] theorem rewind_rewind (d : Decorator) : d.rewind.rewind = d.rewind := by cases d <;> rfl

def label : Decorator → String
  | inverter => "Inverter"
  | succeeder => "Succeeder"
  | repeater .. => "Repeater"
  | timer .. => "Timer"

/-- A repeater's limit; a negative number stands for none. -/
def limitOfInt (limit : Int32) : Option UInt32 :=
  if limit < 0 then none else some limit.toInt.toNat.toUInt32

end Decorator

def Order.label : Order → Cursor → String
  | sequence, .restart => "Sequence"
  | selector, .restart => "Selector"
  | sequence, .resume _ => "MemSequence"
  | selector, .resume _ => "MemSelector"

namespace Node

def head : Node ω → Head
  | condition h _ | action h _ | decorator h _ _ | composite h _ _ _ | parallel h _ _ _
  | subtree h _ _ _ => h

def name (n : Node ω) : String := n.head.name

def status (n : Node ω) : Option Status := n.head.status

/-- Direct children in evaluation order; the root of a nested tree is the child of its node. -/
def children : Node ω → List (Node ω)
  | condition .. | action .. => []
  | decorator _ _ child => child.toList
  | composite _ _ _ children => children
  | parallel _ _ _ lanes => lanes.map (·.node)
  | subtree _ _ _ tree => tree.root.toList

def named (name : String) : Node ω → Node ω
  | condition h t => condition { h with name } t
  | action h r => action { h with name } r
  | decorator h k c => decorator { h with name } k c
  | composite h o c cs => composite { h with name } o c cs
  | parallel h q s ls => parallel { h with name } q s ls
  | subtree h s r t => subtree { h with name } s r t

def decorate (kind : Decorator) (child : Option (Node ω)) : Node ω :=
  decorator ⟨kind.label, none⟩ kind.rewind child

def compose (order : Order) (memory : Bool) (children : List (Node ω)) : Node ω :=
  let cursor := if memory then Cursor.resume 0 else Cursor.restart
  composite ⟨order.label cursor, none⟩ order cursor children

def abreast (quorums : Quorums) (children : List (Node ω)) : Node ω :=
  parallel ⟨"Parallel", none⟩ quorums false (children.map fun node => { node })

def embed (scope : Scope) (report : Report) (tree : Tree ω) : Node ω :=
  subtree ⟨"Subtree", none⟩ scope report tree

/-- Appends a fresh child to a composite or a parallel; other nodes are left alone. -/
def push : Node ω → (child : Node ω) → Node ω
  | composite h o c cs, child => composite h o c (cs ++ [child])
  | parallel h q s ls, child => parallel h q s (ls ++ [{ node := child }])
  | n, _ => n

def attach : Node ω → (child : Node ω) → Node ω
  | decorator h k _, child => decorator h k (some child)
  | n, _ => n

end Node

end BehaviorTree
