import BehaviorTree.Status

/-!
# Trace events

A tree reports each tick and each reset of its root as an event. Events go to a
named channel; several trees may share one.
-/

namespace BehaviorTree

structure Event where
  tick : UInt64
  tag : String
  a : UInt64
  b : UInt64
  deriving DecidableEq, Repr

namespace Event

def status? (e : Event) : Option Status := Status.ofCode? e.a

def tickTag : String := "tree.tick"

def resetTag : String := "tree.reset"

def ticked (tick : UInt64) (status : Status) : Event := ⟨tick, tickTag, status.code, 0⟩

def reset (tick : UInt64) : Event := ⟨tick, resetTag, 0, 0⟩

end Event

/-- The events of one channel, oldest first. -/
structure Log where
  events : Array Event
  deriving DecidableEq, Inhabited

namespace Log

def empty : Log := ⟨#[]⟩

def push (L : Log) (e : Event) : Log := ⟨L.events.push e⟩

def withTag (L : Log) (tag : String) : List Event := L.events.toList.filter (·.tag = tag)

def tally (L : Log) (s : Status) : Nat :=
  ((L.withTag Event.tickTag).filter (·.status? = some s)).length

end Log

end BehaviorTree
