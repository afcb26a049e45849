/-!
# Statuses

The answer of a tick. `running` asks for another tick of the same node; the other
two statuses end a pass.
-/

namespace BehaviorTree

inductive Status where
  | success
  | failure
  | running
  deriving DecidableEq, Repr, Inhabited

namespace Status

def isSuccess (s : Status) : Bool := s = success

def isFailure (s : Status) : Bool := s = failure

def isRunning (s : Status) : Bool := s = running

def isTerminal (s : Status) : Bool := s ≠ running

def invert : Status → Status
  | success => failure
  | failure => success
  | running => running

@[simp] theorem invert_invert (s : Status) : s.invert.invert = s := by cases s <;> rfl

@[simp] theorem isTerminal_invert (s : Status) : s.invert.isTerminal = s.isTerminal := by
  cases s <;> rfl

theorem isTerminal_eq_true_iff (s : Status) : s.isTerminal = true ↔ s = success ∨ s = failure := by
  cases s <;> decide

theorem running_or_terminal (s : Status) : s = running ∨ s.isTerminal = true := by
  cases s <;> decide

def ofBool (b : Bool) : Status := if b then success else failure

def code : Status → UInt64
  | success => 0
  | failure => 1
  | running => 2

def ofCode? (code : UInt64) : Option Status :=
  if code = 0 then some success
  else if code = 1 then some failure
  else if code = 2 then some running
  else none

@[simp] theorem ofCode?_code (s : Status) : ofCode? s.code = some s := by cases s <;> rfl

def text : Status → String
  | success => "success"
  | failure => "failure"
  | running => "running"

def label : Status → String
  | success => "Success"
  | failure => "Failure"
  | running => "Running"

def all : List Status := [success, failure, running]

end Status

end BehaviorTree
