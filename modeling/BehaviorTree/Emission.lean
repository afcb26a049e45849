import BehaviorTree.Policy
import BehaviorTree.Trace

/-!
# Emissions

What running and building trees tells the outside besides its result: events for
trace channels and diagnostics for a log. A diagnostic is a cause; its level, its
message and its fields are read off it.
-/

namespace BehaviorTree

inductive Level where
  | trace
  | debug
  | info
  | warn
  deriving DecidableEq, Repr

def Level.word : Level → String
  | .trace => "trace"
  | .debug => "debug"
  | .info => "info"
  | .warn => "warn"

inductive Diagnostic where
  | compositeFinished (node : String) (status : Status)
  | parallelFinished (node : String) (status : Status)
  | parallelStalled (node : String) (successes failures : Nat)
  | childMissing (node : String)
  | passEnded (root : String) (tick : UInt64) (status : Status)
  | treeReset (tick : UInt64)
  | conditionUnregistered (binding : String)
  | actionUnregistered (binding : String)
  | subtreeBuilt (tree : String) (scope : Scope) (report : Report)
  | documentLoaded (path root : String) (trees : Nat)
  deriving DecidableEq, Repr

namespace Diagnostic

def level : Diagnostic → Level
  | compositeFinished .. | parallelFinished .. => .trace
  | childMissing .. | passEnded .. | treeReset .. | subtreeBuilt .. => .debug
  | documentLoaded .. => .info
  | parallelStalled .. | conditionUnregistered .. | actionUnregistered .. => .warn

def message : Diagnostic → String
  | compositeFinished .. => "composite finished"
  | parallelFinished .. => "parallel finished"
  | parallelStalled .. => "parallel settled every child without meeting a quorum"
  | childMissing .. => "decorator ticked without a child"
  | passEnded .. => "root finished; resetting"
  | treeReset .. => "behavior tree reset"
  | conditionUnregistered .. => "no condition registered; leaf will fail"
  | actionUnregistered .. => "no action registered; leaf will fail"
  | subtreeBuilt .. => "built subtree"
  | documentLoaded .. => "loaded tree document"

def fields : Diagnostic → List (String × String)
  | compositeFinished node status | parallelFinished node status =>
    [("node", node), ("status", status.text)]
  | parallelStalled node successes failures =>
    [("node", node), ("successes", toString successes), ("failures", toString failures)]
  | childMissing node => [("node", node)]
  | passEnded root tick status =>
    [("root", root), ("tick", toString tick), ("status", status.text)]
  | treeReset tick => [("tick", toString tick)]
  | conditionUnregistered binding | actionUnregistered binding => [("binding", binding)]
  | subtreeBuilt tree scope report =>
    [("tree", tree), ("scope", scope.label), ("report", report.label)]
  | documentLoaded path root trees =>
    [("path", path), ("root", root), ("trees", toString trees)]

end Diagnostic

inductive Emission where
  | event (channel : String) (event : Event)
  | diagnostic (cause : Diagnostic)
  deriving DecidableEq, Repr

namespace Emission

def onChannel (channel : String) (es : List Emission) : List Event :=
  es.filterMap fun
    | event c e => if c = channel then some e else none
    | diagnostic _ => none

def diagnostics (es : List Emission) : List Diagnostic :=
  es.filterMap fun
    | event _ _ => none
    | diagnostic d => some d

def toChannel (channel : Option String) (e : Event) : List Emission :=
  channel.toList.map (event · e)

end Emission

end BehaviorTree
