import BehaviorTree.Node

/-!
# Reset

Abandons a pass: statuses are forgotten and all continuation state goes back to its
initial value, across nested trees. Closures, blackboards and tick counts stay. Every
nested tree with a trace channel reports the reset, inner trees first.
-/

namespace BehaviorTree

variable {ω : Type}

namespace Node

mutual

def reset : Node ω → Node ω
  | condition h t => condition h.clear t
  | action h r => action h.clear r
  | decorator h k c => decorator h.clear k.rewind (resetChild c)
  | composite h o c cs => composite h.clear o c.rewind (resetAll cs)
  | parallel h q _ ls => parallel h.clear q false (resetLanes ls)
  | subtree h s r t => subtree h.clear s r (resetTree t)

def resetChild : Option (Node ω) → Option (Node ω)
  | none => none
  | some n => some n.reset

def resetAll : List (Node ω) → List (Node ω)
  | [] => []
  | n :: ns => n.reset :: resetAll ns

def resetLanes : List (Lane (Node ω)) → List (Lane (Node ω))
  | [] => []
  | ⟨_, n⟩ :: ls => ⟨.running, n.reset⟩ :: resetLanes ls

def resetTree : Tree ω → Tree ω
  | ⟨root, _, channel, blackboard, ticks⟩ => ⟨resetChild root, none, channel, blackboard, ticks⟩

end

mutual

def resetEmissions : Node ω → List Emission
  | condition .. | action .. => []
  | decorator _ _ c => resetChildEmissions c
  | composite _ _ _ cs => resetAllEmissions cs
  | parallel _ _ _ ls => resetLanesEmissions ls
  | subtree _ _ _ t => resetTreeEmissions t

def resetChildEmissions : Option (Node ω) → List Emission
  | none => []
  | some n => n.resetEmissions

def resetAllEmissions : List (Node ω) → List Emission
  | [] => []
  | n :: ns => n.resetEmissions ++ resetAllEmissions ns

def resetLanesEmissions : List (Lane (Node ω)) → List Emission
  | [] => []
  | ⟨_, n⟩ :: ls => n.resetEmissions ++ resetLanesEmissions ls

def resetTreeEmissions : Tree ω → List Emission
  | ⟨root, _, channel, _, ticks⟩ =>
    resetChildEmissions root ++ Emission.toChannel channel (Event.reset ticks)

end

theorem resetChild_eq_map (c : Option (Node ω)) : resetChild c = c.map reset := by
  cases c <;> simp [resetChild]

theorem resetAll_eq_map (ns : List (Node ω)) : resetAll ns = ns.map reset := by
  induction ns with
  | nil => simp [resetAll]
  | cons n ns ih => simp [resetAll, ih]

theorem resetLanes_eq_map (ls : List (Lane (Node ω))) :
    resetLanes ls = ls.map fun l => ⟨.running, l.node.reset⟩ := by
  induction ls with
  | nil => simp [resetLanes]
  | cons l ls ih => simp [resetLanes, ih]

theorem resetAllEmissions_eq_flatMap (ns : List (Node ω)) :
    resetAllEmissions ns = ns.flatMap resetEmissions := by
  induction ns with
  | nil => simp [resetAllEmissions]
  | cons n ns ih => simp [resetAllEmissions, ih]

end Node

end BehaviorTree
