import BehaviorTree.Guard
import BehaviorTree.Text.Alignment
import BehaviorTree.Trace
import BehaviorTree.Tree

/-!
# Games

In every round of a game the guard looks around and its tree is ticked once.
-/

namespace BehaviorTree.Guard

abbrev Round := Step (Option Status) (Tree Unit) Unit

def round (player : Vec3) (seconds : Float32) (t : Tree Unit) : Round :=
  Tree.tick seconds { t with blackboard := sense player seconds t.blackboard } ()

def play (player : Vec3) (seconds : Float32) : Nat → Tree Unit → List Round
  | 0, _ => []
  | n + 1, t =>
    let r := round player seconds t
    r :: play player seconds n r.state

def outcome (t : Tree Unit) (rounds : List Round) : Tree Unit :=
  (rounds.getLast?.map (·.state)).getD t

def roundText (r : Round) : String :=
  let b := r.state.blackboard
  let answer := (r.answer.map (·.text)).getD "-"
  let health := Number.fixed 1 (.ofSingle (b.getD .float "health" 0))
  Text.alignRight 4 (toString (r.state.ticks - 1).toNat) ++ "  " ++ Text.alignLeft 8 answer ++
    " intent=" ++ Text.alignLeft 7 (b.getD .string "intent" "-") ++
    " health=" ++ Text.alignRight 5 health

/-- How many events were traced, and how many of them tell of each answer. -/
structure Tally where
  events : Nat
  success : Nat
  failure : Nat
  running : Nat
  deriving DecidableEq, Repr

namespace Tally

def ofLog (L : Log) : Tally :=
  ⟨L.events.size, L.tally .success, L.tally .failure, L.tally .running⟩

def text (c : Tally) : String :=
  "trace: " ++ toString c.events ++ " events; success=" ++ toString c.success ++
    " failure=" ++ toString c.failure ++ " running=" ++ toString c.running

end Tally

def traceChannel : String := "trace"

def traceLog (rounds : List Round) : Log :=
  ⟨(rounds.flatMap fun r => Emission.onChannel traceChannel r.emitted).toArray⟩

end BehaviorTree.Guard
