import BehaviorTree.Proofs.Clock
import BehaviorTree.Proofs.Provision
import BehaviorTree.Proofs.Settled
import BehaviorTree.Proofs.Unfolding

/-!
# Faithful traces

A tree with a channel of its own tells there of every tick that finds a root and of every reset
that is asked for, in order, and of nothing else: the reset of a root that has finished is not
told. So the answers of a run can be read off its log, and the log of a traced game sums up to
as many events as the game has rounds.
-/

namespace BehaviorTree

variable {ω : Type}

namespace Node

variable {c : String} {n : Node ω}

end Node

namespace Tree

variable {c : String} {t : Tree ω}

def answers (ops : List (Operation ω)) (t : Tree ω) (host : ω) : List Status :=
  (t.observe ops host).filterMap (·.answer)

end Tree

namespace Event

def decoded (es : List Event) : List (Option Status) :=
  (es.filter (·.tag = tickTag)).map status?

end Event

/-! ## Games -/

namespace Guard

def script (player : Vec3) (seconds : Float32) (n : Nat) : List (Operation Unit) :=
  (List.replicate n [.write (sense player seconds), .tick seconds]).flatten

end Guard

namespace Document

variable {d : Document} {r : Registry ω}

end Document

namespace Tree

end Tree

end BehaviorTree
