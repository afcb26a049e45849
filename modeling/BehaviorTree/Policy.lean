import BehaviorTree.Status

/-!
# Policies

The choices a node carries: the quorum of a parallel, and the store and the report
of a nested tree. Each has a word, as documents spell it, and a label, as
inspections and log fields show it.
-/

namespace BehaviorTree

inductive Quorum where
  | requireOne
  | requireAll
  deriving DecidableEq, Repr, Inhabited

namespace Quorum

def isMet : Quorum → (count total : Nat) → Bool
  | requireOne, count, _ => 1 ≤ count
  | requireAll, count, total => count = total

def all : List Quorum := [requireOne, requireAll]

def word : Quorum → String
  | requireOne => "require_one"
  | requireAll => "require_all"

def label : Quorum → String
  | requireOne => "RequireOne"
  | requireAll => "RequireAll"

end Quorum

inductive Scope where
  | shared
  | isolated
  deriving DecidableEq, Repr, Inhabited

namespace Scope

def all : List Scope := [shared, isolated]

def word : Scope → String
  | shared => "shared"
  | isolated => "isolated"

def label : Scope → String
  | shared => "Shared"
  | isolated => "Isolated"

end Scope

/-- What a nested tree's node answers: the nested status, or success whatever happened. -/
inductive Report where
  | forward
  | alwaysSucceed
  deriving DecidableEq, Repr, Inhabited

namespace Report

def all : List Report := [forward, alwaysSucceed]

def word : Report → String
  | forward => "forward"
  | alwaysSucceed => "always_succeed"

def label : Report → String
  | forward => "Forward"
  | alwaysSucceed => "AlwaysSucceed"

/-- The answer of a node whose nested tree gave the given one; a tree with no root gives none. -/
def answer : Report → Option Status → Status
  | forward, nested => nested.getD .failure
  | alwaysSucceed, _ => .success

end Report

end BehaviorTree
