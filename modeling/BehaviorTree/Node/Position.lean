import BehaviorTree.Node

/-!
# Positions

A position in a tree is the list of the child numbers on the way down to it. The root
of a nested tree is child number zero of the node that embeds it.
-/

namespace BehaviorTree

variable {ω : Type}

namespace Node

/-- The node with the given children in place of its own, as far as it has room for them. -/
def withChildren (children : List (Node ω)) : Node ω → Node ω
  | condition h t => condition h t
  | action h r => action h r
  | decorator h k c => decorator h k (c.bind fun _ => children.head?)
  | composite h o c cs => composite h o c (children.take cs.length)
  | parallel h q s ls => parallel h q s (ls.zipWith (fun l node => { l with node }) children)
  | subtree h s r t => subtree h s r { t with root := t.root.bind fun _ => children.head? }

def get? : Node ω → List Nat → Option (Node ω)
  | n, [] => some n
  | n, i :: path => n.children[i]?.bind (·.get? path)

/-- Replaces the node at a position; without a node there nothing changes. -/
def set : Node ω → List Nat → (new : Node ω) → Node ω
  | _, [], new => new
  | n, i :: path, new =>
    match n.children[i]? with
    | none => n
    | some c => n.withChildren (n.children.set i (c.set path new))

mutual

def preorder (depth : Nat) : Node ω → List (Nat × Node ω)
  | condition h t => [(depth, condition h t)]
  | action h r => [(depth, action h r)]
  | decorator h k c => (depth, decorator h k c) :: preorderChild (depth + 1) c
  | composite h o c cs => (depth, composite h o c cs) :: preorderAll (depth + 1) cs
  | parallel h q s ls => (depth, parallel h q s ls) :: preorderLanes (depth + 1) ls
  | subtree h s r t => (depth, subtree h s r t) :: preorderTree (depth + 1) t

def preorderChild (depth : Nat) : Option (Node ω) → List (Nat × Node ω)
  | none => []
  | some n => n.preorder depth

def preorderAll (depth : Nat) : List (Node ω) → List (Nat × Node ω)
  | [] => []
  | n :: ns => n.preorder depth ++ preorderAll depth ns

def preorderLanes (depth : Nat) : List (Lane (Node ω)) → List (Nat × Node ω)
  | [] => []
  | ⟨_, n⟩ :: ls => n.preorder depth ++ preorderLanes depth ls

def preorderTree (depth : Nat) : Tree ω → List (Nat × Node ω)
  | ⟨root, _, _, _, _⟩ => preorderChild depth root

end

def outline (n : Node ω) : List (Nat × String × Option Status) :=
  (n.preorder 0).map fun (depth, n) => (depth, n.name, n.status)

end Node

end BehaviorTree
