import BehaviorTree.Fault
import BehaviorTree.Registry
import BehaviorTree.Tree

/-!
# Building trees

A definition becomes a node, and every reference to another definition becomes a
nested tree of its own. The names of the definitions being entered are handed down:
to meet one of them again is a cycle. Building ends because a definition is never
entered twice on the way down.

A build leaves notes, also when it fails: every binding that it looks up, and what is
logged.
-/

namespace BehaviorTree

/-- What becomes of a leaf whose binding is not registered: an error, or a leaf that fails. -/
inductive Mode where
  | strict
  | lenient
  deriving DecidableEq, Repr

inductive Note where
  | lookup (kind : LeafKind) (binding : String)
  | diagnostic (d : Diagnostic)
  deriving DecidableEq, Repr

structure Build (α : Type) where
  notes : List Note
  result : Except BuildFault α

namespace Build

variable {α β : Type}

def ok (a : α) : Build α := ⟨[], .ok a⟩

def fail (fault : BuildFault) : Build α := ⟨[], .error fault⟩

def note (n : Note) : Build Unit := ⟨[n], .ok ()⟩

def andThen (b : Build α) (f : α → Build β) : Build β :=
  match b.result with
  | .error fault => ⟨b.notes, .error fault⟩
  | .ok a => ⟨b.notes ++ (f a).notes, (f a).result⟩

instance : Monad Build where
  pure := ok
  bind := andThen

@[simp] theorem result_pure (a : α) : (pure a : Build α).result = .ok a := rfl

@[simp] theorem result_bind (b : Build α) (f : α → Build β) :
    (b >>= f).result = b.result.bind fun a => (f a).result := by
  obtain ⟨notes, _ | a⟩ := b <;> rfl

/-- A build notes what its first part notes, whatever comes of it. -/
theorem notes_prefix_bind (b : Build α) (f : α → Build β) : b.notes <+: (b >>= f).notes := by
  obtain ⟨notes, _ | a⟩ := b
  · exact List.prefix_rfl
  · exact List.prefix_append ..

def diagnostics (b : Build α) : List Diagnostic :=
  b.notes.filterMap fun
    | .diagnostic d => some d
    | .lookup .. => none

def lookups (b : Build α) (kind : LeafKind) : List String :=
  b.notes.filterMap fun
    | .lookup k binding => if k = kind then some binding else none
    | .diagnostic _ => none

end Build

variable {ω : Type}

structure Builder (ω : Type) where
  registry : Registry ω
  mode : Mode

def isDuration (x : Float32) : Bool := x.isFinite && !(x < 0)

namespace Builder

def rename (node : Node ω) (name : Option String) : Node ω :=
  match name with
  | some name => node.named name
  | none => node

def missing (B : Builder ω) (unbound : Node ω) (d : Diagnostic) (fault : BuildFault) :
    Build (Node ω) :=
  match B.mode with
  | .strict => .fail fault
  | .lenient => do
    .note (.diagnostic d)
    return unbound

def buildLeaf (B : Builder ω) (leaf : Position) (kind : LeafKind) (binding : String)
    (name : Option String) : Build (Node ω) := do
  let head : Head := ⟨name.getD binding, none⟩
  .note (.lookup kind binding)
  match kind with
  | .condition =>
    match B.registry.condition? binding with
    | some test => return .condition head (some test)
    | none =>
      B.missing (.condition head none) (.conditionUnregistered binding) (.unknownCondition binding)
  | .action =>
    match B.registry.action? binding leaf with
    | some run => return .action head (some run)
    | none =>
      B.missing (.action head none) (.actionUnregistered binding) (.unknownAction binding)

/-- The decorator of a definition; a timer's duration has to be a finite number of seconds. -/
def decoratorOf (name : Option String) : DecoratorSpec → Build Decorator
  | .inverter => return .inverter
  | .succeeder => return .succeeder
  | .repeater limit => return .repeater (Decorator.limitOfInt limit) 0
  | .timer duration =>
    if isDuration duration then return .timer duration 0
    else .fail (.invalidDuration (name.getD "Timer") duration)

mutual

/-- `embed` builds the root of a tree that is referred to. -/
def buildSpec (B : Builder ω) (embed : String → Position → Build (Node ω)) (place : Position) :
    Spec → Build (Node ω)
  | .leaf kind binding name => B.buildLeaf place kind binding name
  | .decorator kind name child => do
    let kind ← decoratorOf name kind
    let child ← buildChild B embed place child
    return rename (.decorate kind child) name
  | .composite order memory name children => do
    let children ← buildAll B embed place 0 children
    return rename (.compose order memory children) name
  | .parallel quorums name children => do
    let children ← buildAll B embed place 0 children
    return rename (.abreast quorums children) name
  | .subtree scope report tree name => do
    let root ← embed tree (place ++ [0])
    .note (.diagnostic (.subtreeBuilt tree scope report))
    return (Node.embed scope report (Tree.ofRoot (some root))).named (name.getD tree)

def buildChild (B : Builder ω) (embed : String → Position → Build (Node ω)) (place : Position) :
    Option Spec → Build (Option (Node ω))
  | none => return none
  | some spec => do return some (← buildSpec B embed (place ++ [0]) spec)

def buildAll (B : Builder ω) (embed : String → Position → Build (Node ω)) (place : Position)
    (index : Nat) : List Spec → Build (List (Node ω))
  | [] => return []
  | spec :: specs => do
    let node ← buildSpec B embed (place ++ [index]) spec
    return node :: (← buildAll B embed place (index + 1) specs)

end

def unentered (d : Document) (entered : List String) : List String :=
  d.trees.keys.filter (· ∉ entered)

theorem unentered_concat (d : Document) (entered : List String) (name : String) :
    unentered d (entered ++ [name]) = (unentered d entered).filter (· ≠ name) := by
  simp [unentered, List.filter_filter, and_comm, not_or]

theorem length_unentered_lt {d : Document} {entered : List String} {name : String}
    (fresh : name ∉ entered) (defined : name ∈ d.trees) :
    (unentered d (entered ++ [name])).length < (unentered d entered).length := by
  rw [unentered_concat, List.length_filter_lt_length_iff_exists]
  exact ⟨name, by simp [unentered, fresh, defined], by simp⟩

/--
Builds the root of the tree of the given name; `entered` are the names on the way to it,
outermost first.
-/
def buildNamed (B : Builder ω) (d : Document) (entered : List String) (place : Position)
    (name : String) : Build (Node ω) :=
  if fresh : name ∉ entered then
    if defined : name ∈ d.trees then
      B.buildSpec (fun tree place => buildNamed B d (entered ++ [name]) place tree) place
        d.trees[name]
    else .fail (.unknownTree name)
  else .fail (.subtreeCycle (entered.dropWhile (· ≠ name) ++ [name]))
termination_by (unentered d entered).length
decreasing_by exact length_unentered_lt fresh defined

def build (B : Builder ω) (d : Document) : Build (Tree ω) :=
  if d.trees.contains d.root then do
    let root ← B.buildNamed d [] [] d.root
    return { Tree.ofRoot (some root) with blackboard := d.blackboard }
  else .fail (.unknownRoot d.root)

def buildTree (B : Builder ω) (d : Document) (name : String) : Build (Node ω) :=
  B.buildNamed d [] [] name

end Builder

end BehaviorTree
