import BehaviorTree.Proofs.Trail

/-!
# Building on one stack

The names that are being entered can also be kept on one stack, which every call of a build gets
from the call before and leaves to the next one, after an error too. Such a build is the same one:
a call leaves the stack as it was, so to build one child leaves no name behind for the next one to
meet. That no call lasts forever is said by a bound on how deep the calls nest.
-/

namespace BehaviorTree

variable {ω : Type}

/-- A part of a build on the stack of the names that are being entered, and the stack that it
leaves; nothing where the calls nest too deep. -/
structure Stacked (α : Type) where
  run : List String → Option (Build α × List String)

namespace Stacked

variable {α β : Type}

def ofBuild (b : Build α) : Stacked α := ⟨fun stack => some (b, stack)⟩

/-- After an error nothing else is done, not even to the stack. -/
def andThen (b : Stacked α) (f : α → Stacked β) : Stacked β where
  run stack :=
    match b.run stack with
    | none => none
    | some (built, left) =>
      match built.result with
      | .error fault => some (⟨built.notes, .error fault⟩, left)
      | .ok a => ((f a).run left).map fun (rest, left) => (built >>= fun _ => rest, left)

instance : Monad Stacked where
  pure a := ofBuild (pure a)
  bind := andThen

def Returns (b : Stacked α) (stack : List String) (c : Build α) : Prop :=
  b.run stack = some (c, stack)

theorem returns_ofBuild (b : Build α) (stack : List String) : (ofBuild b).Returns stack b := rfl

theorem returns_pure (a : α) (stack : List String) :
    (pure a : Stacked α).Returns stack (pure a) := rfl

theorem Returns.bind {b : Stacked α} {f : α → Stacked β} {c : Build α} {g : α → Build β}
    {stack : List String} (hb : b.Returns stack c) (hf : ∀ a, (f a).Returns stack (g a)) :
    (b >>= f).Returns stack (c >>= g) := by
  rw [Returns] at hb ⊢
  change (andThen b f).run stack = _
  simp only [andThen, hb]
  obtain ⟨notes, _ | a⟩ := c
  · rfl
  · change ((f a).run stack).map _ = _
    rw [hf a]
    rfl

end Stacked

namespace Builder

open Stacked

def onChild (node : Position → Spec → Stacked (Node ω)) (place : Position) :
    Option Spec → Stacked (Option (Node ω))
  | none => return none
  | some spec => do return some (← node (place ++ [0]) spec)

def onChildren (node : Position → Spec → Stacked (Node ω)) (place : Position) (index : Nat) :
    List Spec → Stacked (List (Node ω))
  | [] => return []
  | spec :: specs => do
    let head ← node (place ++ [index]) spec
    return head :: (← onChildren node place (index + 1) specs)

mutual

def nodeOnStack (B : Builder ω) (d : Document) : Nat → Position → Spec → Stacked (Node ω)
  | 0, _, _ => ⟨fun _ => none⟩
  | depth + 1, place, spec =>
    match spec with
    | .leaf kind binding name => .ofBuild (B.buildLeaf place kind binding name)
    | .decorator kind name child => do
      let kind ← .ofBuild (decoratorOf name kind)
      let child ← onChild (nodeOnStack B d depth) place child
      return rename (.decorate kind child) name
    | .composite order memory name children => do
      let children ← onChildren (nodeOnStack B d depth) place 0 children
      return rename (.compose order memory children) name
    | .parallel quorums name children => do
      let children ← onChildren (nodeOnStack B d depth) place 0 children
      return rename (.abreast quorums children) name
    | .subtree scope report tree name => do
      let root ← namedOnStack B d depth (place ++ [0]) tree
      .ofBuild (.note (.diagnostic (.subtreeBuilt tree scope report)))
      return (Node.embed scope report (Tree.ofRoot (some root))).named (name.getD tree)

def namedOnStack (B : Builder ω) (d : Document) : Nat → Position → String → Stacked (Node ω)
  | 0, _, _ => ⟨fun _ => none⟩
  | depth + 1, place, name => ⟨fun stack =>
    if name ∈ stack then
      some (.fail (.subtreeCycle (stack.dropWhile (· ≠ name) ++ [name])), stack)
    else
      match d.trees[name]? with
      | none => some (.fail (.unknownTree name), stack)
      | some spec =>
        ((nodeOnStack B d depth place spec).run (stack ++ [name])).map fun (built, left) =>
          (built, left.dropLast)⟩

end

end Builder

/-- A bound on how deep calls nest between here and the last of the definitions that are not being
entered. -/
def Document.depthLeft (d : Document) (stack : List String) : Nat :=
  (Builder.unentered d stack).length * (d.specs.length + 1)

theorem Document.depthLeft_of_enter {d : Document} {stack : List String} {name : String}
    {spec : Spec} (hfresh : name ∉ stack) (hspec : d.trees[name]? = some spec) :
    spec.preorder.length + d.depthLeft (stack ++ [name]) < d.depthLeft stack := by
  have hentered := Builder.length_unentered_lt hfresh (defined_of_getElem? hspec)
  have hlength : spec.preorder.length ≤ d.specs.length := by
    have hmem : spec.preorder ∈ d.trees.toList.map (·.2.preorder) :=
      List.mem_map.mpr ⟨_, Std.ExtTreeMap.mem_toList_iff_getElem?_eq_some.mpr hspec, rfl⟩
    exact (List.sublist_flatten_of_mem hmem).length_le
  rw [depthLeft, depthLeft]
  calc
    _ < (Builder.unentered d (stack ++ [name])).length * (d.specs.length + 1) +
        (d.specs.length + 1) := by omega
    _ = ((Builder.unentered d (stack ++ [name])).length + 1) * (d.specs.length + 1) := by
      rw [Nat.succ_mul]
    _ ≤ _ := Nat.mul_le_mul_right _ hentered

theorem Spec.length_preorder_lt {c spec : Spec} (h : c ∈ spec.children) :
    c.preorder.length < spec.preorder.length := by
  rw [spec.preorder_eq, List.length_cons, List.flatMap_def]
  have hle := (List.sublist_flatten_of_mem (List.mem_map_of_mem (f := preorder) h)).length_le
  omega

namespace Builder

open Stacked

section

variable {B : Builder ω} {d : Document} {stack : List String} {depth : Nat}
  {node : Position → Spec → Stacked (Node ω)} {embed : String → Position → Build (Node ω)}

theorem returns_onChild {child : Option Spec}
    (h : ∀ s ∈ child, ∀ place, (node place s).Returns stack (buildSpec B embed place s))
    (place : Position) :
    (onChild node place child).Returns stack (buildChild B embed place child) := by
  cases child with
  | none => exact returns_pure none stack
  | some s =>
    rw [onChild, buildChild]
    exact (h s rfl _).bind fun _ => returns_pure _ stack

theorem returns_onChildren {specs : List Spec}
    (h : ∀ s ∈ specs, ∀ place, (node place s).Returns stack (buildSpec B embed place s))
    (place : Position) (index : Nat) :
    (onChildren node place index specs).Returns stack (buildAll B embed place index specs) := by
  induction specs generalizing index with
  | nil => exact returns_pure [] stack
  | cons s specs ih =>
    obtain ⟨hs, hspecs⟩ := List.forall_mem_cons.mp h
    rw [onChildren, buildAll]
    refine (hs _).bind fun head => ?_
    exact (ih hspecs (index + 1)).bind fun _ => returns_pure _ stack

theorem returns_nodeOnStack_succ {spec : Spec}
    (hnode : ∀ c ∈ spec.children, ∀ place,
      (nodeOnStack B d depth place c).Returns stack (buildSpec B embed place c))
    (hnamed : ∀ tree ∈ spec.reference?, ∀ place,
      (namedOnStack B d depth place tree).Returns stack (embed tree place))
    (place : Position) :
    (nodeOnStack B d (depth + 1) place spec).Returns stack (buildSpec B embed place spec) := by
  cases spec with
  | leaf kind binding name =>
    rw [nodeOnStack, buildSpec]
    exact returns_ofBuild _ stack
  | decorator kind name child =>
    rw [nodeOnStack, buildSpec]
    refine (returns_ofBuild _ stack).bind fun kind => ?_
    refine (returns_onChild ?_ place).bind fun _ => returns_pure _ stack
    intro s hs
    exact hnode s (by simpa [Spec.children] using hs)
  | composite order memory name children =>
    rw [nodeOnStack, buildSpec]
    exact (returns_onChildren hnode place 0).bind fun _ => returns_pure _ stack
  | parallel quorums name children =>
    rw [nodeOnStack, buildSpec]
    exact (returns_onChildren hnode place 0).bind fun _ => returns_pure _ stack
  | subtree scope report tree name =>
    rw [nodeOnStack, buildSpec]
    refine (hnamed tree rfl _).bind fun root => ?_
    exact (returns_ofBuild _ stack).bind fun _ => returns_pure _ stack

theorem returns_namedOnStack_succ {name : String} {place : Position}
    (hnode : name ∉ stack → ∀ spec, d.trees[name]? = some spec →
      (nodeOnStack B d depth place spec).Returns (stack ++ [name])
        (buildSpec B (fun tree place => B.buildNamed d (stack ++ [name]) place tree) place spec)) :
    (namedOnStack B d (depth + 1) place name).Returns stack (B.buildNamed d stack place name) := by
  cases hrefusal : d.refusal? stack name with
  | some fault =>
    rw [buildNamed_of_refused hrefusal]
    rcases Document.refusal?_cases hrefusal with ⟨hentered, rfl⟩ | ⟨hfresh, hundefined, rfl⟩
    · simp only [Returns, namedOnStack, if_pos hentered]
    · simp only [Returns, namedOnStack, if_neg hfresh, Std.ExtTreeMap.getElem?_eq_none hundefined]
  | none =>
    obtain ⟨hfresh, hdefined⟩ := Document.refusal?_eq_none_iff.mp hrefusal
    have hspec := Std.ExtTreeMap.getElem?_eq_some_getElem hdefined
    have hinner := hnode hfresh _ hspec
    rw [buildNamed_of_accepted hrefusal hspec]
    rw [Returns] at hinner
    simp only [Returns, namedOnStack, if_neg hfresh, hspec, hinner, Option.map_some,
      List.dropLast_concat]

end

theorem returns_onStack (B : Builder ω) (d : Document) (depth : Nat) :
    (∀ stack place spec, spec.preorder.length + d.depthLeft stack < depth →
        (nodeOnStack B d depth place spec).Returns stack
          (buildSpec B (fun tree place => B.buildNamed d stack place tree) place spec)) ∧
      ∀ stack place name, d.depthLeft stack < depth →
        (namedOnStack B d depth place name).Returns stack (B.buildNamed d stack place name) := by
  -- A node leaves fewer nodes of its definition to its children, and a name fewer names to the
  -- definition that it enters; either way what is left fits into one call less.
  induction depth with
  | zero =>
    constructor
    all_goals
      intro stack place _ hdepth
      exact absurd hdepth (Nat.not_lt_zero _)
  | succ depth ih =>
    obtain ⟨ihnode, ihnamed⟩ := ih
    constructor
    · intro stack place spec hdepth
      refine returns_nodeOnStack_succ ?_ ?_ place
      · intro c hc place
        have hlt := Spec.length_preorder_lt hc
        exact ihnode stack place c (by omega)
      · intro tree htree place
        have hpos : 0 < spec.preorder.length := List.length_pos_of_mem spec.mem_preorder_self
        exact ihnamed stack place tree (by omega)
    · intro stack place name hdepth
      refine returns_namedOnStack_succ ?_
      intro hfresh spec hspec
      have hlt := Document.depthLeft_of_enter hfresh hspec
      exact ihnode (stack ++ [name]) place spec (by omega)

/-- On every document a build comes to an end, each of its calls leaves the stack as it was, also
after an error, and only a name that leads back to itself is taken for a cycle. -/
theorem calls_keep_stack (B : Builder ω) (d : Document) :
    (∀ stack place name depth, d.depthLeft stack < depth →
        (B.namedOnStack d depth place name).run stack =
          some (B.buildNamed d stack place name, stack)) ∧
      (∀ stack place spec depth, spec.preorder.length + d.depthLeft stack < depth →
        (B.nodeOnStack d depth place spec).run stack =
          some (B.buildSpec (fun tree place => B.buildNamed d stack place tree) place spec,
            stack)) ∧
      ∀ path, ((∃ start, (B.buildTree d start).result = .error (.subtreeCycle path)) ∨
          (B.build d).result = .error (.subtreeCycle path)) →
        ∀ name ∈ path, Relation.TransGen d.Refers name name := by
  refine ⟨?named, ?node, ?cycle⟩
  case named =>
    intro stack place name depth hdepth
    exact (returns_onStack B d depth).2 stack place name hdepth
  case node =>
    intro stack place spec depth hdepth
    exact (returns_onStack B d depth).1 stack place spec hdepth
  case cycle =>
    rintro path (⟨start, h⟩ | h) name hname
    · exact (loop_of_buildTree h).transGen hname
    · have hloop : d.Loop d.root path := warrants_of_build h
      exact hloop.transGen hname

def sharingDocument : Document where
  root := "main"
  trees := (((∅ : Table Spec).insert "main" (.composite .sequence false none
      [.subtree .shared .forward "left" none, .subtree .shared .forward "base" none])).insert
    "left" (.composite .selector true none
      [.subtree .isolated .forward "base" none, .subtree .isolated .forward "base" none])).insert
    "base" (.leaf .action "rest" none)

theorem calls_keep_stack_sharing :
    let B : Builder Unit := ⟨{}, .lenient⟩
    let base : Spec := .subtree .isolated .forward "base" none
    (sharingDocument.depthLeft [] < 30 ∧
        (B.namedOnStack sharingDocument 30 [] "main").run [] =
          some (B.buildTree sharingDocument "main", []) ∧
        (B.buildTree sharingDocument "main").result.isOk = true) ∧
      (base.preorder.length + sharingDocument.depthLeft ["main", "left"] < 30 ∧
        (B.nodeOnStack sharingDocument 30 [0, 0, 1] base).run ["main", "left"] =
          some (B.buildSpec
            (fun tree place => B.buildNamed sharingDocument ["main", "left"] place tree) [0, 0, 1]
            base, ["main", "left"])) ∧
      (B.build (watchDocument "watch")).result = .error (.subtreeCycle ["walk", "turn", "walk"]) ∧
        ∀ name ∈ ["walk", "turn", "walk"],
          Relation.TransGen (watchDocument "watch").Refers name name := by
  intro B base
  obtain ⟨hnamed, hnode, -⟩ := calls_keep_stack B sharingDocument
  have hmain : sharingDocument.depthLeft [] < 30 := by decide +kernel
  have hbase : base.preorder.length + sharingDocument.depthLeft ["main", "left"] < 30 := by
    decide +kernel
  have hrun : (B.namedOnStack sharingDocument 30 [] "main").run [] =
      some (B.buildTree sharingDocument "main", []) := hnamed [] [] "main" 30 hmain
  have hok : ((B.namedOnStack sharingDocument 30 [] "main").run []).map (·.1.result.isOk) =
      some true := by decide +kernel
  rw [hrun] at hok
  have hwatch : (B.build (watchDocument "watch")).result = _ :=
    (build_eq_error_iff (by decide)).mpr (result_buildTree_watch B "watch")
  exact ⟨⟨hmain, hrun, Option.some.inj hok⟩, ⟨hbase, hnode _ [0, 0, 1] base 30 hbase⟩, hwatch,
    (calls_keep_stack B (watchDocument "watch")).2.2 _ (.inr hwatch)⟩

end Builder

end BehaviorTree
