import BehaviorTree.Proofs.Buildable
import Mathlib.Data.List.Forall2

/-!
# Unfolded documents

The tree that a document stands for: each node of a definition becomes a node of the same kind
with the same settings, at the start of its work, and each reference becomes a nested tree with
a copy of the definition that it names. The positions in the unfolded tree tell the copies
apart: an action that is made anew for each leaf is made for the position of its leaf.
-/

namespace BehaviorTree

variable {ω : Type}

def Spec.title : Spec → String
  | leaf _ binding name => name.getD binding
  | decorator .inverter name _ => name.getD "Inverter"
  | decorator .succeeder name _ => name.getD "Succeeder"
  | decorator (.repeater _) name _ => name.getD "Repeater"
  | decorator (.timer _) name _ => name.getD "Timer"
  | composite .sequence memory name _ => name.getD (if memory then "MemSequence" else "Sequence")
  | composite .selector memory name _ => name.getD (if memory then "MemSelector" else "Selector")
  | parallel _ name _ => name.getD "Parallel"
  | subtree _ _ tree name => name.getD tree

inductive DecoratorSpec.Begins : DecoratorSpec → Decorator → Prop
  | inverter : Begins .inverter .inverter
  | succeeder : Begins .succeeder .succeeder
  | endless {limit : Int32} : limit.toInt < 0 → Begins (.repeater limit) (.repeater none 0)
  | limited {limit : Int32} {count : UInt32} :
    limit.toInt = count.toNat → Begins (.repeater limit) (.repeater (some count) 0)
  | timer {duration : Float32} : Begins (.timer duration) (.timer duration 0)

namespace Document

/-- The node at the given position of the unfolded tree is what the definition stands for. -/
inductive Unfolds (d : Document) (r : Registry ω) : Position → Spec → Node ω → Prop
  | condition {place : Position} {binding : String} {name : Option String} :
    d.Unfolds r place (.leaf .condition binding name)
      (.condition ⟨Spec.title (.leaf .condition binding name), none⟩ (r.condition? binding))
  | action {place : Position} {binding : String} {name : Option String} :
    d.Unfolds r place (.leaf .action binding name)
      (.action ⟨Spec.title (.leaf .action binding name), none⟩ (r.action? binding place))
  | childless {place : Position} {kind : DecoratorSpec} {begun : Decorator}
      {name : Option String} :
    kind.Begins begun →
    d.Unfolds r place (.decorator kind name none)
      (.decorator ⟨Spec.title (.decorator kind name none), none⟩ begun none)
  | decorator {place : Position} {kind : DecoratorSpec} {begun : Decorator}
      {name : Option String} {child : Spec} {node : Node ω} :
    kind.Begins begun → d.Unfolds r (place ++ [0]) child node →
    d.Unfolds r place (.decorator kind name (some child))
      (.decorator ⟨Spec.title (.decorator kind name (some child)), none⟩ begun (some node))
  | composite {place : Position} {order : Order} {memory : Bool} {name : Option String}
      {children : List Spec} {nodes : List (Node ω)} :
    children.length = nodes.length →
    (∀ i s n, children[i]? = some s → nodes[i]? = some n → d.Unfolds r (place ++ [i]) s n) →
    d.Unfolds r place (.composite order memory name children)
      (.composite ⟨Spec.title (.composite order memory name children), none⟩ order
        (if memory then .resume 0 else .restart) nodes)
  | parallel {place : Position} {quorums : Quorums} {name : Option String}
      {children : List Spec} {nodes : List (Node ω)} :
    children.length = nodes.length →
    (∀ i s n, children[i]? = some s → nodes[i]? = some n → d.Unfolds r (place ++ [i]) s n) →
    d.Unfolds r place (.parallel quorums name children)
      (.parallel ⟨Spec.title (.parallel quorums name children), none⟩ quorums false
        (nodes.map fun node => ⟨.running, node⟩))
  | subtree {place : Position} {scope : Scope} {report : Report} {tree : String}
      {name : Option String} {spec : Spec} {root : Node ω} :
    d.trees[tree]? = some spec → d.Unfolds r (place ++ [0]) spec root →
    d.Unfolds r place (.subtree scope report tree name)
      (.subtree ⟨Spec.title (.subtree scope report tree name), none⟩ scope report
        ⟨some root, none, none, {}, 0⟩)

def Unfolding (d : Document) (r : Registry ω) (t : Tree ω) : Prop :=
  ∃ spec root, d.trees[d.root]? = some spec ∧ d.Unfolds r [] spec root ∧
    t = ⟨some root, none, none, d.blackboard, 0⟩

end Document

theorem DecoratorSpec.Begins.unique {kind : DecoratorSpec} {k k' : Decorator}
    (h : kind.Begins k) (h' : kind.Begins k') : k = k' := by
  cases h with
  | inverter | succeeder | timer =>
    cases h'
    rfl
  | endless hneg =>
    cases h' with
    | endless => rfl
    | limited heq => omega
  | limited heq =>
    cases h' with
    | endless hneg => omega
    | limited heq' =>
      have : _ = _ := UInt32.toNat_inj.mp (Int.ofNat_inj.mp (heq.symm.trans heq'))
      rw [this]

namespace Document

variable {d : Document} {r : Registry ω}

/-- What is so of the node of each definition of a list is so of all the nodes. -/
theorem forall_of_unfolds {P : Node ω → Prop} {children : List Spec} {nodes : List (Node ω)}
    (hlen : children.length = nodes.length)
    (h : ∀ (i : Nat) (s n), children[i]? = some s → nodes[i]? = some n → P n) :
    ∀ n ∈ nodes, P n := by
  intro n hn
  obtain ⟨i, hi, rfl⟩ := List.mem_iff_getElem.mp hn
  exact h i _ _ (List.getElem?_eq_getElem (hlen ▸ hi)) (List.getElem?_eq_getElem hi)

/-- Unfoldings of the same list of definitions are related if those of each definition are. -/
theorem forall₂_of_unfolds {R : Node ω → Node ω → Prop} {place : Position} {children : List Spec}
    {nodes nodes' : List (Node ω)} (hlen : children.length = nodes.length)
    (hlen' : children.length = nodes'.length)
    (h : ∀ i s n, children[i]? = some s → nodes[i]? = some n →
      ∀ n', d.Unfolds r (place ++ [i]) s n' → R n n')
    (h' : ∀ i s n, children[i]? = some s → nodes'[i]? = some n → d.Unfolds r (place ++ [i]) s n) :
    List.Forall₂ R nodes nodes' := by
  refine List.forall₂_iff_get.mpr ⟨hlen.symm.trans hlen', ?_⟩
  intro i hi hi'
  have hchild : i < children.length := by omega
  exact h i _ _ (List.getElem?_eq_getElem hchild) (List.getElem?_eq_getElem hi) _
    (h' i _ _ (List.getElem?_eq_getElem hchild) (List.getElem?_eq_getElem hi'))

theorem Unfolds.unique {place : Position} {s : Spec} {n n' : Node ω} (h : d.Unfolds r place s n)
    (h' : d.Unfolds r place s n') : n = n' := by
  induction h generalizing n' with
  | condition | action =>
    cases h'
    rfl
  | childless hbegins =>
    cases h' with
    | childless hbegins' => rw [hbegins.unique hbegins']
  | decorator hbegins _ ih =>
    cases h' with
    | decorator hbegins' hchild' => rw [hbegins.unique hbegins', ih hchild']
  | composite hlen _ ih =>
    cases h' with
    | composite hlen' hall' =>
      have hall := forall₂_of_unfolds hlen hlen' (fun i s n hs hn _ => ih i s n hs hn) hall'
      rw [List.forall₂_eq_eq_eq] at hall
      rw [hall]
  | parallel hlen _ ih =>
    cases h' with
    | parallel hlen' hall' =>
      have hall := forall₂_of_unfolds hlen hlen' (fun i s n hs hn _ => ih i s n hs hn) hall'
      rw [List.forall₂_eq_eq_eq] at hall
      rw [hall]
  | subtree hspec _ ih =>
    cases h' with
    | subtree hspec' hroot' =>
      obtain rfl := Option.some_inj.mp (hspec.symm.trans hspec')
      rw [ih hroot']

theorem Unfolding.unique {t t' : Tree ω} (h : d.Unfolding r t) (h' : d.Unfolding r t') : t = t' := by
  obtain ⟨spec, root, hspec, hroot, rfl⟩ := h
  obtain ⟨spec', root', hspec', hroot', rfl⟩ := h'
  obtain rfl := Option.some_inj.mp (hspec.symm.trans hspec')
  rw [hroot.unique hroot']

end Document

namespace Builder

open Build

theorem begins_of_decoratorOf {kind : DecoratorSpec} {name : Option String} {k : Decorator}
    (h : (decoratorOf name kind).result = .ok k) : kind.Begins k.rewind := by
  cases kind with
  | inverter =>
    cases h
    exact .inverter
  | succeeder =>
    cases h
    exact .succeeder
  | repeater limit =>
    cases h
    rw [Decorator.rewind, Decorator.limitOfInt]
    split
    · next hneg => exact .endless (Int32.lt_iff_toInt_lt.mp hneg)
    · next hneg =>
      have hnonneg : 0 ≤ limit.toInt := Int.not_lt.mp fun hlt => hneg (Int32.lt_iff_toInt_lt.mpr hlt)
      have hbound : limit.toInt.toNat < 2 ^ 32 := by
        have := limit.toInt_lt
        omega
      refine .limited ?_
      rw [Nat.toUInt32_eq, UInt32.toNat_ofNat_of_lt' hbound, Int.toNat_of_nonneg hnonneg]
  | timer duration =>
    rw [decoratorOf] at h
    split at h
    · cases h
      exact .timer
    · cases h

theorem title_of_decoratorOf {kind : DecoratorSpec} {name : Option String} {k : Decorator}
    (h : (decoratorOf name kind).result = .ok k) (title : Option String) (child : Option Spec) :
    title.getD k.label = Spec.title (.decorator kind title child) := by
  cases kind with
  | inverter | succeeder | repeater =>
    cases h
    rfl
  | timer =>
    rw [decoratorOf] at h
    split at h <;> cases h
    rfl

theorem rename_decorator (name : String) (kind : Decorator) (child : Option (Node ω))
    (own : Option String) : rename (.decorator ⟨name, none⟩ kind child) own =
      .decorator ⟨own.getD name, none⟩ kind child := by
  cases own <;> rfl

theorem rename_parallel (name : String) (quorums : Quorums) (lanes : List (Lane (Node ω)))
    (own : Option String) : rename (.parallel ⟨name, none⟩ quorums false lanes) own =
      .parallel ⟨own.getD name, none⟩ quorums false lanes := by
  cases own <;> rfl

theorem rename_compose (order : Order) (memory : Bool) (nodes : List (Node ω))
    (own : Option String) (children : List Spec) : rename (.compose order memory nodes) own =
      .composite ⟨Spec.title (.composite order memory own children), none⟩ order
        (if memory then .resume 0 else .restart) nodes := by
  cases own <;> cases order <;> cases memory <;> rfl

theorem eq_of_missing {B : Builder ω} {unbound n : Node ω} {d : Diagnostic} {fault : BuildFault}
    (h : (B.missing unbound d fault).result = .ok n) : n = unbound := by
  unfold missing at h
  split at h <;> cases h
  rfl

section

variable {B : Builder ω} {d : Document} {embed : String → Position → Build (Node ω)}

theorem unfolds_of_buildLeaf {place : Position} {kind : LeafKind} {binding : String}
    {name : Option String} {n : Node ω}
    (h : (B.buildLeaf place kind binding name).result = .ok n) :
    d.Unfolds B.registry place (.leaf kind binding name) n := by
  obtain ⟨-, -, h⟩ := result_bind_eq_ok_iff.mp h
  cases kind with
  | condition =>
    suffices hn : n = .condition ⟨name.getD binding, none⟩ (B.registry.condition? binding) by
      rw [hn]
      exact .condition
    cases hfound : B.registry.condition? binding <;> simp only [hfound] at h
    · exact eq_of_missing h
    · cases h
      rfl
  | action =>
    suffices hn : n = .action ⟨name.getD binding, none⟩ (B.registry.action? binding place) by
      rw [hn]
      exact .action
    cases hfound : B.registry.action? binding place <;> simp only [hfound] at h
    · exact eq_of_missing h
    · cases h
      rfl

theorem unfolds_of_buildAll {place : Position} {specs : List Spec}
    (hspecs : ∀ s ∈ specs, ∀ place n, (buildSpec B embed place s).result = .ok n →
      d.Unfolds B.registry place s n) {index : Nat} {nodes : List (Node ω)}
    (h : (buildAll B embed place index specs).result = .ok nodes) :
    specs.length = nodes.length ∧ ∀ i s n, specs[i]? = some s → nodes[i]? = some n →
      d.Unfolds B.registry (place ++ [index + i]) s n := by
  induction specs generalizing index nodes with
  | nil =>
    cases h
    exact ⟨rfl, by simp⟩
  | cons s specs ih =>
    obtain ⟨hs, hspecs⟩ := List.forall_mem_cons.mp hspecs
    obtain ⟨node, hnode, h⟩ := result_bind_eq_ok_iff.mp h
    obtain ⟨rest, hrest, h⟩ := result_bind_eq_ok_iff.mp h
    cases h
    obtain ⟨hlen, hall⟩ := ih hspecs hrest
    refine ⟨congrArg (· + 1) hlen, fun i s' n hs' hn => ?_⟩
    cases i with
    | zero =>
      cases hs'
      cases hn
      exact hs _ _ hnode
    | succ i =>
      rw [show index + (i + 1) = index + 1 + i by omega]
      exact hall i s' n hs' hn

theorem unfolds_of_buildSpec
    (hembed : ∀ tree place root, (embed tree place).result = .ok root →
      ∃ spec, d.trees[tree]? = some spec ∧ d.Unfolds B.registry place spec root)
    {spec : Spec} {place : Position} {n : Node ω}
    (h : (buildSpec B embed place spec).result = .ok n) :
    d.Unfolds B.registry place spec n := by
  induction spec using Spec.childInduction generalizing place n with
  | _ spec ih =>
    cases spec with
    | leaf kind binding name =>
      rw [buildSpec] at h
      exact unfolds_of_buildLeaf h
    | decorator kind name child =>
      rw [buildSpec] at h
      obtain ⟨k, hk, h⟩ := result_bind_eq_ok_iff.mp h
      obtain ⟨node, hnode, h⟩ := result_bind_eq_ok_iff.mp h
      cases h
      rw [Node.decorate, rename_decorator, title_of_decoratorOf hk name child]
      cases child with
      | none =>
        cases hnode
        exact .childless (begins_of_decoratorOf hk)
      | some s =>
        obtain ⟨below, hbelow, hnode⟩ := result_bind_eq_ok_iff.mp hnode
        cases hnode
        exact .decorator (begins_of_decoratorOf hk) (ih s (by simp [Spec.children]) hbelow)
    | composite order memory name children =>
      rw [buildSpec] at h
      obtain ⟨nodes, hnodes, h⟩ := result_bind_eq_ok_iff.mp h
      cases h
      obtain ⟨hlen, hall⟩ := unfolds_of_buildAll (fun s hs _ _ h => ih s hs h) hnodes
      rw [rename_compose order memory nodes name children]
      exact .composite hlen (by simpa [Spec.children] using hall)
    | parallel quorums name children =>
      rw [buildSpec] at h
      obtain ⟨nodes, hnodes, h⟩ := result_bind_eq_ok_iff.mp h
      cases h
      obtain ⟨hlen, hall⟩ := unfolds_of_buildAll (fun s hs _ _ h => ih s hs h) hnodes
      rw [Node.abreast, rename_parallel]
      exact .parallel hlen (by simpa [Spec.children] using hall)
    | subtree scope report tree name =>
      rw [buildSpec] at h
      obtain ⟨root, hroot, h⟩ := result_bind_eq_ok_iff.mp h
      obtain ⟨-, -, h⟩ := result_bind_eq_ok_iff.mp h
      cases h
      obtain ⟨spec, hspec, hunfolds⟩ := hembed _ _ _ hroot
      exact .subtree hspec hunfolds

end

theorem unfolds_of_buildNamed {B : Builder ω} {d : Document} {entered : List String}
    {place : Position} {name : String} {n : Node ω}
    (h : (B.buildNamed d entered place name).result = .ok n) :
    ∃ spec, d.trees[name]? = some spec ∧ d.Unfolds B.registry place spec n := by
  induction entered, place, name using buildNamed.induct d generalizing n with
  | case1 entered place name hfresh hdefined ih =>
    rw [buildNamed, dif_pos hfresh, dif_pos hdefined] at h
    exact ⟨_, Std.ExtTreeMap.getElem?_eq_some_getElem hdefined,
      unfolds_of_buildSpec (fun tree place root => ih tree place) h⟩
  | case2 entered place name hfresh hdefined =>
    rw [buildNamed, dif_pos hfresh, dif_neg hdefined] at h
    cases h
  | case3 entered place name hentered =>
    rw [buildNamed, dif_neg hentered] at h
    cases h

theorem unfolding_of_build {B : Builder ω} {d : Document} {t : Tree ω}
    (h : (B.build d).result = .ok t) : d.Unfolding B.registry t := by
  unfold build at h
  split at h
  · obtain ⟨root, hroot, h⟩ := result_bind_eq_ok_iff.mp h
    cases h
    obtain ⟨spec, hspec, hunfolds⟩ := unfolds_of_buildNamed hroot
    exact ⟨spec, root, hspec, hunfolds, rfl⟩
  · cases h

/-- A document builds exactly when it is well formed and, if the mode asks for it, everything
that its root leads to is registered; what it builds is its unfolding. -/
theorem build_eq_ok_iff (r : Registry ω) (mode : Mode) (d : Document) :
    ((∃ t, (build ⟨r, mode⟩ d).result = .ok t) ↔
      d.WellFormed ∧ (mode = .strict → d.Provided r)) ∧
    ∀ t, (build ⟨r, mode⟩ d).result = .ok t ↔
      d.WellFormed ∧ (mode = .strict → d.Provided r) ∧ d.Unfolding r t := by
  have hsucceeds := succeeds_build ⟨r, mode⟩ d
  refine ⟨hsucceeds, fun t => ?_⟩
  constructor
  · intro h
    obtain ⟨hformed, hprovided⟩ := hsucceeds.mp ⟨t, h⟩
    exact ⟨hformed, hprovided, unfolding_of_build h⟩
  · rintro ⟨hformed, hprovided, ht⟩
    obtain ⟨t', h⟩ := hsucceeds.mpr ⟨hformed, hprovided⟩
    rw [ht.unique (unfolding_of_build h)]
    exact h

end Builder

end BehaviorTree
