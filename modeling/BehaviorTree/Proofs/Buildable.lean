import BehaviorTree.Build
import BehaviorTree.Proofs.Reference

/-!
# What can be built

A tree of a document can be built exactly when everything that its name leads to is sound and,
in strict mode, every leaf on the way is registered. That nothing on the way is met again while
it is being entered comes to the same as that no definition on the way leads back to itself.
-/

namespace BehaviorTree

variable {ω α β : Type}

namespace Build

def Succeeds (b : Build α) : Prop := ∃ a, b.result = .ok a

theorem result_bind_eq_ok_iff {b : Build α} {f : α → Build β} {c : β} :
    (b >>= f).result = .ok c ↔ ∃ a, b.result = .ok a ∧ (f a).result = .ok c := by
  rw [result_bind]
  cases b.result with
  | error fault => simp [Except.bind]
  | ok a => simp [Except.bind]

theorem succeeds_pure (a : α) : (pure a : Build α).Succeeds := ⟨a, rfl⟩

theorem not_succeeds_fail (fault : BuildFault) : ¬ (fail fault : Build α).Succeeds := by
  rintro ⟨a, ha⟩
  cases ha

/-- Whether the second part succeeds may depend on what the first one gives only if it fails. -/
theorem succeeds_bind {b : Build α} {f : α → Build β} {P : Prop}
    (h : ∀ a, b.result = .ok a → ((f a).Succeeds ↔ P)) :
    (b >>= f).Succeeds ↔ b.Succeeds ∧ P := by
  constructor
  · rintro ⟨c, hc⟩
    obtain ⟨a, ha, hfa⟩ := result_bind_eq_ok_iff.mp hc
    exact ⟨⟨a, ha⟩, (h a ha).mp ⟨c, hfa⟩⟩
  · rintro ⟨⟨a, ha⟩, hP⟩
    obtain ⟨c, hc⟩ := (h a ha).mpr hP
    exact ⟨c, result_bind_eq_ok_iff.mpr ⟨a, ha, hc⟩⟩

theorem succeeds_bind_pure {b : Build α} {f : α → β} :
    (b >>= fun a => pure (f a)).Succeeds ↔ b.Succeeds := by
  rw [succeeds_bind (P := True) fun a _ => iff_true_intro (succeeds_pure (f a)), and_true]

end Build

namespace Builder

open Build

def Admits (B : Builder ω) (s : Spec) : Prop :=
  s.SoundDuration ∧ (B.mode = .strict → s.Provided B.registry)

section

variable {B : Builder ω}

@[simp] theorem admits_leaf {kind : LeafKind} {binding : String} {name : Option String} :
    B.Admits (.leaf kind binding name) ↔
      (B.mode = .strict → B.registry.has kind binding = true) := by
  simp [Admits, Spec.SoundDuration, Spec.Provided, Spec.binding?]

@[simp] theorem admits_decorator {kind : DecoratorSpec} {name : Option String}
    {child : Option Spec} : B.Admits (.decorator kind name child) ↔
      (Spec.decorator kind name child).SoundDuration := by
  simp [Admits, Spec.Provided, Spec.binding?]

@[simp] theorem admits_composite {order : Order} {memory : Bool} {name : Option String}
    {children : List Spec} : B.Admits (.composite order memory name children) := by
  simp [Admits, Spec.SoundDuration, Spec.Provided, Spec.binding?]

@[simp] theorem admits_parallel {quorums : Quorums} {name : Option String}
    {children : List Spec} : B.Admits (.parallel quorums name children) := by
  simp [Admits, Spec.SoundDuration, Spec.Provided, Spec.binding?]

@[simp] theorem admits_subtree {scope : Scope} {report : Report} {tree : String}
    {name : Option String} : B.Admits (.subtree scope report tree name) := by
  simp [Admits, Spec.SoundDuration, Spec.Provided, Spec.binding?]

end

theorem succeeds_missing (B : Builder ω) (unbound : Node ω) (d : Diagnostic) (fault : BuildFault) :
    (B.missing unbound d fault).Succeeds ↔ B.mode = .lenient := by
  unfold missing
  cases B.mode with
  | strict => exact iff_of_false (not_succeeds_fail fault) (by simp)
  | lenient => exact iff_of_true ⟨unbound, rfl⟩ rfl

theorem succeeds_buildLeaf (B : Builder ω) (place : Position) (kind : LeafKind) (binding : String)
    (name : Option String) :
    (B.buildLeaf place kind binding name).Succeeds ↔
      (B.mode = .strict → B.registry.has kind binding = true) := by
  have hmode : B.mode = .lenient ↔ ¬ B.mode = .strict := by cases B.mode <;> simp
  unfold buildLeaf
  rw [succeeds_bind (P := B.mode = .strict → B.registry.has kind binding = true)]
  · exact and_iff_right ⟨(), rfl⟩
  · rintro ⟨⟩ -
    cases kind with
    | condition =>
      simp only [Registry.has, Registry.condition?]
      cases hfound : B.registry.conditions[binding]? with
      | none =>
        rw [succeeds_missing, hmode]
        simp [Std.ExtTreeMap.contains_eq_isSome_getElem?, hfound]
      | some test =>
        simp [Std.ExtTreeMap.contains_eq_isSome_getElem?, hfound, succeeds_pure]
    | action =>
      simp only [Registry.has, Registry.action?]
      cases hfound : B.registry.actions[binding]? with
      | none =>
        simp only [Option.map_none]
        rw [succeeds_missing, hmode]
        simp [Std.ExtTreeMap.contains_eq_isSome_getElem?, hfound]
      | some make =>
        simp [Std.ExtTreeMap.contains_eq_isSome_getElem?, hfound, succeeds_pure]

theorem isDuration_iff {x : Float32} : isDuration x = true ↔ x.isFinite = true ∧ ¬ x < 0 := by
  simp [isDuration]

theorem succeeds_decoratorOf (kind : DecoratorSpec) (name : Option String) (child : Option Spec) :
    (decoratorOf name kind).Succeeds ↔ (Spec.decorator kind name child).SoundDuration := by
  cases kind with
  | inverter | succeeder | repeater => exact iff_of_true (succeeds_pure _) trivial
  | timer duration =>
    rw [decoratorOf, Spec.SoundDuration, ← isDuration_iff]
    split
    · next h => exact iff_of_true (succeeds_pure _) h
    · next h => exact iff_of_false (not_succeeds_fail _) h

section

variable {B : Builder ω} {embed : String → Position → Build (Node ω)}

theorem succeeds_buildAll {P : Spec → Prop} {specs : List Spec}
    (h : ∀ s ∈ specs, ∀ place, (buildSpec B embed place s).Succeeds ↔ P s) (place : Position)
    (index : Nat) : (buildAll B embed place index specs).Succeeds ↔ ∀ s ∈ specs, P s := by
  induction specs generalizing index with
  | nil => exact iff_of_true ⟨[], rfl⟩ (by simp)
  | cons s specs ih =>
    obtain ⟨hs, hspecs⟩ := List.forall_mem_cons.mp h
    rw [buildAll, List.forall_mem_cons, ← hs (place ++ [index]), ← ih hspecs (index + 1)]
    exact succeeds_bind fun _ _ => succeeds_bind_pure

theorem succeeds_buildChild {P : Spec → Prop} {child : Option Spec}
    (h : ∀ s ∈ child, ∀ place, (buildSpec B embed place s).Succeeds ↔ P s) (place : Position) :
    (buildChild B embed place child).Succeeds ↔ ∀ s ∈ child, P s := by
  cases child with
  | none => exact iff_of_true ⟨none, rfl⟩ (by simp)
  | some s =>
    rw [buildChild, succeeds_bind_pure, h s rfl]
    simp

theorem succeeds_buildSpec {E : String → Prop}
    (hembed : ∀ tree place, (embed tree place).Succeeds ↔ E tree) (spec : Spec)
    (place : Position) : (buildSpec B embed place spec).Succeeds ↔
      ∀ s ∈ spec.preorder, B.Admits s ∧ ∀ tree, s.reference? = some tree → E tree := by
  induction spec using Spec.childInduction generalizing place with
  | _ spec ih =>
    rw [Spec.forall_mem_preorder]
    cases spec with
    | leaf kind binding name =>
      rw [buildSpec, succeeds_buildLeaf]
      simp [Spec.children, Spec.reference?]
    | decorator kind name child =>
      have hchild := succeeds_buildChild (fun s hs => ih s (by simpa [Spec.children] using hs)) place
      rw [buildSpec, succeeds_bind fun _ _ => succeeds_bind_pure, hchild,
        succeeds_decoratorOf kind name child]
      simp [Spec.children, Spec.reference?]
    | composite order memory name children =>
      have hall := succeeds_buildAll (fun s hs => ih s hs) place 0
      rw [buildSpec, succeeds_bind_pure]
      refine hall.trans ?_
      simp [Spec.children, Spec.reference?]
    | parallel quorums name children =>
      have hall := succeeds_buildAll (fun s hs => ih s hs) place 0
      rw [buildSpec, succeeds_bind_pure]
      refine hall.trans ?_
      simp [Spec.children, Spec.reference?]
    | subtree scope report tree name =>
      rw [buildSpec, succeeds_bind (P := True) fun _ _ => iff_true_intro ⟨_, rfl⟩, hembed]
      simp [Spec.children, Spec.reference?]

end

end Builder

namespace Document

def Clear (d : Document) (entered : List String) (name : String) : Prop :=
  ∀ other, d.Reaches name other →
    other ∉ entered ∧ other ∈ d.trees ∧ ¬ Relation.TransGen d.Refers other other

theorem clear_iff {d : Document} {entered : List String} {name : String} :
    d.Clear entered name ↔ name ∉ entered ∧ name ∈ d.trees ∧
      ∀ next, d.Refers name next → d.Clear (entered ++ [name]) next := by
  -- A cycle through the name is a way on from it that comes back to an entered name.
  constructor
  · intro h
    obtain ⟨hfresh, hdefined, hcycle⟩ := h name .refl
    refine ⟨hfresh, hdefined, fun next hnext other hother => ?_⟩
    obtain ⟨hentered, htrees, hother'⟩ := h other (.head hnext hother)
    refine ⟨?_, htrees, hother'⟩
    rw [List.mem_append, List.mem_singleton]
    rintro (hmem | rfl)
    · exact hentered hmem
    · exact hcycle (.head' hnext hother)
  · rintro ⟨hfresh, hdefined, hnext⟩ other hother
    rcases reaches_iff.mp hother with rfl | ⟨next, href, hreach⟩
    · refine ⟨hfresh, hdefined, fun hcycle => ?_⟩
      obtain ⟨next, href, hreach⟩ := Relation.TransGen.head'_iff.mp hcycle
      exact (hnext next href other hreach).1 (by simp)
    · obtain ⟨hentered, hrest⟩ := hnext next href other hreach
      exact ⟨fun hmem => hentered (List.mem_append_left _ hmem), hrest⟩

end Document

namespace Builder

open Build

theorem succeeds_buildNamed (B : Builder ω) (d : Document) (entered : List String)
    (place : Position) (name : String) : (B.buildNamed d entered place name).Succeeds ↔
      d.Clear entered name ∧ d.Throughout B.Admits name := by
  induction entered, place, name using buildNamed.induct d with
  | case1 entered place name hfresh hdefined ih =>
    have hspec : ∀ spec, d.trees[name]? = some spec ↔ spec = d.trees[name] := by
      intro spec
      rw [Std.ExtTreeMap.getElem?_eq_some_getElem hdefined, Option.some_inj, eq_comm]
    rw [buildNamed, dif_pos hfresh, dif_pos hdefined,
      succeeds_buildSpec fun tree place => ih tree place, Document.clear_iff,
      Document.throughout_iff]
    simp only [Document.Refers, hspec, exists_eq_left, forall_eq, forall_exists_index, and_imp]
    grind
  | case2 entered place name hfresh hdefined =>
    rw [buildNamed, dif_pos hfresh, dif_neg hdefined]
    refine iff_of_false (not_succeeds_fail _) ?_
    rintro ⟨hclear, -⟩
    exact hdefined (hclear name .refl).2.1
  | case3 entered place name hentered =>
    rw [buildNamed, dif_neg hentered]
    refine iff_of_false (not_succeeds_fail _) ?_
    rintro ⟨hclear, -⟩
    exact hentered (hclear name .refl).1

theorem succeeds_build (B : Builder ω) (d : Document) : (B.build d).Succeeds ↔
    d.WellFormed ∧ (B.mode = .strict → d.Provided B.registry) := by
  have hroot : (B.build d).Succeeds ↔ (B.buildNamed d [] [] d.root).Succeeds := by
    unfold build
    split
    · exact succeeds_bind_pure
    · next hundefined =>
      rw [succeeds_buildNamed]
      refine iff_of_false (not_succeeds_fail _) ?_
      rintro ⟨hclear, -⟩
      exact hundefined (hclear d.root .refl).2.1
  rw [hroot, succeeds_buildNamed]
  constructor
  · rintro ⟨hclear, hadmits⟩
    refine ⟨⟨fun other h => (hclear other h).2.1, fun other h => (hclear other h).2.2, ?_⟩, ?_⟩
    · exact fun other h spec hspec s hs => (hadmits other h spec hspec s hs).1
    · exact fun hstrict other h spec hspec s hs => (hadmits other h spec hspec s hs).2 hstrict
  · rintro ⟨⟨hdefined, hacyclic, hdurations⟩, hprovided⟩
    refine ⟨fun other h => ⟨by simp, hdefined other h, hacyclic other h⟩, ?_⟩
    intro other h spec hspec s hs
    exact ⟨hdurations other h spec hspec s hs,
      fun hstrict => hprovided hstrict other h spec hspec s hs⟩

end Builder

end BehaviorTree
