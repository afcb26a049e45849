import BehaviorTree.Proofs.Completion
import BehaviorTree.Proofs.Stack

/-!
# Bindings that a build looks up

A build looks up the bindings of the leaves that it comes to. They are leaves of definitions that
the root leads to, and a build that succeeds has come to all of those. So nothing is looked up that
the document does not list. To a build all registries are the same that offer the same for what it
looks up, and if they offer all of it, so are the two modes.
-/

namespace BehaviorTree

variable {ω α β : Type}

namespace Build

theorem mem_lookups_bind {b : Build α} {f : α → Build β} {kind : LeafKind} {binding : String} :
    binding ∈ (b >>= f).lookups kind ↔
      binding ∈ b.lookups kind ∨ ∃ a, b.result = .ok a ∧ binding ∈ (f a).lookups kind := by
  obtain ⟨notes, fault | a⟩ := b
  · have hbind : (⟨notes, .error fault⟩ : Build α) >>= f = ⟨notes, .error fault⟩ := rfl
    simp [hbind, lookups]
  · have hbind : (⟨notes, .ok a⟩ : Build α) >>= f = ⟨notes ++ (f a).notes, (f a).result⟩ := rfl
    simp [hbind, lookups, List.filterMap_append]

/-- Only bindings with the property are looked up, and all of those unless the build fails. -/
structure LooksUp (b : Build α) (P : LeafKind → String → Prop) : Prop where
  only : ∀ kind binding, binding ∈ b.lookups kind → P kind binding
  all : b.Succeeds → ∀ kind binding, P kind binding → binding ∈ b.lookups kind

namespace LooksUp

variable {b : Build α} {f : α → Build β} {P Q : LeafKind → String → Prop}

theorem congr (h : b.LooksUp P) (hPQ : ∀ kind binding, P kind binding ↔ Q kind binding) :
    b.LooksUp Q where
  only kind binding hmem := (hPQ kind binding).mp (h.only kind binding hmem)
  all hb kind binding hQ := h.all hb kind binding ((hPQ kind binding).mpr hQ)

theorem of_fail (fault : BuildFault) (P : LeafKind → String → Prop) :
    (fail fault : Build α).LooksUp P where
  only := by simp [fail, lookups]
  all := fun h => absurd h (not_succeeds_fail fault)

theorem of_pure (a : α) : (pure a : Build α).LooksUp fun _ _ => False where
  only := by simp [pure, ok, lookups]
  all := nofun

theorem of_diagnostic (d : Diagnostic) : (note (.diagnostic d)).LooksUp fun _ _ => False where
  only := by simp [note, lookups]
  all := nofun

theorem of_lookup (kind : LeafKind) (binding : String) :
    (note (.lookup kind binding)).LooksUp fun k x => kind = k ∧ binding = x where
  only := by
    intro k x hmem
    simp only [note, lookups, List.filterMap_cons, List.filterMap_nil] at hmem
    split at hmem <;> simp_all
  all := by
    rintro - k x ⟨rfl, rfl⟩
    simp [note, lookups]

theorem bind (hb : b.LooksUp P) (hf : ∀ a, (f a).LooksUp Q) :
    (b >>= f).LooksUp fun kind binding => P kind binding ∨ Q kind binding where
  only := by
    intro kind binding hmem
    rcases mem_lookups_bind.mp hmem with hmem | ⟨a, -, hmem⟩
    · exact .inl (hb.only kind binding hmem)
    · exact .inr ((hf a).only kind binding hmem)
  all := by
    rintro ⟨c, hc⟩ kind binding h
    obtain ⟨a, ha, hfa⟩ := result_bind_eq_ok_iff.mp hc
    rw [mem_lookups_bind]
    rcases h with h | h
    · exact .inl (hb.all ⟨a, ha⟩ kind binding h)
    · exact .inr ⟨a, ha, (hf a).all ⟨c, hfa⟩ kind binding h⟩

theorem bind_quiet (hb : b.LooksUp P) (hf : ∀ a, (f a).LooksUp fun _ _ => False) :
    (b >>= f).LooksUp P :=
  (hb.bind hf).congr fun _ _ => iff_of_eq (or_false _)

theorem quiet_bind (hb : b.LooksUp fun _ _ => False) (hf : ∀ a, (f a).LooksUp Q) :
    (b >>= f).LooksUp Q :=
  (hb.bind hf).congr fun _ _ => iff_of_eq (false_or _)

end LooksUp

def SameIf (A : LeafKind → String → Prop) (b b' : Build α) : Prop :=
  (∀ kind, ∀ binding ∈ b.lookups kind, A kind binding) → b = b'

theorem SameIf.bind {A : LeafKind → String → Prop} {b b' : Build α} {f f' : α → Build β}
    (hb : SameIf A b b') (hf : ∀ a, SameIf A (f a) (f' a)) : SameIf A (b >>= f) (b' >>= f') := by
  intro h
  obtain rfl := hb fun kind binding hmem => h kind binding (mem_lookups_bind.mpr (.inl hmem))
  obtain ⟨notes, fault | a⟩ := b
  · rfl
  · have hfa : f a = f' a :=
      hf a fun kind binding hmem => h kind binding (mem_lookups_bind.mpr (.inr ⟨a, rfl, hmem⟩))
    change (⟨notes ++ (f a).notes, (f a).result⟩ : Build β) = ⟨notes ++ (f' a).notes, (f' a).result⟩
    rw [hfa]

theorem SameIf.refl (A : LeafKind → String → Prop) (b : Build α) : SameIf A b b := fun _ => rfl

end Build

def Registry.SameAt (r r' : Registry ω) : LeafKind → String → Prop
  | .condition, binding => r.condition? binding = r'.condition? binding
  | .action, binding => ∀ leaf, r.action? binding leaf = r'.action? binding leaf

/-- A leaf of the definition has the binding, or the definition refers to a tree that `E` finds it
in. -/
def Spec.Asks (E : String → LeafKind → String → Prop) (s : Spec) (kind : LeafKind)
    (binding : String) : Prop :=
  ∃ t ∈ s.preorder, t.binding? kind = some binding ∨
    ∃ tree, t.reference? = some tree ∧ E tree kind binding

theorem Spec.asks_iff {E : String → LeafKind → String → Prop} {s : Spec} {kind : LeafKind}
    {binding : String} : s.Asks E kind binding ↔
      (s.binding? kind = some binding ∨ ∃ tree, s.reference? = some tree ∧ E tree kind binding) ∨
        ∃ c ∈ s.children, c.Asks E kind binding := by
  simp only [Asks]
  rw [preorder_eq, List.exists_mem_cons_iff]
  simp only [List.mem_flatMap]
  grind

namespace Document

def Uses (d : Document) (name : String) (kind : LeafKind) (binding : String) : Prop :=
  ∃ other, d.Reaches name other ∧ ∃ spec, d.trees[other]? = some spec ∧
    ∃ s ∈ spec.preorder, s.binding? kind = some binding

theorem uses_iff {d : Document} {name : String} {spec : Spec} (hspec : d.trees[name]? = some spec)
    (kind : LeafKind) (binding : String) :
    d.Uses name kind binding ↔ spec.Asks d.Uses kind binding := by
  constructor
  · rintro ⟨other, hreaches, spec', hspec', s, hs, hbinding⟩
    rcases reaches_iff.mp hreaches with rfl | ⟨next, ⟨spec'', hspec'', t, ht, htree⟩, hreaches⟩
    · obtain rfl := Option.some.inj (hspec.symm.trans hspec')
      exact ⟨s, hs, .inl hbinding⟩
    · obtain rfl := Option.some.inj (hspec.symm.trans hspec'')
      exact ⟨t, ht, .inr ⟨next, htree, other, hreaches, spec', hspec', s, hs, hbinding⟩⟩
  · rintro ⟨s, hs, hbinding | ⟨tree, htree, other, hreaches, hother⟩⟩
    · exact ⟨name, .refl, spec, hspec, s, hs, hbinding⟩
    · exact ⟨other, .head ⟨spec, hspec, s, hs, htree⟩ hreaches, hother⟩

theorem mem_bindings_of_uses {d : Document} {name : String} {kind : LeafKind} {binding : String}
    (h : d.Uses name kind binding) : binding ∈ d.bindings kind := by
  obtain ⟨other, -, spec, hspec, s, hs, hbinding⟩ := h
  rw [← Std.ExtTreeSet.mem_toList, mem_bindings_iff]
  exact ⟨s, mem_specs_iff.mpr ⟨other, spec, hspec, hs⟩, hbinding⟩

end Document

namespace Builder

open Build

theorem looksUp_missing (B : Builder ω) (unbound : Node ω) (d : Diagnostic) (fault : BuildFault) :
    (B.missing unbound d fault).LooksUp fun _ _ => False := by
  unfold missing
  cases B.mode with
  | strict => exact .of_fail fault _
  | lenient => exact (LooksUp.of_diagnostic d).quiet_bind fun _ => .of_pure unbound

theorem looksUp_buildLeaf (B : Builder ω) (place : Position) (kind : LeafKind) (binding : String)
    (name : Option String) :
    (B.buildLeaf place kind binding name).LooksUp fun k x => kind = k ∧ binding = x := by
  unfold buildLeaf
  refine (LooksUp.of_lookup kind binding).bind_quiet fun _ => ?_
  cases kind with
  | condition =>
    cases B.registry.condition? binding with
    | none => exact looksUp_missing B ..
    | some test => exact .of_pure _
  | action =>
    cases B.registry.action? binding place with
    | none => exact looksUp_missing B ..
    | some run => exact .of_pure _

theorem looksUp_decoratorOf (kind : DecoratorSpec) (name : Option String) :
    (decoratorOf name kind).LooksUp fun _ _ => False := by
  cases kind with
  | inverter | succeeder | repeater => exact .of_pure _
  | timer duration =>
    rw [decoratorOf]
    split
    · exact .of_pure _
    · exact .of_fail _ _

section

variable {B : Builder ω} {embed : String → Position → Build (Node ω)}
  {P : Spec → LeafKind → String → Prop}

theorem looksUp_buildAll {specs : List Spec}
    (h : ∀ s ∈ specs, ∀ place, (buildSpec B embed place s).LooksUp (P s)) (place : Position)
    (index : Nat) : (buildAll B embed place index specs).LooksUp
      fun kind binding => ∃ s ∈ specs, P s kind binding := by
  induction specs generalizing index with
  | nil => exact (LooksUp.of_pure []).congr (by simp)
  | cons s specs ih =>
    obtain ⟨hs, hspecs⟩ := List.forall_mem_cons.mp h
    rw [buildAll]
    refine ((hs (place ++ [index])).bind fun _ =>
      (ih hspecs (index + 1)).bind_quiet fun _ => .of_pure _).congr ?_
    simp

theorem looksUp_buildChild {child : Option Spec}
    (h : ∀ s ∈ child, ∀ place, (buildSpec B embed place s).LooksUp (P s)) (place : Position) :
    (buildChild B embed place child).LooksUp
      fun kind binding => ∃ s ∈ child, P s kind binding := by
  cases child with
  | none => exact (LooksUp.of_pure none).congr (by simp)
  | some s =>
    rw [buildChild]
    exact ((h s rfl (place ++ [0])).bind_quiet fun _ => .of_pure _).congr (by simp)

theorem looksUp_buildSpec {E : String → LeafKind → String → Prop}
    (hembed : ∀ tree place, (embed tree place).LooksUp (E tree)) (spec : Spec) (place : Position) :
    (buildSpec B embed place spec).LooksUp (spec.Asks E) := by
  induction spec using Spec.childInduction generalizing place with
  | _ spec ih =>
    refine LooksUp.congr ?_ fun _ _ => Spec.asks_iff.symm
    cases spec with
    | leaf kind binding name =>
      rw [buildSpec]
      refine (looksUp_buildLeaf B place kind binding name).congr ?_
      simp [Spec.binding?, Spec.reference?, Spec.children]
    | decorator kind name child =>
      have hchild := looksUp_buildChild (fun s hs => ih s (by simpa [Spec.children] using hs)) place
      rw [buildSpec]
      refine ((looksUp_decoratorOf kind name).quiet_bind fun _ =>
        hchild.bind_quiet fun _ => .of_pure _).congr ?_
      simp [Spec.binding?, Spec.reference?, Spec.children]
    | composite order memory name children =>
      have hall := looksUp_buildAll (fun s hs => ih s hs) place 0
      rw [buildSpec]
      refine (hall.bind_quiet fun _ => .of_pure _).congr ?_
      simp [Spec.binding?, Spec.reference?, Spec.children]
    | parallel quorums name children =>
      have hall := looksUp_buildAll (fun s hs => ih s hs) place 0
      rw [buildSpec]
      refine (hall.bind_quiet fun _ => .of_pure _).congr ?_
      simp [Spec.binding?, Spec.reference?, Spec.children]
    | subtree scope report tree name =>
      rw [buildSpec]
      refine ((hembed tree (place ++ [0])).bind_quiet fun _ =>
        (LooksUp.of_diagnostic _).quiet_bind fun _ => .of_pure _).congr ?_
      simp [Spec.binding?, Spec.reference?, Spec.children]

end

theorem looksUp_buildNamed (B : Builder ω) (d : Document) (entered : List String)
    (place : Position) (name : String) :
    (B.buildNamed d entered place name).LooksUp (d.Uses name) := by
  induction entered, place, name using buildNamed.induct d with
  | case1 entered place name hfresh hdefined ih =>
    rw [buildNamed, dif_pos hfresh, dif_pos hdefined]
    have hspec := Std.ExtTreeMap.getElem?_eq_some_getElem hdefined
    exact (looksUp_buildSpec (fun tree place => ih tree place) _ place).congr
      fun kind binding => (Document.uses_iff hspec kind binding).symm
  | case2 entered place name hfresh hundefined =>
    rw [buildNamed, dif_pos hfresh, dif_neg hundefined]
    exact .of_fail _ _
  | case3 entered place name hentered =>
    rw [buildNamed, dif_neg hentered]
    exact .of_fail _ _

theorem looksUp_build (B : Builder ω) (d : Document) :
    (B.build d).LooksUp (d.Uses d.root) := by
  unfold build
  split
  · exact (looksUp_buildNamed B d [] [] d.root).bind_quiet fun _ => .of_pure _
  · exact .of_fail _ _

/-! ## What a build depends on -/

section

variable {B B' : Builder ω} {A : LeafKind → String → Prop}
  {embed embed' : String → Position → Build (Node ω)}

theorem sameIf_buildAll {specs : List Spec}
    (h : ∀ s ∈ specs, ∀ place, SameIf A (buildSpec B embed place s) (buildSpec B' embed' place s))
    (place : Position) (index : Nat) :
    SameIf A (buildAll B embed place index specs) (buildAll B' embed' place index specs) := by
  induction specs generalizing index with
  | nil => exact .refl A _
  | cons s specs ih =>
    obtain ⟨hs, hspecs⟩ := List.forall_mem_cons.mp h
    rw [buildAll, buildAll]
    exact (hs _).bind fun _ => (ih hspecs (index + 1)).bind fun _ => .refl A _

theorem sameIf_buildChild {child : Option Spec}
    (h : ∀ s ∈ child, ∀ place, SameIf A (buildSpec B embed place s) (buildSpec B' embed' place s))
    (place : Position) :
    SameIf A (buildChild B embed place child) (buildChild B' embed' place child) := by
  cases child with
  | none => exact .refl A _
  | some s =>
    rw [buildChild, buildChild]
    exact (h s rfl _).bind fun _ => .refl A _

variable (hA : ∀ kind binding, A kind binding →
  ∀ place name, B.buildLeaf place kind binding name = B'.buildLeaf place kind binding name)
include hA

theorem sameIf_buildLeaf (place : Position) (kind : LeafKind) (binding : String)
    (name : Option String) :
    SameIf A (B.buildLeaf place kind binding name) (B'.buildLeaf place kind binding name) := by
  intro h
  refine hA kind binding (h kind binding ?_) place name
  have hnoted : binding ∈ (note (.lookup kind binding)).lookups kind := by simp [note, lookups]
  unfold buildLeaf
  exact mem_lookups_bind.mpr (.inl hnoted)

theorem sameIf_buildSpec (hembed : ∀ tree place, SameIf A (embed tree place) (embed' tree place))
    (spec : Spec) (place : Position) :
    SameIf A (buildSpec B embed place spec) (buildSpec B' embed' place spec) := by
  induction spec using Spec.childInduction generalizing place with
  | _ spec ih =>
    cases spec with
    | leaf kind binding name =>
      rw [buildSpec, buildSpec]
      exact sameIf_buildLeaf hA place kind binding name
    | decorator kind name child =>
      rw [buildSpec, buildSpec]
      refine (SameIf.refl A _).bind fun _ => ?_
      refine (sameIf_buildChild ?_ place).bind fun _ => .refl A _
      exact fun s hs => ih s (by simpa [Spec.children] using hs)
    | composite order memory name children =>
      rw [buildSpec, buildSpec]
      exact (sameIf_buildAll ih place 0).bind fun _ => .refl A _
    | parallel quorums name children =>
      rw [buildSpec, buildSpec]
      exact (sameIf_buildAll ih place 0).bind fun _ => .refl A _
    | subtree scope report tree name =>
      rw [buildSpec, buildSpec]
      exact (hembed tree _).bind fun _ => .refl A _

theorem sameIf_buildNamed (d : Document) (entered : List String) (place : Position)
    (name : String) :
    SameIf A (B.buildNamed d entered place name) (B'.buildNamed d entered place name) := by
  induction entered, place, name using buildNamed.induct d with
  | case1 entered place name hfresh hdefined ih =>
    rw [buildNamed, buildNamed, dif_pos hfresh, dif_pos hfresh, dif_pos hdefined, dif_pos hdefined]
    exact sameIf_buildSpec hA ih _ place
  | case2 entered place name hfresh hundefined =>
    rw [buildNamed, buildNamed, dif_pos hfresh, dif_pos hfresh, dif_neg hundefined,
      dif_neg hundefined]
    exact .refl A _
  | case3 entered place name hentered =>
    rw [buildNamed, buildNamed, dif_neg hentered, dif_neg hentered]
    exact .refl A _

theorem sameIf_build (d : Document) : SameIf A (B.build d) (B'.build d) := by
  unfold build
  split
  · exact (sameIf_buildNamed hA d [] [] d.root).bind fun _ => .refl A _
  · exact .refl A _

end

theorem buildLeaf_eq_of_sameAt {r r' : Registry ω} {kind : LeafKind} {binding : String}
    (h : r.SameAt r' kind binding) (mode : Mode) (place : Position) (name : Option String) :
    buildLeaf ⟨r, mode⟩ place kind binding name = buildLeaf ⟨r', mode⟩ place kind binding name := by
  cases kind with
  | condition =>
    have hsame : r.condition? binding = r'.condition? binding := h
    simp only [buildLeaf, hsame, missing]
  | action =>
    have hsame : r.action? binding place = r'.action? binding place := h place
    simp only [buildLeaf, hsame, missing]

theorem buildLeaf_strict_eq_lenient {r : Registry ω} {kind : LeafKind} {binding : String}
    (h : r.has kind binding = true) (place : Position) (name : Option String) :
    buildLeaf ⟨r, .strict⟩ place kind binding name =
      buildLeaf ⟨r, .lenient⟩ place kind binding name := by
  cases kind with
  | condition =>
    rw [Registry.has_condition, Option.isSome_iff_exists] at h
    obtain ⟨test, htest⟩ := h
    simp only [buildLeaf, htest]
  | action =>
    rw [Registry.has_action binding place, Option.isSome_iff_exists] at h
    obtain ⟨run, hrun⟩ := h
    simp only [buildLeaf, hrun]

/-- A defect is never that a binding is not registered. -/
theorem ne_unknown_of_defectAt? {d : Document} {place : Position} {fault : BuildFault}
    (h : d.defectAt? place = some fault) (binding : String) :
    fault ≠ .unknownCondition binding ∧ fault ≠ .unknownAction binding := by
  rw [Document.defectAt?] at h
  split at h
  · obtain ⟨⟨entered, spec⟩, -, hdefect⟩ := Option.bind_eq_some_iff.mp h
    cases spec with
    | decorator kind name child =>
      cases kind with
      | timer duration =>
        rw [Site.defect?] at hdefect
        split at hdefect <;> cases hdefect
        simp
      | _ => cases hdefect
    | subtree scope report tree name =>
      rcases Document.refusal?_cases hdefect with ⟨-, rfl⟩ | ⟨-, -, rfl⟩ <;> simp
    | _ => cases hdefect
  · split at h <;> cases h
    simp

theorem ne_unknown_of_lenient {r : Registry ω} {d : Document} (binding : String) :
    (build ⟨r, .lenient⟩ d).result ≠ .error (.unknownCondition binding) ∧
      (build ⟨r, .lenient⟩ d).result ≠ .error (.unknownAction binding) := by
  have hreports : Reports d.defectAt? (build ⟨r, .lenient⟩ d).result := reports_build ⟨r, .lenient⟩ d
  cases hresult : (build ⟨r, .lenient⟩ d).result with
  | ok t => simp
  | error fault =>
    rw [hresult] at hreports
    obtain ⟨place, hfirst⟩ := hreports
    simpa using ne_unknown_of_defectAt? hfirst.here binding

/-- Whatever a build looks up, the document lists, and of a registry a build sees nothing but what
it looks up. If it succeeds, it has looked up what the definitions use that the root leads to, and
nothing else. Where everything that the document lists is registered, no binding is found missing,
and a strict build goes like a lenient one. -/
theorem lookups_within_bindings (r : Registry ω) (d : Document) :
    (∀ mode kind binding, (binding ∈ (build ⟨r, mode⟩ d).lookups kind ∨
        ∃ start, binding ∈ (buildTree ⟨r, mode⟩ d start).lookups kind) →
      binding ∈ d.bindings kind) ∧
    (∀ mode r', (∀ kind, ∀ binding ∈ (build ⟨r, mode⟩ d).lookups kind, r.SameAt r' kind binding) →
      build ⟨r, mode⟩ d = build ⟨r', mode⟩ d) ∧
    (∀ mode, (build ⟨r, mode⟩ d).Succeeds → ∀ kind binding,
      binding ∈ (build ⟨r, mode⟩ d).lookups kind ↔ d.Uses d.root kind binding) ∧
    ((∀ kind, ∀ binding ∈ d.bindings kind, r.has kind binding = true) →
      build ⟨r, .strict⟩ d = build ⟨r, .lenient⟩ d ∧
      ∀ binding, (build ⟨r, .strict⟩ d).result ≠ .error (.unknownCondition binding) ∧
        (build ⟨r, .strict⟩ d).result ≠ .error (.unknownAction binding)) := by
  have hlisted : ∀ mode kind binding, binding ∈ (build ⟨r, mode⟩ d).lookups kind →
      binding ∈ d.bindings kind := fun mode kind binding hmem =>
    Document.mem_bindings_of_uses ((looksUp_build ⟨r, mode⟩ d).only kind binding hmem)
  refine ⟨?_, ?_, ?_, ?_⟩
  · rintro mode kind binding (hmem | ⟨start, hmem⟩)
    · exact hlisted mode kind binding hmem
    · have hnamed := looksUp_buildNamed ⟨r, mode⟩ d [] [] start
      exact Document.mem_bindings_of_uses (hnamed.only kind binding hmem)
  · intro mode r' hsame
    exact sameIf_build (fun kind binding h => buildLeaf_eq_of_sameAt h mode) d hsame
  · intro mode hsucceeds kind binding
    have hbuild := looksUp_build ⟨r, mode⟩ d
    exact ⟨hbuild.only kind binding, hbuild.all hsucceeds kind binding⟩
  · intro hregistered
    have hmodes : build ⟨r, .strict⟩ d = build ⟨r, .lenient⟩ d := by
      refine sameIf_build (fun kind binding h => buildLeaf_strict_eq_lenient h) d ?_
      intro kind binding hmem
      exact hregistered kind binding (hlisted .strict kind binding hmem)
    refine ⟨hmodes, fun binding => ?_⟩
    rw [hmodes]
    exact ne_unknown_of_lenient binding

def hangarDocument : Document where
  root := "main"
  trees := (((∅ : Table Spec).insert "main" (.composite .sequence false none
      [.leaf .condition "ready" none, .subtree .shared .forward "base" none])).insert
    "base" (.leaf .action "rest" none)).insert "spare" (.leaf .action "fly" none)

/-- Flying is listed and registered, and the build does not ask for it. -/
theorem lookups_within_bindings_hangar :
    let r : Registry Unit := ((({} : Registry Unit).withCondition "ready" .never).withAction
      "rest" .failing).withAction "fly" .failing
    let built := build ⟨r, .strict⟩ hangarDocument
    (∀ kind, ∀ binding ∈ hangarDocument.bindings kind, r.has kind binding = true) ∧
      built = build ⟨r, .lenient⟩ hangarDocument ∧ built.Succeeds ∧
      "rest" ∈ built.lookups .action ∧ "fly" ∈ hangarDocument.bindings .action ∧
      "fly" ∉ built.lookups .action ∧ ¬ hangarDocument.Uses "main" .action "fly" := by
  intro r built
  obtain ⟨-, -, hexact, hregistered⟩ := lookups_within_bindings r hangarDocument
  have hall : ∀ kind, ((hangarDocument.bindings kind).toList.all (r.has kind)) = true := by
    intro kind
    cases kind <;> decide +kernel
  have hlisted : ∀ kind, ∀ binding ∈ hangarDocument.bindings kind, r.has kind binding = true :=
    fun kind binding hmem =>
      List.all_eq_true.mp (hall kind) binding (Std.ExtTreeSet.mem_toList.mpr hmem)
  -- What the build comes to is computed on a stack.
  have hstack := (returns_onStack ⟨r, .strict⟩ hangarDocument 20).2 [] [] "main" (by decide +kernel)
  have hrun : ((namedOnStack ⟨r, .strict⟩ hangarDocument 20 [] "main").run []).map
      (fun c => (c.1.result.isOk, c.1.lookups .action)) = some (true, ["rest"]) := by
    decide +kernel
  rw [hstack, Option.map_some, Option.some_inj, Prod.mk.injEq] at hrun
  obtain ⟨hok, hlookups⟩ := hrun
  have hbuilt : built = buildNamed ⟨r, .strict⟩ hangarDocument [] [] "main" >>= fun root =>
      pure { Tree.ofRoot (some root) with blackboard := hangarDocument.blackboard } :=
    if_pos (by decide)
  have hsucceeds : built.Succeeds := by
    rw [hbuilt, succeeds_bind_pure]
    cases hresult : (buildNamed ⟨r, .strict⟩ hangarDocument [] [] "main").result with
    | error fault => simp [hresult, Except.isOk, Except.toBool] at hok
    | ok root => exact ⟨root, hresult⟩
  have hknown : ∀ binding, binding ∈ built.lookups .action ↔ binding = "rest" := by
    intro binding
    rw [hbuilt, mem_lookups_bind, hlookups]
    simp [pure, ok, lookups]
  have hfly : "fly" ∉ built.lookups .action := by
    rw [hknown]
    decide
  refine ⟨hlisted, (hregistered hlisted).1, hsucceeds, (hknown "rest").mpr rfl, ?_, hfly, ?_⟩
  · rw [← Std.ExtTreeSet.mem_toList]
    decide +kernel
  · exact mt (hexact .strict hsucceeds .action "fly").mpr hfly

end Builder

end BehaviorTree
