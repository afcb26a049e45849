import BehaviorTree.Proofs.Embedding
import BehaviorTree.Proofs.Precedence
import BehaviorTree.Proofs.Provision
import BehaviorTree.Proofs.Unfolding

/-!
# Strict and lenient builds

The two modes build the same tree or meet the same fault, unless the strict one meets a binding
that is not registered first. A lenient build leaves such a leaf unbound, which comes to the same
as to register a closure for the name that fails whenever it is called.
-/

namespace BehaviorTree

variable {ω : Type}

def Predicate.never : Predicate ω := fun w => (false, w.host)

def Action.failing : Action ω := fun _ w => (.failure, w)

namespace Registry

def lacking (r : Registry ω) (d : Document) (kind : LeafKind) : List String :=
  (d.bindings kind).toList.filter (! r.has kind ·)

def completed (r : Registry ω) (d : Document) : Registry ω :=
  let withConditions := (r.lacking d .condition).foldl (·.withCondition · .never) r
  (r.lacking d .action).foldl (·.withAction · .failing) withConditions

theorem foldl_withCondition (names : List String) (test : Predicate ω) (r : Registry ω) :
    let r' := names.foldl (·.withCondition · test) r
    r'.actions = r.actions ∧
      ∀ name, r'.condition? name = if name ∈ names then some test else r.condition? name := by
  induction names generalizing r with
  | nil => exact ⟨rfl, by simp⟩
  | cons first names ih =>
    obtain ⟨hactions, hconditions⟩ := ih (r.withCondition first test)
    refine ⟨hactions, ?_⟩
    intro name
    rw [List.foldl_cons, hconditions]
    simp only [condition?, withCondition, Std.ExtTreeMap.getElem?_insert, List.mem_cons]
    grind

theorem foldl_withAction (names : List String) (run : Action ω) (r : Registry ω) :
    let r' := names.foldl (·.withAction · run) r
    r'.conditions = r.conditions ∧
      ∀ name leaf,
        r'.action? name leaf = if name ∈ names then some run else r.action? name leaf := by
  induction names generalizing r with
  | nil => exact ⟨rfl, by simp⟩
  | cons first names ih =>
    obtain ⟨hconditions, hactions⟩ := ih (r.withAction first run)
    refine ⟨hconditions, ?_⟩
    intro name leaf
    rw [List.foldl_cons, hactions]
    simp only [action?, withAction, Std.ExtTreeMap.getElem?_insert, List.mem_cons]
    grind

variable {r : Registry ω} {d : Document}

theorem condition?_completed (name : String) : (r.completed d).condition? name =
    if name ∈ r.lacking d .condition then some .never else r.condition? name := by
  have hactions := (foldl_withAction (r.lacking d .action) .failing
    ((r.lacking d .condition).foldl (·.withCondition · .never) r)).1
  rw [completed, condition?, hactions]
  exact (foldl_withCondition _ _ r).2 name

theorem action?_completed (name : String) (leaf : Position) : (r.completed d).action? name leaf =
    if name ∈ r.lacking d .action then some .failing else r.action? name leaf := by
  rw [completed, (foldl_withAction _ _ _).2 name leaf, action?, (foldl_withCondition _ _ r).1]
  rfl

theorem mem_lacking_iff {kind : LeafKind} {name : String} :
    name ∈ r.lacking d kind ↔ name ∈ (d.bindings kind).toList ∧ r.has kind name = false := by
  simp [lacking]

theorem has_condition (name : String) : r.has .condition name = (r.condition? name).isSome :=
  Std.ExtTreeMap.contains_eq_isSome_getElem?

theorem has_action (name : String) (leaf : Position) :
    r.has .action name = (r.action? name leaf).isSome := by
  rw [action?, Option.isSome_map]
  exact Std.ExtTreeMap.contains_eq_isSome_getElem?

theorem has_completed {kind : LeafKind} {name : String} (h : name ∈ (d.bindings kind).toList) :
    (r.completed d).has kind name = true := by
  have hlacking : name ∉ r.lacking d kind → r.has kind name = true := by
    rw [mem_lacking_iff]
    simp [h]
  cases kind with
  | condition =>
    rw [has_condition, condition?_completed]
    split
    · rfl
    · next hhas => rw [← has_condition, hlacking hhas]
  | action =>
    rw [has_action name [], action?_completed]
    split
    · rfl
    · next hhas => rw [← has_action, hlacking hhas]

theorem provided_completed : d.Provided (r.completed d) := by
  intro other _ spec hspec s hs kind name hname
  have hmem : s ∈ d.specs := Document.mem_specs_iff.mpr ⟨other, spec, hspec, hs⟩
  exact has_completed (Document.mem_bindings_iff.mpr ⟨s, hmem, hname⟩)

end Registry

namespace Node

inductive Fails : Node ω → Node ω → Prop
  | condition (h h' : Head) : Fails (.condition h none) (.condition h' (some .never))
  | action (h h' : Head) : Fails (.action h none) (.action h' (some .failing))

theorem Fails.alike {n n' : Node ω} (h : n.Fails n') : n.Alike n' := by
  refine ⟨Fails, ⟨?_, ?_⟩, h⟩
  · intro n n' h m m' w w' _ hw
    cases h with
    | condition h h' => exact ⟨rfl, .condition _ _, hw⟩
    | action h h' => exact ⟨rfl, .action _ _, hw⟩
  · intro n n' h
    cases h with
    | condition => exact .condition _ _
    | action => exact .action _ _

end Node

namespace Document

variable {r : Registry ω} {d : Document}

theorem alike_of_unfolds {place : Position} {s : Spec} {n n' : Node ω} (h : d.Unfolds r place s n)
    (h' : d.Unfolds (r.completed d) place s n') : n.Alike n' := by
  induction h generalizing n' with
  | @condition place binding name =>
    cases h'
    rw [Registry.condition?_completed]
    split
    · next hlacking =>
      have hlacks : r.has .condition binding = false := (Registry.mem_lacking_iff.mp hlacking).2
      rw [Registry.has_condition, Option.isSome_eq_false_iff] at hlacks
      rw [Option.isNone_iff_eq_none.mp hlacks]
      exact (Node.Fails.condition _ _).alike
    · exact Node.Alike.refl _
  | @action place binding name =>
    cases h'
    rw [Registry.action?_completed]
    split
    · next hlacking =>
      have hlacks : r.has .action binding = false := (Registry.mem_lacking_iff.mp hlacking).2
      rw [Registry.has_action _ place, Option.isSome_eq_false_iff] at hlacks
      rw [Option.isNone_iff_eq_none.mp hlacks]
      exact (Node.Fails.action _ _).alike
    · exact Node.Alike.refl _
  | childless hbegins =>
    cases h' with
    | childless hbegins' =>
      rw [hbegins.unique hbegins']
      exact Node.Alike.refl _
  | decorator hbegins _ ih =>
    cases h' with
    | decorator hbegins' hchild' =>
      rw [hbegins.unique hbegins']
      exact .of_form_eq rfl (.cons (ih hchild') .nil)
  | composite hlen _ ih =>
    cases h' with
    | composite hlen' hall' =>
      have hall := forall₂_of_unfolds hlen hlen' (fun i s n hs hn _ => ih i s n hs hn) hall'
      exact .of_form_eq rfl hall
  | parallel hlen _ ih =>
    cases h' with
    | parallel hlen' hall' =>
      have hall := forall₂_of_unfolds hlen hlen' (fun i s n hs hn _ => ih i s n hs hn) hall'
      refine .of_form_eq ?_ ?_
      · simp [Node.form, Function.comp_def, hall.length_eq]
      · simpa [Node.children] using hall
  | subtree hspec _ ih =>
    cases h' with
    | subtree hspec' hroot' =>
      obtain rfl := Option.some_inj.mp (hspec.symm.trans hspec')
      exact .of_form_eq rfl (.cons (ih hroot') .nil)

end Document

namespace Builder

theorem lenient_of_strict {r : Registry ω} {d : Document} {t : Tree ω}
    (h : (build ⟨r, .strict⟩ d).result = .ok t) : (build ⟨r, .lenient⟩ d).result = .ok t := by
  obtain ⟨hformed, -⟩ := (succeeds_build ⟨r, .strict⟩ d).mp ⟨t, h⟩
  obtain ⟨t', h'⟩ := (succeeds_build ⟨r, .lenient⟩ d).mpr ⟨hformed, by rintro ⟨⟩⟩
  have ht : d.Unfolding r t := unfolding_of_build h
  rw [ht.unique (unfolding_of_build h')]
  exact h'

/-- A leaf has no defect, so no site has a fault of both sorts. -/
theorem unboundAt?_eq_none_of_defect {r : Registry ω} {d : Document} {place : Position}
    {fault : BuildFault} (h : d.defectAt? place = some fault) : d.unboundAt? r place = none := by
  rw [Document.unboundAt?]
  by_cases hroot : d.root ∈ d.trees
  · rw [Document.defectAt?, if_pos hroot] at h
    obtain ⟨⟨entered, spec⟩, hsite, hdefect⟩ := Option.bind_eq_some_iff.mp h
    rw [hsite]
    cases spec with
    | leaf => cases hdefect
    | _ => rfl
  · simp [Document.site?, hroot]

theorem exists_strict_completed {r : Registry ω} {d : Document} {t : Tree ω}
    (h : (build ⟨r, .lenient⟩ d).result = .ok t) :
    ∃ t', (build ⟨r.completed d, .strict⟩ d).result = .ok t' ∧
      ∀ (ops : List (Operation ω)) (host : ω), t.observe ops host = t'.observe ops host := by
  obtain ⟨hformed, -⟩ := (succeeds_build ⟨r, .lenient⟩ d).mp ⟨t, h⟩
  obtain ⟨t', h'⟩ := (succeeds_build ⟨r.completed d, .strict⟩ d).mpr
    ⟨hformed, fun _ => Registry.provided_completed⟩
  refine ⟨t', h', ?_⟩
  intro ops host
  obtain ⟨spec, root, hspec, hroot, rfl⟩ := unfolding_of_build h
  obtain ⟨spec', root', hspec', hroot', rfl⟩ := unfolding_of_build h'
  obtain rfl := Option.some_inj.mp (hspec.symm.trans hspec')
  have halike : root.Alike root' := Document.alike_of_unfolds hroot hroot'
  let completed : Tree ω := ⟨some root', none, none, d.blackboard, 0⟩
  exact Tree.observe_eq_of_alike (t := completed) rfl halike ops host

/-- The modes differ only where a leaf has a binding that is not registered, and then the strict
build fails for the first such leaf, unless a defect is met before it. A lenient tree runs as if
closures that fail were registered for all names that the registry lacks. -/
theorem strict_lenient_agree (r : Registry ω) (d : Document) :
    let strict := (build ⟨r, .strict⟩ d).result
    let lenient := (build ⟨r, .lenient⟩ d).result
    (∀ t, strict = .ok t → lenient = .ok t) ∧
    (∀ t, lenient = .ok t →
      strict = .ok t ∧ (∀ place, d.unboundAt? r place = none) ∨
      ∃ place fault, IsFirst (d.unboundAt? r) place fault ∧ strict = .error fault) ∧
    (∀ fault, lenient = .error fault → ∃ place, IsFirst d.defectAt? place fault ∧
      (strict = .error fault ∧ (∀ earlier < place, d.unboundAt? r earlier = none) ∨
      ∃ earlier < place, ∃ unbound, IsFirst (d.unboundAt? r) earlier unbound ∧
        strict = .error unbound)) ∧
    ∀ t, lenient = .ok t → ∃ t', (build ⟨r.completed d, .strict⟩ d).result = .ok t' ∧
      ∀ (ops : List (Operation ω)) (host : ω), t.observe ops host = t'.observe ops host := by
  intro strict lenient
  have hstrict : Reports (fun place => (d.unboundAt? r place).or (d.defectAt? place)) strict :=
    reports_build ⟨r, .strict⟩ d
  have hlenient : Reports d.defectAt? lenient := reports_build ⟨r, .lenient⟩ d
  refine ⟨fun t => lenient_of_strict, ?_, ?_, fun t => exists_strict_completed⟩
  · intro t ht
    rw [ht] at hlenient
    cases hs : strict with
    | ok t' =>
      have hsame := (lenient_of_strict hs).symm.trans ht
      rw [hs] at hstrict
      refine .inl ⟨hsame, fun place => ?_⟩
      exact (Option.or_eq_none_iff.mp (hstrict place)).1
    | error fault =>
      rw [hs] at hstrict
      obtain ⟨place, hfirst⟩ := hstrict
      exact .inr ⟨place, fault, hfirst.of_or fun q _ => hlenient q, rfl⟩
  · intro fault hfault
    rw [hfault] at hlenient
    obtain ⟨place, hdefect⟩ := hlenient
    refine ⟨place, hdefect, ?_⟩
    cases hs : strict with
    | ok t =>
      have hok := hfault.symm.trans (lenient_of_strict hs)
      cases hok
    | error fault' =>
      rw [hs] at hstrict
      obtain ⟨place', hfirst⟩ := hstrict
      have hbound := unboundAt?_eq_none_of_defect (r := r) hdefect.here
      rcases hfirst.or_cases hdefect hbound with ⟨rfl, hbefore⟩ | ⟨hlt, hunbound⟩
      · exact .inl ⟨rfl, hbefore⟩
      · exact .inr ⟨place', hlt, fault', hunbound, rfl⟩

/-- A sequence that looks at an alarm before it enters a tree that nobody defined. -/
def patrolDocument : Document where
  root := "patrol"
  trees := (∅ : Table Spec).insert "patrol" (.composite .sequence false none
    [.leaf .condition "alarm" none, .subtree .shared .forward "sleep" none])

theorem result_build_patrolDocument (mode : Mode) :
    (build ⟨({} : Registry Unit), mode⟩ patrolDocument).result = .error (match mode with
      | .strict => .unknownCondition "alarm"
      | .lenient => .unknownTree "sleep") := by
  have hdefined : patrolDocument.root ∈ patrolDocument.trees := by decide
  have hspec : patrolDocument.trees[patrolDocument.root] = .composite .sequence false none
      [.leaf .condition "alarm" none, .subtree .shared .forward "sleep" none] := by
    simp [patrolDocument]
  have hsleep : ∀ place, (buildNamed ⟨({} : Registry Unit), mode⟩ patrolDocument ["patrol"] place
      "sleep").result = .error (.unknownTree "sleep") := result_buildNamed_of_refused rfl
  rw [build, if_pos (by decide), Build.result_bind, buildNamed, dif_pos (by simp),
    dif_pos hdefined]
  simp only [patrolDocument] at hspec hsleep ⊢
  rw [hspec]
  cases mode with
  | strict => rfl
  | lenient =>
    simp [buildSpec, buildAll, buildLeaf, missing, Registry.condition?, hsleep, Except.bind,
      Build.note]

/-- The strict build stops at the alarm, before the lenient one gets to the tree. -/
theorem strict_lenient_agree_patrolDocument :
    (build ⟨({} : Registry Unit), .lenient⟩ patrolDocument).result =
        .error (.unknownTree "sleep") ∧
      ∃ alarm sleep : Position, alarm < sleep ∧
        IsFirst (patrolDocument.unboundAt? ({} : Registry Unit)) alarm (.unknownCondition "alarm") ∧
        IsFirst patrolDocument.defectAt? sleep (.unknownTree "sleep") := by
  have hstrict := result_build_patrolDocument .strict
  have hlenient := result_build_patrolDocument .lenient
  refine ⟨hlenient, ?_⟩
  obtain ⟨-, -, hfails, -⟩ := strict_lenient_agree ({} : Registry Unit) patrolDocument
  obtain ⟨sleep, hsleep, ⟨hsame, -⟩ | ⟨alarm, hlt, unbound, halarm, hunbound⟩⟩ := hfails _ hlenient
  · rw [hstrict] at hsame
    cases hsame
  · rw [hstrict] at hunbound
    cases hunbound
    exact ⟨alarm, sleep, hlt, halarm, hsleep⟩

end Builder

end BehaviorTree
