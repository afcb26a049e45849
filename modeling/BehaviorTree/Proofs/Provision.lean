import BehaviorTree.Command.Perform
import BehaviorTree.Proofs.Buildable

/-!
# Bindings that a check finds missing

A check lists the bindings of all definitions that the guard lacks. A strict one also builds
the tree for the guard, which looks at what the root leads to and at nothing else. So it passes
a document with a missing binding exactly when only definitions that the root does not lead to
use it.
-/

namespace BehaviorTree

variable {ω : Type}

namespace Document

def Covered (d : Document) (r : Registry ω) : Prop :=
  ∀ (name : String) (spec : Spec), d.trees[name]? = some spec → ∀ s ∈ spec.preorder, s.Provided r

theorem mem_specs_iff {d : Document} {s : Spec} :
    s ∈ d.specs ↔ ∃ (name : String) (spec : Spec), d.trees[name]? = some spec ∧
      s ∈ spec.preorder := by
  simp only [specs, List.mem_flatMap, Prod.exists, Std.ExtTreeMap.mem_toList_iff_getElem?_eq_some]

theorem mem_bindings_iff {d : Document} {kind : LeafKind} {binding : String} :
    binding ∈ (d.bindings kind).toList ↔ ∃ s ∈ d.specs, s.binding? kind = some binding := by
  rw [Std.ExtTreeSet.mem_toList, bindings, Std.ExtTreeSet.mem_ofList, List.contains_iff_mem,
    List.mem_filterMap]

theorem covered_iff {d : Document} {r : Registry ω} :
    d.Covered r ↔ ∀ kind, ∀ binding ∈ (d.bindings kind).toList, r.has kind binding = true := by
  constructor
  · intro h kind binding hbinding
    obtain ⟨s, hs, hkind⟩ := mem_bindings_iff.mp hbinding
    obtain ⟨name, spec, hspec, hs⟩ := mem_specs_iff.mp hs
    exact h name spec hspec s hs kind binding hkind
  · intro h name spec hspec s hs kind binding hkind
    exact h kind binding (mem_bindings_iff.mpr ⟨s, mem_specs_iff.mpr ⟨name, spec, hspec, hs⟩, hkind⟩)

end Document

namespace Command

theorem missingBindings_eq_nil_iff {d : Document} :
    missingBindings d = [] ↔ d.Covered (Guard.registry : Registry Unit) := by
  rw [Document.covered_iff, missingBindings]
  simp only [List.flatMap_cons, List.flatMap_nil, List.append_nil, List.append_eq_nil_iff,
    List.filter_eq_nil_iff, Bool.not_eq_true', Bool.not_eq_false]
  constructor
  · rintro ⟨hconditions, hactions⟩ kind
    cases kind with
    | condition => exact hconditions
    | action => exact hactions
  · intro h
    exact ⟨h .condition, h .action⟩

theorem check_code_eq_zero_iff (files : String → Except FileFault ByteArray) (file : String)
    (strict : Bool) : (perform files (.check file strict)).code = 0 ↔
      ∃ d, (Document.load file (files file)).1 = .ok d ∧ d.WellFormed ∧
        (strict = true → d.Provided (Guard.registry : Registry Unit)) := by
  have hmode : (if strict then Mode.strict else .lenient) = .strict ↔ strict = true := by
    cases strict <;> simp
  rw [perform, withTree]
  cases hload : (Document.load file (files file)).1 with
  | error fault => simp [Outcome.failure]
  | ok d =>
    have hbuild := Builder.succeeds_build
      (⟨Guard.registry, if strict then .strict else .lenient⟩ : Builder Unit) d
    simp only [hmode] at hbuild
    simp only [Except.ok.injEq, exists_eq_left', ← hbuild, Build.Succeeds]
    split
    · next fault hfault => simp [Outcome.failure, hfault]
    · next t ht => simp [Outcome.success, ht]

/-- The definitions that the root leads to are provided for when the check passes. Nothing is
found missing exactly when the others are, too. -/
theorem strict_check_sound_iff (files : String → Except FileFault ByteArray) (file : String) :
    ((perform files (.check file true)).code = 0 →
      ∀ d, (Document.load file (files file)).1 = .ok d → missingBindings d = []) ↔
    ∀ d, (Document.load file (files file)).1 = .ok d → d.WellFormed →
      d.Provided (Guard.registry : Registry Unit) →
      ∀ (name : String) (spec : Spec), d.trees[name]? = some spec → ¬ d.Reaches d.root name →
        ∀ s ∈ spec.preorder, s.Provided (Guard.registry : Registry Unit) := by
  rw [check_code_eq_zero_iff]
  constructor
  · intro h d hload hformed hprovided name spec hspec _
    have hmissing := h ⟨d, hload, hformed, fun _ => hprovided⟩ d hload
    exact missingBindings_eq_nil_iff.mp hmissing name spec hspec
  · rintro h ⟨d, hload, hformed, hprovided⟩ d' hload'
    obtain rfl := Except.ok.inj (hload.symm.trans hload')
    rw [missingBindings_eq_nil_iff]
    intro name spec hspec
    by_cases hreach : d.Reaches d.root name
    · exact hprovided rfl name hreach spec hspec
    · exact h d hload hformed (hprovided rfl) name spec hspec hreach

/-- Nothing leads from the root to the second definition. -/
def idleDocument : String :=
  "root: a\ntrees:\n  a:\n    action: \x7b binding: idle \x7d\n" ++
    "  b:\n    action: \x7b binding: fly \x7d\n"

theorem idle_definition_passes_check :
    (perform (fun _ => .ok idleDocument.toUTF8) (.check "tree.yaml" true)).code = 0 ∧
      ∃ d, (Document.load "tree.yaml" (.ok idleDocument.toUTF8)).1 = .ok d ∧
        missingBindings d = ["fly"] := by
  have hmissing : (Document.load "tree.yaml" (.ok idleDocument.toUTF8)).1.toOption.map
      missingBindings = some ["fly"] := by decide +kernel
  refine ⟨by decide +kernel, ?_⟩
  revert hmissing
  cases (Document.load "tree.yaml" (.ok idleDocument.toUTF8)).1 with
  | error fault =>
    intro hmissing
    cases hmissing
  | ok d =>
    intro hmissing
    exact ⟨d, rfl, Option.some.inj hmissing⟩

end Command

end BehaviorTree
