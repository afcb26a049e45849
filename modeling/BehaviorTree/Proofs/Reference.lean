import BehaviorTree.Registry
import Mathlib.Logic.Relation

/-!
# References between definitions

A definition refers to the trees that its nodes embed, at any depth. A document is well
formed when every name that its root leads to is defined, no definition on the way leads back
to itself, and every timer on the way has a duration. Definitions that the root does not lead
to do not count.
-/

namespace BehaviorTree

variable {ω : Type}

namespace Spec

/-- Induction over a definition in which all node kinds share one case. -/
@[elab_as_elim]
theorem childInduction {P : Spec → Prop} (step : ∀ s : Spec, (∀ c ∈ s.children, P c) → P s)
    (s : Spec) : P s := by
  refine Spec.rec (motive_1 := P) (motive_2 := fun c => ∀ s ∈ c, P s)
    (motive_3 := fun cs => ∀ s ∈ cs, P s) ?_ ?_ ?_ ?_ ?_ ?_ ?_ ?_ ?_ s
  case refine_1 | refine_5 =>
    intros
    exact step _ (by simp [children])
  case refine_2 =>
    intro _ _ _ ih
    exact step _ (by simpa [children] using ih)
  case refine_3 | refine_4 =>
    intros
    exact step _ (by simpa [children])
  case refine_6 | refine_8 => simp
  case refine_7 =>
    intro c hc s hs
    cases hs
    exact hc
  case refine_9 =>
    intro c cs hc hcs
    exact List.forall_mem_cons.mpr ⟨hc, hcs⟩

theorem preorderAll_eq_flatMap (ss : List Spec) : preorderAll ss = ss.flatMap preorder := by
  induction ss with
  | nil => simp [preorderAll]
  | cons s ss ih => simp [preorderAll, ih]

theorem preorder_eq (s : Spec) : s.preorder = s :: s.children.flatMap preorder := by
  cases s with
  | leaf | subtree => rfl
  | decorator _ _ c => cases c <;> simp [preorder, preorderChild, children]
  | composite | parallel => simp [preorder, preorderAll_eq_flatMap, children]

theorem forall_mem_preorder {P : Spec → Prop} {s : Spec} :
    (∀ x ∈ s.preorder, P x) ↔ P s ∧ ∀ c ∈ s.children, ∀ x ∈ c.preorder, P x := by
  rw [preorder_eq, List.forall_mem_cons, List.forall_mem_flatMap]

def SoundDuration : Spec → Prop
  | decorator (.timer duration) _ _ => duration.isFinite = true ∧ ¬ duration < 0
  | _ => True

def Provided (r : Registry ω) (s : Spec) : Prop :=
  ∀ kind binding, s.binding? kind = some binding → r.has kind binding = true

end Spec

namespace Document

def Refers (d : Document) (name other : String) : Prop :=
  ∃ spec, d.trees[name]? = some spec ∧ ∃ s ∈ spec.preorder, s.reference? = some other

def Reaches (d : Document) : String → String → Prop := Relation.ReflTransGen d.Refers

/-- `P` holds of all nodes of all definitions that the name leads to. -/
def Throughout (d : Document) (P : Spec → Prop) (name : String) : Prop :=
  ∀ other, d.Reaches name other → ∀ spec, d.trees[other]? = some spec → ∀ s ∈ spec.preorder, P s

structure SoundFrom (d : Document) (name : String) : Prop where
  defined : ∀ other, d.Reaches name other → other ∈ d.trees
  acyclic : ∀ other, d.Reaches name other → ¬ Relation.TransGen d.Refers other other
  durations : d.Throughout Spec.SoundDuration name

def WellFormed (d : Document) : Prop := d.SoundFrom d.root

def Provided (d : Document) (r : Registry ω) : Prop := d.Throughout (Spec.Provided r) d.root

theorem defined_of_getElem? {d : Document} {name : String} {spec : Spec}
    (h : d.trees[name]? = some spec) : name ∈ d.trees := by
  rw [Std.ExtTreeMap.mem_iff_isSome_getElem?, h]
  rfl

theorem reaches_iff {d : Document} {name other : String} :
    d.Reaches name other ↔ other = name ∨ ∃ next, d.Refers name next ∧ d.Reaches next other :=
  Relation.ReflTransGen.cases_head_iff.trans (by rw [eq_comm]; rfl)

theorem throughout_iff {d : Document} {P : Spec → Prop} {name : String} :
    d.Throughout P name ↔ (∀ spec, d.trees[name]? = some spec → ∀ s ∈ spec.preorder, P s) ∧
      ∀ next, d.Refers name next → d.Throughout P next := by
  constructor
  · intro h
    exact ⟨h name .refl, fun next hnext other hother => h other (.head hnext hother)⟩
  · rintro ⟨hname, hnext⟩ other hother
    rcases reaches_iff.mp hother with rfl | ⟨next, href, hreach⟩
    · exact hname
    · exact hnext next href other hreach

end Document

end BehaviorTree
