import BehaviorTree.Node.Position
import Mathlib.Data.List.Forall2
import Mathlib.Data.Option.Basic

/-!
# Descendants

Induction over children, and properties that a node has together with every node below
it. Children are those of `Node.children`, so descending goes through nested trees. A
property of this kind is inherited by the node at any position, and changing the node
at one position keeps it.
-/

namespace BehaviorTree

variable {ω : Type}

namespace Node

/-- Induction over a tree in which all node kinds share one case. -/
@[elab_as_elim]
theorem childInduction {P : Node ω → Prop} (step : ∀ n : Node ω, (∀ c ∈ n.children, P c) → P n)
    (n : Node ω) : P n := by
  refine Node.rec (motive_1 := P) (motive_2 := fun c => ∀ n ∈ c, P n)
    (motive_3 := fun cs => ∀ n ∈ cs, P n) (motive_4 := fun ls => ∀ l ∈ ls, P l.node)
    (motive_5 := fun t => ∀ n ∈ t.root, P n) (motive_6 := fun l => P l.node)
    ?_ ?_ ?_ ?_ ?_ ?_ ?_ ?_ ?_ ?_ ?_ ?_ ?_ ?_ n
  case refine_1 | refine_2 =>
    intros
    exact step _ (by simp [children])
  case refine_3 | refine_4 | refine_6 =>
    intros
    exact step _ (by simpa [children])
  case refine_5 =>
    intro h q s ls ih
    exact step _ (by simpa [children] using fun l hl => ih l hl)
  case refine_7 | refine_9 | refine_11 => simp
  case refine_8 =>
    intro c hc n hn
    cases hn
    exact hc
  case refine_10 =>
    intro c cs hc hcs
    exact List.forall_mem_cons.mpr ⟨hc, hcs⟩
  case refine_12 =>
    intro l ls hl hls
    exact List.forall_mem_cons.mpr ⟨hl, hls⟩
  case refine_13 => exact fun _ _ _ _ _ hroot => hroot
  case refine_14 => exact fun _ _ hnode => hnode

/-- `P` holds of the node and of each of its descendants, across nested trees. -/
inductive Everywhere (P : Node ω → Prop) : Node ω → Prop
  | intro {n : Node ω} (here : P n) (children : ∀ c ∈ n.children, Everywhere P c) : Everywhere P n

theorem everywhere_iff {P : Node ω → Prop} {n : Node ω} :
    n.Everywhere P ↔ P n ∧ ∀ c ∈ n.children, c.Everywhere P := by
  constructor
  · intro h
    cases h with
    | intro here children => exact ⟨here, children⟩
  · rintro ⟨here, children⟩
    exact .intro here children

section

variable {P : Node ω → Prop}

@[simp] theorem everywhere_condition {h : Head} {test : Option (Predicate ω)} :
    (condition h test).Everywhere P ↔ P (condition h test) :=
  everywhere_iff.trans (by simp [children])

@[simp] theorem everywhere_action {h : Head} {run : Option (Action ω)} :
    (action h run).Everywhere P ↔ P (action h run) :=
  everywhere_iff.trans (by simp [children])

@[simp] theorem everywhere_decorator {h : Head} {kind : Decorator} {child : Option (Node ω)} :
    (decorator h kind child).Everywhere P ↔
      P (decorator h kind child) ∧ ∀ c ∈ child, c.Everywhere P :=
  everywhere_iff.trans (by simp [children])

@[simp] theorem everywhere_composite {h : Head} {order : Order} {cursor : Cursor}
    {cs : List (Node ω)} :
    (composite h order cursor cs).Everywhere P ↔
      P (composite h order cursor cs) ∧ ∀ c ∈ cs, c.Everywhere P :=
  everywhere_iff

@[simp] theorem everywhere_parallel {h : Head} {quorums : Quorums} {stalled : Bool}
    {ls : List (Lane (Node ω))} :
    (parallel h quorums stalled ls).Everywhere P ↔
      P (parallel h quorums stalled ls) ∧ ∀ l ∈ ls, l.node.Everywhere P :=
  everywhere_iff.trans (by simp [children])

@[simp] theorem everywhere_subtree {h : Head} {scope : Scope} {report : Report} {t : Tree ω} :
    (subtree h scope report t).Everywhere P ↔
      P (subtree h scope report t) ∧ ∀ r ∈ t.root, r.Everywhere P :=
  everywhere_iff.trans (by simp [children])

end

namespace Everywhere

variable {P Q : Node ω → Prop} {n s : Node ω}

theorem here (h : n.Everywhere P) : P n := (everywhere_iff.mp h).1

theorem children (h : n.Everywhere P) : ∀ c ∈ n.children, c.Everywhere P := (everywhere_iff.mp h).2

theorem imp (hPQ : ∀ s, P s → Q s) (h : n.Everywhere P) : n.Everywhere Q := by
  induction h with
  | intro here _ ih => exact .intro (hPQ _ here) ih

theorem get? {path : List Nat} (h : n.Everywhere P) (hs : n.get? path = some s) :
    s.Everywhere P := by
  induction path generalizing n with
  | nil =>
    cases hs
    exact h
  | cons i path ih =>
    obtain ⟨c, hc, hcs⟩ := Option.bind_eq_some_iff.mp hs
    exact ih (h.children c (List.mem_of_getElem? hc)) hcs

end Everywhere

/-- A function that maps the children of a node maps the node at each position. -/
theorem get?_of_children_eq_map {κ : Type} {f : Node ω → Node κ}
    (hf : ∀ n, (f n).children = n.children.map f) (n : Node ω) (path : List Nat) :
    (f n).get? path = (n.get? path).map f := by
  induction path generalizing n with
  | nil => rfl
  | cons i path ih =>
    simp only [get?, hf, List.getElem?_map]
    cases n.children[i]? with
    | none => rfl
    | some c => exact ih c

/-! ## Changing one node -/

@[simp] theorem children_withChildren {n : Node ω} {cs : List (Node ω)}
    (h : cs.length = n.children.length) : (n.withChildren cs).children = cs := by
  cases n with
  | condition | action => simpa [children, withChildren, eq_comm] using h
  | decorator _ _ c =>
    cases c with
    | none => simpa [children, withChildren, eq_comm] using h
    | some c =>
      obtain ⟨x, rfl⟩ := List.length_eq_one_iff.mp (by simpa [children] using h)
      simp [children, withChildren]
  | composite _ _ _ cs' =>
    simp only [children] at h
    simp [children, withChildren, ← h]
  | parallel _ _ _ ls =>
    simp only [children, List.length_map] at h
    simp only [children, withChildren, List.map_zipWith]
    rw [← List.map_uncurry_zip_eq_zipWith]
    exact List.map_snd_zip (Nat.le_of_eq h)
  | subtree _ _ _ t =>
    cases hr : t.root with
    | none => simpa [children, withChildren, hr, eq_comm] using h
    | some r =>
      obtain ⟨x, rfl⟩ := List.length_eq_one_iff.mp (by simpa [children, hr] using h)
      simp [children, withChildren, hr]

def update (f : Node ω → Node ω) : Node ω → List Nat → Node ω
  | n, [] => f n
  | n, i :: path => n.withChildren (n.children.modify i fun c => c.update f path)

theorem withChildren_children (n : Node ω) : n.withChildren n.children = n := by
  cases n with
  | condition | action => rfl
  | decorator _ _ c => cases c <;> rfl
  | composite => simp [children, withChildren]
  | parallel _ _ _ ls =>
    simp only [children, withChildren, List.zipWith_map_right]
    simp
  | subtree _ _ _ t =>
    obtain ⟨root, _, _, _, _⟩ := t
    cases root <;> rfl

theorem set_eq_update {n s : Node ω} {path : List Nat} (new : Node ω)
    (h : n.get? path = some s) : n.set path new = n.update (fun _ => new) path := by
  induction path generalizing n with
  | nil => rfl
  | cons i path ih =>
    obtain ⟨c, hc, hcs⟩ := Option.bind_eq_some_iff.mp h
    simp only [set, update, hc, ih hcs]
    rw [List.modify_eq_set, hc]
    rfl

theorem Everywhere.update {P : Node ω → Prop} {f : Node ω → Node ω}
    (hP : ∀ (n : Node ω) (cs : List (Node ω)), cs.length = n.children.length → P n →
      P (n.withChildren cs))
    (hf : ∀ n : Node ω, n.Everywhere P → (f n).Everywhere P) {n : Node ω} (h : n.Everywhere P)
    (path : List Nat) : (n.update f path).Everywhere P := by
  induction path generalizing n with
  | nil => exact hf n h
  | cons i path ih =>
    have hlen : (n.children.modify i fun c => c.update f path).length = n.children.length := by simp
    refine .intro (hP _ _ hlen h.here) ?_
    intro c hc
    rw [Node.update, children_withChildren hlen] at hc
    obtain ⟨j, hj, rfl⟩ := List.mem_iff_getElem.mp hc
    have hold := h.children _ (List.getElem_mem (by simpa using hj))
    rw [List.getElem_modify]
    split
    · exact ih hold
    · exact hold

end Node

end BehaviorTree
