import BehaviorTree.Proofs.Operation
import BehaviorTree.Proofs.Settled

/-!
# Recorded calls

A tree whose leaves write down each call of their closure: which leaf, which closure, for how
many seconds and in which world. The list of calls is kept in the host, so a recorded tree is
run by the same ticks as any other; leaving the list out gives back the run of the tree itself.
-/

namespace BehaviorTree

variable {ω : Type}

inductive Call (ω : Type) where
  | test (leaf : String) (test : Predicate ω) (w : World ω)
  | run (leaf : String) (run : Action ω) (seconds : Float32) (w : World ω)

/-- The host together with all calls made so far, oldest first. -/
abbrev Recorded (ω : Type) := ω × List (Call ω)

def World.plain (w : World (Recorded ω)) : World ω := ⟨w.blackboard, w.host.1⟩

def Predicate.recorded (leaf : String) (p : Predicate ω) : Predicate (Recorded ω) := fun w =>
  ((p w.plain).1, ((p w.plain).2, w.host.2 ++ [.test leaf p w.plain]))

def Action.recorded (leaf : String) (a : Action ω) : Action (Recorded ω) := fun seconds w =>
  let s := a seconds w.plain
  (s.1, ⟨s.2.blackboard, (s.2.host, w.host.2 ++ [.run leaf a seconds w.plain])⟩)

namespace Node

mutual

def recorded : Node ω → Node (Recorded ω)
  | condition h t => condition h (t.map (Predicate.recorded h.name))
  | action h r => action h (r.map (Action.recorded h.name))
  | decorator h k c => decorator h k (recordedChild c)
  | composite h o c cs => composite h o c (recordedAll cs)
  | parallel h q s ls => parallel h q s (recordedLanes ls)
  | subtree h s r t => subtree h s r (recordedTree t)

def recordedChild : Option (Node ω) → Option (Node (Recorded ω))
  | none => none
  | some n => some n.recorded

def recordedAll : List (Node ω) → List (Node (Recorded ω))
  | [] => []
  | n :: ns => n.recorded :: recordedAll ns

def recordedLanes : List (Lane (Node ω)) → List (Lane (Node (Recorded ω)))
  | [] => []
  | ⟨slot, n⟩ :: ls => ⟨slot, n.recorded⟩ :: recordedLanes ls

def recordedTree : Tree ω → Tree (Recorded ω)
  | ⟨root, last, channel, blackboard, ticks⟩ =>
    ⟨recordedChild root, last, channel, blackboard, ticks⟩

end

theorem recordedChild_eq_map (c : Option (Node ω)) : recordedChild c = c.map recorded := by
  cases c <;> simp [recordedChild]

theorem recordedAll_eq_map (ns : List (Node ω)) : recordedAll ns = ns.map recorded := by
  induction ns with
  | nil => simp [recordedAll]
  | cons n ns ih => simp [recordedAll, ih]

theorem recordedLanes_eq_map (ls : List (Lane (Node ω))) :
    recordedLanes ls = ls.map fun l => ⟨l.slot, l.node.recorded⟩ := by
  induction ls with
  | nil => simp [recordedLanes]
  | cons l ls ih => simp [recordedLanes, ih]

theorem recordedTree_eq (t : Tree ω) :
    recordedTree t =
      { root := t.root.map recorded, last := t.last, channel := t.channel,
        blackboard := t.blackboard, ticks := t.ticks } := by
  obtain ⟨root, _, _, _, _⟩ := t
  rw [recordedTree, recordedChild_eq_map]

@[simp] theorem children_recorded (n : Node ω) : n.recorded.children = n.children.map recorded := by
  cases n with
  | condition | action => rfl
  | decorator _ _ c => cases c <;> rfl
  | composite => simp [children, recorded, recordedAll_eq_map]
  | parallel => simp [children, recorded, recordedLanes_eq_map]
  | subtree _ _ _ t => simp [children, recorded, recordedTree_eq, Option.toList_map]

theorem get?_recorded (n : Node ω) (path : List Nat) :
    n.recorded.get? path = (n.get? path).map recorded :=
  get?_of_children_eq_map children_recorded n path

theorem withChildren_recorded (n : Node ω) (cs : List (Node ω)) :
    (n.withChildren cs).recorded = n.recorded.withChildren (cs.map recorded) := by
  cases n with
  | condition | action => rfl
  | decorator _ _ c => cases c <;> cases cs <;> rfl
  | composite _ _ _ cs' => simp [withChildren, recorded, recordedAll_eq_map, List.map_take]
  | parallel =>
    simp [withChildren, recorded, recordedLanes_eq_map, List.map_zipWith, List.zipWith_map]
  | subtree _ _ _ t =>
    obtain ⟨root, _, _, _, _⟩ := t
    cases root <;> cases cs <;> rfl

theorem set_recorded (n new : Node ω) (path : List Nat) :
    (n.set path new).recorded = n.recorded.set path new.recorded := by
  induction path generalizing n with
  | nil => rfl
  | cons i path ih =>
    simp only [set, children_recorded, List.getElem?_map]
    cases n.children[i]? with
    | none => rfl
    | some c => simp only [Option.map_some, withChildren_recorded, List.map_set, ih]

theorem Everywhere.recorded {P : Node ω → Prop} {Q : Node (Recorded ω) → Prop}
    (hPQ : ∀ n : Node ω, P n → Q n.recorded) {n : Node ω} (h : n.Everywhere P) :
    n.recorded.Everywhere Q := by
  induction h with
  | intro here _ ih =>
    refine .intro (hPQ _ here) ?_
    intro c hc
    rw [children_recorded] at hc
    obtain ⟨d, hd, rfl⟩ := List.mem_map.mp hc
    exact ih d hd

theorem fresh_recorded {n : Node ω} (h : n.Fresh) : n.recorded.Fresh := by
  refine Everywhere.recorded ?_ h
  rintro n ⟨hsettled, hanswer⟩
  cases n with
  | parallel =>
    exact ⟨by simpa [SettledHere, recorded, recordedLanes_eq_map] using hsettled, hanswer⟩
  | subtree => exact ⟨trivial, by simpa [Unanswered, recorded, recordedTree_eq] using hanswer⟩
  | _ => exact ⟨hsettled, hanswer⟩

theorem forwards_recorded {n : Node ω} (h : n.Everywhere Forwards) :
    n.recorded.Everywhere Forwards := by
  refine Everywhere.recorded ?_ h
  intro n hn
  cases n with
  | subtree => exact hn
  | _ => trivial

def Plain (host : ω) (recorded : Recorded ω) : Prop := host = recorded.1

theorem World.plain_eq {w : World ω} {v : World (Recorded ω)} (h : w.Match Plain v) :
    v.plain = w := by
  obtain ⟨blackboard, host⟩ := w
  obtain ⟨rfl, rfl⟩ := h
  rfl

theorem bisimilar_recorded (n : Node ω) : Bisimilar Plain n n.recorded := by
  induction n using childInduction with
  | _ n ih =>
    have hchildren : List.Forall₂ (Bisimilar Plain) n.children (n.children.map recorded) :=
      List.forall₂_map_right_iff.mpr (List.forall₂_same.mpr ih)
    rw [← children_recorded] at hchildren
    have hform : n.form.Match Plain n.recorded.form := by
      cases n with
      | condition h test =>
        refine .condition ?_
        cases test with
        | none => exact .none
        | some p =>
          refine .some ?_
          intro w v hw
          simp [Predicate.recorded, World.plain_eq hw, Plain]
      | action h run =>
        refine .action ?_
        cases run with
        | none => exact .none
        | some a =>
          refine .some ?_
          intro seconds w v hw
          refine ⟨?_, ?_, ?_⟩ <;> simp [Action.recorded, World.plain_eq hw, Plain]
      | decorator _ kind _ => exact .decorator kind
      | composite _ order cursor _ => exact .composite order cursor
      | parallel _ q stalled ls =>
        simp only [recorded, form, recordedLanes_eq_map, List.map_map]
        exact .parallel q stalled _
      | subtree _ scope report t =>
        simp only [recorded, form, recordedTree_eq]
        exact .subtree scope report _
    exact (SameForm.of_form hform hchildren).bisimilar

end Node

namespace Tree

/-- What a run shows when the tree records its calls: the host of each observation holds all
calls up to there. -/
def observeCalls (ops : List (Operation ω)) (t : Tree ω) (host : ω) :
    List (Observation (Recorded ω)) :=
  observe (ops.map (.map .recorded)) (Node.recordedTree t) (host, [])

theorem bisimilar_recorded (t : Tree ω) : t.Bisimilar Node.Plain (Node.recordedTree t) := by
  rw [Node.recordedTree_eq]
  refine ⟨?_, rfl⟩
  cases t.root with
  | none => exact .none
  | some r => exact .some r.bisimilar_recorded

/-- Recording does not change a run. -/
theorem observe_match_observeCalls (ops : List (Operation ω)) (t : Tree ω) (host : ω) :
    List.Forall₂ (Observation.Match Node.Plain) (t.observe ops host) (t.observeCalls ops host) := by
  have hhost : Node.Plain host (host, []) := rfl
  have hops : List.Forall₂ (Operation.Match Node.Plain) ops (ops.map (.map .recorded)) := by
    refine List.forall₂_map_right_iff.mpr (List.forall₂_same.mpr ?_)
    intro op _
    exact op.match_map (op.installs_of_forall Node.bisimilar_recorded)
  exact t.bisimilar_recorded.observe hhost hops

end Tree

end BehaviorTree
