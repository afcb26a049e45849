import BehaviorTree.Proofs.Recording

/-!
# Embedding is transparent

A node may be replaced by a nested tree around it that shares the blackboard and forwards its
answer. The nested driver resets the node as soon as it finishes, where the bare node waits
for an ancestor; but a node that finishes is settled, and a reset of a settled node cannot be
observed.
-/

namespace BehaviorTree

variable {ω : Type}

namespace Node

def enclosed (n : Node ω) : Node ω := embed .shared .forward (Tree.ofRoot (some n))

/-- A nested tree on the shared blackboard whose root behaves like the node, up to what the
node's finishing needs to be a settled state. -/
structure Encloses (a n : Node ω) : Prop where
  nested : ∃ h t r, a = subtree h .shared .forward t ∧ t.root = some r ∧ r.Alike n
  forwards : n.Everywhere Forwards
  settledWhenEmpty : n.Everywhere SettledWhenEmpty

theorem Encloses.tick {a n : Node ω} (h : a.Encloses n) : TicksMatch Eq Encloses a n := by
  intro m m' w w' hm hw
  obtain ⟨⟨head, t, r, rfl, hr, halike⟩, hforwards, hempty⟩ := h
  have htick := (isBisimulation_bisimilar Eq).tick halike hm hw
  have hforwards' := hforwards.tick lasting_forwards.reset lasting_forwards.tick m' w'
  have hempty' := hempty.tick lasting_settledWhenEmpty.reset lasting_settledWhenEmpty.tick m' w'
  rw [tick_subtree_shared, tickTree_of_root_some m w hr]
  refine ⟨htick.answer, ⟨⟨_, _, _, rfl, rfl, ?_⟩, hforwards', hempty'⟩, htick.world⟩
  by_cases hended : (Node.tick m r w).answer.isTerminal = true
  · -- The nested driver has reset the root; the bare node is settled and behaves as if it were.
    rw [if_pos hended]
    have hdone : (Node.tick m' n w').answer.isTerminal = true := by rwa [← htick.answer]
    have hreset : (Node.tick m r w).state.reset.Alike (Node.tick m' n w').state.reset :=
      Alike.reset htick.state
    exact hreset.trans (settlesAt hforwards hempty m' w' hdone).alike_reset
  · rw [if_neg hended]
    exact htick.state

theorem Encloses.reset {a n : Node ω} (h : a.Encloses n) : a.reset.Encloses n.reset := by
  obtain ⟨⟨head, t, r, rfl, hr, halike⟩, hforwards, hempty⟩ := h
  refine ⟨⟨head.clear, resetTree t, r.reset, rfl, ?_, halike.reset⟩,
    hforwards.reset lasting_forwards.reset, hempty.reset lasting_settledWhenEmpty.reset⟩
  simp [resetTree_eq, hr]

theorem alike_enclosed {n : Node ω} (hforwards : n.Everywhere Forwards)
    (hempty : n.Everywhere SettledWhenEmpty) : n.enclosed.Alike n :=
  ⟨Encloses, ⟨Encloses.tick, Encloses.reset⟩,
    ⟨_, _, n, rfl, rfl, Alike.refl n⟩, hforwards, hempty⟩

theorem alike_set_enclosed {root n : Node ω} {path : List Nat} (hn : root.get? path = some n)
    (hfresh : n.Fresh) (hforwards : n.Everywhere Forwards) :
    (root.set path n.enclosed).Alike root := by
  rw [set_eq_update n.enclosed hn]
  exact Alike.update hn (alike_enclosed hforwards hfresh.settledWhenEmpty)

theorem recorded_enclosed (n : Node ω) : n.enclosed.recorded = n.recorded.enclosed := by
  simp [enclosed, embed, Tree.ofRoot, recorded, recordedTree_eq]

end Node

theorem Observation.Match.eq {o o' : Observation ω} (h : o.Match Eq o') : o = o' := by
  cases o
  cases o'
  obtain ⟨rfl, rfl, rfl, rfl⟩ := h
  rfl

namespace Tree

/-- Trees that differ in roots which behave alike show the same in every run. -/
theorem observe_eq_of_alike {t : Tree ω} {root root' : Node ω} (hroot : t.root = some root)
    (h : root'.Alike root) (ops : List (Operation ω)) (host : ω) :
    observe ops { t with root := some root' } host = observe ops t host := by
  have htree : Tree.Bisimilar Eq { t with root := some root' } t := by
    refine ⟨?_, rfl⟩
    rw [hroot]
    exact .some h
  have hops : List.Forall₂ (Operation.Match Eq) ops ops :=
    List.forall₂_same.mpr fun op _ => op.match_self (op.installs_of_forall Node.Alike.refl)
  have hmatch := (htree.observe (rfl : host = host) hops).imp fun _ _ ho => ho.eq
  rwa [List.forall₂_eq_eq_eq] at hmatch

/-- The node at any position may be run as a nested tree of its own: no run of the outer tree
shows a difference, in answers, blackboards and host, or in the calls of closures. Only the
node itself has to be fresh and without reports of constant success. -/
theorem observe_enclosed {t : Tree ω} {root n : Node ω} {path : List Nat}
    (hroot : t.root = some root) (hn : root.get? path = some n) (hfresh : n.Fresh)
    (hforwards : n.Everywhere Node.Forwards) (ops : List (Operation ω)) (host : ω) :
    let nested : Tree ω := { t with root := some (root.set path n.enclosed) }
    observe ops nested host = observe ops t host ∧
      observeCalls ops nested host = observeCalls ops t host := by
  intro nested
  refine ⟨observe_eq_of_alike hroot (Node.alike_set_enclosed hn hfresh hforwards) ops host, ?_⟩
  -- Recording commutes with the replacement, so the calls are an instance of the first part.
  have hrecorded : root.recorded.get? path = some n.recorded := by
    rw [Node.get?_recorded, hn, Option.map_some]
  have halike : (root.recorded.set path n.recorded.enclosed).Alike root.recorded :=
    Node.alike_set_enclosed hrecorded (Node.fresh_recorded hfresh)
      (Node.forwards_recorded hforwards)
  have hnested : Node.recordedTree nested =
      { Node.recordedTree t with root := some (root.recorded.set path n.recorded.enclosed) } := by
    simp [nested, Node.recordedTree_eq, Node.set_recorded, Node.recorded_enclosed]
  have hroot' : (Node.recordedTree t).root = some root.recorded := by
    simp [Node.recordedTree_eq, hroot]
  rw [observeCalls, observeCalls, hnested]
  exact observe_eq_of_alike hroot' halike (ops.map (.map .recorded)) (host, [])

/-- When the selector has gone on to its second child, the bare node still records its failure,
while the nested tree has reset it. -/
theorem observe_enclosed_hesitant :
    let root : Node Nat := Node.compose .selector true
      [Node.hesitant, .action ⟨"wait", none⟩ (some fun _ w => (.running, w))]
    let t := ofRoot (some root)
    let nested := { t with root := some (root.set [0] Node.hesitant.enclosed) }
    let ops : List (Operation Nat) := [.tick 0.5, .tick 0.5, .write fun b => b, .tick 0.5]
    ((t.after ops 0).1.root.bind (·.get? [0])).map Node.status = some (some .failure) ∧
      ((nested.after ops 0).1.root.bind (·.get? [0, 0])).map Node.status = some none ∧
      observe ops nested 0 = observe ops t 0 ∧
      observeCalls ops nested 0 = observeCalls ops t 0 := by
  intro root t nested ops
  refine ⟨by decide, by decide, ?_⟩
  exact observe_enclosed rfl rfl Node.fresh_hesitant Node.forwards_hesitant ops 0

end Tree

end BehaviorTree
