import BehaviorTree.Proofs.Embedding

/-!
# A node on its own

A node can be run without a tree around it: ticked at any moment, reset at any time, with writes
to the blackboard in between. Nobody resets it when it finishes, so such runs also show what a
node does that an ancestor leaves finished for a while. Nodes that behave alike respond alike.
-/

namespace BehaviorTree

variable {ω κ : Type}

inductive Stimulus where
  | tick (m : Moment)
  | reset
  | write (f : Blackboard → Blackboard)

namespace Node

def respond (n : Node ω) (w : World ω) : Stimulus → Step (Option Status) (Node ω) (World ω)
  | .tick m =>
    let s := tick m n w
    ⟨some s.answer, s.state, s.world, s.emitted⟩
  | .reset => ⟨none, n.reset, w, n.resetEmissions⟩
  | .write f => ⟨none, n, { w with blackboard := f w.blackboard }, []⟩

/-- The steps of a run, one for each stimulus; only a tick answers. -/
def steps : List Stimulus → Node ω → World ω → List (Step (Option Status) (Node ω) (World ω))
  | [], _, _ => []
  | s :: ss, n, w =>
    let c := n.respond w s
    c :: steps ss c.state c.world

def responses (ss : List Stimulus) (n : Node ω) (w : World ω) : List (Option Status × World ω) :=
  (steps ss n w).map fun c => (c.answer, c.world)

theorem responses_cons (s : Stimulus) (ss : List Stimulus) (n : Node ω) (w : World ω) :
    responses (s :: ss) n w = ((n.respond w s).answer, (n.respond w s).world) ::
      responses ss (n.respond w s).state (n.respond w s).world := rfl

def responsesWithCalls (ss : List Stimulus) (n : Node ω) (w : World ω) :
    List (Option Status × World (Recorded ω)) :=
  responses ss n.recorded ⟨w.blackboard, (w.host, [])⟩

theorem Alike.respond {n n' : Node ω} (h : n.Alike n') (w : World ω) (s : Stimulus) :
    (n.respond w s).Match Eq Alike (n'.respond w s) := by
  cases s with
  | tick m =>
    have hstep := (isBisimulation_bisimilar Eq).tick h (rfl : m.elapsed = m.elapsed)
      (⟨rfl, rfl⟩ : w.Match Eq w)
    exact ⟨congrArg some hstep.answer, hstep.state, hstep.world⟩
  | reset => exact ⟨rfl, h.reset, rfl, rfl⟩
  | write f => exact ⟨rfl, h, rfl, rfl⟩

/-- Two runs on the same stimuli match step by step if each stimulus brings about a match and a
match leaves nodes and worlds for which that goes on. -/
theorem forall₂_steps {Q : Node ω → World ω → Node κ → World κ → Prop}
    {R : Step (Option Status) (Node ω) (World ω) → Step (Option Status) (Node κ) (World κ) → Prop}
    (hrespond : ∀ n w n' w', Q n w n' w' → ∀ s, R (n.respond w s) (n'.respond w' s))
    (hnext : ∀ c c', R c c' → Q c.state c.world c'.state c'.world) (ss : List Stimulus)
    {n : Node ω} {w : World ω} {n' : Node κ} {w' : World κ} (h : Q n w n' w') :
    List.Forall₂ R (steps ss n w) (steps ss n' w') := by
  induction ss generalizing n w n' w' with
  | nil => exact .nil
  | cons s ss ih =>
    have hmatch := hrespond n w n' w' h s
    exact .cons hmatch (ih (hnext _ _ hmatch))

theorem Alike.responses_eq {n n' : Node ω} (h : n.Alike n') (ss : List Stimulus) (w : World ω) :
    responses ss n w = responses ss n' w := by
  have hsteps : List.Forall₂ (Step.Match Eq Alike) (steps ss n w) (steps ss n' w) := by
    refine forall₂_steps (Q := fun n w n' w' => n.Alike n' ∧ w = w') ?_ ?_ ss ⟨h, rfl⟩
    · rintro n w n' _ ⟨h, rfl⟩ s
      exact h.respond w s
    · intro c c' hc
      exact ⟨hc.state, hc.world.eq⟩
  rw [← List.forall₂_eq_eq_eq]
  exact List.rel_map (fun _ _ hc => Prod.ext hc.answer hc.world.eq) hsteps

end Node

end BehaviorTree
