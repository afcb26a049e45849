import BehaviorTree.Proofs.Location

/-!
# The order of calls

One tick goes over a tree once, from left to right: the leaves whose closures it calls are some
of the leaves of the tree in the order in which they are listed, and every action is run for the
seconds of the tick. This holds in every state of a tree, since no node ticks a child twice or
goes back to an earlier one, whatever its cursor, counter, clock and slots are.
-/

namespace BehaviorTree

variable {ω : Type}

inductive Node.Makes (seconds : Float32) : Node ω → Call ω → Prop
  | test (h : Head) (p : Predicate ω) (w : World ω) :
    Makes seconds (condition h (some p)) (.test h.name p w)
  | run (h : Head) (a : Action ω) (w : World ω) :
    Makes seconds (action h (some a)) (.run h.name a seconds w)

/-- Some of the nodes, each at its position, make the calls in the order of the two lists. -/
def Sweep (seconds : Float32) (nodes : List (List Nat × Node ω))
    (calls : List (List Nat × Call ω)) : Prop :=
  ∃ callers, callers.Sublist nodes ∧
    List.Forall₂ (fun caller call => caller.1 = call.1 ∧ caller.2.Makes seconds call.2) callers
      calls

namespace Sweep

variable {seconds : Float32} {nodes nodes' : List (List Nat × Node ω)}
  {calls calls' : List (List Nat × Call ω)}

theorem nil : Sweep seconds nodes [] := ⟨[], List.nil_sublist _, .nil⟩

theorem single {place : List Nat} {n : Node ω} {call : Call ω} (h : n.Makes seconds call) :
    Sweep seconds [(place, n)] [(place, call)] :=
  ⟨[(place, n)], List.Sublist.refl _, .cons ⟨rfl, h⟩ .nil⟩

theorem mono (h : Sweep seconds nodes calls) (hnodes : nodes.Sublist nodes') :
    Sweep seconds nodes' calls := by
  obtain ⟨callers, hcallers, hmakes⟩ := h
  exact ⟨callers, hcallers.trans hnodes, hmakes⟩

theorem append (h : Sweep seconds nodes calls) (h' : Sweep seconds nodes' calls') :
    Sweep seconds (nodes ++ nodes') (calls ++ calls') := by
  obtain ⟨callers, hcallers, hmakes⟩ := h
  obtain ⟨callers', hcallers', hmakes'⟩ := h'
  exact ⟨callers ++ callers', hcallers.append hcallers', List.rel_append hmakes hmakes'⟩

theorem increasing (h : Sweep seconds nodes calls) (hnodes : nodes.Pairwise (·.1 < ·.1)) :
    (calls.map (·.1)).Pairwise (· < ·) := by
  obtain ⟨callers, hcallers, hmakes⟩ := h
  have hplaces : calls.map (·.1) = callers.map (·.1) := by
    induction hmakes generalizing nodes with
    | nil => rfl
    | cons hhere _ ih =>
      rw [List.map_cons, List.map_cons, hhere.1, ih hnodes ((List.sublist_cons_self _ _).trans hcallers)]
  rw [hplaces]
  exact (hnodes.sublist hcallers).map _ fun _ _ hlt => hlt

end Sweep

def Step.logged {σ ν μ : Type} (f : ν → μ) (calls : List (List Nat × Call ω))
    (s : Step σ ν (World ω)) : Step σ μ (World (Located ω)) :=
  ⟨s.answer, f s.state, ⟨s.world.blackboard, (s.world.host, calls)⟩, s.emitted⟩

namespace Step

variable {σ ν μ : Type} (f : ν → μ) (calls : List (List Nat × Call ω)) (s : Step σ ν (World ω))

theorem answer_logged : (s.logged f calls).answer = s.answer := rfl

theorem bare_logged : (s.logged f calls).world.bare = s.world := rfl

theorem host_logged : (s.logged f calls).world.host.2 = calls := rfl

end Step

namespace Node

def Sweeps (m : Moment) (n : Node ω) : Prop :=
  ∀ (place : List Nat) (w : World (Located ω)), ∃ calls,
    tick m (n.located place) w =
      (tick m n w.bare).logged (located place) (w.host.2 ++ calls) ∧
    Sweep m.elapsed (n.placed place) calls

theorem sweep_walk {m : Moment} {ns : List (Node ω)} (h : ∀ n ∈ ns, n.Sweeps m) (pass : Status)
    (start index : Nat) (place : List Nat) (w : World (Located ω)) : ∃ calls,
    walk m pass start index (locatedAll place index ns) w =
      (walk m pass start index ns w.bare).logged (locatedAll place index) (w.host.2 ++ calls) ∧
    Sweep m.elapsed (placedAll place index ns) calls := by
  induction ns generalizing index w with
  | nil => exact ⟨[], by simp [walk, locatedAll, Step.logged, World.bare], .nil⟩
  | cons n ns ih =>
    obtain ⟨hn, hns⟩ := List.forall_mem_cons.mp h
    rw [locatedAll, walk, walk, placedAll]
    split
    · obtain ⟨calls, hwalk, hsweep⟩ := ih hns (index + 1) w
      refine ⟨calls, ?_, hsweep.mono (List.sublist_append_right _ _)⟩
      rw [hwalk]
      rfl
    · obtain ⟨calls, htick, hsweep⟩ := hn (place ++ [index]) w
      rw [htick]
      dsimp only
      rw [Step.answer_logged]
      split
      · obtain ⟨calls', hwalk, hsweep'⟩ := ih hns (index + 1)
          ((tick m n w.bare).logged (located (place ++ [index])) (w.host.2 ++ calls)).world
        refine ⟨calls ++ calls', ?_, hsweep.append hsweep'⟩
        rw [hwalk, Step.bare_logged, Step.host_logged, List.append_assoc]
        rfl
      · exact ⟨calls, rfl, hsweep.mono (List.sublist_append_left _ _)⟩

theorem sweep_tickOpen {m : Moment} {ls : List (Lane (Node ω))}
    (h : ∀ n ∈ ls.map (·.node), n.Sweeps m) (index : Nat) (place : List Nat)
    (w : World (Located ω)) : ∃ calls,
    tickOpen m (locatedLanes place index ls) w =
      (tickOpen m ls w.bare).logged (locatedLanes place index) (w.host.2 ++ calls) ∧
    Sweep m.elapsed (placedLanes place index ls) calls := by
  induction ls generalizing index w with
  | nil => exact ⟨[], by simp [tickOpen, locatedLanes, Step.logged, World.bare], .nil⟩
  | cons l ls ih =>
    obtain ⟨hl, hls⟩ := List.forall_mem_cons.mp h
    obtain ⟨slot, n⟩ := l
    rw [locatedLanes, tickOpen, tickOpen, placedLanes]
    split
    · obtain ⟨calls, htick, hsweep⟩ := hl (place ++ [index]) w
      obtain ⟨calls', hopen, hsweep'⟩ := ih hls (index + 1)
        ((tick m n w.bare).logged (located (place ++ [index])) (w.host.2 ++ calls)).world
      refine ⟨calls ++ calls', ?_, hsweep.append hsweep'⟩
      dsimp only
      rw [htick, hopen, Step.bare_logged, Step.host_logged, List.append_assoc]
      rfl
    · obtain ⟨calls, hopen, hsweep⟩ := ih hls (index + 1) w
      refine ⟨calls, ?_, hsweep.mono (List.sublist_append_right _ _)⟩
      rw [hopen]
      rfl

theorem sweep_tickTree {m : Moment} {t : Tree ω} (h : ∀ n ∈ t.root, n.Sweeps m) (place : List Nat)
    (w : World (Located ω)) : ∃ calls,
    tickTree m (Tree.located place t) w =
      (tickTree m t w.bare).logged (Tree.located place) (w.host.2 ++ calls) ∧
    Sweep m.elapsed (t.root.toList.flatMap (placed place)) calls := by
  cases hr : t.root with
  | none =>
    refine ⟨[], ?_, .nil⟩
    have hr' : (Tree.located place t).root = none := by rw [Tree.located, hr, Option.map_none]
    rw [tickTree_of_root_none m w hr', tickTree_of_root_none m w.bare hr, List.append_nil]
    rfl
  | some root =>
    obtain ⟨calls, htick, hsweep⟩ := h root hr place w
    refine ⟨calls, ?_, by simpa using hsweep⟩
    have hr' : (Tree.located place t).root = some (root.located place) := by
      rw [Tree.located, hr, Option.map_some]
    rw [tickTree_of_root_some m w hr', tickTree_of_root_some m w.bare hr, htick]
    simp only [Step.logged, Tree.located, name_located, reset_located, resetEmissions_located]
    split <;> rfl

theorem sweeps_decorator {m : Moment} {c : Node ω} (hc : c.Sweeps m) (h : Head) (kind : Decorator) :
    (decorator h kind (some c)).Sweeps m := by
  intro place w
  rw [located, locatedChild]
  by_cases hdue : kind.isDue = true
  · refine ⟨[], ?_, .nil⟩
    rw [tick_decorator_of_due m h _ _ hdue, tick_decorator_of_due m h _ _ hdue, reset_located,
      resetEmissions_located, List.append_nil]
    rfl
  · obtain ⟨calls, htick, hsweep⟩ := hc (place ++ [0]) w
    refine ⟨calls, ?_, hsweep.mono (List.sublist_cons_self _ _)⟩
    rw [tick_decorator_of_not_due m h _ _ hdue, tick_decorator_of_not_due m h _ _ hdue, htick]
    simp only [Step.logged, located, locatedChild, reset_located, resetEmissions_located]
    split <;> rfl

theorem sweeps_composite {m : Moment} {cs : List (Node ω)} (hcs : ∀ c ∈ cs, c.Sweeps m) (h : Head)
    (order : Order) (cursor : Cursor) : (composite h order cursor cs).Sweeps m := by
  intro place w
  obtain ⟨calls, hwalk, hsweep⟩ := sweep_walk hcs order.pass cursor.start 0 place w
  refine ⟨calls, ?_, hsweep.mono (List.sublist_cons_self _ _)⟩
  rw [located, tick_composite, tick_composite, hwalk]
  simp only [Step.logged, located, resetAllEmissions_eq_flatMap,
    resetAll_locatedAll fun n _ place => reset_located place n,
    flatMap_locatedAll fun n _ place => resetEmissions_located place n]
  split <;> rfl

theorem match_locatedLanes (place : List Nat) (index : Nat) (ls : List (Lane (Node ω))) :
    List.Forall₂ (Lane.Match fun _ _ => True) ls (locatedLanes place index ls) := by
  induction ls generalizing index with
  | nil => exact .nil
  | cons l ls ih => exact .cons ⟨rfl, trivial⟩ (ih (index + 1))

theorem sweeps_parallel {m : Moment} {ls : List (Lane (Node ω))}
    (hls : ∀ n ∈ ls.map (·.node), n.Sweeps m) (h : Head) (q : Quorums) (stalled : Bool) :
    (parallel h q stalled ls).Sweeps m := by
  intro place w
  rw [located]
  by_cases hnil : ls = []
  · subst hnil
    refine ⟨[], ?_, .nil⟩
    rw [locatedLanes, tick_parallel_nil, tick_parallel_nil, List.append_nil]
    rfl
  · have hnil' : locatedLanes place 0 ls ≠ [] := by
      cases ls with
      | nil => exact absurd rfl hnil
      | cons => simp [locatedLanes]
    obtain ⟨calls, hopen, hsweep⟩ := sweep_tickOpen hls 0 place w
    refine ⟨calls, ?_, hsweep.mono (List.sublist_cons_self _ _)⟩
    have hlanes := match_locatedLanes place 0 (tickOpen m ls w.bare).state
    rw [tick_parallel_of_ne_nil m h q stalled w hnil',
      tick_parallel_of_ne_nil m h q stalled w.bare hnil, hopen]
    simp only [Step.logged, ← Quorums.verdict_congr hlanes, ← Lane.settled_congr hlanes,
      ← Lane.count_congr hlanes, located, resetLanesEmissions_eq_flatMap, map_node_locatedLanes,
      resetLanes_locatedLanes fun n _ place => reset_located place n,
      flatMap_locatedAll fun n _ place => resetEmissions_located place n]
    split <;> rfl

theorem sweeps_subtree {m : Moment} {t : Tree ω} (ht : ∀ n ∈ t.root, n.Sweeps m) (h : Head)
    (scope : Scope) (report : Report) : (subtree h scope report t).Sweeps m := by
  intro place w
  rw [located, locatedTree_eq, placed, placedTree_eq]
  cases scope with
  | shared =>
    obtain ⟨calls, htree, hsweep⟩ := sweep_tickTree ht (place ++ [0]) w
    refine ⟨calls, ?_, hsweep.mono (List.sublist_cons_self _ _)⟩
    rw [tick_subtree_shared, tick_subtree_shared, htree]
    simp only [Step.logged, located, locatedTree_eq]
  | isolated =>
    obtain ⟨calls, htree, hsweep⟩ :=
      sweep_tickTree ht (place ++ [0]) { w with blackboard := t.blackboard }
    refine ⟨calls, ?_, hsweep.mono (List.sublist_cons_self _ _)⟩
    have hblackboard : (Tree.located (place ++ [0]) t).blackboard = t.blackboard := rfl
    rw [tick_subtree_isolated, tick_subtree_isolated, hblackboard, htree]
    simp only [Step.logged, World.bare, located, locatedTree_eq, Tree.located]

theorem sweeps (m : Moment) (n : Node ω) : n.Sweeps m := by
  induction n using childInduction with
  | _ n ih =>
    cases n with
    | condition h test =>
      intro place w
      cases test with
      | none => exact ⟨[], by rw [List.append_nil]; rfl, .nil⟩
      | some p => exact ⟨[(place, .test h.name p w.bare)], rfl, .single (.test h p w.bare)⟩
    | action h run =>
      intro place w
      cases run with
      | none => exact ⟨[], by rw [List.append_nil]; rfl, .nil⟩
      | some a =>
        exact ⟨[(place, .run h.name a m.elapsed w.bare)], rfl, .single (.run h a w.bare)⟩
    | decorator h kind c =>
      cases c with
      | none =>
        intro place w
        exact ⟨[], by rw [List.append_nil]; rfl, .nil⟩
      | some c => exact sweeps_decorator (ih c (by simp [children])) h kind
    | composite h order cursor cs => exact sweeps_composite (fun c hc => ih c hc) h order cursor
    | parallel h q stalled ls => exact sweeps_parallel (fun c hc => ih c hc) h q stalled
    | subtree h scope report t =>
      exact sweeps_subtree (fun n hn => ih n (by simpa [children] using hn)) h scope report

end Node

def Operation.seconds? : Operation ω → Option Float32
  | tick seconds => some seconds
  | tickAt m | tickOn m _ => some m.elapsed
  | _ => none

namespace Tree

def placed (t : Tree ω) : List (List Nat × Node ω) := t.root.toList.flatMap (Node.placed [])

theorem preorder_eq_map_placed (t : Tree ω) :
    ∀ root ∈ t.root, root.preorder 0 = (placed t).map fun x => (x.1.length, x.2) := by
  intro root hroot
  rw [placed, Option.mem_def.mp hroot, Option.toList_some, List.flatMap_singleton]
  exact root.preorder_eq_map_placed []

theorem placed_increasing (t : Tree ω) : (placed t).Pairwise (·.1 < ·.1) := by
  rw [placed]
  cases t.root with
  | none => exact .nil
  | some root => simpa using root.placed_increasing []

theorem resetRoot_located (place : List Nat) (t : Tree ω) :
    resetRoot (located place t) = located place (resetRoot t) := by
  obtain ⟨root, _, _, _, _⟩ := t
  cases root with
  | none => rfl
  | some root =>
    simp only [resetRoot, located, Option.map_some, Node.resetTree, Node.resetChild,
      Node.reset_located]

theorem resetRootEmissions_located (place : List Nat) (t : Tree ω) :
    resetRootEmissions (located place t) = resetRootEmissions t := by
  obtain ⟨root, _, _, _, _⟩ := t
  cases root with
  | none => rfl
  | some root =>
    simp only [resetRootEmissions, located, Option.map_some, Node.resetTreeEmissions,
      Node.resetChildEmissions, Node.resetEmissions_located]

structure Adds (t : Tree ω) (op : Operation ω) (calls : List (List Nat × Call ω)) : Prop where
  sweep : ∀ seconds, op.seconds? = some seconds → Sweep seconds t.placed calls
  silent : op.seconds? = none → calls = []

theorem adds_nil {t : Tree ω} {op : Operation ω} (h : op.seconds? = none) : t.Adds op [] where
  sweep seconds hseconds := by simp [h] at hseconds
  silent _ := rfl

theorem Adds.increasing {t : Tree ω} {op : Operation ω} {calls : List (List Nat × Call ω)}
    (h : t.Adds op calls) : (calls.map (·.1)).Pairwise (· < ·) := by
  cases hop : op.seconds? with
  | none =>
    rw [h.silent hop]
    exact .nil
  | some seconds => exact (h.sweep seconds hop).increasing t.placed_increasing

theorem adds_of_sweep {t : Tree ω} {op : Operation ω} {seconds : Float32}
    {calls : List (List Nat × Call ω)} (h : op.seconds? = some seconds)
    (hsweep : Sweep seconds t.placed calls) : t.Adds op calls where
  sweep s hs := by
    obtain rfl := Option.some.inj (h.symm.trans hs)
    exact hsweep
  silent hnone := by simp [h] at hnone

theorem perform_located (t : Tree ω) (host : ω) (made : List (List Nat × Call ω))
    (op : Operation ω) : ∃ calls,
    (located [] t).perform (host, made) (op.map (Node.located [])) =
      (t.perform host op).logged (located []) (made ++ calls) ∧ t.Adds op calls := by
  have htree : ∀ (m : Moment) (blackboard : Blackboard), ∃ calls,
      Node.tickTree m (located [] t) ⟨blackboard, (host, made)⟩ =
        (Node.tickTree m t ⟨blackboard, host⟩).logged (located []) (made ++ calls) ∧
      Sweep m.elapsed t.placed calls :=
    fun m blackboard => Node.sweep_tickTree (fun n _ => n.sweeps m) [] ⟨blackboard, (host, made)⟩
  have htick : ∀ m : Moment, ∃ calls,
      (located [] t).perform (host, made) (.tickAt m) =
        (t.perform host (.tickAt m)).logged (located []) (made ++ calls) ∧
      Sweep m.elapsed t.placed calls := by
    intro m
    obtain ⟨calls, hstep, hsweep⟩ := htree m t.blackboard
    refine ⟨calls, ?_, hsweep⟩
    have hblackboard : (located [] t).blackboard = t.blackboard := rfl
    rw [perform, perform, tickAt, tickAt, hblackboard, hstep]
    rfl
  have hsilent : ∀ s : Step (Option Status) (Tree ω) (World ω),
      s.logged (located []) (made ++ []) = s.logged (located []) made := by simp
  cases op with
  | tick seconds =>
    -- The clock is that of the tree itself, which recording leaves alone.
    obtain ⟨calls, hstep, hsweep⟩ := htick ⟨t.ticks, seconds⟩
    exact ⟨calls, hstep, adds_of_sweep rfl hsweep⟩
  | tickAt m =>
    obtain ⟨calls, hstep, hsweep⟩ := htick m
    exact ⟨calls, hstep, adds_of_sweep rfl hsweep⟩
  | tickOn m lent =>
    obtain ⟨calls, hstep, hsweep⟩ := htree m lent
    exact ⟨calls, hstep, adds_of_sweep rfl hsweep⟩
  | reset =>
    refine ⟨[], ?_, adds_nil rfl⟩
    rw [hsilent, Operation.map, perform, perform, reset, reset, resetEmissions, resetEmissions,
      resetRoot_located, resetRootEmissions_located]
    rfl
  | resetRoot =>
    refine ⟨[], ?_, adds_nil rfl⟩
    rw [hsilent, Operation.map, perform, perform, resetRoot_located, resetRootEmissions_located]
    rfl
  | setRoot root => exact ⟨[], by rw [hsilent]; rfl, adds_nil rfl⟩
  | write f => exact ⟨[], by rw [hsilent]; rfl, adds_nil rfl⟩

def afterLocated (ops : List (Operation ω)) (t : Tree ω) (host : ω)
    (made : List (List Nat × Call ω)) : Tree (Located ω) × Located ω :=
  (located [] t).after (ops.map (.map (Node.located []))) (host, made)

/-- Recording does not change a run. -/
theorem exists_afterLocated (ops : List (Operation ω)) (t : Tree ω) (host : ω)
    (made : List (List Nat × Call ω)) : ∃ calls, afterLocated ops t host made =
      (located [] (t.after ops host).1, ((t.after ops host).2, made ++ calls)) := by
  induction ops generalizing t host made with
  | nil => exact ⟨[], by rw [List.append_nil]; rfl⟩
  | cons op ops ih =>
    obtain ⟨calls, hstep, -⟩ := perform_located t host made op
    obtain ⟨calls', hrest⟩ := ih (t.perform host op).state (t.perform host op).world.host
      (made ++ calls)
    refine ⟨calls ++ calls', ?_⟩
    rw [afterLocated, List.map_cons, after, hstep, ← List.append_assoc]
    exact hrest

/-- In any state that a run leads to, the calls of one more tick come from leaves in increasing
positions, so from each leaf at most once, and every action is run for the tick's seconds. The
order of the positions is that in which outlines list the nodes. -/
theorem calls_increasing (t : Tree ω) (host : ω) (ops : List (Operation ω)) (op : Operation ω) :
    ∃ before calls,
      afterLocated ops t host [] =
        (located [] (t.after ops host).1, ((t.after ops host).2, before)) ∧
      afterLocated (ops ++ [op]) t host [] =
        (located [] (t.after (ops ++ [op]) host).1,
          ((t.after (ops ++ [op]) host).2, before ++ calls)) ∧
      (calls.map (·.1)).Pairwise (· < ·) ∧ (t.after ops host).1.Adds op calls ∧
      ∀ root ∈ (t.after ops host).1.root,
        root.preorder 0 = (t.after ops host).1.placed.map fun x => (x.1.length, x.2) := by
  obtain ⟨before, hbefore⟩ := exists_afterLocated ops t host []
  obtain ⟨calls, hstep, hadds⟩ :=
    perform_located (t.after ops host).1 (t.after ops host).2 before op
  refine ⟨before, calls, hbefore, ?_, hadds.increasing, hadds, preorder_eq_map_placed _⟩
  have happend : afterLocated (ops ++ [op]) t host [] =
      (afterLocated ops t host []).1.after [op.map (Node.located [])]
        (afterLocated ops t host []).2 := by
    rw [afterLocated, List.map_append, after_append]
    rfl
  rw [happend, hbefore, after_append]
  simp only [after, List.nil_append, hstep]
  rfl

example :
    let yes : Node Nat := .condition ⟨"yes", none⟩ (some fun w => (true, w.host + 1))
    let root := Node.compose .sequence false [yes, .decorate .inverter (some yes), yes]
    let run := afterLocated [.tick 0.5] (ofRoot (some root)) 0 []
    run.2.1 = 2 ∧ run.2.2.map (·.1) = [[0], [1, 0]] := by
  decide

end Tree

end BehaviorTree
