import BehaviorTree.Proofs.Response
import Mathlib.Data.List.FinRange

/-!
# The order of a parallel's children

A child is independent if its ticks leave the blackboard alone and neither see nor change anything
but the child itself and one part of the host that belongs to it. A parallel of independent
children may list them in any order: it gives the same answers, and its children go through the
same states with the same slots.
-/

namespace BehaviorTree

variable {ω : Type} {k : Nat} {σ : Fin k → Type}

theorem Lane.count_ofFn_comp {ν : Type} (s : Status) (lanes : Fin k → Lane ν)
    (π : Equiv.Perm (Fin k)) :
    Lane.count s (List.ofFn (lanes ∘ π)) = Lane.count s (List.ofFn lanes) :=
  (π.ofFn_comp_perm lanes).countP_eq _

theorem Lane.settled_ofFn_comp {ν : Type} (lanes : Fin k → Lane ν) (π : Equiv.Perm (Fin k)) :
    Lane.settled (List.ofFn (lanes ∘ π)) = Lane.settled (List.ofFn lanes) := by
  simp only [Lane.settled, Lane.count_ofFn_comp, List.length_ofFn]

theorem Quorums.verdict_ofFn_comp {ν : Type} (q : Quorums) (lanes : Fin k → Lane ν)
    (π : Equiv.Perm (Fin k)) :
    q.verdict (List.ofFn (lanes ∘ π)) = q.verdict (List.ofFn lanes) := by
  simp only [Quorums.verdict, Lane.count_ofFn_comp, List.length_ofFn]

namespace Node

/-! ## Independent children -/

/-- What a tick does depends on one part of the host and changes no other part, and the blackboard
is neither read nor written. -/
structure KeepsTo (part : (i : Fin k) → ω → σ i) (i : Fin k) (n : Node ω) : Prop where
  blackboard (m : Moment) (w : World ω) : (tick m n w).world.blackboard = w.blackboard
  others (m : Moment) (w : World ω) {j : Fin k} (h : j ≠ i) :
    part j (tick m n w).world.host = part j w.host
  own (m : Moment) {w v : World ω} (h : part i w.host = part i v.host) :
    (tick m n w).answer = (tick m n v).answer ∧ (tick m n w).state = (tick m n v).state ∧
      part i (tick m n w).world.host = part i (tick m n v).world.host

inductive Reaches (n : Node ω) : Node ω → Prop
  | refl : Reaches n n
  | tick {n' : Node ω} (h : Reaches n n') (m : Moment) (w : World ω) :
    Reaches n (Node.tick m n' w).state
  | reset {n' : Node ω} (h : Reaches n n') : Reaches n n'.reset

theorem Reaches.trans {n n' n'' : Node ω} (h : Reaches n n') (h' : Reaches n' n'') :
    Reaches n n'' := by
  induction h' with
  | refl => exact h
  | tick _ m w ih => exact ih.tick m w
  | reset _ ih => exact ih.reset

def Independent (part : (i : Fin k) → ω → σ i) (i : Fin k) (n : Node ω) : Prop :=
  ∀ n', n.Reaches n' → n'.KeepsTo part i

theorem Independent.of_reaches {part : (i : Fin k) → ω → σ i} {i : Fin k} {n n' : Node ω}
    (h : n.Independent part i) (h' : n.Reaches n') : n'.Independent part i :=
  fun _ h'' => h _ (h'.trans h'')

end Node

/-! ## One tick -/

namespace Lane

open Node (KeepsTo Reaches)

def visit (m : Moment) (l : Lane (Node ω)) (w : World ω) : Lane (Node ω) × World ω :=
  if l.slot = .running then
    let c := Node.tick m l.node w
    (⟨c.answer, c.state⟩, c.world)
  else (l, w)

theorem visit_of_running {l : Lane (Node ω)} (h : l.slot = .running) (m : Moment) (w : World ω) :
    l.visit m w = (⟨(Node.tick m l.node w).answer, (Node.tick m l.node w).state⟩,
      (Node.tick m l.node w).world) :=
  if_pos h

theorem visit_of_answered {l : Lane (Node ω)} (h : l.slot ≠ .running) (m : Moment)
    (w : World ω) : l.visit m w = (l, w) :=
  if_neg h

theorem reaches_visit (m : Moment) (l : Lane (Node ω)) (w : World ω) :
    l.node.Reaches (l.visit m w).1.node := by
  by_cases hslot : l.slot = .running
  · rw [visit_of_running hslot]
    exact .tick .refl m w
  · rw [visit_of_answered hslot]
    exact .refl

variable {part : (i : Fin k) → ω → σ i} {i : Fin k} {l : Lane (Node ω)}

theorem blackboard_visit (h : l.node.KeepsTo part i) (m : Moment) (w : World ω) :
    (l.visit m w).2.blackboard = w.blackboard := by
  by_cases hslot : l.slot = .running
  · rw [visit_of_running hslot]
    exact h.blackboard m w
  · rw [visit_of_answered hslot]

theorem part_visit_of_ne (h : l.node.KeepsTo part i) (m : Moment) (w : World ω) {j : Fin k}
    (hj : j ≠ i) : part j (l.visit m w).2.host = part j w.host := by
  by_cases hslot : l.slot = .running
  · rw [visit_of_running hslot]
    exact h.others m w hj
  · rw [visit_of_answered hslot]

theorem visit_congr (h : l.node.KeepsTo part i) (m : Moment) {w v : World ω}
    (hpart : part i w.host = part i v.host) :
    (l.visit m w).1 = (l.visit m v).1 ∧
      part i (l.visit m w).2.host = part i (l.visit m v).2.host := by
  by_cases hslot : l.slot = .running
  · obtain ⟨hanswer, hstate, hhost⟩ := h.own m hpart
    rw [visit_of_running hslot, visit_of_running hslot, hanswer, hstate]
    exact ⟨rfl, hhost⟩
  · rw [visit_of_answered hslot, visit_of_answered hslot]
    exact ⟨rfl, hpart⟩

end Lane

namespace Node

theorem tickOpen_cons (m : Moment) (l : Lane (Node ω)) (ls : List (Lane (Node ω)))
    (w : World ω) :
    (tickOpen m (l :: ls) w).state = (l.visit m w).1 :: (tickOpen m ls (l.visit m w).2).state ∧
      (tickOpen m (l :: ls) w).world = (tickOpen m ls (l.visit m w).2).world := by
  obtain ⟨slot, n⟩ := l
  rw [tickOpen, Lane.visit]
  dsimp only
  split <;> exact ⟨rfl, rfl⟩

/-- A pass over lanes with different parts of the host: each lane is visited as in the world `w`,
whose parts the pass finds for all of them, and the other parts stay as they are. -/
theorem tickOpen_map {part : (i : Fin k) → ω → σ i} {lanes : Fin k → Lane (Node ω)}
    (hlanes : ∀ i, (lanes i).node.KeepsTo part i) (m : Moment) (w : World ω) {is : List (Fin k)}
    (his : is.Nodup) {v : World ω} (hv : ∀ i ∈ is, part i v.host = part i w.host) :
    let c := tickOpen m (is.map lanes) v
    c.state = is.map (fun i => ((lanes i).visit m w).1) ∧
      c.world.blackboard = v.blackboard ∧
      (∀ i ∈ is, part i c.world.host = part i ((lanes i).visit m w).2.host) ∧
      ∀ i ∉ is, part i c.world.host = part i v.host := by
  -- The world moves on with every visit, but the parts of the lanes to come are those of `w` still.
  induction is generalizing v with
  | nil =>
    rw [List.map_nil, tickOpen]
    exact ⟨rfl, rfl, fun _ hi => absurd hi List.not_mem_nil, fun _ _ => rfl⟩
  | cons i is ih =>
    obtain ⟨hi, his⟩ := List.nodup_cons.mp his
    obtain ⟨hlane, hhost⟩ := Lane.visit_congr (hlanes i) m (hv i (.head _))
    have hafter : ∀ j, j ≠ i → part j ((lanes i).visit m v).2.host = part j v.host :=
      fun j hj => Lane.part_visit_of_ne (hlanes i) m v hj
    have hrest : ∀ j ∈ is, part j ((lanes i).visit m v).2.host = part j w.host := by
      intro j hj
      rw [hafter j (ne_of_mem_of_not_mem hj hi), hv j (.tail _ hj)]
    obtain ⟨hstate, hblackboard, hmem, hnotMem⟩ := ih his hrest
    obtain ⟨hconsState, hconsWorld⟩ :=
      tickOpen_cons m (lanes i) (is.map lanes) v
    simp only [List.map_cons, hconsState, hconsWorld]
    refine ⟨?_, ?_, ?_, ?_⟩
    · rw [hstate, hlane]
    · rw [hblackboard, Lane.blackboard_visit (hlanes i)]
    · intro j hj
      rcases List.mem_cons.mp hj with rfl | hj
      · rw [hnotMem _ hi, hhost]
      · exact hmem j hj
    · intro j hj
      rw [List.mem_cons, not_or] at hj
      rw [hnotMem j hj.2, hafter j hj.1]

structure SameParts (part : (i : Fin k) → ω → σ i) (w w' : World ω) : Prop where
  blackboard : w.blackboard = w'.blackboard
  host (i : Fin k) : part i w.host = part i w'.host

inductive Permuted (part : (i : Fin k) → ω → σ i) (q : Quorums) (π : Equiv.Perm (Fin k)) :
    Node ω → Node ω → Prop
  | intro (h : Head) (stalled : Bool) {lanes : Fin k → Lane (Node ω)}
    (hlanes : ∀ i, (lanes i).node.Independent part i) :
    Permuted part q π (parallel h q stalled (List.ofFn lanes))
      (parallel h q stalled (List.ofFn (lanes ∘ π)))

section Step

variable {part : (i : Fin k) → ω → σ i} {q : Quorums} {π : Equiv.Perm (Fin k)}
  {lanes : Fin k → Lane (Node ω)}

theorem resetLanes_ofFn (lanes : Fin k → Lane (Node ω)) :
    resetLanes (List.ofFn lanes) = List.ofFn fun i => ⟨.running, (lanes i).node.reset⟩ := by
  rw [resetLanes_eq_map, List.map_ofFn]
  rfl

theorem Permuted.of_resetLanes (h : Head) (stalled : Bool)
    (hlanes : ∀ i, (lanes i).node.Independent part i) :
    Permuted part q π (parallel h q stalled (resetLanes (List.ofFn lanes)))
      (parallel h q stalled (resetLanes (List.ofFn (lanes ∘ π)))) := by
  rw [resetLanes_ofFn, resetLanes_ofFn]
  exact .intro h stalled fun i => (hlanes i).of_reaches (.reset .refl)

theorem Permuted.reset {n n' : Node ω} (h : Permuted part q π n n') :
    Permuted part q π n.reset n'.reset := by
  cases h with
  | intro h stalled hlanes =>
    rw [Node.reset, Node.reset]
    exact .of_resetLanes _ _ hlanes

/-- Whatever their order, the lanes are visited as if each were the first. -/
theorem tickOpen_ofFn_comp (hlanes : ∀ i, (lanes i).node.KeepsTo part i) (m : Moment)
    {w v : World ω} (hv : ∀ i, part i v.host = part i w.host) (π : Equiv.Perm (Fin k)) :
    let c := tickOpen m (List.ofFn (lanes ∘ π)) v
    c.state = List.ofFn ((fun i => ((lanes i).visit m w).1) ∘ π) ∧
      c.world.blackboard = v.blackboard ∧
      ∀ i, part i c.world.host = part i ((lanes i).visit m w).2.host := by
  have hlist : List.ofFn (lanes ∘ π) = ((List.finRange k).map π).map lanes := by
    rw [List.ofFn_eq_map, List.map_map]
  have hnodup : ((List.finRange k).map π).Nodup := (List.nodup_finRange k).map π.injective
  have hmem : ∀ i, i ∈ (List.finRange k).map π :=
    fun i => List.mem_map.mpr ⟨π.symm i, List.mem_finRange _, π.apply_symm_apply i⟩
  rw [hlist]
  obtain ⟨hstate, hblackboard, hhost, -⟩ := tickOpen_map hlanes m w hnodup fun i _ => hv i
  refine ⟨?_, hblackboard, fun i => hhost i (hmem i)⟩
  rw [hstate, List.map_map, ← List.ofFn_eq_map]

theorem Permuted.tick {n n' : Node ω} (h : Permuted part q π n n') (m : Moment) {w w' : World ω}
    (hw : SameParts part w w') :
    let c := Node.tick m n w
    let c' := Node.tick m n' w'
    c.answer = c'.answer ∧ Permuted part q π c.state c'.state ∧ SameParts part c.world c'.world := by
  cases h with
  | @intro h stalled lanes hlanes =>
  have hkeeps : ∀ i, (lanes i).node.KeepsTo part i := fun i => hlanes i _ .refl
  by_cases hempty : k = 0
  · subst hempty
    simp only [List.ofFn_zero, tick_parallel_nil]
    exact ⟨trivial, .intro (h.record .success) stalled hlanes, hw⟩
  have hne : ∀ ls : Fin k → Lane (Node ω), List.ofFn ls ≠ [] :=
    fun _ => mt List.ofFn_eq_nil_iff.mp hempty
  obtain ⟨hstate, hblackboard, hhost⟩ :=
    tickOpen_ofFn_comp hkeeps m (w := w) (fun _ => rfl) (Equiv.refl _)
  obtain ⟨hstate', hblackboard', hhost'⟩ :=
    tickOpen_ofFn_comp hkeeps m (fun i => (hw.host i).symm) π
  simp only [Equiv.coe_refl, Function.comp_id] at hstate hblackboard hhost
  simp only [tick_parallel_of_ne_nil m h q stalled _ (hne _), hstate, hstate',
    Quorums.verdict_ofFn_comp, Lane.settled_ofFn_comp]
  refine ⟨trivial, ?_, ?_⟩
  · have hvisited : ∀ i, ((lanes i).visit m w).1.node.Independent part i :=
      fun i => (hlanes i).of_reaches (Lane.reaches_visit m (lanes i) w)
    split
    · exact .of_resetLanes _ _ hvisited
    · exact .intro _ _ hvisited
  · exact ⟨by rw [hblackboard, hblackboard', hw.blackboard], fun i => by rw [hhost, hhost']⟩

end Step

/-! ## Runs -/

def stages (ss : List Stimulus) (n : Node ω) (w : World ω) :
    List (Option Status × Node ω × World ω) :=
  (steps ss n w).map fun c => (c.answer, c.state, c.world)

variable {part : (i : Fin k) → ω → σ i} {q : Quorums} {π : Equiv.Perm (Fin k)}

theorem Permuted.respond {n n' : Node ω} (h : Permuted part q π n n') {w w' : World ω}
    (hw : SameParts part w w') (s : Stimulus) :
    let c := n.respond w s
    let c' := n'.respond w' s
    c.answer = c'.answer ∧ Permuted part q π c.state c'.state ∧ SameParts part c.world c'.world := by
  cases s with
  | tick m =>
    obtain ⟨hanswer, hstate, hworld⟩ := h.tick m hw
    exact ⟨congrArg some hanswer, hstate, hworld⟩
  | reset => exact ⟨rfl, h.reset, hw⟩
  | write f => exact ⟨rfl, h, congrArg f hw.blackboard, hw.host⟩

theorem Permuted.stages {n n' : Node ω} (h : Permuted part q π n n') {w w' : World ω}
    (hw : SameParts part w w') (ss : List Stimulus) :
    List.Forall₂ (fun c c' => c.1 = c'.1 ∧ Permuted part q π c.2.1 c'.2.1 ∧
      SameParts part c.2.2 c'.2.2) (Node.stages ss n w) (Node.stages ss n' w') := by
  rw [Node.stages, Node.stages, List.forall₂_map_left_iff, List.forall₂_map_right_iff]
  refine forall₂_steps (Q := fun n w n' w' => Permuted part q π n n' ∧ SameParts part w w')
    ?_ ?_ ss ⟨h, hw⟩
  · rintro n w n' w' ⟨h, hw⟩ s
    exact h.respond hw s
  · intro c c' hc
    exact hc.2

/-- Two parallels with the same independent children in different orders, whatever is done to both
of them: they answer alike, and each child has the same state and slot in both. -/
theorem stages_permuted (part : (i : Fin k) → ω → σ i) (q : Quorums) (h : Head) (stalled : Bool)
    {lanes : Fin k → Lane (Node ω)} (hlanes : ∀ i, (lanes i).node.Independent part i)
    (π : Equiv.Perm (Fin k)) (ss : List Stimulus) (w : World ω) :
    List.Forall₂ (fun c c' => c.1 = c'.1 ∧
        (∃ h' stalled' lanes', c.2.1 = parallel h' q stalled' (List.ofFn lanes') ∧
          c'.2.1 = parallel h' q stalled' (List.ofFn (lanes' ∘ π))) ∧
        c.2.2.blackboard = c'.2.2.blackboard ∧ ∀ i, part i c.2.2.host = part i c'.2.2.host)
      (stages ss (parallel h q stalled (List.ofFn lanes)) w)
      (stages ss (parallel h q stalled (List.ofFn (lanes ∘ π))) w) := by
  have hsame : SameParts part w w := ⟨rfl, fun _ => rfl⟩
  refine ((Permuted.intro h stalled hlanes).stages hsame ss).imp ?_
  rintro ⟨_, _, _⟩ ⟨_, _, _⟩ ⟨hanswer, hstate, hworld⟩
  refine ⟨hanswer, ?_, hworld.blackboard, hworld.host⟩
  cases hstate with
  | intro h' stalled' _ => exact ⟨h', stalled', _, rfl, rfl⟩

/-- Counts in one cell of the host, and answers once it has counted to the limit. -/
def tally (i : Fin 3) (limit : Nat) (s : Status) : Action (Fin 3 → Nat) := fun _ w =>
  (if w.host i < limit then .running else s,
    { w with host := Function.update w.host i (w.host i + 1) })

theorem keepsTo_tally (h : Head) (i : Fin 3) (limit : Nat) (s : Status) :
    (action h (some (tally i limit s))).KeepsTo (fun i (host : Fin 3 → Nat) => host i) i where
  blackboard _ _ := rfl
  others _ w j hj := by
    simp only [tick, tally]
    exact Function.update_of_ne hj (w.host i + 1) w.host
  own _ w v hpart := by
    simp only [tick, tally, hpart, Function.update_self]
    exact ⟨trivial, trivial, trivial⟩

theorem independent_tally (h : Head) (i : Fin 3) (limit : Nat) (s : Status) :
    (action h (some (tally i limit s))).Independent (fun i (host : Fin 3 → Nat) => host i) i := by
  intro n hn
  have hleaf : ∃ h', n = action h' (some (tally i limit s)) := by
    induction hn with
    | refl => exact ⟨h, rfl⟩
    | tick _ m w ih =>
      obtain ⟨h', rfl⟩ := ih
      exact ⟨_, rfl⟩
    | reset _ ih =>
      obtain ⟨h', rfl⟩ := ih
      exact ⟨_, rfl⟩
  obtain ⟨h', rfl⟩ := hleaf
  exact keepsTo_tally h' i limit s

/-- Three counters, the first and the last exchanged. The second one fails and ends the first pass;
what it has counted outlasts the reset, so that the next pass ends at once. -/
theorem stages_permuted_tally :
    let lanes : Fin 3 → Lane (Node (Fin 3 → Nat)) := fun i =>
      { node := action ⟨"tally", none⟩ (some (tally i i (if i = 1 then .failure else .success))) }
    let q : Quorums := ⟨.requireAll, .requireOne⟩
    let n := parallel ⟨"count", none⟩ q false (List.ofFn lanes)
    let n' := parallel ⟨"count", none⟩ q false (List.ofFn (lanes ∘ Equiv.swap 0 2))
    let ss : List Stimulus := [.tick ⟨0, 0.5⟩, .tick ⟨1, 0.5⟩, .reset, .tick ⟨2, 0.5⟩]
    let w : World (Fin 3 → Nat) := ⟨{}, fun _ => 0⟩
    (stages ss n w).map (·.1) = [some .running, some .failure, none, some .failure] ∧
      List.Forall₂ (fun c c' => c.1 = c'.1 ∧ c.2.2.host = c'.2.2.host) (stages ss n w)
        (stages ss n' w) := by
  intro lanes q n n' ss w
  have hlanes : ∀ i, (lanes i).node.Independent (fun i (host : Fin 3 → Nat) => host i) i :=
    fun i => independent_tally _ i _ _
  refine ⟨by decide, ?_⟩
  refine (stages_permuted _ _ _ _ hlanes (Equiv.swap 0 2) ss w).imp ?_
  exact fun _ _ hc => ⟨hc.1, funext hc.2.2.2⟩

end Node

end BehaviorTree
