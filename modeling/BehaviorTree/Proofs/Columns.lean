import BehaviorTree.Proofs.History

/-!
# Children and slots in two columns

A parallel can keep its children in one list and their slots in another. Both grow when a child is
pushed; a tick and a reset walk the two side by side and stop where the shorter one ends, so that
they would pass over a child without a slot. There is none, whatever kind of children there are and
whatever happens: the columns are equally long from construction on. Zipped they are the lanes of
the parallel, and they go through ticks, resets and pushes as the lanes do.
-/

namespace BehaviorTree

variable {ω ν κ : Type}

structure Conduct (ν κ : Type) where
  tick : Moment → ν → κ → Step Status ν κ
  reset : ν → ν
  resetEmissions : ν → List Emission

structure Columns (ν : Type) where
  children : List ν
  slots : List Status
  stalled : Bool := false

namespace Columns

/-! ## Moves -/

def new (children : List ν) : Columns ν :=
  { children, slots := List.replicate children.length .running }

def push (p : Columns ν) (child : ν) : Columns ν :=
  { p with children := p.children ++ [child], slots := p.slots ++ [.running] }

/-- Ticks each child whose slot is running. The answer is the slots thereafter. -/
def tickPairs (c : Conduct ν κ) (m : Moment) :
    List ν → List Status → κ → Step (List Status) (List ν) κ
  | n :: ns, s :: ss, w =>
    if s.isRunning then
      let t := c.tick m n w
      let rest := tickPairs c m ns ss t.world
      ⟨t.answer :: rest.answer, t.state :: rest.state, rest.world, t.emitted ++ rest.emitted⟩
    else
      let rest := tickPairs c m ns ss w
      ⟨s :: rest.answer, n :: rest.state, rest.world, rest.emitted⟩
  | ns, ss, w => ⟨ss, ns, w, []⟩

def resetPairs (c : Conduct ν κ) : List ν → List Status → List ν × List Status
  | n :: ns, _ :: ss =>
    let rest := resetPairs c ns ss
    (c.reset n :: rest.1, .running :: rest.2)
  | ns, ss => (ns, ss)

def resetPairsEmissions (c : Conduct ν κ) : List ν → List Status → List Emission
  | n :: ns, _ :: ss => c.resetEmissions n ++ resetPairsEmissions c ns ss
  | _, _ => []

def reset (c : Conduct ν κ) (p : Columns ν) : Columns ν :=
  ⟨(resetPairs c p.children p.slots).1, (resetPairs c p.children p.slots).2, false⟩

def resetEmissions (c : Conduct ν κ) (p : Columns ν) : List Emission :=
  resetPairsEmissions c p.children p.slots

def visit (c : Conduct ν κ) (m : Moment) (p : Columns ν) (w : κ) : Step Unit (Columns ν) κ :=
  let t := tickPairs c m p.children p.slots w
  ⟨(), { p with children := t.state, slots := t.answer }, t.world, t.emitted⟩

def conclude (c : Conduct ν κ) (name : String) (q : Quorums) (p : Columns ν) :
    Step Status (Columns ν) Unit :=
  let total := p.children.length
  let successes := p.slots.count .success
  let failures := p.slots.count .failure
  if q.success.isMet successes total then ⟨.success, p.reset c, (), p.resetEmissions c⟩
  else if q.failure.isMet failures total then ⟨.failure, p.reset c, (), p.resetEmissions c⟩
  else if successes + failures = total ∧ ¬ p.stalled then
    ⟨.running, { p with stalled := true }, (),
      [.diagnostic (.parallelStalled name successes failures)]⟩
  else ⟨.running, p, (), []⟩

def tick (c : Conduct ν κ) (name : String) (q : Quorums) (m : Moment) (p : Columns ν) (w : κ) :
    Step Status (Columns ν) κ :=
  if p.children.length = 0 then ⟨.success, p, w, []⟩
  else
    let v := p.visit c m w
    let d := v.state.conclude c name q
    ⟨d.answer, d.state, v.world, v.emitted ++ d.emitted⟩

theorem tick_of_ne_nil (c : Conduct ν κ) (name : String) (q : Quorums) (m : Moment)
    {p : Columns ν} (w : κ) (hne : p.children ≠ []) :
    let v := p.visit c m w
    let d := v.state.conclude c name q
    p.tick c name q m w = ⟨d.answer, d.state, v.world, v.emitted ++ d.emitted⟩ :=
  if_neg (mt List.length_eq_zero_iff.mp hne)

theorem conclude_eq (c : Conduct ν κ) (name : String) (q : Quorums) (p : Columns ν) :
    let successes := p.slots.count .success
    let failures := p.slots.count .failure
    let settled : Bool := successes + failures = p.children.length
    let s := q.outcome successes failures p.children.length
    p.conclude c name q =
      ⟨s, if s.isTerminal then p.reset c else { p with stalled := p.stalled || settled }, (),
        if s.isTerminal then p.resetEmissions c
        else if settled && !p.stalled then
          [.diagnostic (.parallelStalled name successes failures)]
        else []⟩ := by
  simp only [conclude, Quorums.outcome]
  split
  · rfl
  · split
    · rfl
    · have hopen : ¬ Status.running.isTerminal = true := by decide
      obtain ⟨children, slots, stalled⟩ := p
      simp only [if_neg hopen]
      by_cases hsettled : slots.count .success + slots.count .failure = children.length
      · cases stalled <;> simp [hsettled]
      · simp [hsettled]

/-! ## Histories -/

/-- Columns that come about by moves of a parallel, and by changes of its children between them. -/
inductive Reached (c : Conduct ν κ) (name : String) (q : Quorums) : Columns ν → Prop
  | new (children : List ν) : Reached c name q (new children)
  | push {p : Columns ν} (h : Reached c name q p) (child : ν) : Reached c name q (p.push child)
  | tick {p : Columns ν} (h : Reached c name q p) (m : Moment) (w : κ) :
    Reached c name q (p.tick c name q m w).state
  | reset {p : Columns ν} (h : Reached c name q p) : Reached c name q (p.reset c)
  | alter {p : Columns ν} (h : Reached c name q p) {children : List ν}
    (hlen : children.length = p.children.length) : Reached c name q { p with children }

def Aligned (p : Columns ν) : Prop := p.slots.length = p.children.length

theorem length_tickPairs (c : Conduct ν κ) (m : Moment) (ns : List ν) (ss : List Status) (w : κ) :
    (tickPairs c m ns ss w).answer.length = ss.length ∧
      (tickPairs c m ns ss w).state.length = ns.length := by
  fun_induction tickPairs c m ns ss w with
  | case1 n ns s ss w hs t rest ih => exact ⟨congrArg (· + 1) ih.1, congrArg (· + 1) ih.2⟩
  | case2 n ns s ss w hs rest ih => exact ⟨congrArg (· + 1) ih.1, congrArg (· + 1) ih.2⟩
  | case3 => exact ⟨rfl, rfl⟩

theorem length_resetPairs (c : Conduct ν κ) (ns : List ν) (ss : List Status) :
    (resetPairs c ns ss).1.length = ns.length ∧ (resetPairs c ns ss).2.length = ss.length := by
  fun_induction resetPairs c ns ss with
  | case1 n ns s ss rest ih => exact ⟨congrArg (· + 1) ih.1, congrArg (· + 1) ih.2⟩
  | case2 => exact ⟨rfl, rfl⟩

theorem aligned_new (children : List ν) : (new children).Aligned := List.length_replicate

theorem Aligned.push {p : Columns ν} (hp : p.Aligned) (child : ν) : (p.push child).Aligned := by
  simpa [Aligned, Columns.push] using hp

theorem Aligned.reset {p : Columns ν} (hp : p.Aligned) (c : Conduct ν κ) : (p.reset c).Aligned := by
  obtain ⟨hchildren, hslots⟩ := length_resetPairs c p.children p.slots
  exact hslots.trans (hp.trans hchildren.symm)

theorem Aligned.visit {p : Columns ν} (hp : p.Aligned) (c : Conduct ν κ) (m : Moment) (w : κ) :
    (p.visit c m w).state.Aligned := by
  obtain ⟨hslots, hchildren⟩ := length_tickPairs c m p.children p.slots w
  exact hslots.trans (hp.trans hchildren.symm)

theorem Aligned.tick {p : Columns ν} (hp : p.Aligned) (c : Conduct ν κ) (name : String)
    (q : Quorums) (m : Moment) (w : κ) : (p.tick c name q m w).state.Aligned := by
  by_cases hnil : p.children = []
  · rw [Columns.tick, if_pos (List.length_eq_zero_iff.mpr hnil)]
    exact hp
  · have hvisit := hp.visit c m w
    simp only [tick_of_ne_nil c name q m w hnil, conclude_eq]
    split
    · exact hvisit.reset c
    · exact hvisit

theorem Reached.aligned {c : Conduct ν κ} {name : String} {q : Quorums} {p : Columns ν}
    (h : p.Reached c name q) : p.Aligned := by
  induction h with
  | new children => exact aligned_new children
  | push _ child ih => exact ih.push child
  | tick _ m w ih => exact ih.tick c name q m w
  | reset _ ih => exact ih.reset c
  | alter _ hlen ih => exact ih.trans hlen.symm

/-- No child is passed over. -/
theorem resetPairs_eq (c : Conduct ν κ) {ns : List ν} {ss : List Status}
    (hlen : ss.length = ns.length) :
    resetPairs c ns ss = (ns.map c.reset, List.replicate ns.length .running) := by
  induction ns generalizing ss with
  | nil =>
    obtain rfl := List.length_eq_zero_iff.mp hlen
    rfl
  | cons n ns ih =>
    cases ss with
    | nil => cases hlen
    | cons s ss =>
      rw [resetPairs, ih (Nat.succ.inj hlen), List.map_cons]
      rfl

theorem Aligned.reset_eq {p : Columns ν} (hp : p.Aligned) (c : Conduct ν κ) :
    p.reset c = new (p.children.map c.reset) := by
  simp only [Columns.reset, resetPairs_eq c hp, new, List.length_map]

/-! ## Lanes -/

def lanes (p : Columns ν) : List (Lane ν) := List.zipWith Lane.mk p.slots p.children

namespace Aligned

variable {p : Columns ν} (hp : p.Aligned)

include hp

theorem map_slot_lanes : p.lanes.map (·.slot) = p.slots := by
  rw [lanes, List.map_zipWith, ← List.map_uncurry_zip_eq_zipWith]
  exact List.map_fst_zip (Nat.le_of_eq hp)

theorem map_node_lanes : p.lanes.map (·.node) = p.children := by
  rw [lanes, List.map_zipWith, ← List.map_uncurry_zip_eq_zipWith]
  exact List.map_snd_zip (Nat.le_of_eq hp.symm)

theorem length_lanes : p.lanes.length = p.children.length := by
  rw [← hp.map_node_lanes, List.length_map]

theorem count_lanes (s : Status) : Lane.count s p.lanes = p.slots.count s := by
  rw [← hp.map_slot_lanes, Lane.count, List.count, List.countP_map]
  rfl

theorem lanes_push (child : ν) : (p.push child).lanes = p.lanes ++ [{ node := child }] :=
  List.zipWith_append hp

end Aligned

def toNode (p : Columns (Node ω)) (h : Head) (q : Quorums) : Node ω :=
  .parallel h q p.stalled p.lanes

end Columns

namespace Node

open Columns (Aligned)

def conduct : Conduct (Node ω) (World ω) := ⟨tick, reset, resetEmissions⟩

theorem tickOpen_zipWith (m : Moment) (ns : List (Node ω)) (ss : List Status) (w : World ω) :
    let t := Columns.tickPairs conduct m ns ss w
    tickOpen m (List.zipWith Lane.mk ss ns) w =
      ⟨(), List.zipWith Lane.mk t.answer t.state, t.world, t.emitted⟩ := by
  induction ns generalizing ss w with
  | nil => cases ss <;> rfl
  | cons n ns ih =>
    cases ss with
    | nil => rfl
    | cons s ss =>
      rw [List.zipWith_cons_cons, tickOpen]
      cases s with
      | running =>
        rw [if_pos rfl]
        simp only [ih]
        rfl
      | success | failure =>
        rw [if_neg (by decide)]
        simp only [ih]
        rfl

theorem resetLanes_zipWith (ns : List (Node ω)) (ss : List Status) :
    let r := Columns.resetPairs conduct ns ss
    resetLanes (List.zipWith Lane.mk ss ns) = List.zipWith Lane.mk r.2 r.1 := by
  induction ns generalizing ss with
  | nil => cases ss <;> rfl
  | cons n ns ih =>
    cases ss with
    | nil => rfl
    | cons s ss =>
      rw [List.zipWith_cons_cons, resetLanes, ih]
      rfl

theorem resetLanesEmissions_zipWith (ns : List (Node ω)) (ss : List Status) :
    resetLanesEmissions (List.zipWith Lane.mk ss ns) =
      Columns.resetPairsEmissions conduct ns ss := by
  induction ns generalizing ss with
  | nil => cases ss <;> rfl
  | cons n ns ih =>
    cases ss with
    | nil => rfl
    | cons s ss =>
      rw [List.zipWith_cons_cons, resetLanesEmissions, ih]
      rfl

/-! ## Parallels -/

theorem toNode_new (cs : List (Node ω)) (h : Head) (q : Quorums) :
    (Columns.new cs).toNode h q = parallel h q false (cs.map fun node => { node }) := by
  have hlanes : (Columns.new cs).lanes = cs.map fun node => { node } := by
    rw [Columns.lanes, Columns.new, ← List.map_const', List.zipWith_map_left]
    simp
  rw [Columns.toNode, hlanes]
  rfl

theorem reset_toNode (p : Columns (Node ω)) (h : Head) (q : Quorums) :
    (p.toNode h q).reset = (p.reset conduct).toNode h.clear q := by
  rw [Columns.toNode, reset, Columns.lanes, resetLanes_zipWith]
  rfl

section

variable {p : Columns (Node ω)} (hp : p.Aligned) (h : Head) (q : Quorums)

include hp

theorem slots_toNode : (p.toNode h q).slots = p.slots := hp.map_slot_lanes

theorem children_toNode : (p.toNode h q).children = p.children := hp.map_node_lanes

theorem push_toNode (child : Node ω) : (p.toNode h q).push child = (p.push child).toNode h q := by
  rw [Columns.toNode, push, Columns.toNode, hp.lanes_push]
  rfl

theorem withChildren_toNode (cs : List (Node ω)) :
    (p.toNode h q).withChildren cs = Columns.toNode { p with children := cs } h q := by
  have hlanes : p.lanes.zipWith (fun l node => { l with node }) cs =
      List.zipWith Lane.mk p.slots cs := by
    rw [← hp.map_slot_lanes, List.zipWith_map_left]
  rw [Columns.toNode, withChildren, hlanes]
  rfl

theorem tick_toNode (m : Moment) (w : World ω) :
    let t := p.tick conduct h.name q m w
    tick m (p.toNode h q) w =
      ⟨t.answer, t.state.toNode (h.record t.answer) q, t.world,
        t.emitted ++ finishedParallel h t.answer⟩ := by
  by_cases hnil : p.children = []
  · have hlanes : p.lanes = [] := List.length_eq_zero_iff.mp (by rw [hp.length_lanes, hnil]; rfl)
    rw [Columns.tick, if_pos (by rw [hnil]; rfl)]
    simp only [Columns.toNode, hlanes, tick_parallel_nil, List.nil_append]
  · have hne : p.lanes ≠ [] := by
      intro hlanes
      rw [← hp.map_node_lanes, hlanes] at hnil
      exact hnil rfl
    let v := p.visit conduct m w
    have hv : v.state.Aligned := hp.visit conduct m w
    have hopen : tickOpen m p.lanes w = ⟨(), v.state.lanes, v.world, v.emitted⟩ :=
      tickOpen_zipWith m p.children p.slots w
    have hreset : resetLanes v.state.lanes = (v.state.reset conduct).lanes :=
      resetLanes_zipWith _ _
    have hemissions : resetLanesEmissions v.state.lanes = v.state.resetEmissions conduct :=
      resetLanesEmissions_zipWith _ _
    rw [Columns.toNode, tick_parallel_of_ne_nil m h q p.stalled w hne,
      Columns.tick_of_ne_nil conduct h.name q m w hnil]
    simp only [Columns.conclude_eq, hopen, Quorums.verdict, Lane.settled, hv.count_lanes,
      hv.length_lanes, hreset, hemissions]
    generalize q.outcome _ _ _ = s
    cases s <;> rfl

end

def InColumns (n : Node ω) : Prop :=
  ∀ name q, n.blueprint = .parallel name q →
    ∃ status p, Columns.Reached conduct name q p ∧ n = p.toNode ⟨name, status⟩ q

theorem lasting_inColumns : Lasting (InColumns (ω := ω)) where
  reset n hn name q h := by
    obtain ⟨status, p, hp, rfl⟩ := hn name q (n.blueprint_reset ▸ h)
    exact ⟨none, _, hp.reset, reset_toNode p ⟨name, status⟩ q⟩
  tick m n w hn name q h := by
    obtain ⟨status, p, hp, rfl⟩ := hn name q (blueprint_tick m n w ▸ h)
    exact ⟨_, _, hp.tick m w, congrArg Step.state (tick_toNode hp.aligned ⟨name, status⟩ q m w)⟩
  push n child hn name q h := by
    obtain ⟨status, p, hp, rfl⟩ := hn name q (blueprint_push n child ▸ h)
    exact ⟨status, _, hp.push child, push_toNode hp.aligned ⟨name, status⟩ q child⟩
  withChildren n cs hlen hn name q h := by
    obtain ⟨status, p, hp, rfl⟩ := hn name q (blueprint_withChildren n cs ▸ h)
    rw [children_toNode hp.aligned] at hlen
    exact ⟨status, _, hp.alter hlen, withChildren_toNode hp.aligned ⟨name, status⟩ q cs⟩

theorem Fresh.inColumns {n : Node ω} (hn : n.Fresh) : n.Everywhere InColumns := by
  refine hn.imp ?_
  rintro n ⟨hsettled, -⟩ name q h
  obtain ⟨status, stalled, ls, rfl⟩ := exists_parallel_of_blueprint h
  obtain ⟨rfl, hslots⟩ := hsettled
  refine ⟨status, _, .new (ls.map (·.node)), ?_⟩
  have hlanes : ∀ l ∈ ls, { node := l.node } = l := fun l hl => by rw [← hslots l hl]
  rw [toNode_new, List.map_map]
  exact congrArg _ ((List.map_congr_left hlanes).trans (List.map_id ls)).symm

/-- The node as a parallel that keeps its children and slots apart. -/
structure ByColumns (n : Node ω) (h : Head) (q : Quorums) (p : Columns (Node ω)) : Prop where
  reached : p.Reached conduct h.name q
  aligned : p.slots.length = p.children.length
  node : n = p.toNode h q
  reset : n.reset = (p.reset conduct).toNode h.clear q
  children_reset : (p.reset conduct).children = n.children.map Node.reset

theorem byColumns_of_reached {n : Node ω} {h : Head} {q : Quorums} {p : Columns (Node ω)}
    (hp : p.Reached conduct h.name q) (hnode : n = p.toNode h q) : n.ByColumns h q p := by
  refine ⟨hp, hp.aligned, hnode, ?_, ?_⟩
  · rw [hnode, reset_toNode]
  · rw [hnode, children_toNode hp.aligned, hp.aligned.reset_eq]
    rfl

theorem InColumns.exists_byColumns {n : Node ω} (hn : n.InColumns) {h : Head} {q : Quorums}
    {stalled : Bool} {ls : List (Lane (Node ω))} (hparallel : n = parallel h q stalled ls) :
    ∃ p, n.ByColumns h q p := by
  obtain ⟨status, p, hp, hnode⟩ := hn h.name q (congrArg blueprint hparallel)
  have hhead : h = ⟨h.name, status⟩ := (parallel.inj (hparallel.symm.trans hnode)).1
  rw [← hhead] at hnode
  exact ⟨p, byColumns_of_reached hp hnode⟩

end Node

end BehaviorTree
