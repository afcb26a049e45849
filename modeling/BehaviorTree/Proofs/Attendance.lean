import BehaviorTree.Proofs.Cancellation
import BehaviorTree.Proofs.Course

/-!
# Attendance of a parallel

A tick of a parallel calls the children whose slot is still running, and the slots after that round
decide the tick. Over a whole pass the slot of a child is the first terminal answer that the child
gave in it, however many children joined meanwhile.
-/

namespace BehaviorTree

variable {ω : Type}

def standing (answers : List Status) : Status := (answers.find? (·.isTerminal)).getD .running

theorem standing_eq_running_iff {answers : List Status} :
    standing answers = .running ↔ ∀ a ∈ answers, a = .running := by
  rw [standing]
  cases h : answers.find? (·.isTerminal) with
  | none => simpa [Status.isTerminal] using List.find?_eq_none.mp h
  | some a =>
    have hmem := List.mem_of_find?_eq_some h
    have hterminal : a ≠ .running := by simpa [Status.isTerminal] using List.find?_some h
    constructor
    · intro ha
      exact absurd ha hterminal
    · intro hall
      exact hall a hmem

theorem find?_of_standing {answers : List Status} (h : standing answers ≠ .running) :
    answers.find? (·.isTerminal) = some (standing answers) := by
  rw [standing] at h ⊢
  cases hfind : answers.find? (·.isTerminal) with
  | none => simp [hfind] at h
  | some a => rfl

theorem standing_concat {answers : List Status} (h : standing answers = .running) (a : Status) :
    standing (answers ++ [a]) = a := by
  have hnone : answers.find? (·.isTerminal) = none := by
    apply List.find?_eq_none.mpr
    intro b hb
    rw [standing_eq_running_iff.mp h b hb]
    decide
  rw [standing, List.find?_append, hnone]
  cases a <;> rfl

def Quorums.ofSlots (q : Quorums) (slots : List Status) : Status :=
  q.outcome (slots.count .success) (slots.count .failure) slots.length

theorem count_eq_count_slots {ν : Type} (s : Status) (ls : List (Lane ν)) :
    Lane.count s ls = (ls.map (·.slot)).count s := by
  rw [Lane.count, List.count, List.countP_map]
  rfl

theorem Quorums.verdict_eq_ofSlots {ν : Type} (q : Quorums) (ls : List (Lane ν)) :
    q.verdict ls = q.ofSlots (ls.map (·.slot)) := by
  rw [verdict, ofSlots, count_eq_count_slots, count_eq_count_slots, List.length_map]

namespace Visit

def filled (v : Visit ω) : List Status := Node.fill v.node.slots v.round.answer

/-- Everything that a tick of a parallel with children does, by the lanes after the round. -/
theorem step_parallel {v : Visit ω} {h : Head} {q : Quorums} {stalled : Bool}
    {ls : List (Lane (Node ω))} (hv : v.node = .parallel h q stalled ls) (hls : ls ≠ []) :
    let s := q.ofSlots v.filled
    ∃ ls' : List (Lane (Node ω)), ls'.map (·.slot) = v.filled ∧ ls'.map (·.node) = v.round.state ∧
      v.step = ⟨s, .parallel (h.record s) q (s.isRunning && (stalled || Lane.settled ls'))
          (if s.isTerminal then Node.resetLanes ls' else ls'), v.round.world,
        v.round.emitted ++ ((if s.isTerminal then Node.resetLanesEmissions ls'
          else if Lane.settled ls' && !stalled then
            [.diagnostic (.parallelStalled h.name (v.filled.count .success)
              (v.filled.count .failure))]
          else []) ++ finishedParallel h s)⟩ := by
  obtain ⟨n, m, w⟩ := v
  cases hv
  obtain ⟨hslots, hnodes, hworld, hemitted⟩ := Node.tickOpen_eq_round m ls w
  refine ⟨(Node.tickOpen m ls w).state, hslots, hnodes, ?_⟩
  rw [step, Node.tick_parallel_of_ne_nil m h q stalled w hls, Quorums.verdict_eq_ofSlots,
    count_eq_count_slots, count_eq_count_slots, hslots, hworld, hemitted, List.append_assoc]
  rfl

structure Attends (q : Quorums) (v : Visit ω) : Prop where
  calls : v.node.calls v.moment v.world = v.node.slots.map Status.isRunning
  world : v.step.world = v.round.world
  emitted : v.round.emitted <+: v.step.emitted
  answer : v.node.children ≠ [] → v.step.answer =
    if q.success.isMet (v.filled.count .success) v.filled.length then .success
    else if q.failure.isMet (v.filled.count .failure) v.filled.length then .failure
    else .running
  running : v.step.answer = .running →
    v.step.state.slots = v.filled ∧ v.step.state.children = v.round.state
  finished : v.step.answer.isTerminal = true →
    (∀ s ∈ v.step.state.slots, s = .running) ∧
      v.step.state.children = v.round.state.map Node.reset

theorem attends {v : Visit ω} {h : Head} {q : Quorums} {stalled : Bool}
    {ls : List (Lane (Node ω))} (hv : v.node = .parallel h q stalled ls) : v.Attends q := by
  have hcalls : v.node.calls v.moment v.world = v.node.slots.map Status.isRunning := by
    simp [hv, Node.calls, Node.slots]
  by_cases hls : ls = []
  · obtain ⟨n, m, w⟩ := v
    subst hv hls
    exact ⟨hcalls, rfl, List.nil_prefix, fun hne => absurd rfl hne, nofun, fun _ => ⟨nofun, rfl⟩⟩
  · obtain ⟨ls', hslots, hnodes, hstep⟩ := step_parallel hv hls
    have hopen : ¬ Status.running.isTerminal = true := by decide
    refine ⟨hcalls, ?_, ?_, ?_, ?_, ?_⟩
    · rw [hstep]
    · rw [hstep]
      exact List.prefix_append _ _
    · intro _
      rw [hstep]
      rfl
    · intro hrunning
      rw [hstep] at hrunning ⊢
      change q.ofSlots v.filled = .running at hrunning
      simp only [hrunning, if_neg hopen]
      exact ⟨hslots, hnodes⟩
    · intro hended
      rw [hstep] at hended ⊢
      change (q.ofSlots v.filled).isTerminal = true at hended
      simp only [if_pos hended, Node.resetLanes_eq_map]
      constructor
      · simp [Node.slots]
      · simp [Node.children, ← hnodes]

theorem Attends.isSome_answer? {q : Quorums} {v : Visit ω} (hv : v.Attends q) {i : Nat}
    {slot : Status} {a : Option Status} (hslot : v.node.slots[i]? = some slot)
    (ha : v.round.answer[i]? = some a) : a.isSome = slot.isRunning := by
  have hi : i < v.node.children.length := by
    rw [← Node.length_answer_round v.moment (v.node.calls v.moment v.world) v.node.children v.world]
    exact (List.getElem?_eq_some_iff.mp ha).1
  obtain ⟨a', _, ha', -, hturn⟩ :=
    Node.turn_round v.moment (v.node.calls v.moment v.world) v.node.children v.world i hi
  obtain rfl : a' = a := Option.some.inj (ha'.symm.trans ha)
  rw [hturn.isSome_eq, hv.calls, List.getElem?_map, hslot]
  rfl

end Visit

theorem Node.running_of_mem_slots_reset (n : Node ω) : ∀ s ∈ n.reset.slots, s = .running := by
  cases n <;> simp [reset, slots, resetLanes_eq_map]

namespace Columns

variable {name : String} {q : Quorums}

def apply (name : String) (q : Quorums) (p : Columns (Node ω)) : Move ω → Columns (Node ω)
  | .tick m w => (p.tick Node.conduct name q m w).state
  | .reset => p.reset Node.conduct
  | .push child => p.push child

def after (name : String) (q : Quorums) (p : Columns (Node ω)) (moves : List (Move ω)) :
    Columns (Node ω) := moves.foldl (apply name q) p

theorem Reached.apply {p : Columns (Node ω)} (hp : p.Reached Node.conduct name q)
    (move : Move ω) : (p.apply name q move).Reached Node.conduct name q := by
  cases move with
  | tick m w => exact hp.tick m w
  | reset => exact hp.reset
  | push child => exact hp.push child

theorem apply_toNode {p : Columns (Node ω)} (hp : p.Aligned) {c : Course ω}
    {status : Option Status} (hc : c.node = p.toNode ⟨name, status⟩ q) (move : Move ω) :
    ∃ status', (c.apply move).node = (p.apply name q move).toNode ⟨name, status'⟩ q := by
  change ∃ status', move.change.apply c.node = (p.apply name q move).toNode ⟨name, status'⟩ q
  rw [hc]
  cases move with
  | tick m w => exact ⟨_, congrArg Step.state (Node.tick_toNode hp ⟨name, status⟩ q m w)⟩
  | reset => exact ⟨none, Node.reset_toNode p ⟨name, status⟩ q⟩
  | push child => exact ⟨status, Node.push_toNode hp ⟨name, status⟩ q child⟩

/-- The course of a parallel is that of its columns. -/
theorem after_toNode {p : Columns (Node ω)} (hp : p.Reached Node.conduct name q) {c : Course ω}
    {status : Option Status} (hc : c.node = p.toNode ⟨name, status⟩ q) (moves : List (Move ω)) :
    (p.after name q moves).Reached Node.conduct name q ∧
      ∃ status', (c.after moves).node = (p.after name q moves).toNode ⟨name, status'⟩ q := by
  induction moves generalizing p c status with
  | nil => exact ⟨hp, status, hc⟩
  | cons move moves ih =>
    obtain ⟨status', hc'⟩ := apply_toNode hp.aligned hc move
    exact ih (hp.apply move) hc'

end Columns

namespace Course

/-- The slots sum up what the children answered in the present pass. -/
def Sums (c : Course ω) : Prop :=
  ∀ i s, c.node.slots[i]? = some s → s = standing (Visit.answers c.visits i)

theorem sums_of_running {c : Course ω} (hvisits : c.visits = [])
    (h : ∀ s ∈ c.node.slots, s = .running) : c.Sums := by
  intro i s hs
  rw [hvisits]
  exact h s (List.mem_of_getElem? hs)

theorem Sums.tick {h : Head} {q : Quorums} {stalled : Bool} {ls : List (Lane (Node ω))}
    {visits : List (Visit ω)} (hsums : Sums ⟨.parallel h q stalled ls, visits⟩) (m : Moment)
    (w : World ω) : (apply ⟨.parallel h q stalled ls, visits⟩ (.tick m w)).Sums := by
  let v : Visit ω := ⟨.parallel h q stalled ls, m, w⟩
  have hattends : v.Attends q := Visit.attends rfl
  rcases v.step.answer.running_or_terminal with hrunning | hended
  · have hvisits := visits_tick_of_running (c := ⟨v.node, visits⟩) hrunning
    intro i s hs
    change v.step.state.slots[i]? = some s at hs
    rw [(hattends.running hrunning).1, Visit.filled, Node.fill,
      List.getElem?_zipWith_eq_some] at hs
    obtain ⟨old, a, hold, ha, rfl⟩ := hs
    have hanswer : v.answer? i = a := by
      rw [Visit.answer?, ha, Option.join_some]
    have hsome := hattends.isSome_answer? hold ha
    have hold' := hsums i old hold
    rw [hvisits, Visit.answers_concat, hanswer]
    cases a with
    | none =>
      rw [Option.toList_none, List.append_nil]
      exact hold'
    | some a =>
      -- The child was called, so its slot was running: it has not finished in this pass before.
      have hopen : old = .running := by simpa [Status.isRunning] using hsome.symm
      exact (standing_concat (hold'.symm.trans hopen) a).symm
  · refine sums_of_running ?_ (hattends.finished hended).1
    exact visits_tick_of_ended (c := ⟨v.node, visits⟩) hended

theorem Sums.push {h : Head} {q : Quorums} {stalled : Bool} {ls : List (Lane (Node ω))}
    {visits : List (Visit ω)} (hsums : Sums ⟨.parallel h q stalled ls, visits⟩)
    (hgrown : Grown ⟨.parallel h q stalled ls, visits⟩) (child : Node ω) :
    (apply ⟨.parallel h q stalled ls, visits⟩ (.push child)).Sums := by
  intro i s hs
  change (List.map Lane.slot (ls ++ [{ node := child }]))[i]? = some s at hs
  rw [List.map_append, List.getElem?_append] at hs
  split at hs
  · exact hsums i s hs
  · next hi =>
    -- No tick of this pass has seen the new child.
    have hnone : Visit.answers visits i = [] := by
      apply List.filterMap_eq_nil_iff.mpr
      intro v hv
      apply Visit.answer?_eq_none
      exact Nat.le_trans (hgrown v hv) (by simpa [Node.children] using hi)
    change s = standing (Visit.answers visits i)
    rw [hnone]
    simp only [List.map_cons, List.map_nil, List.getElem?_singleton] at hs
    split at hs
    · cases hs
      rfl
    · cases hs

def ofParallel (name : String) (q : Quorums) (cs : List (Node ω)) : Course ω :=
  { node := (Node.abreast q cs).named name }

theorem slots_ofParallel (name : String) (q : Quorums) (cs : List (Node ω)) :
    ∀ s ∈ (ofParallel name q cs).node.slots, s = .running := by
  simp [ofParallel, Node.abreast, Node.named, Node.slots]

theorem exists_parallel (name : String) (q : Quorums) (cs : List (Node ω))
    (moves : List (Move ω)) : ∃ status stalled ls,
      ((ofParallel name q cs).after moves).node = .parallel ⟨name, status⟩ q stalled ls :=
  Node.exists_parallel_of_blueprint (blueprint_after _ moves)

/-- What holds of a fresh parallel and is kept by each move of a parallel holds after any moves. -/
theorem ofParallel_induction {P : Course ω → Prop} {name : String} {q : Quorums}
    {cs : List (Node ω)} (moves : List (Move ω)) (hfresh : P (ofParallel name q cs))
    (hmove : ∀ status stalled ls visits,
      let c : Course ω := ⟨.parallel ⟨name, status⟩ q stalled ls, visits⟩
      c.Grown → P c → ∀ move, P (c.apply move)) :
    P ((ofParallel name q cs).after moves) := by
  let P' (c : Course ω) : Prop := P c ∧ c.Grown ∧ c.node.blueprint = .parallel name q
  suffices hinvariant : P' ((ofParallel name q cs).after moves) from hinvariant.1
  apply after_induction
  · exact ⟨hfresh, nofun, rfl⟩
  · rintro ⟨n, visits⟩ ⟨hP, hgrown, hblueprint⟩ move -
    obtain ⟨status, stalled, ls, rfl⟩ := Node.exists_parallel_of_blueprint hblueprint
    exact ⟨hmove status stalled ls visits hgrown hP move, hgrown.apply move,
      (blueprint_apply _ move).trans hblueprint⟩

theorem sums_after (name : String) (q : Quorums) (cs : List (Node ω)) (moves : List (Move ω)) :
    ((ofParallel name q cs).after moves).Sums := by
  refine ofParallel_induction moves (sums_of_running rfl (slots_ofParallel name q cs)) ?_
  intro status stalled ls visits c hgrown hsums move
  cases move with
  | tick m w => exact hsums.tick m w
  | reset => exact sums_of_running rfl c.node.running_of_mem_slots_reset
  | push child => exact hsums.push hgrown child

/-- Whatever happened to a fresh parallel of any children: kept apart, its children and slots are
equally many, and zipped they are the parallel; the slot of each child is running exactly as long as
the child has not finished in the present pass, and otherwise the first terminal answer of the child
in it; and a tick goes by the slots. -/
theorem slots_discipline (name : String) (q : Quorums) (cs : List (Node ω))
    (moves : List (Move ω)) :
    let c := (ofParallel name q cs).after moves
    let p := (Columns.new cs).after name q moves
    p.slots.length = p.children.length ∧
    (∃ status, c.node = p.toNode ⟨name, status⟩ q) ∧
    c.node.slots = p.slots ∧ c.node.children = p.children ∧
    (∀ i s, p.slots[i]? = some s →
      (s = .running ↔ ∀ a ∈ Visit.answers c.visits i, a = .running) ∧
      (s ≠ .running → (Visit.answers c.visits i).find? (·.isTerminal) = some s)) ∧
    ∀ m w, Visit.Attends q ⟨c.node, m, w⟩ ∧
      let t := p.tick Node.conduct name q m w
      (Node.tick m c.node w).answer = t.answer ∧ (Node.tick m c.node w).world = t.world := by
  intro c p
  have hnew : (ofParallel name q cs).node = (Columns.new cs).toNode ⟨name, none⟩ q :=
    (Node.toNode_new cs _ q).symm
  obtain ⟨hreached, status, hnode⟩ := Columns.after_toNode (.new cs) hnew moves
  have hslots : c.node.slots = p.slots := by
    rw [hnode, Node.slots_toNode hreached.aligned]
  have hchildren : c.node.children = p.children := by
    rw [hnode, Node.children_toNode hreached.aligned]
  refine ⟨hreached.aligned, ⟨status, hnode⟩, hslots, hchildren, ?_, ?_⟩
  · intro i s hs
    rw [← hslots] at hs
    obtain rfl := sums_after name q cs moves i s hs
    exact ⟨standing_eq_running_iff, find?_of_standing⟩
  · intro m w
    have htick := Node.tick_toNode hreached.aligned ⟨name, status⟩ q m w
    rw [← hnode] at htick
    exact ⟨Visit.attends hnode, congrArg Step.answer htick, congrArg Step.world htick⟩

/-- One child has succeeded and another one runs when a third joins them. -/
theorem slots_discipline_joined :
    let yes : Node Nat := .action ⟨"yes", none⟩ (some fun _ w => (.success, w))
    let wait : Node Nat := .action ⟨"wait", none⟩ (some fun _ w => (.running, w))
    let moves : List (Move Nat) :=
      [.tick ⟨0, 0.5⟩ ⟨{}, 0⟩, .tick ⟨1, 0.5⟩ ⟨{}, 0⟩, .push yes]
    let c := (ofParallel "all" ⟨.requireAll, .requireOne⟩ [yes, wait]).after moves
    let p := (Columns.new [yes, wait]).after "all" ⟨.requireAll, .requireOne⟩ moves
    c.node.slots = [.success, .running, .running] ∧ c.node.slots = p.slots ∧
      p.children.length = 3 ∧
      (Visit.answers c.visits 0).find? (·.isTerminal) = some .success ∧
      (∀ a ∈ Visit.answers c.visits 1, a = .running) ∧
      ∀ m w, Visit.Attends ⟨.requireAll, .requireOne⟩ ⟨c.node, m, w⟩ := by
  intro yes wait moves c p
  obtain ⟨hlength, -, hslots, -, hsums, hattends⟩ :=
    slots_discipline "all" ⟨.requireAll, .requireOne⟩ [yes, wait] moves
  have hstand : c.node.slots = [.success, .running, .running] := by decide
  have hthree : p.children.length = 3 := by
    rw [← hlength, ← hslots, hstand]
    rfl
  rw [← hslots, hstand] at hsums
  refine ⟨hstand, hslots, hthree, ?_, ?_, fun m w => (hattends m w).1⟩
  · exact (hsums 0 .success rfl).2 (by decide)
  · exact (hsums 1 .running rfl).1.mp rfl

end Course

end BehaviorTree
