import BehaviorTree.Proofs.Course

/-!
# Progress of a composite with memory

Between calls the cursor of a composite with memory tells how far the present pass has come: the
children before it have passed, the one at it runs, and those behind it have not been ticked. Within
a pass a child is ticked from the tick in which all children before it have passed, in each tick
until it finishes, and not again.
-/

namespace BehaviorTree

variable {ω : Type}

namespace Visit

def column (vs : List (Visit ω)) (i : Nat) : List (Option Status) := vs.map (·.answer? i)

theorem column_concat (vs : List (Visit ω)) (v : Visit ω) (i : Nat) :
    column (vs ++ [v]) i = column vs i ++ [v.answer? i] := by
  rw [column, List.map_append]
  rfl

end Visit

/-! ## Stints -/

def Underway (answers : List (Option Status)) : Prop :=
  ∃ a b, answers = List.replicate a none ++ List.replicate b (some .running)

def Over (s : Status) (answers : List (Option Status)) : Prop :=
  ∃ a b c, answers =
    List.replicate a none ++ List.replicate b (some .running) ++ some s :: List.replicate c none

/-- A child is left alone at first, then called in every tick until it finishes, and then left alone
again. -/
def Stint (answers : List (Option Status)) : Prop :=
  Underway answers ∨ ∃ s, s.isTerminal = true ∧ Over s answers

theorem Underway.of_waiting {answers : List (Option Status)} (h : ∀ a ∈ answers, a = none) :
    Underway answers :=
  ⟨answers.length, 0, by simpa using List.eq_replicate_of_mem h⟩

theorem Underway.concat_running {answers : List (Option Status)} (h : Underway answers) :
    Underway (answers ++ [some .running]) := by
  obtain ⟨a, b, rfl⟩ := h
  exact ⟨a, b + 1, by rw [List.append_assoc, ← List.replicate_succ']⟩

theorem Underway.concat {answers : List (Option Status)} (h : Underway answers) (s : Status) :
    Over s (answers ++ [some s]) := by
  obtain ⟨a, b, rfl⟩ := h
  exact ⟨a, b, 0, rfl⟩

theorem Underway.stint_concat {answers : List (Option Status)} (h : Underway answers) (s : Status) :
    Stint (answers ++ [some s]) := by
  rcases s.running_or_terminal with rfl | hs
  · exact .inl h.concat_running
  · exact .inr ⟨s, hs, h.concat s⟩

theorem Over.concat_none {s : Status} {answers : List (Option Status)} (h : Over s answers) :
    Over s (answers ++ [none]) := by
  obtain ⟨a, b, c, rfl⟩ := h
  exact ⟨a, b, c + 1, by rw [List.append_assoc, List.cons_append, ← List.replicate_succ']⟩

theorem Over.mem {s : Status} {answers : List (Option Status)} (h : Over s answers) :
    some s ∈ answers := by
  obtain ⟨a, b, c, rfl⟩ := h
  simp

/-! ## One tick -/

namespace Visit

section

variable {v : Visit ω} {h : Head} {order : Order} {k : Nat} {cs : List (Node ω)}

theorem lt_length_of_called (hv : v.node = .composite h order (.resume k) cs) {i : Nat}
    (hi : v.answer? i ≠ none) : i < cs.length := by
  by_contra hout
  apply hi
  apply answer?_eq_none
  simpa [hv, Node.children] using hout

/-- A tick calls the children from the cursor on up to the one at which the walk stops. All of these
pass but the last. -/
theorem called_of_composite (hv : v.node = .composite h order (.resume k) cs) {i : Nat}
    (hi : i < cs.length) (hstart : k ≤ i)
    (hstop : i ≤ Node.stop v.moment order.pass k cs v.world) :
    ∃ u, v.answer? i = some (Node.tick v.moment cs[i] u).answer ∧
      v.round.state[i]? = some (Node.tick v.moment cs[i] u).state ∧
      ((Node.tick v.moment cs[i] u).answer = order.pass ↔
        i ≠ Node.stop v.moment order.pass k cs v.world) := by
  obtain ⟨n, m, w⟩ := v
  subst hv
  obtain ⟨a, n', ha, hn', hturn⟩ :=
    Node.turn_round m (Node.callsFrom m order.pass k cs w) cs w i hi
  rw [(Node.getElem?_callsFrom m order.pass k cs w i).mpr ⟨hstart, hstop⟩] at hturn
  cases hturn with
  | called u => exact ⟨u, congrArg Option.join ha, hn', Node.answer_callsFrom ha⟩

theorem left_of_composite (hv : v.node = .composite h order (.resume k) cs) {i : Nat}
    (hi : i < cs.length)
    (hout : ¬ (k ≤ i ∧ i ≤ Node.stop v.moment order.pass k cs v.world)) :
    v.answer? i = none ∧ v.round.state[i]? = some cs[i] := by
  obtain ⟨n, m, w⟩ := v
  subst hv
  obtain ⟨a, n', ha, hn', hturn⟩ :=
    Node.turn_round m (Node.callsFrom m order.pass k cs w) cs w i hi
  rw [Bool.eq_false_iff.mpr (mt (Node.getElem?_callsFrom m order.pass k cs w i).mp hout)] at hturn
  cases hturn with
  | left => exact ⟨congrArg Option.join ha, hn'⟩

/-- After the round the composite runs on at the child where the walk stopped, or it has finished
and starts again with all children reset. -/
theorem step_composite (hv : v.node = .composite h order (.resume k) cs) :
    v.step.world = v.round.world ∧ v.round.emitted <+: v.step.emitted ∧
    (v.answer? (Node.stop v.moment order.pass k cs v.world) = some .running ∧
        v.step.answer = .running ∧
        v.step.state = .composite (h.record .running) order
          (.resume (Node.stop v.moment order.pass k cs v.world)) v.round.state ∨
      v.step.answer.isTerminal = true ∧
        v.step.state = .composite (h.record v.step.answer) order (.resume 0)
          (v.round.state.map Node.reset)) := by
  have hstep := Node.tick_composite_eq_round v.moment h order (.resume k) cs v.world
  have hround : Node.round v.moment (Node.callsFrom v.moment order.pass k cs v.world) cs v.world =
      v.round := by
    rw [round, hv]
    rfl
  have hanswer : v.round.answer[Node.stop v.moment order.pass k cs v.world]?.join =
      v.answer? (Node.stop v.moment order.pass k cs v.world) := rfl
  simp only [Cursor.start, hround, hanswer] at hstep
  rw [step, hv, hstep]
  refine ⟨rfl, ⟨_, (List.append_assoc ..).symm⟩, ?_⟩
  cases v.answer? (Node.stop v.moment order.pass k cs v.world) with
  | none =>
    right
    cases order <;> exact ⟨rfl, rfl⟩
  | some s =>
    cases s with
    | running => exact .inl ⟨rfl, rfl, rfl⟩
    | success | failure => exact .inr ⟨rfl, rfl⟩

end

/-- A child is called only when every child before it has passed, at the latest in the same tick. -/
def InOrder (order : Order) (vs : List (Visit ω)) : Prop :=
  EachAfter (fun before v => ∀ i j, i < j → v.answer? j ≠ none →
    ∃ u ∈ before ++ [v], u.answer? i = some order.pass) vs

structure Progress (order : Order) (k : Nat) (vs : List (Visit ω)) : Prop where
  passed : ∀ i < k, Over order.pass (column vs i)
  underway : Underway (column vs k)
  waiting : ∀ i, k < i → ∀ a ∈ column vs i, a = none
  inOrder : InOrder order vs

theorem progress_nil (order : Order) : Progress order 0 ([] : List (Visit ω)) where
  passed := nofun
  underway := ⟨0, 0, rfl⟩
  waiting := nofun
  inOrder := eachAfter_nil _

namespace Progress

variable {order : Order} {k : Nat} {vs : List (Visit ω)} {v : Visit ω} {h : Head}
  {cs : List (Node ω)}

theorem underway_of_le (hvs : Progress order k vs) {i : Nat} (hi : k ≤ i) :
    Underway (column vs i) := by
  rcases Nat.eq_or_lt_of_le hi with rfl | hgt
  · exact hvs.underway
  · exact Underway.of_waiting (hvs.waiting i hgt)

theorem inOrder_concat (hvs : Progress order k vs)
    (hv : v.node = .composite h order (.resume k) cs) : InOrder order (vs ++ [v]) := by
  refine eachAfter_concat.mpr ⟨hvs.inOrder, ?_⟩
  intro i j hij hj
  have hlen : j < cs.length := lt_length_of_called hv hj
  have hreached : k ≤ j ∧ j ≤ Node.stop v.moment order.pass k cs v.world := by
    by_contra hout
    exact hj (left_of_composite hv hlen hout).1
  by_cases hi : i < k
  · -- The child before the cursor has passed in an earlier tick.
    obtain ⟨u, hu, hanswer⟩ := List.mem_map.mp (hvs.passed i hi).mem
    exact ⟨u, List.mem_append_left _ hu, hanswer⟩
  · obtain ⟨w, hanswer, -, hpass⟩ :=
      called_of_composite hv (Nat.lt_trans hij hlen) (Nat.le_of_not_lt hi) (by omega)
    refine ⟨v, by simp, ?_⟩
    rw [hanswer, hpass.mpr (by omega)]

theorem stint_concat (hvs : Progress order k vs)
    (hv : v.node = .composite h order (.resume k) cs) {i : Nat} (hi : i < cs.length) :
    Stint (column (vs ++ [v]) i) := by
  rw [column_concat]
  rcases Nat.lt_trichotomy i k with hlt | rfl | hgt
  · rw [(left_of_composite hv hi fun hin => absurd hin.1 (Nat.not_le.mpr hlt)).1]
    exact .inr ⟨order.pass, order.isTerminal_pass, (hvs.passed i hlt).concat_none⟩
  · obtain ⟨w, hanswer, -⟩ :=
      called_of_composite hv hi (Nat.le_refl i) (Nat.le_add_right i _)
    rw [hanswer]
    exact hvs.underway.stint_concat _
  · cases hanswer : v.answer? i with
    | none =>
      apply Or.inl
      apply Underway.of_waiting
      intro a ha
      rcases List.mem_append.mp ha with ha | ha
      · exact hvs.waiting i hgt a ha
      · exact List.mem_singleton.mp ha
    | some s => exact (hvs.underway_of_le (Nat.le_of_lt hgt)).stint_concat s

theorem advance (hvs : Progress order k vs) (hv : v.node = .composite h order (.resume k) cs)
    (hrunning : v.answer? (Node.stop v.moment order.pass k cs v.world) = some .running) :
    Progress order (Node.stop v.moment order.pass k cs v.world) (vs ++ [v]) := by
  have hlen : Node.stop v.moment order.pass k cs v.world < cs.length :=
    lt_length_of_called hv (by simp [hrunning])
  have hle : k ≤ Node.stop v.moment order.pass k cs v.world := Nat.le_add_right k _
  have hinOrder := hvs.inOrder_concat hv
  generalize hstop : Node.stop v.moment order.pass k cs v.world = stop at hrunning hlen hle ⊢
  constructor
  case passed =>
    intro i hi
    rw [column_concat]
    rcases Nat.lt_or_ge i k with hlt | hge
    · rw [(left_of_composite hv (by omega) (by omega)).1]
      exact (hvs.passed i hlt).concat_none
    · obtain ⟨w, hanswer, -, hpass⟩ := called_of_composite hv (by omega) hge (by omega)
      rw [hanswer, hpass.mpr (by omega)]
      exact (hvs.underway_of_le hge).concat _
  case underway =>
    rw [column_concat, hrunning]
    exact (hvs.underway_of_le hle).concat_running
  case waiting =>
    intro i hi a ha
    rw [column_concat] at ha
    rcases List.mem_append.mp ha with ha | ha
    · exact hvs.waiting i (by omega) a ha
    · rw [List.mem_singleton.mp ha]
      by_contra hcalled
      exact hcalled (left_of_composite hv (lt_length_of_called hv hcalled) (by omega)).1
  case inOrder => exact hinOrder

end Progress

end Visit

/-! ## The cursor between calls -/

inductive Stands (order : Order) : Option Status → Nat → List (Node ω) → Prop
  | resting {status : Option Status} {cs : List (Node ω)} (hstatus : status ≠ some .running)
      (hcs : ∀ c ∈ cs, c.reset = c) : Stands order status 0 cs
  | running {k : Nat} {cs : List (Node ω)} (hk : k < cs.length)
      (hhere : cs[k].status = some .running)
      (hbefore : ∀ i (hi : i < k), cs[i].status = some order.pass)
      (hbehind : ∀ i (hi : i < cs.length), k < i → cs[i].status = none) :
      Stands order (some .running) k cs

namespace Stands

variable {order : Order} {status : Option Status} {k : Nat} {cs : List (Node ω)}

theorem status_before (h : Stands order status k cs) {i : Nat} (hi : i < cs.length) (hik : i < k) :
    cs[i].status = some order.pass := by
  cases h with
  | resting => exact absurd hik (Nat.not_lt_zero i)
  | running _ _ hbefore => exact hbefore i hik

theorem status_behind (h : Stands order status k cs) {i : Nat} (hi : i < cs.length) (hik : k < i) :
    cs[i].status = none := by
  cases h with
  | resting _ hcs => exact (Node.fresh_iff_reset_eq.mpr (hcs _ (List.getElem_mem hi))).status_eq
  | running _ _ _ hbehind => exact hbehind i hi hik

theorem push (h : Stands order status k cs) {child : Node ω} (hchild : child.Fresh) :
    Stands order status k (cs ++ [child]) := by
  cases h with
  | resting hstatus hcs =>
    refine .resting hstatus ?_
    intro c hc
    rcases List.mem_append.mp hc with hc | hc
    · exact hcs c hc
    · rw [List.mem_singleton.mp hc]
      exact hchild.reset_eq
  | running hk hhere hbefore hbehind =>
    have hlen : (cs ++ [child]).length = cs.length + 1 := by simp
    refine .running (by omega) ?_ ?_ ?_
    · rwa [List.getElem_append_left hk]
    · intro i hi
      rw [List.getElem_append_left (Nat.lt_trans hi hk)]
      exact hbefore i hi
    · intro i hi hki
      rcases Nat.lt_or_ge i cs.length with hlt | hge
      · rw [List.getElem_append_left hlt]
        exact hbehind i hlt hki
      · rw [List.getElem_append_right hge]
        simpa using hchild.status_eq

end Stands

theorem stands_reset (order : Order) {status : Option Status} (h : status ≠ some .running)
    (cs : List (Node ω)) : Stands order status 0 (cs.map Node.reset) := by
  refine .resting h ?_
  intro c hc
  obtain ⟨d, -, rfl⟩ := List.mem_map.mp hc
  exact d.reset_reset

theorem Stands.round {v : Visit ω} {h : Head} {order : Order} {k : Nat} {cs : List (Node ω)}
    (hstands : Stands order h.status k cs) (hv : v.node = .composite h order (.resume k) cs)
    (hrunning : v.answer? (Node.stop v.moment order.pass k cs v.world) = some .running) :
    Stands order (some .running) (Node.stop v.moment order.pass k cs v.world) v.round.state := by
  have hlen : v.round.state.length = cs.length := by
    rw [Visit.round, Node.length_state_round, hv]
    rfl
  have hstop : Node.stop v.moment order.pass k cs v.world < cs.length :=
    Visit.lt_length_of_called hv (by simp [hrunning])
  have hle : k ≤ Node.stop v.moment order.pass k cs v.world := Nat.le_add_right k _
  generalize hk' : Node.stop v.moment order.pass k cs v.world = k' at hrunning hstop hle ⊢
  -- A child that has been called records its answer, the others still record what they did.
  have hcalled : ∀ i (hi : i < cs.length), k ≤ i → i ≤ k' →
      v.round.state[i].status = v.answer? i ∧ (v.answer? i = some order.pass ↔ i ≠ k') := by
    intro i hi hki hik
    obtain ⟨u, hanswer, hstate, hpass⟩ := Visit.called_of_composite hv hi hki (by omega)
    rw [← Option.some.inj ((List.getElem?_eq_getElem (by omega)).symm.trans hstate).symm, hanswer,
      Node.status_tick]
    refine ⟨rfl, ?_⟩
    rw [Option.some.injEq, hpass, hk']
  have hleft : ∀ i (hi : i < cs.length), ¬ (k ≤ i ∧ i ≤ k') → v.round.state[i] = cs[i] := by
    intro i hi hout
    have hstate := (Visit.left_of_composite hv hi (by omega)).2
    exact Option.some.inj ((List.getElem?_eq_getElem (by omega)).symm.trans hstate)
  refine .running (by omega) ?_ ?_ ?_
  · rw [(hcalled k' hstop hle (Nat.le_refl k')).1, hrunning]
  · intro i hi
    rcases Nat.lt_or_ge i k with hlt | hge
    · rw [hleft i (by omega) (by omega)]
      exact hstands.status_before (by omega) hlt
    · obtain ⟨hstatus, hpass⟩ := hcalled i (by omega) hge (by omega)
      rw [hstatus, hpass.mpr (by omega)]
  · intro i hi hki
    rw [hleft i (by omega) (by omega)]
    exact hstands.status_behind (by omega) (by omega)

namespace Course

def Resumes (order : Order) (c : Course ω) : Prop :=
  ∃ h k cs, c.node = .composite h order (.resume k) cs ∧ Stands order h.status k cs ∧
    Visit.Progress order k c.visits

theorem Resumes.apply {order : Order} {c : Course ω} (hc : c.Resumes order) {move : Move ω}
    (hpush : move.change.Pushes Node.Fresh) : (c.apply move).Resumes order := by
  obtain ⟨n, visits⟩ := c
  obtain ⟨h, k, cs, rfl, hstands, hprogress⟩ := hc
  cases move with
  | tick m w =>
    let v : Visit ω := ⟨.composite h order (.resume k) cs, m, w⟩
    obtain ⟨-, -, ⟨hanswer, hrunning, hstate⟩ | ⟨hended, hstate⟩⟩ :=
      Visit.step_composite (v := v) rfl
    · refine ⟨_, _, _, hstate, hstands.round (v := v) rfl hanswer, ?_⟩
      rw [visits_tick_of_running (c := ⟨v.node, visits⟩) hrunning]
      exact hprogress.advance (v := v) rfl hanswer
    · refine ⟨_, _, _, hstate, stands_reset order ?_ _, ?_⟩
      · intro hrunning
        rw [Option.some.inj hrunning] at hended
        cases hended
      · rw [visits_tick_of_ended (c := ⟨v.node, visits⟩) hended]
        exact Visit.progress_nil order
  | reset =>
    have hstate : (Node.composite h order (.resume k) cs).reset =
        .composite h.clear order (.resume 0) (cs.map Node.reset) := by
      rw [Node.reset, Node.resetAll_eq_map]
      rfl
    refine ⟨h.clear, 0, cs.map Node.reset, hstate, stands_reset order ?_ cs,
      Visit.progress_nil order⟩
    intro hrunning
    cases hrunning
  | push child => exact ⟨h, k, cs ++ [child], rfl, hstands.push hpush, hprogress⟩

theorem resumes_after (order : Order) (name : String) {cs : List (Node ω)}
    (hcs : ∀ c ∈ cs, c.Fresh) {moves : List (Move ω)}
    (hpush : ∀ move ∈ moves, move.change.Pushes Node.Fresh) :
    (Course.after { node := (Node.compose order true cs).named name } moves).Resumes order := by
  apply after_induction
  · refine ⟨⟨name, none⟩, 0, cs, rfl, .resting ?_ fun c hc => (hcs c hc).reset_eq,
      Visit.progress_nil order⟩
    intro hrunning
    cases hrunning
  · intro c hc move hmove
    exact hc.apply (hpush move hmove)

/-- Whatever happened to a composite with memory that was built from fresh children: between calls
its cursor and its children stand as they should, and in each pass, the next tick included, every
child has one stint of ticks, the children take their stints in order, and what a tick does to them
is a round over the ones that it calls. -/
theorem cursor_discipline (order : Order) (name : String) {cs : List (Node ω)}
    (hcs : ∀ c ∈ cs, c.Fresh) {moves : List (Move ω)}
    (hpush : ∀ move ∈ moves, move.change.Pushes Node.Fresh) :
    let c := Course.after { node := (Node.compose order true cs).named name } moves
    (∃ h k cs', c.node = .composite h order (.resume k) cs' ∧ Stands order h.status k cs') ∧
    ∀ m w,
      let v : Visit ω := ⟨c.node, m, w⟩
      let vs := c.visits ++ [v]
      (∀ i < c.node.children.length, Stint (Visit.column vs i)) ∧ Visit.InOrder order vs ∧
      v.step.world = v.round.world ∧ v.round.emitted <+: v.step.emitted ∧
      (v.step.state.children = v.round.state ∨
        v.step.state.children = v.round.state.map Node.reset) := by
  intro c
  obtain ⟨h, k, cs', hn, hstands, hprogress⟩ := resumes_after order name hcs hpush
  refine ⟨⟨h, k, cs', hn, hstands⟩, ?_⟩
  intro m w v vs
  have hv : v.node = .composite h order (.resume k) cs' := hn
  obtain ⟨hworld, hemitted, hstate⟩ := Visit.step_composite hv
  refine ⟨?_, hprogress.inOrder_concat hv, hworld, hemitted, ?_⟩
  · intro i hi
    refine hprogress.stint_concat hv ?_
    simpa [c, hn, Node.children] using hi
  · rcases hstate with ⟨-, -, hstate⟩ | ⟨-, hstate⟩
    · exact .inl (congrArg Node.children hstate)
    · exact .inr (congrArg Node.children hstate)

/-- Over a host that counts calls: the second child finishes in the second tick, in which the walk
goes on to a third one that has been pushed in between. -/
theorem cursor_discipline_errand :
    let count (answer : Nat → Status) : Action Nat :=
      fun _ w => (answer w.host, { w with host := w.host + 1 })
    let ready : Node Nat := .action ⟨"ready", none⟩ (some (count fun _ => .success))
    let walk : Node Nat :=
      .action ⟨"walk", none⟩ (some (count fun calls => if calls ≤ 1 then .running else .success))
    let rest : Node Nat := .action ⟨"rest", none⟩ (some (count fun _ => .running))
    let c := Course.after { node := (Node.compose .sequence true [ready, walk]).named "errand" }
      [.tick ⟨0, 0.5⟩ ⟨{}, 0⟩, .push rest]
    let vs := c.visits ++ [⟨c.node, ⟨1, 0.5⟩, ⟨{}, 2⟩⟩]
    (∀ x ∈ [ready, walk], x.Fresh) ∧ rest.Fresh ∧
      c.node.children.map Node.status = [some .success, some .running, none] ∧
      (List.range 3).map (Visit.column vs) =
        [[some .success, none], [some .running, some .success], [none, some .running]] ∧
      (∃ h k cs, c.node = .composite h .sequence (.resume k) cs ∧
        Stands .sequence h.status k cs) ∧
      (∀ i < c.node.children.length, Stint (Visit.column vs i)) ∧
      Visit.InOrder .sequence vs := by
  intro count ready walk rest c vs
  have hcs : ∀ x ∈ [ready, walk], x.Fresh := by
    intro x hx
    simp only [List.mem_cons, List.not_mem_nil, or_false] at hx
    rcases hx with rfl | rfl <;> exact Node.fresh_action _ _
  have hrest : rest.Fresh := Node.fresh_action _ _
  have hpush : ∀ move ∈ [Move.tick ⟨0, 0.5⟩ ⟨{}, 0⟩, .push rest],
      move.change.Pushes Node.Fresh := by
    intro move hmove
    simp only [List.mem_cons, List.not_mem_nil, or_false] at hmove
    rcases hmove with rfl | rfl
    · trivial
    · exact hrest
  obtain ⟨hstands, hticks⟩ := cursor_discipline .sequence "errand" hcs hpush
  obtain ⟨hstints, hinOrder, -⟩ := hticks ⟨1, 0.5⟩ ⟨{}, 2⟩
  exact ⟨hcs, hrest, by decide, by decide, hstands, hstints, hinOrder⟩

end Course

end BehaviorTree
