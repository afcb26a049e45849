import BehaviorTree.Proofs.Step

/-!
# Rounds

In a round over a list of nodes some of them are called: each of those is ticked once, in order, in
the world that the one before it left. The others are left alone. Whatever a composite or a parallel
does to its children in one tick is a round, after which it may reset them all; which children it
calls is told by the slots of the parallel, and for a composite by its cursor and by the first child
that does not pass.
-/

namespace BehaviorTree

variable {ω : Type}

namespace Node

/-- A node without a flag is not called. The answers are listed by node, called or not. -/
def round (m : Moment) : List Bool → List (Node ω) → World ω →
    Step (List (Option Status)) (List (Node ω)) (World ω)
  | _, [], w => ⟨[], [], w, []⟩
  | calls, n :: ns, w =>
    if calls.headD false then
      let c := tick m n w
      let rest := round m calls.tail ns c.world
      ⟨some c.answer :: rest.answer, c.state :: rest.state, rest.world,
        c.emitted ++ rest.emitted⟩
    else
      let rest := round m calls.tail ns w
      ⟨none :: rest.answer, n :: rest.state, rest.world, rest.emitted⟩

section

variable (m : Moment) (calls : List Bool) (n : Node ω) (ns : List (Node ω)) (w : World ω)

theorem round_cons_true :
    let c := tick m n w
    let rest := round m calls ns c.world
    round m (true :: calls) (n :: ns) w =
      ⟨some c.answer :: rest.answer, c.state :: rest.state, rest.world,
        c.emitted ++ rest.emitted⟩ := rfl

theorem round_cons_false :
    let rest := round m calls ns w
    round m (false :: calls) (n :: ns) w =
      ⟨none :: rest.answer, n :: rest.state, rest.world, rest.emitted⟩ := rfl

theorem round_nil : round m [] ns w = ⟨ns.map fun _ => none, ns, w, []⟩ := by
  induction ns with
  | nil => rfl
  | cons n ns ih =>
    rw [round, if_neg (by simp), List.tail_nil, ih]
    rfl

end

inductive Turn (m : Moment) (n : Node ω) : (called : Bool) → Option Status → Node ω → Prop
  | called (w : World ω) : Turn m n true (some (tick m n w).answer) (tick m n w).state
  | left : Turn m n false none n

theorem Turn.isSome_eq {m : Moment} {n n' : Node ω} {called : Bool} {a : Option Status}
    (h : Turn m n called a n') : a.isSome = called := by
  cases h <;> rfl

theorem turn_round (m : Moment) (calls : List Bool) (ns : List (Node ω)) (w : World ω) (i : Nat)
    (hi : i < ns.length) :
    ∃ a n', (round m calls ns w).answer[i]? = some a ∧
      (round m calls ns w).state[i]? = some n' ∧
      Turn m ns[i] (calls[i]?.getD false) a n' := by
  induction ns generalizing calls w i with
  | nil => cases hi
  | cons n ns ih =>
    have hhead : calls[0]?.getD false = calls.headD false := by cases calls <;> rfl
    have htail : ∀ j, calls[j + 1]? = calls.tail[j]? := by cases calls <;> simp
    rw [round]
    cases i with
    | zero =>
      rw [hhead]
      cases hcall : calls.headD false with
      | true => exact ⟨_, _, rfl, rfl, .called w⟩
      | false => exact ⟨_, _, rfl, rfl, .left⟩
    | succ j =>
      rw [htail]
      have hj : j < ns.length := Nat.lt_of_succ_lt_succ hi
      split
      · exact ih calls.tail _ j hj
      · exact ih calls.tail w j hj

theorem length_answer_round (m : Moment) (calls : List Bool) (ns : List (Node ω)) (w : World ω) :
    (round m calls ns w).answer.length = ns.length := by
  induction ns generalizing calls w with
  | nil => rfl
  | cons n ns ih =>
    rw [round]
    split <;> simp [ih]

theorem length_state_round (m : Moment) (calls : List Bool) (ns : List (Node ω)) (w : World ω) :
    (round m calls ns w).state.length = ns.length := by
  induction ns generalizing calls w with
  | nil => rfl
  | cons n ns ih =>
    rw [round]
    split <;> simp [ih]

/-! ## Walks -/

def fullRound (m : Moment) (ns : List (Node ω)) (w : World ω) :
    Step (List (Option Status)) (List (Node ω)) (World ω) :=
  round m (ns.map fun _ => true) ns w

/-- The number of the first node that does not pass if all of them are ticked in order, or the
number of nodes if all of them pass. -/
def decider (m : Moment) (pass : Status) (ns : List (Node ω)) (w : World ω) : Nat :=
  (fullRound m ns w).answer.findIdx (· ≠ some pass)

theorem decider_cons (m : Moment) (pass : Status) (n : Node ω) (ns : List (Node ω))
    (w : World ω) : decider m pass (n :: ns) w =
      if (tick m n w).answer = pass then decider m pass ns (tick m n w).world + 1 else 0 := by
  rw [decider, fullRound, List.map_cons, round_cons_true, List.findIdx_cons]
  by_cases hpass : (tick m n w).answer = pass
  · simp [hpass, decider, fullRound]
  · simp [hpass]

def stop (m : Moment) (pass : Status) (start : Nat) (ns : List (Node ω)) (w : World ω) : Nat :=
  start + decider m pass (ns.drop start) w

def callsFrom (m : Moment) (pass : Status) (start : Nat) (ns : List (Node ω)) (w : World ω) :
    List Bool :=
  List.replicate start false ++ List.replicate (decider m pass (ns.drop start) w + 1) true

theorem callsFrom_succ (m : Moment) (pass : Status) (start : Nat) (n : Node ω)
    (ns : List (Node ω)) (w : World ω) :
    callsFrom m pass (start + 1) (n :: ns) w = false :: callsFrom m pass start ns w := rfl

theorem callsFrom_of_pass {m : Moment} {pass : Status} {n : Node ω} {w : World ω}
    (h : (tick m n w).answer = pass) (ns : List (Node ω)) :
    callsFrom m pass 0 (n :: ns) w = true :: callsFrom m pass 0 ns (tick m n w).world := by
  simp only [callsFrom, List.drop_zero, decider_cons, if_pos h]
  rfl

theorem callsFrom_of_not_pass {m : Moment} {pass : Status} {n : Node ω} {w : World ω}
    (h : (tick m n w).answer ≠ pass) (ns : List (Node ω)) :
    callsFrom m pass 0 (n :: ns) w = [true] := by
  simp only [callsFrom, List.drop_zero, decider_cons, if_neg h]
  rfl

theorem stop_succ (m : Moment) (pass : Status) (start : Nat) (n : Node ω) (ns : List (Node ω))
    (w : World ω) : stop m pass (start + 1) (n :: ns) w = stop m pass start ns w + 1 := by
  rw [stop, stop, List.drop_succ_cons, Nat.add_right_comm]

theorem stop_cons (m : Moment) (pass : Status) (n : Node ω) (ns : List (Node ω)) (w : World ω) :
    stop m pass 0 (n :: ns) w =
      if (tick m n w).answer = pass then stop m pass 0 ns (tick m n w).world + 1 else 0 := by
  simp only [stop, List.drop_zero, Nat.zero_add, decider_cons]

theorem walk_eq_round (m : Moment) (pass : Status) (start index : Nat) (ns : List (Node ω))
    (w : World ω) :
    let k := stop m pass (start - index) ns w
    let r := round m (callsFrom m pass (start - index) ns w) ns w
    walk m pass start index ns w =
      ⟨(r.answer[k]?.join).map fun s => (index + k, s), r.state, r.world, r.emitted⟩ := by
  -- The walk numbers the nodes from `index` on, the round from zero on.
  induction ns generalizing index w with
  | nil => rfl
  | cons n ns ih =>
    have hshift : ∀ k, index + 1 + k = index + (k + 1) := by omega
    rw [walk]
    by_cases hskip : index < start
    · have hfirst : start - index = start - (index + 1) + 1 := by omega
      simp only [if_pos hskip, ih, hfirst, stop_succ, callsFrom_succ, round_cons_false,
        List.getElem?_cons_succ, hshift]
    · have hfirst : start - index = 0 := by omega
      have hnext : start - (index + 1) = 0 := by omega
      rw [if_neg hskip, hfirst]
      by_cases hpass : (tick m n w).answer = pass
      · simp only [if_pos hpass, ih, hnext, stop_cons,
          callsFrom_of_pass hpass, round_cons_true, List.getElem?_cons_succ, hshift]
      · simp only [if_neg hpass, stop_cons, callsFrom_of_not_pass hpass, round_cons_true,
          round_nil, List.getElem?_cons_zero, Option.join_some, Option.map_some, Nat.add_zero,
          List.append_nil]

/-- In such a round every node that answers passes, except the one at which the walk stops. -/
theorem answer_callsFrom {m : Moment} {pass : Status} {start : Nat} {ns : List (Node ω)}
    {w : World ω} {i : Nat} {s : Status}
    (h : (round m (callsFrom m pass start ns w) ns w).answer[i]? = some (some s)) :
    s = pass ↔ i ≠ stop m pass start ns w := by
  induction ns generalizing start w i with
  | nil => cases h
  | cons n ns ih =>
    cases start with
    | succ start =>
      rw [callsFrom_succ, round_cons_false] at h
      rw [stop_succ]
      cases i with
      | zero => cases h
      | succ i => exact (ih h).trans (by omega)
    | zero =>
      rw [stop_cons]
      by_cases hpass : (tick m n w).answer = pass
      · rw [callsFrom_of_pass hpass, round_cons_true] at h
        rw [if_pos hpass]
        cases i with
        | zero =>
          cases h
          simp [hpass]
        | succ i => exact (ih h).trans (by omega)
      · rw [callsFrom_of_not_pass hpass, round_cons_true, round_nil] at h
        rw [if_neg hpass]
        cases i with
        | zero =>
          cases h
          simp [hpass]
        | succ i => simp [List.getElem?_replicate] at h

theorem getElem?_callsFrom (m : Moment) (pass : Status) (start : Nat) (ns : List (Node ω))
    (w : World ω) (i : Nat) :
    (callsFrom m pass start ns w)[i]?.getD false = true ↔
      start ≤ i ∧ i ≤ stop m pass start ns w := by
  rw [callsFrom, List.getElem?_append, List.length_replicate, stop]
  split
  · next hi =>
    have hi' : ¬ start ≤ i := Nat.not_le.mpr hi
    simp [hi, hi']
  · simp only [List.getElem?_replicate]
    split <;> simp <;> omega

theorem round_replicate (m : Moment) (j : Nat) (ns : List (Node ω)) (w : World ω) :
    let c := fullRound m (ns.take j) w
    round m (List.replicate j true) ns w =
      ⟨c.answer ++ (ns.drop j).map fun _ => none, c.state ++ ns.drop j, c.world,
        c.emitted⟩ := by
  induction ns generalizing j w with
  | nil => simp [fullRound, round]
  | cons n ns ih =>
    cases j with
    | zero => exact round_nil m (n :: ns) w
    | succ j =>
      rw [List.replicate_succ, round_cons_true, ih, List.take_succ_cons, List.drop_succ_cons,
        fullRound, List.map_cons, round_cons_true]
      rfl

theorem fullRound_take (m : Moment) (j : Nat) (ns : List (Node ω)) (w : World ω) :
    (fullRound m (ns.take j) w).answer = (fullRound m ns w).answer.take j ∧
      (fullRound m (ns.take j) w).state = (fullRound m ns w).state.take j := by
  induction ns generalizing j w with
  | nil => simp [fullRound, round]
  | cons n ns ih =>
    cases j with
    | zero => exact ⟨rfl, rfl⟩
    | succ j =>
      obtain ⟨hanswer, hstate⟩ := ih j (tick m n w).world
      simp only [fullRound] at hanswer hstate
      simp only [fullRound, List.take_succ_cons, List.map_cons, round_cons_true]
      rw [hanswer, hstate]
      exact ⟨rfl, rfl⟩

/-! ## Rounds of nodes -/

def calls (m : Moment) : Node ω → World ω → List Bool
  | condition .., _ | action .., _ => []
  | decorator _ kind c, _ => c.toList.map fun _ => !kind.isDue
  | composite _ order cursor cs, w => callsFrom m order.pass cursor.start cs w
  | parallel _ _ _ ls, _ => ls.map (·.slot.isRunning)
  | subtree _ _ _ t, _ => t.root.toList.map fun _ => true

theorem tick_composite_eq_round (m : Moment) (h : Head) (order : Order) (cursor : Cursor)
    (cs : List (Node ω)) (w : World ω) :
    let k := stop m order.pass cursor.start cs w
    let r := round m (callsFrom m order.pass cursor.start cs w) cs w
    let decision := (r.answer[k]?.join).map fun s => (k, s)
    let s := order.conclude decision
    let clears := order.clears cursor decision
    tick m (composite h order cursor cs) w =
      ⟨s, composite (h.record s) order (cursor.after decision)
          (if clears then r.state.map reset else r.state), r.world,
        r.emitted ++ (if clears then r.state.flatMap resetEmissions else []) ++
          finishedComposite h s⟩ := by
  rw [tick_composite, walk_eq_round]
  simp only [Nat.sub_zero, Nat.zero_add, resetAll_eq_map, resetAllEmissions_eq_flatMap]

def fill (slots : List Status) (answers : List (Option Status)) : List Status :=
  List.zipWith (fun s a => a.getD s) slots answers

theorem tickOpen_eq_round (m : Moment) (ls : List (Lane (Node ω))) (w : World ω) :
    let c := tickOpen m ls w
    let r := round m (ls.map (·.slot.isRunning)) (ls.map (·.node)) w
    c.state.map (·.slot) = fill (ls.map (·.slot)) r.answer ∧ c.state.map (·.node) = r.state ∧
      c.world = r.world ∧ c.emitted = r.emitted := by
  induction ls generalizing w with
  | nil => exact ⟨rfl, rfl, rfl, rfl⟩
  | cons l ls ih =>
    obtain ⟨slot, n⟩ := l
    rw [tickOpen]
    simp only [List.map_cons]
    by_cases hopen : slot = .running
    · obtain ⟨hslots, hnodes, hworld, hemitted⟩ := ih (tick m n w).world
      have hflag : slot.isRunning = true := decide_eq_true hopen
      rw [if_pos hopen, hflag, round_cons_true]
      refine ⟨?_, ?_, hworld, ?_⟩
      · simp [fill, hslots]
      · simp [hnodes]
      · simp [hemitted]
    · obtain ⟨hslots, hnodes, hworld, hemitted⟩ := ih w
      have hflag : slot.isRunning = false := decide_eq_false hopen
      rw [if_neg hopen, hflag, round_cons_false]
      refine ⟨?_, ?_, hworld, hemitted⟩
      · simp [fill, hslots]
      · simp [hnodes]

end Node

end BehaviorTree
