import BehaviorTree.Proofs.Duality

/-!
# Composites with memory

A composite with memory goes on with the child that is running, where one without ticks the
children before it again. In runs in which every child that is ticked again passes again and
changes nothing by it, the two give the same responses. A single tick from the first child on is
the same in any case.
-/

namespace BehaviorTree

variable {ω : Type}

theorem forall₂_of_getElem? {α β : Type} {R : α → β → Prop} {as : List α} {bs : List β}
    (h : ∀ i : Nat, Option.Rel R as[i]? bs[i]?) : List.Forall₂ R as bs := by
  induction as generalizing bs with
  | nil =>
    cases bs with
    | nil => exact .nil
    | cons b bs => cases h 0
  | cons a as ih =>
    cases bs with
    | nil => cases h 0
    | cons b bs =>
      have hhead : Option.Rel R (some a) (some b) := h 0
      cases hhead with
      | some hab => exact .cons hab (ih fun i => h (i + 1))

namespace Node

/-- At every position the same continuation state, closures and blackboard: the nodes differ in
recorded answers and counts of ticks at most. -/
def Agrees (n n' : Node ω) : Prop :=
  ∀ path, (n.get? path).map form = (n'.get? path).map form

theorem Agrees.children {n n' : Node ω} (h : n.Agrees n') :
    List.Forall₂ Agrees n.children n'.children := by
  apply forall₂_of_getElem?
  intro i
  have hchild := fun path => h (i :: path)
  simp only [get?] at hchild
  cases hc : n.children[i]? with
  | none =>
    cases hc' : n'.children[i]? with
    | none => exact .none
    | some c' => simpa [hc, hc', get?] using hchild []
  | some c =>
    cases hc' : n'.children[i]? with
    | none => simpa [hc, hc', get?] using hchild []
    | some c' => exact .some fun path => by simpa [hc, hc'] using hchild path

theorem Agrees.alike {n n' : Node ω} (h : n.Agrees n') : n.Alike n' := by
  induction n using childInduction generalizing n' with
  | _ n ih =>
    have hform : n.form = n'.form := Option.some.inj (h [])
    refine .of_form_eq hform ?_
    have hchildren :=
      (List.forall₂_and_left (p := (· ∈ n.children)) _ _).mpr ⟨fun _ hc => hc, h.children⟩
    exact hchildren.imp fun c c' hcc' => ih c hcc'.1 hcc'.2

structure Repeats (m : Moment) (s : Status) (n : Node ω) (w : World ω) : Prop where
  answer : (tick m n w).answer = s
  world : (tick m n w).world = w
  agrees : (tick m n w).state.Agrees n

def passedBy : Option (Nat × Status) → Nat
  | some (index, .running) => index
  | _ => 0

/-- In the run of a composite without memory, every child that the present pass has gone through
passes again when it is ticked again, and changes nothing. -/
def PassesAgain (order : Order) : List Stimulus → (passed : Nat) → Node ω → World ω → Prop
  | [], _, _, _ => True
  | .tick m :: ss, passed, n, w =>
    (∀ c ∈ n.children.take passed, c.Repeats m order.pass w) ∧
      PassesAgain order ss (passedBy (walk m order.pass 0 0 n.children w).answer)
        (tick m n w).state (tick m n w).world
  | .reset :: ss, _, n, w => PassesAgain order ss 0 n.reset w
  | .write f :: ss, passed, n, w =>
    PassesAgain order ss passed n { w with blackboard := f w.blackboard }

theorem walk_of_repeats {m : Moment} {pass : Status} (start index : Nat) (ns : List (Node ω))
    {w : World ω} (h : ∀ c ∈ ns.take (start - index), c.Repeats m pass w) :
    (walk m pass 0 index ns w).Match Eq (List.Forall₂ Alike) (walk m pass start index ns w) := by
  induction ns generalizing index w with
  | nil => exact ⟨rfl, .nil, rfl, rfl⟩
  | cons n ns ih =>
    rw [walk, walk, if_neg (Nat.not_lt_zero index)]
    by_cases hskip : index < start
    · have hstart : start - index = (start - (index + 1)) + 1 := by omega
      rw [hstart, List.take_succ_cons, List.forall_mem_cons] at h
      obtain ⟨hn, hns⟩ := h
      have hrest := ih (index + 1) hns
      rw [if_pos hskip, if_pos hn.answer, hn.world]
      exact ⟨hrest.answer, .cons hn.agrees.alike hrest.state, hrest.world⟩
    · rw [if_neg hskip]
      dsimp only
      split
      · have hnone : ∀ c ∈ ns.take (start - (index + 1)), c.Repeats m pass (tick m n w).world := by
          rw [Nat.sub_eq_zero_of_le (by omega), List.take_zero]
          simp
        have hrest := ih (index + 1) hnone
        exact ⟨hrest.answer, .cons (Alike.refl _) hrest.state, hrest.world⟩
      · exact ⟨rfl, List.forall₂_refl _, rfl, rfl⟩

def Remembers (order : Order) (passed : Nat) (n n' : Node ω) : Prop :=
  ∃ h h' cs cs', n = composite h order .restart cs ∧ n' = composite h' order (.resume passed) cs' ∧
    List.Forall₂ Alike cs cs' ∧ ∀ c ∈ cs, c.Settler

theorem Cursor.after_resume (passed : Nat) (answer : Option (Nat × Status)) :
    (Cursor.resume passed).after answer = .resume (passedBy answer) := by
  cases answer with
  | none => rfl
  | some a =>
    obtain ⟨index, s⟩ := a
    cases s <;> rfl

theorem Remembers.tick {order : Order} {passed : Nat} {n n' : Node ω} {m : Moment} {w : World ω}
    (h : Remembers order passed n n')
    (hagain : ∀ c ∈ n.children.take passed, c.Repeats m order.pass w) :
    (tick m n w).Match Eq
      (Remembers order (passedBy (walk m order.pass 0 0 n.children w).answer)) (tick m n' w) := by
  obtain ⟨head, head', cs, cs', rfl, rfl, hcs, hsettlers⟩ := h
  have hskip := walk_of_repeats passed 0 cs hagain
  have hwalk := (isBisimulation_bisimilar Eq).walk order.pass passed 0 hcs
    (rfl : m.elapsed = m.elapsed) (⟨rfl, rfl⟩ : w.Match Eq w)
  have hanswer := hskip.answer.trans hwalk.answer
  have hstate := forall₂_alike_trans hskip.state hwalk.state
  have hkept : List.Forall₂ Alike (kept order .restart (walk m order.pass 0 0 cs w))
      (kept order (.resume passed) (walk m order.pass passed 0 cs' w)) := by
    by_cases hdone : (order.conclude (walk m order.pass 0 0 cs w).answer).isTerminal = true
    · have hleft := alike_kept_of_finished .restart (fun _ => hsettlers) hdone
      have hright := alike_kept_of_finished (.resume passed) nofun (hanswer ▸ hdone)
      exact forall₂_alike_trans hleft
        (forall₂_alike_trans (forall₂_alike_resetAll hstate) (forall₂_alike_symm hright))
    · simp only [kept, Order.clears_of_running hdone, Order.clears_of_running (hanswer ▸ hdone)]
      exact hstate
  have hsettlers' := Settler.children_tick (n := composite head order .restart cs) hsettlers m w
  rw [tick_composite] at hsettlers'
  rw [tick_composite, tick_composite]
  simp only [children]
  have hworld : (walk m order.pass 0 0 cs w).world = (walk m order.pass passed 0 cs' w).world :=
    hskip.world.eq.trans hwalk.world.eq
  have hrestart : Cursor.restart.after (walk m order.pass 0 0 cs w).answer = .restart :=
    Cursor.after_eq_restart.mpr rfl
  have hresume : (Cursor.resume passed).after (walk m order.pass passed 0 cs' w).answer =
      .resume (passedBy (walk m order.pass 0 0 cs w).answer) := by
    rw [Cursor.after_resume, hanswer]
  simp only [Cursor.start, hrestart, hresume]
  exact ⟨congrArg order.conclude hanswer, ⟨_, _, _, _, rfl, rfl, hkept, hsettlers'⟩,
    congrArg World.blackboard hworld, congrArg World.host hworld⟩

theorem Remembers.reset {order : Order} {passed : Nat} {n n' : Node ω}
    (h : Remembers order passed n n') : Remembers order 0 n.reset n'.reset := by
  obtain ⟨head, head', cs, cs', rfl, rfl, hcs, hsettlers⟩ := h
  exact ⟨_, _, _, _, rfl, rfl, forall₂_alike_resetAll hcs,
    Settler.children_reset (n := composite head order .restart cs) hsettlers⟩

theorem Remembers.responses_eq {order : Order} {passed : Nat} {n n' : Node ω}
    (h : Remembers order passed n n') {ss : List Stimulus} {w : World ω}
    (hagain : PassesAgain order ss passed n w) : responses ss n w = responses ss n' w := by
  induction ss generalizing passed n n' w with
  | nil => rfl
  | cons s ss ih =>
    cases s with
    | tick m =>
      obtain ⟨hnow, hlater⟩ := hagain
      have hstep := h.tick hnow
      rw [responses_cons, responses_cons, respond, respond, hstep.answer, ← hstep.world.eq,
        ih hstep.state hlater]
    | reset => exact congrArg _ (ih h.reset hagain)
    | write f => exact congrArg _ (ih h hagain)

theorem remembers_compose (order : Order) {cs : List (Node ω)} (hcs : ∀ c ∈ cs, c.Settler) :
    Remembers order 0 (compose order false cs) (compose order true cs) :=
  ⟨_, _, cs, cs, rfl, rfl, List.forall₂_refl cs, hcs⟩

/-- From the first child on, a tick does not show whether there is a memory. -/
theorem responses_tick (h h' : Head) (order : Order) (cs : List (Node ω)) (m : Moment)
    (w : World ω) : responses [.tick m] (composite h order .restart cs) w =
      responses [.tick m] (composite h' order (.resume 0) cs) w := by
  simp only [responses, steps, respond, tick_composite]
  rfl

theorem responsesWithCalls_tick (h h' : Head) (order : Order) (cs : List (Node ω)) (m : Moment)
    (w : World ω) : responsesWithCalls [.tick m] (composite h order .restart cs) w =
      responsesWithCalls [.tick m] (composite h' order (.resume 0) cs) w := by
  exact responses_tick h h' order (recordedAll cs) m _

/-- Fresh children without reports of constant success respond in a composite without memory as
they do in one with memory, in every run in which to tick a child again is without effect. From
any children in any state a single tick of the two, begun at the first child, is the same, calls
of closures included. -/
theorem responses_resuming (order : Order) :
    (∀ (cs : List (Node ω)), (∀ c ∈ cs, c.Fresh ∧ c.Everywhere Forwards) →
      ∀ (ss : List Stimulus) (w : World ω),
        PassesAgain order ss 0 (compose order false cs) w →
        responses ss (compose order false cs) w = responses ss (compose order true cs) w) ∧
    ∀ (h h' : Head) (cs : List (Node ω)) (m : Moment) (w : World ω),
      responses [.tick m] (composite h order .restart cs) w =
          responses [.tick m] (composite h' order (.resume 0) cs) w ∧
        responsesWithCalls [.tick m] (composite h order .restart cs) w =
          responsesWithCalls [.tick m] (composite h' order (.resume 0) cs) w := by
  constructor
  · intro cs hcs ss w hagain
    have hsettlers : ∀ c ∈ cs, c.Settler := fun c hc => .of_fresh (hcs c hc).1 (hcs c hc).2
    exact (remembers_compose order hsettlers).responses_eq hagain
  · intro h h' cs m w
    exact ⟨responses_tick h h' order cs m w, responsesWithCalls_tick h h' order cs m w⟩

theorem repeats_condition (m : Moment) (h : Head) {p : Predicate ω} {w : World ω}
    (hhost : (p w).2 = w.host) : (condition h (some p)).Repeats m (Status.ofBool (p w).1) w := by
  refine ⟨rfl, ?_, ?_⟩
  · simp only [tick, hhost]
  · rintro (_ | ⟨i, path⟩) <;> rfl

/-- The condition passes in every tick, and the action runs until the host has counted to two. -/
theorem responses_resuming_drawing :
    let armed : Predicate Nat := fun w => (w.blackboard.contains .bool "armed", w.host)
    let draw : Action Nat := fun _ w =>
      (if w.host < 2 then .running else .success, { w with host := w.host + 1 })
    let cs := [condition ⟨"armed", none⟩ (some armed), action ⟨"draw", none⟩ (some draw)]
    let ss : List Stimulus := [.tick ⟨0, 0.5⟩, .tick ⟨1, 0.5⟩, .write fun b => b, .tick ⟨2, 0.5⟩]
    let w : World Nat := ⟨Blackboard.empty.insert .bool "armed" true, 0⟩
    (responses ss (compose .sequence false cs) w).map (·.1) =
        [some .running, some .running, none, some .success] ∧
      responses ss (compose .sequence false cs) w = responses ss (compose .sequence true cs) w := by
  intro armed draw cs ss w
  have hcs : ∀ c ∈ cs, c.Fresh ∧ c.Everywhere Forwards := by
    intro c hc
    simp only [cs, List.mem_cons, List.not_mem_nil, or_false] at hc
    rcases hc with rfl | rfl
    · exact ⟨fresh_condition _ _, everywhere_condition.mpr trivial⟩
    · exact ⟨fresh_action _ _, everywhere_action.mpr trivial⟩
  have hagain : ∀ (m : Moment) (host : Nat),
      ∀ c ∈ [condition ⟨"armed", some .success⟩ (some armed)],
        c.Repeats m .success ⟨w.blackboard, host⟩ := by
    intro m host c hc
    rw [List.mem_singleton.mp hc]
    have hhost : (armed ⟨w.blackboard, host⟩).2 = host := rfl
    exact repeats_condition m ⟨"armed", some .success⟩ hhost
  refine ⟨by decide, (responses_resuming .sequence).1 cs hcs ss w ?_⟩
  exact ⟨nofun, hagain ⟨1, 0.5⟩ 1, hagain ⟨2, 0.5⟩ 2, trivial⟩

end Node

end BehaviorTree
