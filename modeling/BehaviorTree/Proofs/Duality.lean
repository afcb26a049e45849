import BehaviorTree.Proofs.Ending
import BehaviorTree.Proofs.Response

/-!
# Duality of composites

A composite behaves like the inverse of the other composite around the inverses of its children.
With memory this holds of any children. Without, one of the two sides may leave its children
alone where the other resets them, so the children have to settle when they finish.
-/

namespace BehaviorTree

variable {ω : Type}

def Status.invertAt : Option (Nat × Status) → Option (Nat × Status) := Option.map (·.map id invert)

namespace Order

def invert : Order → Order
  | sequence => selector
  | selector => sequence

@[simp] theorem pass_invert (order : Order) : order.invert.pass = order.pass.invert := by
  cases order <;> rfl

theorem conclude_invertAt (order : Order) (answer : Option (Nat × Status)) :
    order.invert.conclude (Status.invertAt answer) = (order.conclude answer).invert := by
  cases answer with
  | none => exact order.pass_invert
  | some a => rfl

end Order

theorem Status.invert_inj {s t : Status} : s.invert = t.invert ↔ s = t := by
  cases s <;> cases t <;> decide

theorem Cursor.after_invertAt (cursor : Cursor) (answer : Option (Nat × Status)) :
    cursor.after (Status.invertAt answer) = cursor.after answer := by
  cases answer with
  | none => rfl
  | some a =>
    obtain ⟨index, s⟩ := a
    cases s <;> rfl

namespace Node

def inverted (n : Node ω) : Node ω := decorate .inverter (some n)

theorem tick_inverter (m : Moment) (h : Head) (n : Node ω) (w : World ω) :
    let c := tick m n w
    tick m (decorator h .inverter (some n)) w =
      ⟨c.answer.invert, decorator (h.record c.answer.invert) .inverter (some c.state), c.world,
        c.emitted⟩ := by
  intro c
  have hdue : ¬ Decorator.inverter.isDue = true := Bool.false_ne_true
  rw [tick_decorator_of_not_due m h n w hdue]
  simp [Decorator.judge, c]

theorem alike_inverter (h h' : Head) {n n' : Node ω} (hn : n.Alike n') :
    (decorator h .inverter (some n)).Alike (decorator h' .inverter (some n')) :=
  .of_form_eq rfl (.cons hn .nil)

theorem forall₂_alike_inverted {as bs : List (Node ω)} (h : List.Forall₂ Alike as bs) :
    List.Forall₂ Alike (as.map inverted) (bs.map inverted) := by
  rw [List.forall₂_map_left_iff, List.forall₂_map_right_iff]
  exact h.imp fun _ _ hab => alike_inverter _ _ hab

theorem settler_inverted {n : Node ω} (h : n.Settler) : n.inverted.Settler := by
  constructor
  · exact everywhere_decorator.mpr ⟨trivial, by simpa using h.forwards⟩
  · exact everywhere_decorator.mpr ⟨fun _ => trivial, by simpa using h.settledWhenEmpty⟩

theorem walk_inverted (m : Moment) (pass : Status) (start index : Nat) (ns : List (Node ω))
    (w : World ω) :
    let c := walk m pass start index ns w
    let c' := walk m pass.invert start index (ns.map inverted) w
    c'.answer = Status.invertAt c.answer ∧ c'.world = c.world ∧
      List.Forall₂ Alike c'.state (c.state.map inverted) := by
  induction ns generalizing index w with
  | nil => exact ⟨rfl, rfl, .nil⟩
  | cons n ns ih =>
    have htick := tick_inverter m ⟨Decorator.inverter.label, none⟩ n w
    rw [List.map_cons, walk, walk]
    by_cases hskip : index < start
    · obtain ⟨hanswer, hworld, hstate⟩ := ih (index + 1) w
      rw [if_pos hskip, if_pos hskip]
      exact ⟨hanswer, hworld, .cons (Alike.refl _) hstate⟩
    · rw [if_neg hskip, if_neg hskip, inverted, decorate, Decorator.rewind, htick]
      by_cases hpass : (tick m n w).answer = pass
      · obtain ⟨hanswer, hworld, hstate⟩ := ih (index + 1) (tick m n w).world
        have hpass' : (tick m n w).answer.invert = pass.invert := Status.invert_inj.mpr hpass
        rw [if_pos hpass, if_pos hpass']
        exact ⟨hanswer, hworld, .cons (alike_inverter _ _ (Alike.refl _)) hstate⟩
      · have hpass' : ¬ (tick m n w).answer.invert = pass.invert := mt Status.invert_inj.mp hpass
        rw [if_neg hpass, if_neg hpass']
        exact ⟨rfl, rfl, .cons (alike_inverter _ _ (Alike.refl _)) (List.forall₂_refl _)⟩

/-- The children that the two sides keep correspond again. -/
theorem alike_kept_inverted (m : Moment) (order : Order) (w : World ω) {cursor : Cursor}
    {cs : List (Node ω)} (hcs : cursor = .restart → ∀ c ∈ cs, c.Settler) :
    List.Forall₂ Alike
      (kept order.invert cursor
        (walk m order.invert.pass cursor.start 0 (cs.map inverted) w))
      ((kept order cursor (walk m order.pass cursor.start 0 cs w)).map inverted) := by
  obtain ⟨hanswer, -, hstate⟩ := walk_inverted m order.pass cursor.start 0 cs w
  rw [← order.pass_invert] at hanswer hstate
  have hconclude := order.conclude_invertAt (walk m order.pass cursor.start 0 cs w).answer
  rw [← hanswer] at hconclude
  by_cases hdone :
      (order.conclude (walk m order.pass cursor.start 0 cs w).answer).isTerminal = true
  · have hcs' : cursor = .restart → ∀ c ∈ cs.map inverted, c.Settler := by
      intro hrestart c hc
      obtain ⟨d, hd, rfl⟩ := List.mem_map.mp hc
      exact settler_inverted (hcs hrestart d hd)
    have hdone' : (order.invert.conclude
        (walk m order.invert.pass cursor.start 0 (cs.map inverted) w).answer).isTerminal = true := by
      rwa [hconclude, Status.isTerminal_invert]
    have hleft := alike_kept_of_finished cursor hcs' hdone'
    have hright := forall₂_alike_inverted (alike_kept_of_finished cursor hcs hdone)
    have hreset := forall₂_alike_resetAll hstate
    have hmap : resetAll ((walk m order.pass cursor.start 0 cs w).state.map inverted) =
        (resetAll (walk m order.pass cursor.start 0 cs w).state).map inverted := by
      simp only [resetAll_eq_map, List.map_map]
      rfl
    rw [hmap] at hreset
    exact forall₂_alike_trans hleft (forall₂_alike_trans hreset (forall₂_alike_symm hright))
  · have hdone' : ¬ (order.invert.conclude
        (walk m order.invert.pass cursor.start 0 (cs.map inverted) w).answer).isTerminal = true := by
      rwa [hconclude, Status.isTerminal_invert]
    simp only [kept, Order.clears_of_running hdone, Order.clears_of_running hdone']
    exact hstate

def dual (order : Order) (cursor : Cursor) (cs : List (Node ω)) : Node ω :=
  inverted (composite ⟨order.invert.label cursor, none⟩ order.invert cursor (cs.map inverted))

/-- A composite and a node that behaves like its dual. -/
def IsDual (n d : Node ω) : Prop :=
  ∃ h order cursor cs, n = composite h order cursor cs ∧
    (cursor = .restart → ∀ c ∈ cs, c.Settler) ∧ (dual order cursor cs).Alike d

theorem IsDual.tick {n d : Node ω} (h : n.IsDual d) : TicksMatch Eq IsDual n d := by
  obtain ⟨head, order, cursor, cs, rfl, hcs, halike⟩ := h
  intro m m' w w' hm hw
  obtain ⟨hanswer, hworld, -⟩ := walk_inverted m order.pass cursor.start 0 cs w
  rw [← order.pass_invert] at hanswer hworld
  -- The dual is ticked beside the composite; the other node does as the dual does.
  have hstep := (isBisimulation_bisimilar Eq).tick halike hm hw
  rw [dual, inverted, decorate, Decorator.rewind, tick_inverter, tick_composite] at hstep
  rw [tick_composite]
  refine ⟨?_, ⟨head.record _, order, _, _, rfl, ?_, ?_⟩, ?_⟩
  · have h := hstep.answer
    rwa [hanswer, Order.conclude_invertAt, Status.invert_invert] at h
  · intro hrestart
    have h := Settler.children_tick (n := composite head order cursor cs)
      (hcs (Cursor.after_eq_restart.mp hrestart)) m w
    rwa [tick_composite] at h
  · refine Alike.trans ?_ hstep.state
    rw [hanswer, Cursor.after_invertAt]
    apply alike_inverter
    apply alike_composite
    have hkept := forall₂_alike_symm (alike_kept_inverted m order w hcs)
    rwa [kept, kept, hanswer] at hkept
  · have h := hstep.world
    rwa [hworld] at h

theorem IsDual.reset {n d : Node ω} (h : n.IsDual d) : n.reset.IsDual d.reset := by
  obtain ⟨head, order, cursor, cs, rfl, hcs, halike⟩ := h
  refine ⟨head.clear, order, cursor.rewind, resetAll cs, rfl, ?_, ?_⟩
  · intro hrestart
    have hcursor : cursor = .restart := by
      cases cursor with
      | restart => rfl
      | resume index => cases hrestart
    exact Settler.children_reset (n := composite head order cursor cs) (hcs hcursor)
  · refine Alike.trans ?_ halike.reset
    apply alike_inverter
    apply alike_composite
    rw [resetAll_eq_map, resetAll_eq_map, List.map_map, List.map_map]
    exact List.forall₂_refl _

theorem alike_dual (h : Head) (order : Order) (cursor : Cursor) {cs : List (Node ω)}
    (hcs : cursor = .restart → ∀ c ∈ cs, c.Settler) :
    (composite h order cursor cs).Alike (dual order cursor cs) :=
  ⟨IsDual, ⟨IsDual.tick, IsDual.reset⟩, h, order, cursor, cs, rfl, hcs, Alike.refl _⟩

theorem recorded_compose (order : Order) (memory : Bool) (cs : List (Node ω)) :
    (compose order memory cs).recorded = compose order memory (cs.map recorded) := by
  simp only [compose, recorded, recordedAll_eq_map]

theorem recorded_dual (order : Order) (memory : Bool) (cs : List (Node ω)) :
    (inverted (compose order memory (cs.map inverted))).recorded =
      inverted (compose order memory ((cs.map recorded).map inverted)) := by
  have hinverted : ∀ n : Node ω, n.inverted.recorded = n.recorded.inverted := fun n => rfl
  simp only [hinverted, recorded_compose, List.map_map, Function.comp_def]

theorem alike_compose_dual (order : Order) (memory : Bool) {cs : List (Node ω)}
    (hcs : memory = false → ∀ c ∈ cs, c.Settler) :
    (compose order memory cs).Alike (inverted (compose order.invert memory (cs.map inverted))) := by
  cases memory with
  | false => exact alike_dual _ order .restart fun _ => hcs rfl
  | true => exact alike_dual _ order (.resume 0) nofun

/-- From the as-built state on, a composite and its dual give the same responses in every run and
call the same closures in the same order. Children of a composite without memory are to be fresh
and without reports of constant success. -/
theorem responses_dual (order : Order) (memory : Bool) {cs : List (Node ω)}
    (hcs : memory = false → ∀ c ∈ cs, c.Fresh ∧ c.Everywhere Forwards) (ss : List Stimulus)
    (w : World ω) :
    let n := compose order memory cs
    let d := inverted (compose order.invert memory (cs.map inverted))
    responses ss n w = responses ss d w ∧
      responsesWithCalls ss n w = responsesWithCalls ss d w := by
  intro n d
  have hsettlers : memory = false → ∀ c ∈ cs, c.Settler := by
    intro hmemory c hc
    obtain ⟨hfresh, hforwards⟩ := hcs hmemory c hc
    exact .of_fresh hfresh hforwards
  have hrecorded : memory = false → ∀ c ∈ cs.map recorded, c.Settler := by
    intro hmemory c hc
    obtain ⟨b, hb, rfl⟩ := List.mem_map.mp hc
    obtain ⟨hfresh, hforwards⟩ := hcs hmemory b hb
    exact .of_fresh (fresh_recorded hfresh) (forwards_recorded hforwards)
  constructor
  · exact (alike_compose_dual order memory hsettlers).responses_eq ss w
  · rw [responsesWithCalls, responsesWithCalls, recorded_compose, recorded_dual]
    exact (alike_compose_dual order memory hrecorded).responses_eq ss _

/-- In the second tick both children fail. The selector leaves them as they are, and the sequence
of the dual resets them. -/
theorem responses_dual_hesitant :
    let cs := [hesitant, hesitant]
    let n := compose .selector false cs
    let d := inverted (compose .sequence false (cs.map inverted))
    let ss : List Stimulus :=
      [.tick ⟨0, 0.5⟩, .tick ⟨1, 0.5⟩, .write fun b => b, .tick ⟨2, 0.5⟩, .reset, .tick ⟨7, 0.5⟩]
    let w : World Nat := ⟨{}, 0⟩
    (responses ss n w).map (·.1) =
        [some .running, some .failure, none, some .failure, none, some .failure] ∧
      responses ss n w = responses ss d w ∧
      responsesWithCalls ss n w = responsesWithCalls ss d w := by
  intro cs n d ss w
  have hcs : false = false → ∀ c ∈ cs, c.Fresh ∧ c.Everywhere Forwards := by
    intro _ c hc
    have hc : c = hesitant := by simpa [cs] using hc
    rw [hc]
    exact ⟨fresh_hesitant, forwards_hesitant⟩
  refine ⟨by decide, ?_⟩
  exact responses_dual .selector false hcs ss w

end Node

end BehaviorTree
