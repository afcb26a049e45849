import BehaviorTree.Proofs.Fresh
import BehaviorTree.Proofs.Verdict

/-!
# Repetition

A repeater counts how often its child has succeeded in the present pass. With a limit the pass ends
in success when the child has succeeded that often, in failure when the child fails, and at once if
the limit is zero. Without a limit it does not end in success: the counter stops at the largest
number, and nothing asks for it. Each round of the child begins with the child reset.
-/

namespace BehaviorTree

variable {ω : Type}

namespace Decorator

theorem toNat_bump (n : UInt32) : (bump n).toNat = min (n.toNat + 1) (UInt32.size - 1) := by
  have hlt : n.toNat < UInt32.size := n.toNat_lt_size
  have hsucc : (n + 1).toNat = (n.toNat + 1) % UInt32.size := UInt32.toNat_add n 1
  rw [bump]
  by_cases hmax : n + 1 = 0
  · have hzero : (n.toNat + 1) % UInt32.size = 0 := by rw [← hsucc, hmax, UInt32.toNat_zero]
    rw [if_pos hmax]
    simp only [UInt32.size] at hlt hzero ⊢
    omega
  · have hpos : (n + 1).toNat ≠ 0 := fun hzero => hmax (UInt32.toNat_inj.mp hzero)
    rw [if_neg hmax, hsucc]
    rw [hsucc] at hpos
    simp only [UInt32.size] at hlt hpos ⊢
    omega

theorem judge_repeater_success (seconds : Float32) (limit : Option UInt32) (completed : UInt32) :
    judge seconds (repeater limit completed) .success =
      if (repeater limit (bump completed)).isDue then ⟨.success, repeater limit 0, true⟩
      else ⟨.running, repeater limit (bump completed), true⟩ := rfl

theorem isDue_repeater_iff {limit : Option UInt32} {completed : UInt32} :
    (repeater limit completed).isDue = true ↔ ∃ most, limit = some most ∧ most ≤ completed := by
  cases limit <;> simp [isDue]

end Decorator

namespace Visit

inductive Lap (v : Visit ω) (limit : Option UInt32) (completed : UInt32) (child : Node ω) :
    Status → UInt32 → Node ω → Prop
  | spared (hdue : (Decorator.repeater limit completed).isDue = true)
      (hspares : v.SparesChild child) : Lap v limit completed child .success 0 child.reset
  | running (hopen : ¬ (Decorator.repeater limit completed).isDue = true)
      (hcalls : v.CallsChild child false) (hanswer : (v.call child).answer = .running) :
      Lap v limit completed child .running completed (v.call child).state
  | failed (hopen : ¬ (Decorator.repeater limit completed).isDue = true)
      (hcalls : v.CallsChild child true) (hanswer : (v.call child).answer = .failure) :
      Lap v limit completed child .failure 0 (v.call child).state.reset
  | last (hopen : ¬ (Decorator.repeater limit completed).isDue = true)
      (hcalls : v.CallsChild child true) (hanswer : (v.call child).answer = .success)
      (hdue : (Decorator.repeater limit (Decorator.bump completed)).isDue = true) :
      Lap v limit completed child .success 0 (v.call child).state.reset
  | another (hopen : ¬ (Decorator.repeater limit completed).isDue = true)
      (hcalls : v.CallsChild child true) (hanswer : (v.call child).answer = .success)
      (hleft : ¬ (Decorator.repeater limit (Decorator.bump completed)).isDue = true) :
      Lap v limit completed child .running (Decorator.bump completed) (v.call child).state.reset

theorem exists_lap {v : Visit ω} {h : Head} {limit : Option UInt32} {completed : UInt32}
    {child : Node ω} (hv : v.node = .decorator h (.repeater limit completed) (some child)) :
    ∃ completed' child', v.Lap limit completed child v.step.answer completed' child' ∧
      v.step.state =
        .decorator (h.record v.step.answer) (.repeater limit completed') (some child') := by
  by_cases hdue : (Decorator.repeater limit completed).isDue = true
  · obtain ⟨hspares, hanswer, hstate⟩ := spares_of_due hv hdue
    rw [hanswer]
    exact ⟨_, _, .spared hdue hspares, hstate⟩
  · obtain ⟨hcalls, hanswer, hstate⟩ := calls_of_not_due hv hdue
    rw [hanswer]
    cases hchild : (v.call child).answer with
    | running =>
      rw [hchild] at hcalls hstate
      exact ⟨_, _, .running hdue hcalls hchild, hstate⟩
    | failure =>
      rw [hchild] at hcalls hstate
      exact ⟨_, _, .failed hdue hcalls hchild, hstate⟩
    | success =>
      rw [hchild, Decorator.judge_repeater_success] at hcalls hstate
      rw [Decorator.judge_repeater_success]
      by_cases hlast : (Decorator.repeater limit (Decorator.bump completed)).isDue = true
      · rw [if_pos hlast] at hcalls hstate ⊢
        exact ⟨_, _, .last hdue hcalls hchild hlast, hstate⟩
      · rw [if_neg hlast] at hcalls hstate ⊢
        exact ⟨_, _, .another hdue hcalls hchild hlast, hstate⟩

theorem Lap.begins {v : Visit ω} {limit : Option UInt32} {completed completed' : UInt32}
    {child child' : Node ω} {s : Status} (h : v.Lap limit completed child s completed' child')
    (hs : s.isTerminal = true) : completed' = 0 ∧ child'.Fresh := by
  cases h with
  | spared => exact ⟨rfl, Node.fresh_reset _⟩
  | failed | last => exact ⟨rfl, Node.fresh_reset _⟩
  | running | another => cases hs

structure Repeats (limit : Option UInt32) (successes : Nat) (child : Node ω) (v : Visit ω) :
    Prop where
  idle : limit = some 0 → v.step.answer = .success ∧ v.SparesChild child
  calls : limit ≠ some 0 → v.CallsChild child (v.call child).answer.isTerminal
  success : limit ≠ some 0 → (v.step.answer = .success ↔
    (v.call child).answer = .success ∧ ∃ most, limit = some most ∧ successes + 1 = most.toNat)
  failure : limit ≠ some 0 → (v.step.answer = .failure ↔ (v.call child).answer = .failure)

end Visit

namespace Course

def successes (c : Course ω) : Nat := (Visit.answers c.visits 0).count .success

/-- How the counter and the child of a repeater stand between two calls, if its course began with
the given first child. -/
structure Tally (limit : Option UInt32) (first : Node ω) (c : Course ω) (completed : UInt32)
    (child : Node ω) : Prop where
  count : completed.toNat = min c.successes (UInt32.size - 1)
  below : ∀ most, limit = some most → 0 < most → completed < most
  begins : first.Fresh → (Visit.answers c.visits 0).getLast? ≠ some .running → child.Fresh

namespace Tally

variable {limit : Option UInt32} {first child : Node ω} {c : Course ω} {completed : UInt32}

theorem of_begin (hvisits : c.visits = []) (hchild : first.Fresh → child.Fresh) :
    Tally limit first c 0 child where
  count := by simp [successes, hvisits, Visit.answers]
  below _ _ hmost := hmost
  begins hfirst _ := hchild hfirst

theorem count_eq (h : Tally limit first c completed child) {most : UInt32}
    (hmost : completed < most) : completed.toNat = c.successes := by
  have hlt : completed.toNat < most.toNat := hmost
  have hsize := most.toNat_lt_size
  have hcount := h.count
  omega

theorem isDue_iff (h : Tally limit first c completed child) :
    (Decorator.repeater limit completed).isDue = true ↔ limit = some 0 := by
  rw [Decorator.isDue_repeater_iff]
  constructor
  · rintro ⟨most, rfl, hreached⟩
    by_contra hne
    have hpos : 0 < most := UInt32.pos_iff_ne_zero.mpr fun hzero => hne (congrArg some hzero)
    exact absurd hreached (UInt32.not_le.mpr (h.below most rfl hpos))
  · rintro rfl
    exact ⟨0, rfl, UInt32.zero_le⟩

theorem isDue_bump_iff (h : Tally limit first c completed child) (hne : limit ≠ some 0) :
    (Decorator.repeater limit (Decorator.bump completed)).isDue = true ↔
      ∃ most, limit = some most ∧ c.successes + 1 = most.toNat := by
  rw [Decorator.isDue_repeater_iff]
  refine exists_congr fun most => and_congr_right ?_
  rintro rfl
  have hpos : 0 < most := UInt32.pos_iff_ne_zero.mpr fun hzero => hne (congrArg some hzero)
  have hbelow : completed < most := h.below most rfl hpos
  have hlt : completed.toNat < most.toNat := hbelow
  have hcount := h.count_eq hbelow
  have hsize := most.toNat_lt_size
  rw [UInt32.le_iff_toNat_le, Decorator.toNat_bump]
  omega

theorem repeats (h : Tally limit first c completed child) {head : Head}
    (hnode : c.node = .decorator head (.repeater limit completed) (some child)) (m : Moment)
    (w : World ω) : Visit.Repeats limit c.successes child ⟨c.node, m, w⟩ := by
  let v : Visit ω := ⟨c.node, m, w⟩
  change v.Repeats limit c.successes child
  obtain ⟨completed', child', hlap, -⟩ := Visit.exists_lap (v := v) hnode
  obtain ⟨s, hs⟩ : ∃ s, v.step.answer = s := ⟨_, rfl⟩
  rw [hs] at hlap
  cases hlap with
  | spared hdue hspares =>
    have hzero := h.isDue_iff.mp hdue
    exact ⟨fun _ => ⟨hs, hspares⟩, absurd hzero, absurd hzero, absurd hzero⟩
  | running hopen hcalls hanswer | failed hopen hcalls hanswer =>
    have hne := fun hzero => hopen (h.isDue_iff.mpr hzero)
    refine ⟨fun hzero => absurd hzero hne, fun _ => ?_, fun _ => ?_, fun _ => ?_⟩
    · rwa [hanswer]
    · simp [hs, hanswer]
    · simp [hs, hanswer]
  | last hopen hcalls hanswer hdue =>
    have hne := fun hzero => hopen (h.isDue_iff.mpr hzero)
    refine ⟨fun hzero => absurd hzero hne, fun _ => ?_, fun _ => ?_, fun _ => ?_⟩
    · rwa [hanswer]
    · exact iff_of_true hs ⟨hanswer, (h.isDue_bump_iff hne).mp hdue⟩
    · simp [hs, hanswer]
  | another hopen hcalls hanswer hleft =>
    have hne := fun hzero => hopen (h.isDue_iff.mpr hzero)
    refine ⟨fun hzero => absurd hzero hne, fun _ => ?_, fun _ => ?_, fun _ => ?_⟩
    · rwa [hanswer]
    · refine iff_of_false (by simp [hs]) ?_
      rintro ⟨-, hmost⟩
      exact hleft ((h.isDue_bump_iff hne).mpr hmost)
    · simp [hs, hanswer]

theorem tick (h : Tally limit first c completed child) {head : Head}
    (hnode : c.node = .decorator head (.repeater limit completed) (some child)) (m : Moment)
    (w : World ω) : ∃ completed' child', Tally limit first (c.apply (.tick m w)) completed' child' ∧
      (c.apply (.tick m w)).node = .decorator (head.record (Node.tick m c.node w).answer)
        (.repeater limit completed') (some child') := by
  let v : Visit ω := ⟨c.node, m, w⟩
  obtain ⟨completed', child', hlap, hstate⟩ := Visit.exists_lap (v := v) hnode
  refine ⟨completed', child', ?_, hstate⟩
  rcases v.step.answer.running_or_terminal with hrunning | hended
  · have hanswers : Visit.answers (c.apply (.tick m w)).visits 0 =
        Visit.answers c.visits 0 ++ (v.answer? 0).toList := by
      rw [visits_tick_of_running hrunning, Visit.answers_concat]
    rw [hrunning] at hlap
    cases hlap with
    | running hopen hcalls hanswer =>
      rw [hcalls.answer, hanswer] at hanswers
      have hsuccesses : (c.apply (.tick m w)).successes = c.successes := by
        simp [successes, hanswers]
      exact ⟨hsuccesses ▸ h.count, h.below, fun _ hlast => absurd (by simp [hanswers]) hlast⟩
    | another hopen hcalls hanswer hleft =>
      rw [hcalls.answer, hanswer] at hanswers
      have hsuccesses : (c.apply (.tick m w)).successes = c.successes + 1 := by
        simp [successes, hanswers]
      refine ⟨?_, fun most hmost _ => ?_, fun _ _ => Node.fresh_reset _⟩
      · have hcount := h.count
        rw [hsuccesses, Decorator.toNat_bump]
        omega
      · rw [Decorator.isDue_repeater_iff] at hleft
        exact UInt32.not_le.mp fun hle => hleft ⟨most, hmost, hle⟩
  · obtain ⟨rfl, hfresh⟩ := hlap.begins hended
    exact of_begin (visits_tick_of_ended hended) fun _ => hfresh

end Tally

def Tallies (name : String) (limit : Option UInt32) (first : Node ω) (c : Course ω) : Prop :=
  ∃ status completed child,
    c.node = .decorator ⟨name, status⟩ (.repeater limit completed) (some child) ∧
      Tally limit first c completed child

theorem Tallies.apply {name : String} {limit : Option UInt32} {first : Node ω} {c : Course ω}
    (hc : c.Tallies name limit first) (move : Move ω) :
    (c.apply move).Tallies name limit first := by
  obtain ⟨status, completed, child, hnode, htally⟩ := hc
  cases move with
  | tick m w =>
    obtain ⟨completed', child', htally', hnode'⟩ := htally.tick hnode m w
    exact ⟨_, completed', child', hnode', htally'⟩
  | reset =>
    have hnode' := node_reset_of_decorator hnode
    exact ⟨none, 0, child.reset, hnode', .of_begin rfl fun _ => Node.fresh_reset _⟩
  | push other =>
    rw [apply_push_of_decorator hnode]
    exact ⟨status, completed, child, hnode, htally⟩

theorem tallies_after (name : String) (limit : Option UInt32) (first : Node ω)
    (moves : List (Move ω)) :
    ((ofDecorator name (.repeater limit 0) first).after moves).Tallies name limit first :=
  after_induction ⟨none, 0, first, rfl, .of_begin rfl id⟩ fun _ hd move _ => hd.apply move

/-- Whatever happened to a repeater of any child: between calls its counter tells the successes of
the child in the present pass, up to the largest number, and stays below a limit; where a round of
the child begins, the child is as a reset leaves it, if it was so at first; and a tick goes by the
number of successes. -/
theorem repeater_counts (name : String) (limit : Option UInt32) (first : Node ω)
    (moves : List (Move ω)) :
    let c := (ofDecorator name (.repeater limit 0) first).after moves
    ∃ status completed child,
      c.node = .decorator ⟨name, status⟩ (.repeater limit completed) (some child) ∧
      completed.toNat = min c.successes (UInt32.size - 1) ∧
      (∀ most, limit = some most → 0 < most →
        completed < most ∧ completed.toNat = c.successes) ∧
      (first.Fresh → (Visit.answers c.visits 0).getLast? ≠ some .running → child.Fresh) ∧
      ∀ m w, Visit.Repeats limit c.successes child ⟨c.node, m, w⟩ := by
  intro c
  obtain ⟨status, completed, child, hnode, htally⟩ := tallies_after name limit first moves
  refine ⟨status, completed, child, hnode, htally.count, ?_, htally.begins, ?_⟩
  · intro most hmost hpos
    have hbelow := htally.below most hmost hpos
    exact ⟨hbelow, htally.count_eq hbelow⟩
  · intro m w
    exact htally.repeats hnode m w

/-- The child takes two ticks to succeed at first and one after that. -/
theorem repeater_counts_laps :
    let run : Node Nat := .action ⟨"run", none⟩
      (some fun _ w => (if w.host = 0 then .running else .success, { w with host := w.host + 1 }))
    let c := (ofDecorator "twice" (.repeater (some 2) 0) run).after
      [.tick ⟨0, 0.5⟩ ⟨{}, 0⟩, .tick ⟨1, 0.5⟩ ⟨{}, 1⟩]
    let v : Visit Nat := ⟨c.node, ⟨2, 0.5⟩, ⟨{}, 2⟩⟩
    run.Fresh ∧ Visit.answers c.visits 0 = [.running, .success] ∧
      ∃ status completed child,
        c.node = .decorator ⟨"twice", status⟩ (.repeater (some 2) completed) (some child) ∧
        completed < 2 ∧ completed.toNat = 1 ∧ child.Fresh ∧
        v.CallsChild child true ∧ v.step.answer = .success := by
  intro run c v
  have hfresh : run.Fresh := Node.fresh_action _ _
  have hanswers : Visit.answers c.visits 0 = [.running, .success] := by decide
  obtain ⟨status, completed, child, hnode, -, hbelow, hbegins, htick⟩ :=
    repeater_counts "twice" (some 2) run [.tick ⟨0, 0.5⟩ ⟨{}, 0⟩, .tick ⟨1, 0.5⟩ ⟨{}, 1⟩]
  obtain ⟨hlt, hcount⟩ := hbelow 2 rfl (by decide)
  have hrepeats : v.Repeats (some 2) c.successes child := htick ⟨2, 0.5⟩ ⟨{}, 2⟩
  have hsuccess : v.step.answer = .success := by decide
  have hchild := ((hrepeats.success (by decide)).mp hsuccess).1
  have hcalls := hrepeats.calls (by decide)
  rw [hchild] at hcalls
  refine ⟨hfresh, hanswers, status, completed, child, hnode, hlt, hcount.trans (by decide), ?_,
    hcalls, hsuccess⟩
  exact hbegins hfresh (by rw [show Visit.answers _ 0 = _ from hanswers]; decide)

end Course

end BehaviorTree
