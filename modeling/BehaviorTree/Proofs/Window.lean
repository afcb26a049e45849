import BehaviorTree.Proofs.Verdict

/-!
# Windows of time

A timer calls its child in every tick of a pass, whatever the child answers, until the seconds of
these ticks, added up one after the other, reach its duration. Nothing is assumed of the addition
and the comparison of seconds. A timer is due at the start of a tick only if zero seconds reach its
duration, and then it never calls its child at all.
-/

namespace BehaviorTree

variable {ω : Type}

namespace Decorator

theorem isDue_timer_iff {duration elapsed : Float32} :
    (timer duration elapsed).isDue = true ↔ elapsed ≥ duration := by
  rw [isDue, decide_eq_true_iff]

theorem judge_timer (seconds duration elapsed : Float32) (s : Status) :
    judge seconds (timer duration elapsed) s =
      if elapsed + seconds ≥ duration then ⟨.success, timer duration 0, true⟩
      else ⟨.running, timer duration (elapsed + seconds), false⟩ := by
  simp only [judge, advance, isDue_timer_iff]
  rfl

theorem status_judge_timer (seconds duration elapsed : Float32) (s : Status) :
    (judge seconds (timer duration elapsed) s).status =
      if elapsed + seconds ≥ duration then .success else .running := by
  rw [judge_timer]
  split <;> rfl

theorem resetsChild_judge_timer (seconds duration elapsed : Float32) (s : Status) :
    (judge seconds (timer duration elapsed) s).resetsChild =
      decide (elapsed + seconds ≥ duration) := by
  rw [judge_timer]
  split <;> simp [*]

theorem kind_judge_timer (seconds duration elapsed : Float32) (s : Status) :
    (judge seconds (timer duration elapsed) s).kind = timer duration
      (if (judge seconds (timer duration elapsed) s).status = .running then elapsed + seconds
        else 0) := by
  rw [judge_timer]
  split <;> rfl

end Decorator

def Node.elapsed? : Node ω → Option Float32
  | decorator _ (.timer _ elapsed) _ => some elapsed
  | _ => none

namespace Visit

def clock (vs : List (Visit ω)) : Float32 := vs.foldl (fun e v => e + v.moment.elapsed) 0

theorem clock_concat (vs : List (Visit ω)) (v : Visit ω) :
    clock (vs ++ [v]) = clock vs + v.moment.elapsed := by
  rw [clock, List.foldl_append]
  rfl

structure Times (duration clock : Float32) (child : Node ω) (v : Visit ω) : Prop where
  idle : (0 : Float32) ≥ duration → v.step.answer = .success ∧ v.SparesChild child
  calls : ¬ (0 : Float32) ≥ duration → v.CallsChild child (decide (clock ≥ duration))
  answer : ¬ (0 : Float32) ≥ duration →
    v.step.answer = if clock ≥ duration then .success else .running
  elapsed : v.step.state.elapsed? = some (if v.step.answer = .running then clock else 0)

section

variable {v : Visit ω} {h : Head} {duration elapsed : Float32} {child : Node ω}

theorem state_timer (hv : v.node = .decorator h (.timer duration elapsed) (some child)) :
    ∃ status child', v.step.state = .decorator ⟨h.name, status⟩ (.timer duration
      (if v.step.answer = .running then elapsed + v.moment.elapsed else 0)) (some child') := by
  by_cases hdue : (Decorator.timer duration elapsed).isDue = true
  · obtain ⟨-, hanswer, hstate⟩ := spares_of_due hv hdue
    rw [hanswer]
    exact ⟨_, _, hstate⟩
  · obtain ⟨-, hanswer, hstate⟩ := calls_of_not_due hv hdue
    rw [hanswer, ← Decorator.kind_judge_timer]
    exact ⟨_, _, hstate⟩

theorem times (hv : v.node = .decorator h (.timer duration elapsed) (some child))
    (hdue : elapsed ≥ duration ↔ (0 : Float32) ≥ duration) :
    v.Times duration (elapsed + v.moment.elapsed) child where
  idle hzero := by
    obtain ⟨hspares, hanswer, -⟩ :=
      spares_of_due hv (Decorator.isDue_timer_iff.mpr (hdue.mpr hzero))
    exact ⟨hanswer, hspares⟩
  calls hzero := by
    have hopen := mt Decorator.isDue_timer_iff.mp (mt hdue.mp hzero)
    obtain ⟨hcalls, -, -⟩ := calls_of_not_due hv hopen
    rwa [Decorator.resetsChild_judge_timer] at hcalls
  answer hzero := by
    have hopen := mt Decorator.isDue_timer_iff.mp (mt hdue.mp hzero)
    obtain ⟨-, hanswer, -⟩ := calls_of_not_due hv hopen
    rwa [Decorator.status_judge_timer] at hanswer
  elapsed := by
    obtain ⟨status, child', hstate⟩ := state_timer hv
    rw [hstate]
    rfl

end

end Visit

namespace Course

/-- The timer shows the seconds of the present pass, and these do not reach its duration before a
tick unless zero seconds do. -/
def Measures (name : String) (duration : Float32) (c : Course ω) : Prop :=
  (Visit.clock c.visits ≥ duration ↔ (0 : Float32) ≥ duration) ∧
    ∃ status child,
      c.node = .decorator ⟨name, status⟩ (.timer duration (Visit.clock c.visits)) (some child)

section

variable {name : String} {duration : Float32} {c : Course ω}

theorem measures_of_begin {status : Option Status} {child : Node ω} (hvisits : c.visits = [])
    (hnode : c.node = .decorator ⟨name, status⟩ (.timer duration 0) (some child)) :
    c.Measures name duration := by
  have hclock : Visit.clock c.visits = 0 := by
    rw [hvisits]
    rfl
  rw [Measures, hclock]
  exact ⟨Iff.rfl, status, child, hnode⟩

theorem Measures.apply (hc : c.Measures name duration) (move : Move ω) :
    (c.apply move).Measures name duration := by
  obtain ⟨hdue, status, child, hnode⟩ := hc
  cases move with
  | tick m w =>
    let v : Visit ω := ⟨c.node, m, w⟩
    have htimes := Visit.times (v := v) hnode hdue
    obtain ⟨status', child', hstate⟩ := Visit.state_timer (v := v) hnode
    rcases v.step.answer.running_or_terminal with hrunning | hended
    · have hclock : Visit.clock (c.apply (.tick m w)).visits = Visit.clock c.visits + m.elapsed := by
        rw [visits_tick_of_running hrunning, Visit.clock_concat]
      rw [if_pos hrunning] at hstate
      refine ⟨?_, status', child', hclock ▸ hstate⟩
      have hzero : ¬ (0 : Float32) ≥ duration := by
        intro hzero
        rw [(htimes.idle hzero).1] at hrunning
        cases hrunning
      have hanswer := htimes.answer hzero
      rw [hrunning] at hanswer
      rw [hclock]
      refine iff_of_false (fun hover => ?_) hzero
      rw [if_pos hover] at hanswer
      cases hanswer
    · have hstopped : ¬ v.step.answer = .running := by
        simpa [Status.isTerminal] using hended
      rw [if_neg hstopped] at hstate
      exact measures_of_begin (visits_tick_of_ended hended) hstate
  | reset =>
    exact measures_of_begin rfl (node_reset_of_decorator hnode)
  | push other =>
    rw [apply_push_of_decorator hnode]
    exact ⟨hdue, status, child, hnode⟩

end

theorem measures_after (name : String) (duration : Float32) (first : Node ω)
    (moves : List (Move ω)) :
    ((ofDecorator name (.timer duration 0) first).after moves).Measures name duration :=
  after_induction (measures_of_begin rfl rfl) fun _ hd move _ => hd.apply move

/-- Whatever happened to a timer of any child: its clock shows the seconds of the ticks of the
present pass, added up in order, it is due before a tick only if zero seconds reach its duration,
and a tick goes by the seconds of the pass with its own. -/
theorem timer_window (name : String) (duration : Float32) (first : Node ω)
    (moves : List (Move ω)) :
    let c := (ofDecorator name (.timer duration 0) first).after moves
    ∃ status child,
      c.node = .decorator ⟨name, status⟩ (.timer duration (Visit.clock c.visits)) (some child) ∧
      ((Decorator.timer duration (Visit.clock c.visits)).isDue = true →
        (0 : Float32) ≥ duration) ∧
      ∀ m w,
        let v : Visit ω := ⟨c.node, m, w⟩
        v.Times duration (Visit.clock (c.visits ++ [v])) child := by
  intro c
  obtain ⟨hdue, status, child, hnode⟩ := measures_after name duration first moves
  refine ⟨status, child, hnode, ?_, ?_⟩
  · intro htrue
    exact hdue.mp (Decorator.isDue_timer_iff.mp htrue)
  · intro m w v
    rw [Visit.clock_concat]
    exact Visit.times hnode hdue

/-- The child has succeeded in the first half of the window and is called again in the second. A
window of no length never calls it. -/
theorem timer_window_nap :
    let rest : Node Nat := .action ⟨"rest", none⟩
      (some fun _ w => (.success, { w with host := w.host + 1 }))
    let c := (ofDecorator "nap" (.timer 1 0) rest).after [.tick ⟨0, 0.5⟩ ⟨{}, 0⟩]
    let v : Visit Nat := ⟨c.node, ⟨1, 0.5⟩, ⟨{}, 1⟩⟩
    let c' := (ofDecorator "blink" (.timer 0 0) rest).after [.tick ⟨0, 0.5⟩ ⟨{}, 0⟩]
    let v' : Visit Nat := ⟨c'.node, ⟨1, 0.5⟩, ⟨{}, 0⟩⟩
    ¬ (0 : Float32) ≥ 1 ∧ Visit.answers c.visits 0 = [.success] ∧
      (∃ child, v.CallsChild child true) ∧ v.step.answer = .success ∧
      v.step.state.elapsed? = some 0 ∧
      (0 : Float32) ≥ 0 ∧ v'.step.answer = .success ∧ ∃ child, v'.SparesChild child := by
  intro rest c v c' v'
  have hlong : ¬ (0 : Float32) ≥ 1 := by decide
  have hshort : (0 : Float32) ≥ 0 := by decide
  obtain ⟨-, child, -, -, htimes⟩ := timer_window "nap" 1 rest [.tick ⟨0, 0.5⟩ ⟨{}, 0⟩]
  have hv : v.Times 1 (Visit.clock (c.visits ++ [v])) child := htimes ⟨1, 0.5⟩ ⟨{}, 1⟩
  have hover : Visit.clock (c.visits ++ [v]) ≥ 1 := by decide
  have hcalls := hv.calls hlong
  have hanswer := hv.answer hlong
  have helapsed := hv.elapsed
  rw [decide_eq_true hover] at hcalls
  rw [if_pos hover] at hanswer
  rw [hanswer] at helapsed
  obtain ⟨-, child', -, -, htimes'⟩ := timer_window "blink" 0 rest [.tick ⟨0, 0.5⟩ ⟨{}, 0⟩]
  obtain ⟨hanswer', hspares'⟩ := (htimes' ⟨1, 0.5⟩ ⟨{}, 0⟩).idle hshort
  exact ⟨hlong, by decide, ⟨child, hcalls⟩, hanswer, helapsed, hshort, hanswer', child', hspares'⟩

end Course

end BehaviorTree
