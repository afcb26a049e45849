import BehaviorTree.Proofs.Attendance
import Mathlib.Data.List.Induction

/-!
# Stalls

A parallel stalls when every child has finished in the present pass and neither quorum is met. Only
two quorums of all children leave room for that, and only over mixed answers. A stalled parallel
runs on without calling anybody, and it warns once in a pass, in the tick in which it stalls.
-/

namespace BehaviorTree

variable {ω : Type}

theorem count_success_add_count_failure (slots : List Status) :
    slots.count .success + slots.count .failure = slots.countP (·.isTerminal) := by
  induction slots with
  | nil => rfl
  | cons s slots ih =>
    rw [List.count_cons, List.count_cons, List.countP_cons, ← ih]
    cases s <;> simp [Status.isTerminal] <;> omega

theorem settled_iff_slots {ν : Type} {ls : List (Lane ν)} :
    Lane.settled ls = true ↔ ∀ s ∈ ls.map (·.slot), s.isTerminal = true := by
  rw [Lane.settled, count_eq_count_slots, count_eq_count_slots,
    count_success_add_count_failure, decide_eq_true_iff, ← List.length_map (·.slot), List.countP_eq_length]

/-! ## Quorums -/

theorem Quorum.isMet_self (q : Quorum) {n : Nat} (h : 0 < n) : q.isMet n n = true := by
  cases q with
  | requireOne => exact decide_eq_true h
  | requireAll => exact decide_eq_true rfl

theorem Quorum.eq_requireAll {q : Quorum} {count total : Nat} (hcount : 0 < count)
    (h : ¬ q.isMet count total = true) : q = .requireAll := by
  cases q with
  | requireOne => exact absurd (decide_eq_true hcount) h
  | requireAll => rfl

theorem Quorums.ofSlots_eq_running_iff {q : Quorums} {slots : List Status} :
    q.ofSlots slots = .running ↔
      ¬ q.success.isMet (slots.count .success) slots.length = true ∧
      ¬ q.failure.isMet (slots.count .failure) slots.length = true := by
  rw [ofSlots, outcome]
  split
  · simp [*]
  · split <;> simp [*]

structure Quorums.Deadlock (q : Quorums) (slots : List Status) : Prop where
  success : q.success = .requireAll
  failure : q.failure = .requireAll
  succeeded : .success ∈ slots
  failed : .failure ∈ slots

theorem Quorums.deadlock_of_unmet {q : Quorums} {slots : List Status} (hne : slots ≠ [])
    (hall : ∀ s ∈ slots, s.isTerminal = true) (h : q.ofSlots slots = .running) :
    q.Deadlock slots := by
  obtain ⟨hsuccess, hfailure⟩ := ofSlots_eq_running_iff.mp h
  have hpos : 0 < slots.length := List.length_pos_iff.mpr hne
  have hsum : slots.count .success + slots.count .failure = slots.length := by
    rw [count_success_add_count_failure, List.countP_eq_length]
    exact hall
  -- If no child had one of the answers, all would have the other, and that meets any quorum.
  have hsucceeded : 0 < slots.count .success := by
    rcases Nat.eq_zero_or_pos (slots.count .success) with hzero | hpos'
    · have hfull : slots.count .failure = slots.length := by omega
      rw [hfull, Quorum.isMet_self _ hpos] at hfailure
      exact absurd rfl hfailure
    · exact hpos'
  have hfailed : 0 < slots.count .failure := by
    rcases Nat.eq_zero_or_pos (slots.count .failure) with hzero | hpos'
    · have hfull : slots.count .success = slots.length := by omega
      rw [hfull, Quorum.isMet_self _ hpos] at hsuccess
      exact absurd rfl hsuccess
    · exact hpos'
  exact ⟨Quorum.eq_requireAll hsucceeded hsuccess, Quorum.eq_requireAll hfailed hfailure,
    List.count_pos_iff.mp hsucceeded, List.count_pos_iff.mp hfailed⟩

theorem Quorums.Deadlock.ofSlots_eq {q : Quorums} {slots : List Status} (h : q.Deadlock slots) :
    q.ofSlots slots = .running := by
  have hsuccess : slots.count .success ≠ slots.length := by
    intro hall
    have := List.count_eq_length.mp hall _ h.failed
    cases this
  have hfailure : slots.count .failure ≠ slots.length := by
    intro hall
    have := List.count_eq_length.mp hall _ h.succeeded
    cases this
  rw [ofSlots_eq_running_iff, h.success, h.failure]
  exact ⟨by simpa [Quorum.isMet] using hsuccess, by simpa [Quorum.isMet] using hfailure⟩

/-! ## Stalled parallels -/

namespace Node

def isStalled : Node ω → Bool
  | parallel _ _ stalled _ => stalled
  | _ => false

theorem tickOpen_of_resolved (m : Moment) {ls : List (Lane (Node ω))} (w : World ω)
    (h : ∀ l ∈ ls, l.slot.isTerminal = true) : tickOpen m ls w = ⟨(), ls, w, []⟩ := by
  induction ls with
  | nil => rw [tickOpen]
  | cons l ls ih =>
    obtain ⟨hl, hls⟩ := List.forall_mem_cons.mp h
    have hclosed : ¬ l.slot = .running := by simpa [Status.isTerminal] using hl
    obtain ⟨slot, n⟩ := l
    rw [tickOpen, if_neg hclosed, ih hls]

theorem tick_of_deadlock {name : String} {q : Quorums} {ls : List (Lane (Node ω))}
    (hdeadlock : q.Deadlock (ls.map (·.slot))) (hall : ∀ l ∈ ls, l.slot.isTerminal = true)
    (m : Moment) (w : World ω) :
    tick m (parallel ⟨name, some .running⟩ q true ls) w =
      ⟨.running, parallel ⟨name, some .running⟩ q true ls, w, []⟩ := by
  have hne : ls ≠ [] := by
    rintro rfl
    exact absurd hdeadlock.succeeded (by simp)
  have hverdict : q.verdict ls = .running := by
    rw [Quorums.verdict_eq_ofSlots, hdeadlock.ofSlots_eq]
  rw [tick_parallel_of_ne_nil m _ q true w hne, tickOpen_of_resolved m w hall, hverdict]
  simp [Status.isRunning, Status.isTerminal, finishedParallel, Head.record]

end Node

/-! ## Warnings -/

def Emission.isStall : Emission → Bool
  | .diagnostic (.parallelStalled ..) => true
  | _ => false

theorem filter_isStall_resetEmissions (n : Node ω) :
    n.resetEmissions.filter Emission.isStall = [] := by
  apply List.filter_eq_nil_iff.mpr
  intro e he
  obtain ⟨channel, tick, rfl⟩ := n.event_of_mem_resetEmissions e he
  exact Bool.false_ne_true

theorem filter_isStall_resetLanesEmissions (ls : List (Lane (Node ω))) :
    (Node.resetLanesEmissions ls).filter Emission.isStall = [] := by
  rw [Node.resetLanesEmissions_eq_flatMap, List.filter_flatMap]
  simp [filter_isStall_resetEmissions]

theorem filter_isStall_finishedParallel (h : Head) (s : Status) :
    (finishedParallel h s).filter Emission.isStall = [] := by
  rw [finishedParallel]
  split <;> rfl

namespace Visit

/-- The tick settles the last child without a quorum, or finds them all settled already. -/
def Stalls (v : Visit ω) : Prop :=
  v.step.answer = .running ∧ ∀ s ∈ v.step.state.slots, s.isTerminal = true

instance (v : Visit ω) : Decidable v.Stalls := inferInstanceAs (Decidable (_ ∧ _))

def own (v : Visit ω) : List Emission := v.step.emitted.drop v.round.emitted.length

def warnings (v : Visit ω) : List Emission := v.own.filter Emission.isStall

def warning (v : Visit ω) : Emission :=
  .diagnostic (.parallelStalled v.node.name (v.filled.count .success) (v.filled.count .failure))

theorem own_eq {v : Visit ω} {es : List Emission} (h : v.step.emitted = v.round.emitted ++ es) :
    v.own = es := by
  rw [own, h, List.drop_left]

/-- A tick of a parallel with children sets the flag exactly if it stalls, and it warns if the flag
was not set before. -/
theorem stall_step {v : Visit ω} {h : Head} {q : Quorums} {stalled : Bool}
    {ls : List (Lane (Node ω))} (hv : v.node = .parallel h q stalled ls) (hls : ls ≠ []) :
    v.step.state.isStalled = (v.step.answer.isRunning && (stalled || decide v.Stalls)) ∧
      v.warnings = if v.Stalls ∧ stalled = false then [v.warning] else [] := by
  obtain ⟨ls', hslots, -, hstep⟩ := step_parallel hv hls
  have hown := own_eq (congrArg Step.emitted hstep)
  by_cases hrunning : q.ofSlots v.filled = .running
  · have hopen : ¬ Status.running.isTerminal = true := by decide
    simp only [hrunning, if_neg hopen] at hstep hown
    have hstalls : v.Stalls ↔ Lane.settled ls' = true := by
      rw [Stalls, hstep, settled_iff_slots]
      exact and_iff_right rfl
    constructor
    · simp [hstep, hstalls, Node.isStalled]
    · rw [warnings, hown, List.filter_append, filter_isStall_finishedParallel, List.append_nil]
      simp only [hstalls, Bool.and_eq_true, Bool.not_eq_true', warning, hv]
      split <;> rfl
  · have hended : (q.ofSlots v.filled).isTerminal = true := by
      simpa [Status.isTerminal] using hrunning
    have hnot : ¬ v.Stalls := fun hstalls => hrunning (by simpa [hstep] using hstalls.1)
    simp only [if_pos hended] at hstep hown
    constructor
    · simp [hstep, hrunning, Status.isRunning, Node.isStalled]
    · rw [warnings, hown, List.filter_append, filter_isStall_finishedParallel,
        filter_isStall_resetLanesEmissions, if_neg (fun hv => hnot hv.1)]
      rfl

theorem filled_ne_nil {v : Visit ω} {h : Head} {q : Quorums} {stalled : Bool}
    {ls : List (Lane (Node ω))} (hv : v.node = .parallel h q stalled ls) (hls : ls ≠ []) :
    v.filled ≠ [] := by
  obtain ⟨ls', hslots, hnodes, -⟩ := step_parallel hv hls
  have hlen : ls'.length = ls.length := by
    rw [← List.length_map (·.node), hnodes, round, Node.length_state_round, hv]
    exact List.length_map _
  rw [← hslots]
  intro hnil
  rw [List.map_eq_nil_iff.mp hnil] at hlen
  exact hls (List.length_eq_zero_iff.mp hlen.symm)

theorem deadlock_of_stalls {v : Visit ω} {h : Head} {q : Quorums} {stalled : Bool}
    {ls : List (Lane (Node ω))} (hv : v.node = .parallel h q stalled ls) (hls : ls ≠ [])
    (hstalls : v.Stalls) : q.Deadlock v.step.state.slots := by
  obtain ⟨hrunning, hall⟩ := hstalls
  have hslots := ((attends hv).running hrunning).1
  have hunmet : q.ofSlots v.filled = .running := by
    obtain ⟨ls', -, -, hstep⟩ := step_parallel hv hls
    exact (congrArg Step.answer hstep).symm.trans hrunning
  rw [hslots] at hall ⊢
  exact Quorums.deadlock_of_unmet (filled_ne_nil hv hls) hall hunmet

theorem quiet_of_nil {v : Visit ω} {h : Head} {q : Quorums} {stalled : Bool}
    (hv : v.node = .parallel h q stalled []) : ¬ v.Stalls ∧ v.warnings = [] := by
  obtain ⟨n, m, w⟩ := v
  cases hv
  constructor
  · intro hstalls
    cases hstalls.1
  · exact filter_isStall_finishedParallel h .success

/-- Each tick that stalls the node first in its pass warns once, and no other tick warns. -/
def WarnsOnce (vs : List (Visit ω)) : Prop :=
  EachAfter (fun before v =>
    v.warnings = if v.Stalls ∧ ∀ u ∈ before, ¬ u.Stalls then [v.warning] else []) vs

theorem WarnsOnce.length_warnings_le {vs : List (Visit ω)} (h : WarnsOnce vs) :
    (vs.flatMap warnings).length ≤ 1 ∧ ((∀ u ∈ vs, ¬ u.Stalls) → vs.flatMap warnings = []) := by
  induction vs using List.reverseRecOn with
  | nil => exact ⟨Nat.zero_le 1, fun _ => rfl⟩
  | append_singleton vs v ih =>
    obtain ⟨hvs, hv⟩ := eachAfter_concat.mp h
    obtain ⟨hle, hquiet⟩ := ih hvs
    rw [List.flatMap_append, List.flatMap_singleton, hv]
    -- Up to the first tick that stalls nobody has warned, and after it nobody warns.
    by_cases hearlier : ∀ u ∈ vs, ¬ u.Stalls
    · rw [hquiet hearlier]
      constructor
      · split <;> simp
      · intro hall
        rw [if_neg fun hs => hall v (by simp) hs.1]
        rfl
    · rw [if_neg fun hs => hearlier hs.2, List.append_nil]
      exact ⟨hle, fun hall => absurd (fun u hu => hall u (List.mem_append_left _ hu)) hearlier⟩

end Visit

theorem Node.length_slots {n : Node ω} {name : String} {q : Quorums}
    (h : n.blueprint = .parallel name q) : n.slots.length = n.children.length := by
  cases n with
  | parallel => simp [slots, children]
  | _ => cases h

namespace Course

structure Tracked (q : Quorums) (c : Course ω) : Prop where
  flag : c.node.isStalled = true ↔ ∃ v ∈ c.visits, v.Stalls
  idle : c.node.children = [] → c.node.isStalled = false
  resolved : c.node.children ≠ [] → (∀ s ∈ c.node.slots, s.isTerminal = true) →
    q.Deadlock c.node.slots ∧ c.node.isStalled = true ∧ c.node.status = some .running
  warned : Visit.WarnsOnce c.visits

theorem tracked_of_running {q : Quorums} {c : Course ω} {name : String}
    (hblueprint : c.node.blueprint = .parallel name q) (hvisits : c.visits = [])
    (hflag : c.node.isStalled = false) (hslots : ∀ s ∈ c.node.slots, s = .running) :
    c.Tracked q where
  flag := by simp [hvisits, hflag]
  idle _ := hflag
  resolved hne hall := by
    have hlen := Node.length_slots hblueprint
    obtain ⟨s, hs⟩ : ∃ s, s ∈ c.node.slots := by
      apply List.exists_mem_of_length_pos
      rw [hlen]
      exact List.length_pos_iff.mpr hne
    have hterminal := hall s hs
    rw [hslots s hs] at hterminal
    cases hterminal
  warned := by
    rw [hvisits]
    exact Visit.eachAfter_nil _

theorem Tracked.unset_iff {h : Head} {q : Quorums} {stalled : Bool} {ls : List (Lane (Node ω))}
    {visits : List (Visit ω)} (hc : Tracked q ⟨.parallel h q stalled ls, visits⟩) :
    stalled = false ↔ ∀ u ∈ visits, ¬ u.Stalls := by
  simpa [Node.isStalled] using not_congr hc.flag

/-- The warnings of the pass together with the next tick, whatever that answers. -/
theorem Tracked.warnsOnce {h : Head} {q : Quorums} {stalled : Bool} {ls : List (Lane (Node ω))}
    {visits : List (Visit ω)} (hc : Tracked q ⟨.parallel h q stalled ls, visits⟩) (m : Moment)
    (w : World ω) : Visit.WarnsOnce (visits ++ [⟨.parallel h q stalled ls, m, w⟩]) := by
  refine Visit.eachAfter_concat.mpr ⟨hc.warned, ?_⟩
  by_cases hls : ls = []
  · subst hls
    obtain ⟨hnot, hquiet⟩ := Visit.quiet_of_nil (v := ⟨.parallel h q stalled [], m, w⟩) rfl
    rw [hquiet, if_neg fun hv => hnot hv.1]
  · have hwarnings := (Visit.stall_step (v := ⟨.parallel h q stalled ls, m, w⟩) rfl hls).2
    simpa only [hc.unset_iff] using hwarnings

theorem Tracked.tick {h : Head} {q : Quorums} {stalled : Bool} {ls : List (Lane (Node ω))}
    {visits : List (Visit ω)} (hc : Tracked q ⟨.parallel h q stalled ls, visits⟩) (m : Moment)
    (w : World ω) : (apply ⟨.parallel h q stalled ls, visits⟩ (.tick m w)).Tracked q := by
  let v : Visit ω := ⟨.parallel h q stalled ls, m, w⟩
  have hattends : v.Attends q := Visit.attends rfl
  have hblueprint : v.step.state.blueprint = .parallel h.name q := Node.blueprint_tick m _ w
  by_cases hls : ls = []
  · subst hls
    exact tracked_of_running hblueprint rfl (hc.idle rfl) nofun
  obtain ⟨hflag, -⟩ := Visit.stall_step (v := v) rfl hls
  rcases v.step.answer.running_or_terminal with hrunning | hended
  · have hvisits := visits_tick_of_running (c := ⟨v.node, visits⟩) hrunning
    have hset : v.step.state.isStalled = true ↔ stalled = true ∨ v.Stalls := by
      simp [hflag, hrunning, Status.isRunning]
    constructor
    case flag =>
      rw [hvisits]
      refine hset.trans ?_
      rw [show stalled = true ↔ ∃ u ∈ visits, u.Stalls from hc.flag]
      simp [or_and_right, exists_or]
    case idle =>
      intro hnil
      have hlen := (Node.successor_children m v.node w).length_eq
      rw [show (Node.tick m v.node w).state.children = [] from hnil] at hlen
      exact absurd (List.map_eq_nil_iff.mp (List.length_eq_zero_iff.mp hlen)) hls
    case resolved =>
      intro _ hall
      have hstalls : v.Stalls := ⟨hrunning, hall⟩
      exact ⟨Visit.deadlock_of_stalls rfl hls hstalls, hset.mpr (.inr hstalls),
        (Node.status_tick m _ w).trans (congrArg some hrunning)⟩
    case warned =>
      rw [hvisits]
      exact hc.warnsOnce m w
  · refine tracked_of_running hblueprint (visits_tick_of_ended hended) ?_
      (hattends.finished hended).1
    have hstopped : v.step.answer.isRunning = false := by
      simpa [Status.isRunning, Status.isTerminal] using hended
    exact hflag.trans (by simp [hstopped])

theorem Tracked.push {h : Head} {q : Quorums} {stalled : Bool} {ls : List (Lane (Node ω))}
    {visits : List (Visit ω)} (hc : Tracked q ⟨.parallel h q stalled ls, visits⟩)
    (child : Node ω) : (apply ⟨.parallel h q stalled ls, visits⟩ (.push child)).Tracked q where
  flag := hc.flag
  idle hnil := by
    simp [apply, Move.change, Change.apply, Node.update, Node.push, Node.children] at hnil
  resolved _ hall := by
    have hopen := hall .running (by
      simp [apply, Move.change, Change.apply, Node.update, Node.push, Node.slots])
    cases hopen
  warned := hc.warned

theorem tracked_after (name : String) (q : Quorums) (cs : List (Node ω)) (moves : List (Move ω)) :
    ((ofParallel name q cs).after moves).Tracked q := by
  have hfresh : (ofParallel name q cs).Tracked q :=
    tracked_of_running rfl rfl rfl (slots_ofParallel name q cs)
  refine ofParallel_induction moves hfresh ?_
  intro status stalled ls visits c _ htracked move
  cases move with
  | tick m w => exact htracked.tick m w
  | reset => exact tracked_of_running rfl rfl rfl c.node.running_of_mem_slots_reset
  | push child => exact htracked.push child

theorem node_after_ticks {c : Course ω} (h : ∀ m w, (Node.tick m c.node w).state = c.node)
    (ticks : List (Moment × World ω)) :
    (c.after (ticks.map fun x => .tick x.1 x.2)).node = c.node := by
  refine after_induction (P := fun d => d.node = c.node) rfl ?_
  intro d hd move hmove
  obtain ⟨x, -, rfl⟩ := List.mem_map.mp hmove
  change (Node.tick x.1 d.node x.2).state = _
  rw [hd, h]

/-- In any state between two calls: all children of a parallel that has any are resolved only if
both quorums want all of them and they disagree, and then it runs on, does nothing at all in a tick
and stays as it is until it is reset or gets another child. Within a pass, the next tick included,
it warns in the first tick that settles the last child without a quorum and in no other. -/
theorem stall_law (name : String) (q : Quorums) (cs : List (Node ω)) (moves : List (Move ω)) :
    let c := (ofParallel name q cs).after moves
    (c.node.children ≠ [] → (∀ s ∈ c.node.slots, s.isTerminal = true) →
      (q.success = .requireAll ∧ q.failure = .requireAll ∧
        .success ∈ c.node.slots ∧ .failure ∈ c.node.slots) ∧
      (∀ m w, Node.tick m c.node w = ⟨.running, c.node, w, []⟩ ∧
        ∀ called ∈ c.node.calls m w, called = false) ∧
      ∀ ticks : List (Moment × World ω),
        (c.after (ticks.map fun x => .tick x.1 x.2)).node = c.node) ∧
    ∀ m w,
      let v : Visit ω := ⟨c.node, m, w⟩
      v.step.emitted = v.round.emitted ++ v.own ∧
        Visit.WarnsOnce (c.visits ++ [v]) ∧
        ((c.visits ++ [v]).flatMap Visit.warnings).length ≤ 1 := by
  intro c
  have htracked : c.Tracked q := tracked_after name q cs moves
  obtain ⟨status, stalled, ls, hn⟩ := exists_parallel name q cs moves
  change c.node = _ at hn
  refine ⟨?_, ?_⟩
  · intro hchildren hall
    obtain ⟨hdeadlock, hstalled, hstatus⟩ := htracked.resolved hchildren hall
    have hsame : ∀ m w, Node.tick m c.node w = ⟨.running, c.node, w, []⟩ := by
      intro m w
      rw [hn] at hstalled hstatus hdeadlock hall ⊢
      obtain rfl : stalled = true := hstalled
      obtain rfl : status = some .running := hstatus
      exact Node.tick_of_deadlock hdeadlock (by simpa [Node.slots] using hall) m w
    refine ⟨⟨hdeadlock.success, hdeadlock.failure, hdeadlock.succeeded, hdeadlock.failed⟩, ?_, ?_⟩
    · intro m w
      refine ⟨hsame m w, ?_⟩
      have hcalls := (Visit.attends (v := ⟨c.node, m, w⟩) hn).calls
      intro called hcalled
      rw [show c.node.calls m w = _ from hcalls] at hcalled
      obtain ⟨s, hs, rfl⟩ := List.mem_map.mp hcalled
      simpa [Status.isTerminal, Status.isRunning] using hall s hs
    · exact node_after_ticks fun m w => congrArg Step.state (hsame m w)
  · intro m w v
    have honce : Visit.WarnsOnce (c.visits ++ [v]) := by
      simp only [v]
      generalize c = d at hn htracked ⊢
      obtain ⟨n, visits⟩ := d
      obtain rfl : n = _ := hn
      exact htracked.warnsOnce m w
    exact ⟨List.prefix_iff_eq_append.mp (Visit.attends hn).emitted |>.symm, honce,
      honce.length_warnings_le.1⟩

/-- Of two children one succeeds and the other fails: both quorums stay out of reach. -/
theorem stall_law_split :
    let yes : Node Nat := .action ⟨"yes", none⟩ (some fun _ w => (.success, w))
    let no : Node Nat := .action ⟨"no", none⟩ (some fun _ w => (.failure, w))
    let c := (ofParallel "both" ⟨.requireAll, .requireAll⟩ [yes, no]).after
      [.tick ⟨0, 0.5⟩ ⟨{}, 0⟩, .tick ⟨1, 0.5⟩ ⟨{}, 0⟩]
    c.node.slots = [.success, .failure] ∧
      c.visits.map (fun v => v.warnings.length) = [1, 0] ∧
      ∀ m w, Node.tick m c.node w = ⟨.running, c.node, w, []⟩ := by
  intro yes no c
  have hslots : c.node.slots = [.success, .failure] := by decide
  have hchildren : c.node.children ≠ [] := List.ne_nil_of_length_pos (by decide)
  refine ⟨hslots, by decide, ?_⟩
  intro m w
  have hstuck := (stall_law "both" ⟨.requireAll, .requireAll⟩ [yes, no]
    [.tick ⟨0, 0.5⟩ ⟨{}, 0⟩, .tick ⟨1, 0.5⟩ ⟨{}, 0⟩]).1 hchildren (hslots ▸ by decide)
  exact (hstuck.2.1 m w).1

end Course

end BehaviorTree
