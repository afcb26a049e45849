import BehaviorTree.Node.Tick
import BehaviorTree.Proofs.Fresh

/-!
# One tick

What a tick does, one equation for each kind of node, and what it makes of the children:
each of them is left alone, ticked, reset, or ticked and then reset. From this a property
that holds everywhere in a tree is carried over one tick of its root.
-/

namespace BehaviorTree

variable {ω : Type}

theorem Order.isTerminal_pass (order : Order) : order.pass.isTerminal = true := by
  cases order <;> rfl

/-- The answer of a composite after a walk; a walk without an answer passed every child. -/
def Order.conclude (order : Order) : Option (Nat × Status) → Status
  | some (_, s) => s
  | none => order.pass

def Order.clears (order : Order) (cursor : Cursor) : Option (Nat × Status) → Bool
  | some (_, s) => s.isTerminal
  | none => !order.keepsPassedChildren cursor

def Cursor.after (cursor : Cursor) : Option (Nat × Status) → Cursor
  | some (index, .running) => cursor.moveTo index
  | _ => cursor.rewind

@[simp] theorem Cursor.rewind_after (cursor : Cursor) (answer : Option (Nat × Status)) :
    (cursor.after answer).rewind = cursor.rewind := by
  unfold Cursor.after
  split <;> cases cursor <;> rfl

def Quorums.verdict {ν : Type} (q : Quorums) (ls : List (Lane ν)) : Status :=
  q.outcome (Lane.count .success ls) (Lane.count .failure ls) ls.length

def Lane.settled {ν : Type} (ls : List (Lane ν)) : Bool :=
  Lane.count .success ls + Lane.count .failure ls = ls.length

def Node.slots : Node ω → List Status
  | parallel _ _ _ ls => ls.map (·.slot)
  | _ => []

theorem exists_of_mem_forall₂ {α β : Type} {R : α → β → Prop} {as : List α} {bs : List β}
    (h : List.Forall₂ R as bs) {b : β} (hb : b ∈ bs) : ∃ a ∈ as, R a b := by
  induction h with
  | nil => cases hb
  | cons hab _ ih =>
    rcases List.mem_cons.mp hb with rfl | hb
    · exact ⟨_, List.mem_cons_self, hab⟩
    · obtain ⟨a, ha, hab⟩ := ih hb
      exact ⟨a, List.mem_cons_of_mem _ ha, hab⟩

namespace Node

/-! ## Equations -/

theorem tick_decorator_of_due (m : Moment) (h : Head) {kind : Decorator} (child : Node ω)
    (w : World ω) (hdue : kind.isDue = true) :
    tick m (decorator h kind (some child)) w =
      ⟨.success, decorator (h.record .success) kind.rewind (some child.reset), w,
        child.resetEmissions⟩ := by
  rw [tick, if_pos hdue]

theorem tick_decorator_of_not_due (m : Moment) (h : Head) {kind : Decorator} (child : Node ω)
    (w : World ω) (hdue : ¬ kind.isDue = true) :
    let c := tick m child w
    let v := kind.judge m.elapsed c.answer
    tick m (decorator h kind (some child)) w =
      ⟨v.status, decorator (h.record v.status) v.kind
          (some (if v.resetsChild then c.state.reset else c.state)), c.world,
        c.emitted ++ if v.resetsChild then c.state.resetEmissions else []⟩ := by
  rw [tick, if_neg hdue]

theorem tick_composite (m : Moment) (h : Head) (order : Order) (cursor : Cursor)
    (cs : List (Node ω)) (w : World ω) :
    let c := walk m order.pass cursor.start 0 cs w
    let s := order.conclude c.answer
    let clears := order.clears cursor c.answer
    tick m (composite h order cursor cs) w =
      ⟨s, composite (h.record s) order (cursor.after c.answer)
          (if clears then resetAll c.state else c.state), c.world,
        c.emitted ++ (if clears then resetAllEmissions c.state else []) ++
          finishedComposite h s⟩ := by
  rw [tick]
  generalize walk m order.pass cursor.start 0 cs w = c
  obtain ⟨answer, _, _, _⟩ := c
  cases answer with
  | none =>
    cases hk : order.keepsPassedChildren cursor <;>
      simp [Order.conclude, Order.clears, Cursor.after, hk]
  | some a =>
    obtain ⟨index, s⟩ := a
    cases s <;>
      simp [Order.conclude, Order.clears, Cursor.after, Status.isTerminal, finishedComposite]

theorem tick_parallel_nil (m : Moment) (h : Head) (q : Quorums) (stalled : Bool) (w : World ω) :
    tick m (parallel h q stalled []) w =
      ⟨.success, parallel (h.record .success) q stalled [], w, finishedParallel h .success⟩ := by
  rw [tick]
  rfl

theorem tick_parallel_of_ne_nil (m : Moment) (h : Head) (q : Quorums) (stalled : Bool)
    {ls : List (Lane (Node ω))} (w : World ω) (hls : ls ≠ []) :
    let c := tickOpen m ls w
    let s := q.verdict c.state
    tick m (parallel h q stalled ls) w =
      ⟨s, parallel (h.record s) q (s.isRunning && (stalled || Lane.settled c.state))
          (if s.isTerminal then resetLanes c.state else c.state), c.world,
        c.emitted ++ (if s.isTerminal then resetLanesEmissions c.state
          else if Lane.settled c.state && !stalled then
            [.diagnostic (.parallelStalled h.name (Lane.count .success c.state)
              (Lane.count .failure c.state))]
          else []) ++ finishedParallel h s⟩ := by
  rw [tick, if_neg (by simpa using hls)]
  generalize tickOpen m ls w = c
  obtain ⟨s, hs⟩ : ∃ s, q.outcome (Lane.count .success c.state) (Lane.count .failure c.state)
      c.state.length = s := ⟨_, rfl⟩
  simp only [Quorums.verdict, hs]
  cases s with
  | success | failure => simp [Status.isTerminal, Status.isRunning]
  | running => simp [Status.isTerminal, Status.isRunning, finishedParallel, Lane.settled]

theorem tickTree_of_root_none (m : Moment) {t : Tree ω} (w : World ω) (h : t.root = none) :
    tickTree m t w = ⟨none, { t with ticks := t.ticks + 1 }, w, []⟩ := by
  obtain ⟨_, _, _, _, _⟩ := t
  cases h
  rw [tickTree]

theorem tickTree_of_root_some (m : Moment) {t : Tree ω} {r : Node ω} (w : World ω)
    (h : t.root = some r) :
    let c := tick m r w
    let ended := c.answer.isTerminal
    tickTree m t w =
      ⟨some c.answer,
        { t with
          root := some (if ended then c.state.reset else c.state)
          last := some c.answer
          ticks := t.ticks + 1 },
        c.world,
        c.emitted ++
          (if ended then
            .diagnostic (.passEnded c.state.name m.index c.answer) :: c.state.resetEmissions
          else []) ++ Emission.toChannel t.channel (Event.ticked m.index c.answer)⟩ := by
  obtain ⟨_, _, _, _, _⟩ := t
  cases h
  rw [tickTree]

theorem tick_subtree_shared (m : Moment) (h : Head) (report : Report) (t : Tree ω) (w : World ω) :
    let c := tickTree m t w
    let s := report.answer c.answer
    tick m (subtree h .shared report t) w =
      ⟨s, subtree (h.record s) .shared report c.state, c.world, c.emitted⟩ := by
  rw [tick]

theorem tick_subtree_isolated (m : Moment) (h : Head) (report : Report) (t : Tree ω)
    (w : World ω) :
    let c := tickTree m t { w with blackboard := t.blackboard }
    let s := report.answer c.answer
    tick m (subtree h .isolated report t) w =
      ⟨s, subtree (h.record s) .isolated report { c.state with blackboard := c.world.blackboard },
        { w with host := c.world.host }, c.emitted⟩ := by
  rw [tick]

/-! ## The recorded answer -/

theorem status_tick (m : Moment) (n : Node ω) (w : World ω) :
    (tick m n w).state.status = some (tick m n w).answer := by
  cases n with
  | condition h test => cases test <;> rfl
  | action h run => cases run <;> rfl
  | decorator h kind c =>
    cases c with
    | none => rfl
    | some c =>
      by_cases hdue : kind.isDue = true
      · rw [tick_decorator_of_due m h c w hdue]
        rfl
      · rw [tick_decorator_of_not_due m h c w hdue]
        rfl
  | composite h order cursor cs =>
    rw [tick_composite]
    rfl
  | parallel h q stalled ls =>
    by_cases hls : ls = []
    · subst hls
      rw [tick_parallel_nil]
      rfl
    · rw [tick_parallel_of_ne_nil m h q stalled w hls]
      rfl
  | subtree h scope report t =>
    cases scope with
    | shared =>
      rw [tick_subtree_shared]
      rfl
    | isolated =>
      rw [tick_subtree_isolated]
      rfl

/-! ## Children -/

inductive Successor (m : Moment) (n : Node ω) : Node ω → Prop
  | kept : Successor m n n
  | ticked (w : World ω) : Successor m n (tick m n w).state
  | reset {n' : Node ω} (h : Successor m n n') : Successor m n n'.reset

theorem successor_walk (m : Moment) (pass : Status) (start index : Nat) (ns : List (Node ω))
    (w : World ω) : List.Forall₂ (Successor m) ns (walk m pass start index ns w).state := by
  induction ns generalizing index w with
  | nil =>
    rw [walk]
    exact .nil
  | cons n ns ih =>
    rw [walk]
    split
    · exact .cons .kept (ih (index + 1) w)
    · dsimp only
      split
      · exact .cons (.ticked w) (ih (index + 1) _)
      · exact .cons (.ticked w) (List.forall₂_same.mpr fun _ _ => .kept)

theorem successor_tickOpen (m : Moment) (ls : List (Lane (Node ω))) (w : World ω) :
    List.Forall₂ (fun l l' => Successor m l.node l'.node) ls (tickOpen m ls w).state := by
  induction ls generalizing w with
  | nil =>
    rw [tickOpen]
    exact .nil
  | cons l ls ih =>
    obtain ⟨slot, n⟩ := l
    rw [tickOpen]
    split
    · exact .cons (.ticked w) (ih _)
    · exact .cons .kept (ih w)

theorem successor_tickTree (m : Moment) (t : Tree ω) (w : World ω) :
    List.Forall₂ (Successor m) t.root.toList (tickTree m t w).state.root.toList := by
  cases hr : t.root with
  | none =>
    rw [tickTree_of_root_none m w hr, hr]
    exact .nil
  | some r =>
    rw [tickTree_of_root_some m w hr]
    refine .cons ?_ .nil
    split
    · exact .reset (.ticked w)
    · exact .ticked w

theorem successor_resetAll {m : Moment} {ns ns' : List (Node ω)}
    (h : List.Forall₂ (Successor m) ns ns') : List.Forall₂ (Successor m) ns (resetAll ns') := by
  rw [resetAll_eq_map, List.forall₂_map_right_iff]
  exact h.imp fun _ _ hn => .reset hn

theorem successor_children (m : Moment) (n : Node ω) (w : World ω) :
    List.Forall₂ (Successor m) n.children (tick m n w).state.children := by
  cases n with
  | condition h test => cases test <;> exact .nil
  | action h run => cases run <;> exact .nil
  | decorator h kind c =>
    cases c with
    | none => exact .nil
    | some c =>
      by_cases hdue : kind.isDue = true
      · rw [tick_decorator_of_due m h c w hdue]
        exact .cons (.reset .kept) .nil
      · rw [tick_decorator_of_not_due m h c w hdue]
        refine .cons ?_ .nil
        split
        · exact .reset (.ticked w)
        · exact .ticked w
  | composite h order cursor cs =>
    have hwalk := successor_walk m order.pass cursor.start 0 cs w
    rw [tick_composite]
    simp only [children]
    split
    · exact successor_resetAll hwalk
    · exact hwalk
  | parallel h q stalled ls =>
    by_cases hls : ls = []
    · subst hls
      rw [tick_parallel_nil]
      exact .nil
    · rw [tick_parallel_of_ne_nil m h q stalled w hls]
      have hopen := successor_tickOpen m ls w
      simp only [children, List.forall₂_map_left_iff, List.forall₂_map_right_iff]
      split
      · rw [resetLanes_eq_map, List.forall₂_map_right_iff]
        exact hopen.imp fun _ _ hn => .reset hn
      · exact hopen
  | subtree h scope report t =>
    cases scope with
    | shared =>
      rw [tick_subtree_shared]
      exact successor_tickTree m t w
    | isolated =>
      rw [tick_subtree_isolated]
      exact successor_tickTree m t _

/-! ## Properties kept by a tick -/

namespace Everywhere

variable {P : Node ω → Prop}

theorem reset (hreset : ∀ n : Node ω, P n → P n.reset) {n : Node ω} (h : n.Everywhere P) :
    n.reset.Everywhere P := by
  induction h with
  | intro here _ ih =>
    refine .intro (hreset _ here) ?_
    intro c hc
    rw [children_reset] at hc
    obtain ⟨d, hd, rfl⟩ := List.mem_map.mp hc
    exact ih d hd

theorem tick (hreset : ∀ n : Node ω, P n → P n.reset)
    (htick : ∀ (m : Moment) (n : Node ω) (w : World ω), P n → P (tick m n w).state)
    {n : Node ω} (h : n.Everywhere P) (m : Moment) (w : World ω) :
    (Node.tick m n w).state.Everywhere P := by
  induction h generalizing w with
  | @intro n here hchildren ih =>
    refine .intro (htick m n w here) ?_
    intro c hc
    obtain ⟨d, hd, hdc⟩ := exists_of_mem_forall₂ (successor_children m n w) hc
    -- Forget where the child stands: what follows is an induction on how it came about.
    clear hc
    induction hdc with
    | kept => exact hchildren d hd
    | ticked v => exact ih d hd v
    | reset _ ihd => exact ihd.reset hreset

end Everywhere

end Node

end BehaviorTree
