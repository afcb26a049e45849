import BehaviorTree.Proofs.History

/-!
# Finishing settles

A node that answers success or failure has settled itself and everything below it, even
where it does not reset its children. Two facts about single nodes carry the induction:
a nested tree's node forwards the nested answer, and a node without children has no
continuation state at all.
-/

namespace BehaviorTree

variable {ω : Type}

def Blueprint.Forwards : Blueprint ω → Prop
  | .subtree _ _ report _ => report = .forward
  | _ => True

theorem Order.start_after {order : Order} {cursor : Cursor} {answer : Option (Nat × Status)}
    (h : (order.conclude answer).isTerminal = true) : (cursor.after answer).start = 0 := by
  unfold Cursor.after
  split
  · cases h
  · exact cursor.start_rewind

theorem Order.of_not_clears {order : Order} {cursor : Cursor} {answer : Option (Nat × Status)}
    (h : (order.conclude answer).isTerminal = true)
    (hclears : ¬ order.clears cursor answer = true) :
    answer = none ∧ order = .selector ∧ cursor = .restart := by
  cases answer with
  | some a => exact absurd h hclears
  | none =>
    simp only [Order.clears, Order.keepsPassedChildren, Cursor.isRestart] at hclears
    simp_all

namespace Node

def Forwards (n : Node ω) : Prop := n.blueprint.Forwards

def SettledWhenEmpty (n : Node ω) : Prop := n.children = [] → n.SettledHere

theorem lasting_forwards : Lasting (Forwards (ω := ω)) := lasting_blueprint Blueprint.Forwards

theorem lasting_settledWhenEmpty : Lasting (SettledWhenEmpty (ω := ω)) where
  reset n _ _ := n.settledHere_reset
  tick m n w h hempty := by
    have hnil : n.children = [] := by
      have hlen := (successor_children m n w).length_eq
      rw [hempty] at hlen
      exact List.length_eq_zero_iff.mp hlen
    have hsettled := h hnil
    cases n with
    | condition _ test => cases test <;> trivial
    | action _ run => cases run <;> trivial
    | decorator _ _ c =>
      obtain rfl : c = none := by simpa [children] using hnil
      exact hsettled
    | composite _ _ cursor cs =>
      obtain rfl : cs = [] := hnil
      rw [tick_composite]
      simp [SettledHere, walk, Cursor.after]
    | parallel _ _ _ ls =>
      obtain rfl : ls = [] := by simpa [children] using hnil
      exact hsettled
    | subtree _ scope _ _ => cases scope <;> trivial
  push n child h hempty := by
    cases n with
    | composite | parallel => simp [push, children] at hempty
    | _ => exact h hempty
  withChildren n cs hlen h hempty := by
    rw [children_withChildren hlen] at hempty
    subst hempty
    have hnil : n.children = [] := List.length_eq_zero_iff.mp hlen.symm
    rw [← hnil, withChildren_children]
    exact h hnil

theorem Fresh.settledWhenEmpty {n : Node ω} (h : n.Fresh) : n.Everywhere SettledWhenEmpty :=
  h.imp fun _ hs _ => hs.1

/-- A walk from the first child that gets no answer ticked every child, and each of them passed. -/
theorem walk_eq_none {m : Moment} {pass : Status} {index : Nat} {ns : List (Node ω)} {w : World ω}
    (h : (walk m pass 0 index ns w).answer = none) :
    ∀ n' ∈ (walk m pass 0 index ns w).state, ∃ n ∈ ns, ∃ v,
      (tick m n v).answer = pass ∧ n' = (tick m n v).state := by
  induction ns generalizing index w with
  | nil => simp [walk]
  | cons n ns ih =>
    rw [walk, if_neg (Nat.not_lt_zero index)] at h ⊢
    by_cases hpass : (tick m n w).answer = pass
    · rw [if_pos hpass] at h ⊢
      intro n' hn'
      rcases List.mem_cons.mp hn' with rfl | hn'
      · exact ⟨n, List.mem_cons_self, w, hpass, rfl⟩
      · obtain ⟨d, hd, hstep⟩ := ih h n' hn'
        exact ⟨d, List.mem_cons_of_mem _ hd, hstep⟩
    · rw [if_neg hpass] at h
      cases h

theorem settled_resetAll (ns : List (Node ω)) : ∀ n ∈ resetAll ns, n.Settled := by
  intro n hn
  rw [resetAll_eq_map] at hn
  obtain ⟨c, -, rfl⟩ := List.mem_map.mp hn
  exact (fresh_reset c).settled

/-- The driver resets a root that finishes, so it needs nothing of the root. -/
theorem settled_tickTree (m : Moment) (t : Tree ω) (w : World ω)
    (hdone : (Report.forward.answer (tickTree m t w).answer).isTerminal = true) :
    ∀ r ∈ (tickTree m t w).state.root.toList, r.Settled := by
  cases hr : t.root with
  | none => simp [tickTree_of_root_none m w hr, hr]
  | some r =>
    rw [tickTree_of_root_some m w hr] at hdone ⊢
    have hended : (tick m r w).answer.isTerminal = true := hdone
    simpa [hended] using (fresh_reset _).settled

theorem atStart_judge {seconds : Float32} {kind : Decorator} {s : Status}
    (h : (kind.judge seconds s).status.isTerminal = true) :
    (kind.judge seconds s).kind.AtStart ∧
      ((kind.judge seconds s).resetsChild = true ∨ s.isTerminal = true) := by
  cases kind with
  | inverter => exact ⟨trivial, .inr (by simpa [Decorator.judge] using h)⟩
  | succeeder => cases s <;> simp_all [Decorator.judge, Decorator.AtStart, Status.isTerminal]
  | repeater limit completed =>
    cases s with
    | success =>
      simp only [Decorator.judge] at h ⊢
      split at h
      · next hdue => simp [hdue, Decorator.AtStart, Decorator.rewind]
      · cases h
    | failure => exact ⟨rfl, .inl rfl⟩
    | running => cases h
  | timer duration elapsed =>
    simp only [Decorator.judge] at h ⊢
    split at h
    · next hdue => simp [hdue, Decorator.AtStart, Decorator.rewind]
    · cases h

/-! ## One tick of each kind of node -/

def SettlesAt (m : Moment) (n : Node ω) : Prop :=
  ∀ w, (tick m n w).answer.isTerminal = true → (tick m n w).state.Settled

theorem settlesAt_decorator {m : Moment} (h : Head) (kind : Decorator) {c : Node ω}
    (hc : c.SettlesAt m) : (decorator h kind (some c)).SettlesAt m := by
  intro w hdone
  by_cases hdue : kind.isDue = true
  · rw [tick_decorator_of_due m h c w hdue]
    exact settled_iff.mpr ⟨kind.atStart_rewind, by simpa [children] using (fresh_reset c).settled⟩
  · rw [tick_decorator_of_not_due m h c w hdue] at hdone ⊢
    obtain ⟨hstart, hreset⟩ := atStart_judge hdone
    refine settled_iff.mpr ⟨hstart, ?_⟩
    simp only [children, Option.toList_some, List.mem_singleton, forall_eq]
    split
    · exact (fresh_reset _).settled
    · next hkept => exact hc w (hreset.resolve_left hkept)

theorem settlesAt_composite {m : Moment} (h : Head) (order : Order) (cursor : Cursor)
    {cs : List (Node ω)} (hcs : ∀ c ∈ cs, c.SettlesAt m) :
    (composite h order cursor cs).SettlesAt m := by
  intro w hdone
  rw [tick_composite] at hdone ⊢
  refine settled_iff.mpr ⟨Order.start_after hdone, ?_⟩
  by_cases hclears : order.clears cursor (walk m order.pass cursor.start 0 cs w).answer = true
  · simpa only [children, if_pos hclears] using settled_resetAll _
  · -- Only a selector that ticked every child in this walk leaves them without a reset.
    obtain ⟨hnone, rfl, rfl⟩ := Order.of_not_clears hdone hclears
    simp only [children, if_neg hclears]
    intro c' hc'
    obtain ⟨c, hc, v, hpass, rfl⟩ := walk_eq_none hnone c' hc'
    exact hcs c hc v (by rw [hpass]; rfl)

/-- A parallel that finishes resets every lane, so it needs nothing of its children. -/
theorem settlesAt_parallel (m : Moment) (h : Head) (q : Quorums) (stalled : Bool)
    {ls : List (Lane (Node ω))} (hls : ls ≠ []) : (parallel h q stalled ls).SettlesAt m := by
  intro w hdone
  rw [tick_parallel_of_ne_nil m h q stalled w hls] at hdone ⊢
  simp only [if_pos hdone]
  refine settled_iff.mpr ⟨⟨?_, by simp [resetLanes_eq_map]⟩, ?_⟩
  · have hrunning : (q.verdict (tickOpen m ls w).state).isRunning = false := by
      simpa [Status.isTerminal, Status.isRunning] using hdone
    simp [hrunning]
  · intro c hc
    simp only [children, resetLanes_eq_map, List.map_map, List.mem_map] at hc
    obtain ⟨l, -, rfl⟩ := hc
    exact (fresh_reset l.node).settled

theorem settlesAt_subtree (m : Moment) (h : Head) (scope : Scope) (t : Tree ω) :
    (subtree h scope .forward t).SettlesAt m := by
  intro w hdone
  cases scope with
  | shared =>
    rw [tick_subtree_shared] at hdone ⊢
    exact settled_iff.mpr ⟨trivial, settled_tickTree m t w hdone⟩
  | isolated =>
    rw [tick_subtree_isolated] at hdone ⊢
    exact settled_iff.mpr ⟨trivial, settled_tickTree m t _ hdone⟩

theorem settlesAt {n : Node ω} (hforwards : n.Everywhere Forwards)
    (hempty : n.Everywhere SettledWhenEmpty) (m : Moment) : n.SettlesAt m := by
  induction n using childInduction with
  | _ n ih =>
    have hchild : ∀ c ∈ n.children, c.SettlesAt m :=
      fun c hc => ih c hc (hforwards.children c hc) (hempty.children c hc)
    cases n with
    | condition h test =>
      intro w _
      cases test <;> exact .intro trivial (by simp [children, tick])
    | action h run =>
      intro w _
      cases run <;> exact .intro trivial (by simp [children, tick])
    | decorator h kind c =>
      cases c with
      | none =>
        intro w _
        exact .intro (hempty.here rfl) (by simp [children, tick])
      | some c => exact settlesAt_decorator h kind (hchild c (by simp [children]))
    | composite h order cursor cs => exact settlesAt_composite h order cursor hchild
    | parallel h q stalled ls =>
      by_cases hls : ls = []
      · subst hls
        intro w _
        rw [tick_parallel_nil]
        exact settled_iff.mpr ⟨hempty.here rfl, by simp [children]⟩
      · exact settlesAt_parallel m h q stalled hls
    | subtree h scope report t =>
      have hreport : report = .forward := hforwards.here
      subst hreport
      exact settlesAt_subtree m h scope t

/-- Whatever happened to a fresh node without reports of constant success, a tick of it that
answers success or failure leaves no continuation state in it or below it. -/
theorem settled_of_finished {n : Node ω} (hn : n.Fresh) (hforwards : n.Everywhere Forwards)
    {changes : List (Change ω)}
    (hpush : ∀ c ∈ changes, c.Pushes fun child => child.Fresh ∧ child.Everywhere Forwards)
    (m : Moment) (w : World ω) (hdone : (tick m (n.after changes) w).answer.isTerminal = true) :
    (tick m (n.after changes) w).state.Settled := by
  have hforwards' : (n.after changes).Everywhere Forwards :=
    hforwards.after lasting_forwards fun c hc => (hpush c hc).imp fun _ h => h.2
  have hempty : (n.after changes).Everywhere SettledWhenEmpty :=
    hn.settledWhenEmpty.after lasting_settledWhenEmpty fun c hc =>
      (hpush c hc).imp fun _ h => h.1.settledWhenEmpty
  exact settlesAt hforwards' hempty m w hdone

/-- Over a host that counts calls: a resuming sequence whose second action gives up at the third
call, with an inverted success as the fallback. -/
def hesitant : Node Nat :=
  let count (answer : Nat → Status) : Action Nat :=
    fun _ w => (answer w.host, { w with host := w.host + 1 })
  compose .selector false
    [compose .sequence true
      [action ⟨"ready", none⟩ (some (count fun _ => .success)),
        action ⟨"try", none⟩ (some (count fun calls => if calls ≤ 1 then .running else .failure))],
    decorate .inverter (some (action ⟨"excuse", none⟩ (some (count fun _ => .success))))]

theorem fresh_hesitant : hesitant.Fresh := by
  refine fresh_compose _ _ ?_
  rintro c (_ | ⟨_, _ | ⟨_, ⟨⟩⟩⟩)
  · exact fresh_compose _ _ (by simp [fresh_action])
  · exact fresh_decorate _ (by simp [fresh_action])

theorem forwards_hesitant : hesitant.Everywhere Forwards := by
  simp [hesitant, compose, decorate, Forwards, blueprint, Blueprint.Forwards]

/-- The selector fails without a reset: its children still record their answers, and yet the
cursor of the sequence, which stood at its second child, is back at the first. -/
theorem settled_of_finished_hesitant :
    let n := hesitant.after [.tick [] ⟨0, 0.5⟩ ⟨{}, 0⟩]
    let s := tick ⟨1, 0.5⟩ n ⟨{}, 2⟩
    ¬ n.Settled ∧ s.answer = .failure ∧
      s.state.children.map status = [some .failure, some .failure] ∧ s.state.Settled := by
  intro n s
  refine ⟨?_, by decide, by decide, ?_⟩
  · intro h
    have hcursor := (h.children _ (List.mem_of_getElem? (i := 0) rfl)).here
    cases hcursor
  · exact settled_of_finished fresh_hesitant forwards_hesitant (by simp [Change.Pushes]) _ _
      (by decide)

end Node

end BehaviorTree
