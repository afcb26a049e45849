import BehaviorTree.Proofs.Location
import BehaviorTree.Proofs.Response

/-!
# Forgetting answers

Nodes record the answer of their latest tick, and so do the drivers of trees, but neither a tick
nor a reset reads what is recorded. Two nodes that differ in recorded answers only go through the
same run, whatever is done to them, and differ in recorded answers only in the end. The proof
compares a node with itself after all its answers are forgotten: a tick of the one is a tick of
the other, up to answers that are forgotten once more.
-/

namespace BehaviorTree

variable {ω : Type}

/-- The steps show the same, and what they lead to differs at most in what `f` leaves out. -/
structure Step.SameUpTo {σ ν μ κ : Type} (f : ν → μ) (s t : Step σ ν κ) : Prop where
  answer : s.answer = t.answer
  state : f s.state = f t.state
  world : s.world = t.world
  emitted : s.emitted = t.emitted

namespace Step.SameUpTo

variable {σ ν μ κ : Type} {f : ν → μ} {s t u : Step σ ν κ}

theorem symm (h : s.SameUpTo f t) : t.SameUpTo f s :=
  ⟨h.answer.symm, h.state.symm, h.world.symm, h.emitted.symm⟩

theorem trans (h : s.SameUpTo f t) (h' : t.SameUpTo f u) : s.SameUpTo f u :=
  ⟨h.answer.trans h'.answer, h.state.trans h'.state, h.world.trans h'.world,
    h.emitted.trans h'.emitted⟩

theorem map_world_eq {β : Type} (g : κ → β) {ss ts : List (Step σ ν κ)}
    (h : List.Forall₂ (SameUpTo f) ss ts) :
    ss.map (fun s => g s.world) = ts.map fun t => g t.world := by
  rw [← List.forall₂_eq_eq_eq, List.forall₂_map_left_iff, List.forall₂_map_right_iff]
  exact h.imp fun _ _ hst => congrArg g hst.world

end Step.SameUpTo

/-- What does not see that `f` is applied cannot tell apart what `f` makes equal. -/
theorem eq_of_apply_eq {α β : Type} {f : α → α} {g : α → β} (hg : ∀ a, g (f a) = g a) {a b : α}
    (h : f a = f b) : g a = g b := by
  rw [← hg a, h, hg]

@[simp] theorem Head.clear_record (h : Head) (s : Status) : (h.record s).clear = h.clear := rfl

@[simp] theorem Head.clear_clear (h : Head) : h.clear.clear = h.clear := rfl

namespace Node

mutual

def withoutAnswers : Node ω → Node ω
  | condition h t => condition h.clear t
  | action h r => action h.clear r
  | decorator h k c => decorator h.clear k (withoutAnswersChild c)
  | composite h o c cs => composite h.clear o c (withoutAnswersAll cs)
  | parallel h q s ls => parallel h.clear q s (withoutAnswersLanes ls)
  | subtree h s r t => subtree h.clear s r (withoutAnswersTree t)

def withoutAnswersChild : Option (Node ω) → Option (Node ω)
  | none => none
  | some n => some n.withoutAnswers

def withoutAnswersAll : List (Node ω) → List (Node ω)
  | [] => []
  | n :: ns => n.withoutAnswers :: withoutAnswersAll ns

def withoutAnswersLanes : List (Lane (Node ω)) → List (Lane (Node ω))
  | [] => []
  | ⟨slot, n⟩ :: ls => ⟨slot, n.withoutAnswers⟩ :: withoutAnswersLanes ls

def withoutAnswersTree : Tree ω → Tree ω
  | ⟨root, _, channel, blackboard, ticks⟩ =>
    ⟨withoutAnswersChild root, none, channel, blackboard, ticks⟩

end

end Node

def Tree.withoutAnswers (t : Tree ω) : Tree ω :=
  { t with root := t.root.map Node.withoutAnswers, last := none }

theorem Tree.withoutAnswers_blackboard {t t' : Tree ω} (h : t.withoutAnswers = t'.withoutAnswers)
    (b : Blackboard) :
    withoutAnswers { t with blackboard := b } = withoutAnswers { t' with blackboard := b } :=
  congrArg (fun t : Tree ω => { t with blackboard := b }) h

namespace Node

theorem withoutAnswersChild_eq_map (c : Option (Node ω)) :
    withoutAnswersChild c = c.map withoutAnswers := by
  cases c <;> rfl

theorem withoutAnswersAll_eq_map (ns : List (Node ω)) :
    withoutAnswersAll ns = ns.map withoutAnswers := by
  induction ns with
  | nil => rfl
  | cons n ns ih => rw [withoutAnswersAll, List.map_cons, ih]

theorem withoutAnswersLanes_eq_map (ls : List (Lane (Node ω))) :
    withoutAnswersLanes ls = ls.map fun l => ⟨l.slot, l.node.withoutAnswers⟩ := by
  induction ls with
  | nil => rfl
  | cons l ls ih => rw [withoutAnswersLanes, List.map_cons, ih]

theorem withoutAnswersTree_eq (t : Tree ω) : withoutAnswersTree t = Tree.withoutAnswers t := by
  obtain ⟨root, _, _, _, _⟩ := t
  rw [withoutAnswersTree, withoutAnswersChild_eq_map, Tree.withoutAnswers]

@[simp] theorem name_withoutAnswers (n : Node ω) : n.withoutAnswers.name = n.name := by
  cases n <;> rfl

@[simp] theorem status_withoutAnswers (n : Node ω) : n.withoutAnswers.status = none := by
  cases n <;> rfl

@[simp] theorem children_withoutAnswers (n : Node ω) :
    n.withoutAnswers.children = n.children.map withoutAnswers := by
  cases n with
  | condition | action => rfl
  | decorator _ _ c => cases c <;> rfl
  | composite => exact withoutAnswersAll_eq_map _
  | parallel => simp [children, withoutAnswers, withoutAnswersLanes_eq_map]
  | subtree _ _ _ t =>
    obtain ⟨root, _, _, _, _⟩ := t
    cases root <;> rfl

@[simp] theorem withoutAnswers_withoutAnswers (n : Node ω) :
    n.withoutAnswers.withoutAnswers = n.withoutAnswers := by
  induction n using childInduction with
  | _ n ih =>
    cases n with
    | condition | action => rfl
    | decorator h k c =>
      cases c with
      | none => rfl
      | some c =>
        have hc := ih c (by simp [children])
        simp only [withoutAnswers, withoutAnswersChild, hc, Head.clear_clear]
    | composite h o c cs =>
      simp only [withoutAnswers, withoutAnswersAll_eq_map, List.map_map, Head.clear_clear]
      exact congrArg _ (List.map_congr_left ih)
    | parallel h q s ls =>
      simp only [withoutAnswers, withoutAnswersLanes_eq_map, List.map_map, Head.clear_clear]
      refine congrArg _ (List.map_congr_left fun l hl => ?_)
      exact congrArg (Lane.mk l.slot) (ih l.node (List.mem_map_of_mem hl))
    | subtree h s r t =>
      obtain ⟨root, _, _, _, _⟩ := t
      cases root with
      | none => rfl
      | some root =>
        have hroot := ih root (by simp [children])
        simp only [withoutAnswers, withoutAnswersTree, withoutAnswersChild, hroot, Head.clear_clear]

theorem preorder_withoutAnswers (depth : Nat) (n : Node ω) :
    n.withoutAnswers.preorder depth =
      (n.preorder depth).map fun x => (x.1, x.2.withoutAnswers) := by
  induction n using childInduction generalizing depth with
  | _ n ih =>
    have hchildren := List.flatMap_congr fun c hc => ih c hc (depth + 1)
    rw [preorder_eq, preorder_eq depth n, children_withoutAnswers, List.flatMap_map, hchildren,
      List.map_cons, List.map_flatMap]

/-- Nothing is left of the answers, and names and depths stay. -/
theorem outline_withoutAnswers (n : Node ω) :
    n.withoutAnswers.outline = n.outline.map fun x => (x.1, x.2.1, none) := by
  simp only [outline, preorder_withoutAnswers, List.map_map, Function.comp_def,
    name_withoutAnswers, status_withoutAnswers]

theorem withoutAnswersAll_withoutAnswersAll (ns : List (Node ω)) :
    withoutAnswersAll (withoutAnswersAll ns) = withoutAnswersAll ns := by
  simp [withoutAnswersAll_eq_map]

/-! ## Resets -/

/-- A reset forgets all answers anyway. -/
theorem reset_withoutAnswers (n : Node ω) : n.withoutAnswers.reset = n.reset := by
  induction n using childInduction with
  | _ n ih =>
    cases n with
    | condition | action => rfl
    | decorator h k c =>
      cases c with
      | none => rfl
      | some c =>
        have hc := ih c (by simp [children])
        simp only [withoutAnswers, withoutAnswersChild, reset, resetChild, hc, Head.clear_clear]
    | composite h o c cs =>
      simp only [withoutAnswers, withoutAnswersAll_eq_map, reset, resetAll_eq_map, List.map_map,
        Head.clear_clear]
      exact congrArg _ (List.map_congr_left ih)
    | parallel h q s ls =>
      simp only [withoutAnswers, withoutAnswersLanes_eq_map, reset, resetLanes_eq_map,
        List.map_map, Head.clear_clear]
      refine congrArg _ (List.map_congr_left fun l hl => ?_)
      exact congrArg (Lane.mk .running) (ih l.node (List.mem_map_of_mem hl))
    | subtree h s r t =>
      obtain ⟨root, _, _, _, _⟩ := t
      cases root with
      | none => rfl
      | some root =>
        have hroot := ih root (by simp [children])
        simp only [withoutAnswers, withoutAnswersTree, withoutAnswersChild, reset, resetTree,
          resetChild, hroot, Head.clear_clear]

theorem resetEvent_withoutAnswers (n : Node ω) : n.withoutAnswers.resetEvent = n.resetEvent := by
  cases n with
  | subtree => simp only [withoutAnswers, withoutAnswersTree_eq, Tree.withoutAnswers, resetEvent]
  | _ => rfl

theorem resetEmissions_withoutAnswers (n : Node ω) :
    n.withoutAnswers.resetEmissions = n.resetEmissions := by
  induction n using childInduction with
  | _ n ih =>
    rw [resetEmissions_eq, resetEmissions_eq n, children_withoutAnswers, List.flatMap_map,
      resetEvent_withoutAnswers, List.flatMap_congr ih]

theorem resetAll_withoutAnswersAll (ns : List (Node ω)) :
    resetAll (withoutAnswersAll ns) = resetAll ns := by
  simp only [resetAll_eq_map, withoutAnswersAll_eq_map, List.map_map]
  exact List.map_congr_left fun n _ => reset_withoutAnswers n

theorem resetAllEmissions_withoutAnswersAll (ns : List (Node ω)) :
    resetAllEmissions (withoutAnswersAll ns) = resetAllEmissions ns := by
  simp only [resetAllEmissions_eq_flatMap, withoutAnswersAll_eq_map, List.flatMap_map]
  exact List.flatMap_congr fun n _ => resetEmissions_withoutAnswers n

theorem resetLanes_withoutAnswersLanes (ls : List (Lane (Node ω))) :
    resetLanes (withoutAnswersLanes ls) = resetLanes ls := by
  simp only [resetLanes_eq_map, withoutAnswersLanes_eq_map, List.map_map]
  exact List.map_congr_left fun l _ => congrArg (Lane.mk .running) (reset_withoutAnswers l.node)

theorem resetLanesEmissions_withoutAnswersLanes (ls : List (Lane (Node ω))) :
    resetLanesEmissions (withoutAnswersLanes ls) = resetLanesEmissions ls := by
  simp only [resetLanesEmissions_eq_flatMap, withoutAnswersLanes_eq_map, List.flatMap_map]
  exact List.flatMap_congr fun l _ => resetEmissions_withoutAnswers l.node

/-! ## One tick -/

/-- A tick of the node goes as if all answers had been forgotten before. -/
def Forgetful (m : Moment) (n : Node ω) : Prop :=
  ∀ w, (tick m n.withoutAnswers w).SameUpTo withoutAnswers (tick m n w)

theorem sameUpTo_walk {m : Moment} {ns : List (Node ω)} (h : ∀ n ∈ ns, n.Forgetful m)
    (pass : Status) (start index : Nat) (w : World ω) :
    (walk m pass start index (withoutAnswersAll ns) w).SameUpTo withoutAnswersAll
      (walk m pass start index ns w) := by
  induction ns generalizing index w with
  | nil => exact ⟨rfl, rfl, rfl, rfl⟩
  | cons n ns ih =>
    obtain ⟨hn, hns⟩ := List.forall_mem_cons.mp h
    rw [withoutAnswersAll, walk, walk]
    by_cases hskip : index < start
    · have hrest := ih hns (index + 1) w
      rw [if_pos hskip, if_pos hskip]
      refine ⟨hrest.answer, ?_, hrest.world, hrest.emitted⟩
      simp only [withoutAnswersAll, withoutAnswers_withoutAnswers, hrest.state]
    · have htick := hn w
      rw [if_neg hskip, if_neg hskip]
      dsimp only
      rw [htick.answer, htick.world, htick.emitted]
      by_cases hpass : (tick m n w).answer = pass
      · have hrest := ih hns (index + 1) (tick m n w).world
        rw [if_pos hpass, if_pos hpass, hrest.emitted]
        refine ⟨hrest.answer, ?_, hrest.world, rfl⟩
        simp only [withoutAnswersAll, htick.state, hrest.state]
      · rw [if_neg hpass, if_neg hpass]
        refine ⟨rfl, ?_, rfl, rfl⟩
        simp only [withoutAnswersAll, htick.state, withoutAnswersAll_withoutAnswersAll]

theorem sameUpTo_tickOpen {m : Moment} {ls : List (Lane (Node ω))}
    (h : ∀ l ∈ ls, l.node.Forgetful m) (w : World ω) :
    (tickOpen m (withoutAnswersLanes ls) w).SameUpTo withoutAnswersLanes (tickOpen m ls w) := by
  induction ls generalizing w with
  | nil => exact ⟨rfl, rfl, rfl, rfl⟩
  | cons l ls ih =>
    obtain ⟨slot, n⟩ := l
    obtain ⟨hn, hls⟩ := List.forall_mem_cons.mp h
    rw [withoutAnswersLanes, tickOpen, tickOpen]
    by_cases hopen : slot = .running
    · have htick : (tick m n.withoutAnswers w).SameUpTo withoutAnswers (tick m n w) := hn w
      have hrest := ih hls (tick m n w).world
      rw [if_pos hopen, if_pos hopen]
      dsimp only
      rw [htick.world]
      refine ⟨rfl, ?_, hrest.world, ?_⟩
      · simp only [withoutAnswersLanes, htick.answer, htick.state, hrest.state]
      · simp only [htick.emitted, hrest.emitted]
    · have hrest := ih hls w
      rw [if_neg hopen, if_neg hopen]
      refine ⟨rfl, ?_, hrest.world, hrest.emitted⟩
      simp only [withoutAnswersLanes, withoutAnswers_withoutAnswers, hrest.state]

theorem sameUpTo_tickTree {m : Moment} {t : Tree ω} (h : ∀ r ∈ t.root, r.Forgetful m)
    (w : World ω) :
    (tickTree m (Tree.withoutAnswers t) w).SameUpTo Tree.withoutAnswers (tickTree m t w) := by
  cases hr : t.root with
  | none =>
    have hr' : (Tree.withoutAnswers t).root = none := by simp [Tree.withoutAnswers, hr]
    rw [tickTree_of_root_none m w hr, tickTree_of_root_none m w hr']
    refine ⟨rfl, ?_, rfl, rfl⟩
    simp [Tree.withoutAnswers, hr]
  | some r =>
    have hr' : (Tree.withoutAnswers t).root = some r.withoutAnswers := by
      simp [Tree.withoutAnswers, hr]
    have htick := h r hr w
    rw [tickTree_of_root_some m w hr, tickTree_of_root_some m w hr', htick.answer]
    have hreset := eq_of_apply_eq reset_withoutAnswers htick.state
    have hemissions := eq_of_apply_eq resetEmissions_withoutAnswers htick.state
    have hname := eq_of_apply_eq name_withoutAnswers htick.state
    refine ⟨rfl, ?_, htick.world, ?_⟩
    · simp only [Tree.withoutAnswers, Option.map_some, apply_ite withoutAnswers, hreset, htick.state]
    · simp only [Tree.withoutAnswers, htick.emitted, hemissions, hname]

theorem forgetful_decorator {m : Moment} {c : Node ω} (hc : c.Forgetful m) (h : Head)
    (kind : Decorator) : (decorator h kind (some c)).Forgetful m := by
  intro w
  rw [withoutAnswers, withoutAnswersChild]
  by_cases hdue : kind.isDue = true
  · rw [tick_decorator_of_due m h c w hdue, tick_decorator_of_due m _ _ w hdue,
      reset_withoutAnswers, resetEmissions_withoutAnswers]
    exact ⟨rfl, rfl, rfl, rfl⟩
  · have htick := hc w
    have hreset := eq_of_apply_eq reset_withoutAnswers htick.state
    have hemissions := eq_of_apply_eq resetEmissions_withoutAnswers htick.state
    rw [tick_decorator_of_not_due m h c w hdue, tick_decorator_of_not_due m _ _ w hdue,
      htick.answer]
    refine ⟨rfl, ?_, htick.world, ?_⟩
    · simp only [withoutAnswers, withoutAnswersChild, Head.clear_record, Head.clear_clear,
        apply_ite withoutAnswers, hreset, htick.state]
    · simp only [htick.emitted, hemissions]

theorem forgetful_composite {m : Moment} {cs : List (Node ω)} (hcs : ∀ c ∈ cs, c.Forgetful m)
    (h : Head) (order : Order) (cursor : Cursor) : (composite h order cursor cs).Forgetful m := by
  intro w
  have hwalk := sameUpTo_walk hcs order.pass cursor.start 0 w
  have hreset := eq_of_apply_eq resetAll_withoutAnswersAll hwalk.state
  have hemissions := eq_of_apply_eq resetAllEmissions_withoutAnswersAll hwalk.state
  rw [withoutAnswers, tick_composite, tick_composite, hwalk.answer]
  refine ⟨rfl, ?_, hwalk.world, ?_⟩
  · simp only [withoutAnswers, Head.clear_record, Head.clear_clear, apply_ite withoutAnswersAll,
      hreset, hwalk.state]
  · simp only [hwalk.emitted, hemissions]
    rfl

theorem match_of_withoutAnswersLanes {ls ls' : List (Lane (Node ω))}
    (h : withoutAnswersLanes ls = withoutAnswersLanes ls') :
    List.Forall₂ (Lane.Match fun n n' => n.withoutAnswers = n'.withoutAnswers) ls ls' := by
  rw [withoutAnswersLanes_eq_map, withoutAnswersLanes_eq_map, ← List.forall₂_eq_eq_eq,
    List.forall₂_map_left_iff, List.forall₂_map_right_iff] at h
  refine h.imp ?_
  intro l l' hl
  obtain ⟨hslot, hnode⟩ := Lane.mk.inj hl
  exact ⟨hslot, hnode⟩

theorem forgetful_parallel {m : Moment} {ls : List (Lane (Node ω))}
    (hls : ∀ l ∈ ls, l.node.Forgetful m) (h : Head) (q : Quorums) (stalled : Bool) :
    (parallel h q stalled ls).Forgetful m := by
  intro w
  by_cases hnil : ls = []
  · subst hnil
    exact ⟨rfl, rfl, rfl, rfl⟩
  · have hnil' : withoutAnswersLanes ls ≠ [] := by
      rwa [withoutAnswersLanes_eq_map, Ne, List.map_eq_nil_iff]
    have hopen := sameUpTo_tickOpen hls w
    have hmatch := match_of_withoutAnswersLanes hopen.state
    have hreset := eq_of_apply_eq resetLanes_withoutAnswersLanes hopen.state
    have hemissions := eq_of_apply_eq resetLanesEmissions_withoutAnswersLanes hopen.state
    rw [withoutAnswers, tick_parallel_of_ne_nil m h q stalled w hnil,
      tick_parallel_of_ne_nil m _ q stalled w hnil']
    -- The verdict and the report of a stall are taken from the slots alone.
    rw [Quorums.verdict_congr hmatch, Lane.settled_congr hmatch, Lane.count_congr hmatch,
      Lane.count_congr hmatch]
    refine ⟨rfl, ?_, hopen.world, ?_⟩
    · simp only [withoutAnswers, Head.clear_record, Head.clear_clear,
        apply_ite withoutAnswersLanes, hreset, hopen.state]
    · simp only [hopen.emitted, hemissions]
      rfl

theorem forgetful_subtree {m : Moment} {t : Tree ω} (ht : ∀ r ∈ t.root, r.Forgetful m) (h : Head)
    (scope : Scope) (report : Report) : (subtree h scope report t).Forgetful m := by
  intro w
  rw [withoutAnswers, withoutAnswersTree_eq]
  cases scope with
  | shared =>
    have htree := sameUpTo_tickTree ht w
    rw [tick_subtree_shared, tick_subtree_shared, htree.answer]
    refine ⟨rfl, ?_, htree.world, htree.emitted⟩
    simp only [withoutAnswers, withoutAnswersTree_eq, Head.clear_record, Head.clear_clear,
      htree.state]
  | isolated =>
    have hblackboard : (Tree.withoutAnswers t).blackboard = t.blackboard := rfl
    have htree := sameUpTo_tickTree ht { w with blackboard := t.blackboard }
    rw [tick_subtree_isolated, tick_subtree_isolated, hblackboard, htree.answer, htree.world]
    refine ⟨rfl, ?_, rfl, htree.emitted⟩
    simp only [withoutAnswers, withoutAnswersTree_eq, Head.clear_record, Head.clear_clear,
      Tree.withoutAnswers_blackboard htree.state]

theorem forgetful (m : Moment) (n : Node ω) : n.Forgetful m := by
  induction n using childInduction with
  | _ n ih =>
    cases n with
    | condition h test =>
      intro w
      cases test <;> exact ⟨rfl, rfl, rfl, rfl⟩
    | action h run =>
      intro w
      cases run <;> exact ⟨rfl, rfl, rfl, rfl⟩
    | decorator h kind c =>
      cases c with
      | none => exact fun w => ⟨rfl, rfl, rfl, rfl⟩
      | some c => exact forgetful_decorator (ih c (by simp [children])) h kind
    | composite h order cursor cs => exact forgetful_composite ih h order cursor
    | parallel h q stalled ls =>
      exact forgetful_parallel (fun l hl => ih l.node (List.mem_map_of_mem hl)) h q stalled
    | subtree h scope report t =>
      exact forgetful_subtree (fun r hr => ih r (by simpa [children] using hr)) h scope report

theorem sameUpTo_tick {n n' : Node ω} (h : n.withoutAnswers = n'.withoutAnswers) (m : Moment)
    (w : World ω) : (tick m n w).SameUpTo withoutAnswers (tick m n' w) := by
  have hn := (forgetful m n w).symm
  rw [h] at hn
  exact hn.trans (forgetful m n' w)

/-! ## Calls -/

theorem withoutAnswersAll_locatedAll {ns : List (Node ω)}
    (h : ∀ n ∈ ns, ∀ place, (n.located place).withoutAnswers = n.withoutAnswers.located place)
    (place : List Nat) (index : Nat) :
    withoutAnswersAll (locatedAll place index ns) =
      locatedAll place index (withoutAnswersAll ns) := by
  rw [withoutAnswersAll_eq_map, withoutAnswersAll_eq_map]
  exact map_locatedAll h place index

theorem withoutAnswersLanes_locatedLanes {ls : List (Lane (Node ω))}
    (h : ∀ n ∈ ls.map (·.node), ∀ place,
      (n.located place).withoutAnswers = n.withoutAnswers.located place)
    (place : List Nat) (index : Nat) :
    withoutAnswersLanes (locatedLanes place index ls) =
      locatedLanes place index (withoutAnswersLanes ls) := by
  rw [withoutAnswersLanes_eq_map, withoutAnswersLanes_eq_map]
  exact map_locatedLanes id h place index

theorem withoutAnswers_located (place : List Nat) (n : Node ω) :
    (n.located place).withoutAnswers = n.withoutAnswers.located place := by
  induction n using childInduction generalizing place with
  | _ n ih =>
    cases n with
    | condition | action => rfl
    | decorator h k c =>
      cases c with
      | none => rfl
      | some c =>
        have hc := ih c (by simp [children]) (place ++ [0])
        simp only [located, locatedChild, withoutAnswers, withoutAnswersChild, hc]
    | composite h o c cs =>
      have hcs := withoutAnswersAll_locatedAll (fun n hn => ih n hn) place 0
      exact congrArg (composite h.clear o c) hcs
    | parallel h q s ls =>
      have hls := withoutAnswersLanes_locatedLanes (fun n hn => ih n hn) place 0
      exact congrArg (parallel h.clear q s) hls
    | subtree h s r t =>
      obtain ⟨root, _, _, _, _⟩ := t
      cases root with
      | none => rfl
      | some root =>
        have hroot := ih root (by simp [children]) (place ++ [0])
        simp only [located, locatedTree, locatedChild, withoutAnswers, withoutAnswersTree,
          withoutAnswersChild, hroot]

/-! ## Runs -/

/-- All calls of closures up to each step of a run, each with the position of its leaf. -/
def callLog (ss : List Stimulus) (n : Node ω) (w : World ω) :
    List (List (List Nat × Call ω)) :=
  (steps ss (n.located []) ⟨w.blackboard, (w.host, [])⟩).map (·.world.host.2)

theorem sameUpTo_respond {n n' : Node ω} (h : n.withoutAnswers = n'.withoutAnswers) (w : World ω)
    (s : Stimulus) : (n.respond w s).SameUpTo withoutAnswers (n'.respond w s) := by
  cases s with
  | tick m =>
    have htick := sameUpTo_tick h m w
    exact ⟨congrArg some htick.answer, htick.state, htick.world, htick.emitted⟩
  | reset =>
    have hreset := eq_of_apply_eq reset_withoutAnswers h
    have hemissions := eq_of_apply_eq resetEmissions_withoutAnswers h
    exact ⟨rfl, congrArg withoutAnswers hreset, rfl, hemissions⟩
  | write f => exact ⟨rfl, h, rfl, rfl⟩

theorem sameUpTo_steps {n n' : Node ω} (h : n.withoutAnswers = n'.withoutAnswers)
    (ss : List Stimulus) (w : World ω) :
    List.Forall₂ (Step.SameUpTo withoutAnswers) (steps ss n w) (steps ss n' w) := by
  refine forall₂_steps (Q := fun n w n' w' => n.withoutAnswers = n'.withoutAnswers ∧ w = w')
    ?_ ?_ ss ⟨h, rfl⟩
  · rintro n w n' _ ⟨h, rfl⟩ s
    exact sameUpTo_respond h w s
  · intro c c' hc
    exact ⟨hc.state, hc.world⟩

theorem callLog_eq {n n' : Node ω} (h : n.withoutAnswers = n'.withoutAnswers)
    (ss : List Stimulus) (w : World ω) : callLog ss n w = callLog ss n' w := by
  have hlocated : (n.located []).withoutAnswers = (n'.located []).withoutAnswers := by
    rw [withoutAnswers_located, withoutAnswers_located, h]
  exact Step.SameUpTo.map_world_eq (fun v => v.host.2) (sameUpTo_steps hlocated ss _)

end Node

namespace Tree

variable {t t' : Tree ω}

theorem resetRoot_withoutAnswers (t : Tree ω) : resetRoot t.withoutAnswers = resetRoot t := by
  rw [resetRoot, resetRoot, Node.resetTree_eq, Node.resetTree_eq]
  cases hr : t.root <;> simp [withoutAnswers, hr, Node.reset_withoutAnswers]

theorem resetRootEmissions_withoutAnswers (t : Tree ω) :
    resetRootEmissions t.withoutAnswers = resetRootEmissions t := by
  obtain ⟨root, last, channel, blackboard, ticks⟩ := t
  cases root with
  | none => rfl
  | some root =>
    have hroot := root.resetEmissions_withoutAnswers
    simp only [resetRootEmissions, withoutAnswers, Option.map_some, Node.resetTreeEmissions,
      Node.resetChildEmissions, hroot]

theorem sameUpTo_tickTree (h : t.withoutAnswers = t'.withoutAnswers) (m : Moment) (w : World ω) :
    (Node.tickTree m t w).SameUpTo withoutAnswers (Node.tickTree m t' w) := by
  have ht : (Node.tickTree m t w).SameUpTo withoutAnswers (Node.tickTree m t.withoutAnswers w) :=
    (Node.sameUpTo_tickTree (fun r _ => r.forgetful m) w).symm
  rw [h] at ht
  exact ht.trans (Node.sameUpTo_tickTree (fun r _ => r.forgetful m) w)

theorem sameUpTo_tickAt (h : t.withoutAnswers = t'.withoutAnswers) (m : Moment) (host : ω) :
    (tickAt m t host).SameUpTo withoutAnswers (tickAt m t' host) := by
  have hblackboard : t.blackboard = t'.blackboard := (Rooted.mk.inj h).2.2.2.1
  have hstep := sameUpTo_tickTree h m ⟨t.blackboard, host⟩
  rw [tickAt, tickAt, ← hblackboard, ← hstep.world]
  exact ⟨hstep.answer, withoutAnswers_blackboard hstep.state _, rfl, hstep.emitted⟩

theorem sameUpTo_perform (h : t.withoutAnswers = t'.withoutAnswers) (host : ω)
    (op : Operation ω) :
    (t.perform host op).SameUpTo withoutAnswers (t'.perform host op) := by
  obtain ⟨-, -, hchannel, hblackboard, hticks⟩ := Rooted.mk.inj h
  have hreset := eq_of_apply_eq resetRoot_withoutAnswers h
  have hemissions := eq_of_apply_eq resetRootEmissions_withoutAnswers h
  have htickAt : ∀ m, (t.perform host (.tickAt m)).SameUpTo withoutAnswers
      (t'.perform host (.tickAt m)) := by
    intro m
    have htick := sameUpTo_tickAt h m host
    have hown : (tickAt m t host).state.blackboard = (tickAt m t' host).state.blackboard :=
      (Rooted.mk.inj htick.state).2.2.2.1
    refine ⟨htick.answer, htick.state, ?_, htick.emitted⟩
    simp only [perform, hown, htick.world]
  cases op with
  | tick seconds =>
    -- The clocks of the two trees stand at the same count.
    have hclock : ∀ t : Tree ω,
        t.perform host (.tick seconds) = t.perform host (.tickAt ⟨t.ticks, seconds⟩) := fun _ => rfl
    rw [hclock, hclock, ← hticks]
    exact htickAt ⟨t.ticks, seconds⟩
  | tickAt m => exact htickAt m
  | tickOn m lent => exact sameUpTo_tickTree h m ⟨lent, host⟩
  | reset =>
    refine ⟨rfl, ?_, rfl, ?_⟩
    · simp only [perform, reset, hreset]
    · simp only [perform, resetEmissions, hticks, hemissions]
  | resetRoot =>
    refine ⟨rfl, congrArg withoutAnswers hreset, ?_, hemissions⟩
    simp only [perform, hblackboard]
  | setRoot root =>
    refine ⟨rfl, ?_, ?_, rfl⟩
    · simp only [perform, setRoot, withoutAnswers, hchannel, hblackboard, hticks]
    · simp only [perform, hblackboard]
  | write f =>
    simp only [perform, hblackboard]
    exact ⟨rfl, withoutAnswers_blackboard h _, rfl, rfl⟩

theorem withoutAnswers_located (place : List Nat) (t : Tree ω) :
    (located place t).withoutAnswers = located place t.withoutAnswers := by
  cases hr : t.root <;> simp [located, withoutAnswers, hr, Node.withoutAnswers_located]

def callLog (ops : List (Operation ω)) (t : Tree ω) (host : ω) :
    List (List (List Nat × Call ω)) :=
  (steps (ops.map (.map (Node.located []))) (located [] t) (host, [])).map (·.world.host.2)

theorem sameUpTo_steps (h : t.withoutAnswers = t'.withoutAnswers) (ops : List (Operation ω))
    (host : ω) :
    List.Forall₂ (Step.SameUpTo withoutAnswers) (steps ops t host) (steps ops t' host) := by
  refine forall₂_steps (M := Eq)
    (Q := fun t host t' host' => t.withoutAnswers = t'.withoutAnswers ∧ host = host')
    ?_ ?_ (List.forall₂_refl ops) ⟨h, rfl⟩
  · rintro t host t' _ ⟨h, rfl⟩ op _ rfl
    exact sameUpTo_perform h host op
  · intro c c' hc
    exact ⟨hc.state, congrArg World.host hc.world⟩

theorem callLog_eq (h : t.withoutAnswers = t'.withoutAnswers) (ops : List (Operation ω))
    (host : ω) : callLog ops t host = callLog ops t' host := by
  have hlocated : (located [] t).withoutAnswers = (located [] t').withoutAnswers := by
    rw [withoutAnswers_located, withoutAnswers_located, h]
  exact Step.SameUpTo.map_world_eq (fun v => v.host.2) (sameUpTo_steps hlocated _ _)

end Tree

/-- What is recorded of answers is never read. Forgetting leaves a node with no answer in its
outline. Nodes that are the same once their answers are forgotten, and trees likewise, go through
every run with the same answers, worlds, emissions and calls of closures, and after each step
they are again the same once their answers are forgotten. -/
theorem answers_unread (ω : Type) :
    (∀ n : Node ω, n.withoutAnswers.outline = n.outline.map fun x => (x.1, x.2.1, none)) ∧
    (∀ n n' : Node ω, n.withoutAnswers = n'.withoutAnswers →
      ∀ (ss : List Stimulus) (w : World ω),
        List.Forall₂ (Step.SameUpTo Node.withoutAnswers) (n.steps ss w) (n'.steps ss w) ∧
          n.callLog ss w = n'.callLog ss w) ∧
    ∀ t t' : Tree ω, t.withoutAnswers = t'.withoutAnswers →
      ∀ (ops : List (Operation ω)) (host : ω),
        List.Forall₂ (Step.SameUpTo Tree.withoutAnswers) (t.steps ops host) (t'.steps ops host) ∧
          t.callLog ops host = t'.callLog ops host := by
  refine ⟨Node.outline_withoutAnswers, ?_, ?_⟩
  · intro n n' h ss w
    exact ⟨Node.sameUpTo_steps h ss w, Node.callLog_eq h ss w⟩
  · intro t t' h ops host
    exact ⟨Tree.sameUpTo_steps h ops host, Tree.callLog_eq h ops host⟩

/-- A selector that has failed keeps its answers and those of its children, and goes on as if it
were fresh. A tree in the middle of a pass goes on as it would with all its answers forgotten and
another one noted down by its driver. -/
theorem answers_unread_hesitant :
    let n := Node.hesitant.after [.tick [] ⟨0, 0.5⟩ ⟨{}, 0⟩, .tick [] ⟨1, 0.5⟩ ⟨{}, 2⟩]
    let ss : List Stimulus := [.tick ⟨2, 0.5⟩, .tick ⟨3, 0.5⟩, .reset, .tick ⟨4, 0.5⟩]
    let w : World Nat := ⟨{}, 0⟩
    let t := ((Tree.ofRoot (some Node.hesitant)).after [.tick 0.5] 0).1
    let t' : Tree Nat := { t.withoutAnswers with last := some .success }
    let ops : List (Operation Nat) := [.tick 0.5, .tick 0.5, .resetRoot]
    n.withoutAnswers = Node.hesitant.withoutAnswers ∧
      n.outline.map (·.2.2) =
        [some .failure, some .failure, none, none, some .failure, some .success] ∧
      (n.steps ss w).map (·.answer) = [some .running, some .failure, none, some .failure] ∧
      (n.callLog ss w).map (·.length) = [2, 4, 4, 7] ∧
      List.Forall₂ (Step.SameUpTo Node.withoutAnswers) (n.steps ss w) (Node.hesitant.steps ss w) ∧
      n.callLog ss w = Node.hesitant.callLog ss w ∧
      t.withoutAnswers = t'.withoutAnswers ∧ t.last = some .running ∧
      (t.steps ops 2).map (·.answer) = [some .failure, some .failure, none] ∧
      List.Forall₂ (Step.SameUpTo Tree.withoutAnswers) (t.steps ops 2) (t'.steps ops 2) ∧
      t.callLog ops 2 = t'.callLog ops 2 := by
  intro n ss w t t' ops
  have hn : n.withoutAnswers = Node.hesitant.withoutAnswers := rfl
  have ht : t.withoutAnswers = t'.withoutAnswers := rfl
  obtain ⟨-, hnodes, htrees⟩ := answers_unread Nat
  obtain ⟨hsteps, hcalls⟩ := hnodes n Node.hesitant hn ss w
  obtain ⟨hsteps', hcalls'⟩ := htrees t t' ht ops 2
  exact ⟨hn, by decide, by decide, by decide, hsteps, hcalls, ht, by decide, by decide, hsteps',
    hcalls'⟩

end BehaviorTree
