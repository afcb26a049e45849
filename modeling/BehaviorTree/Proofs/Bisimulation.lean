import BehaviorTree.Proofs.Step
import Mathlib.Logic.Relation

/-!
# Bisimulations

Two nodes are bisimilar when no sequence of ticks and resets tells them apart: from matching
worlds they give the same answers and leave matching worlds. Worlds match when they have the
same blackboard and hosts related by some `H`; with equality for `H`, bisimilar nodes call
closures with the same effect on the same worlds. The index of a moment is left open, since
nothing but trace events shows it.

The main result is that a relation which is a bisimulation stays one when it is lifted to
parents: nodes of the same form with related children are related again.
-/

namespace BehaviorTree

variable {ω κ ι : Type}

structure World.Match (H : ω → κ → Prop) (w : World ω) (v : World κ) : Prop where
  blackboard : w.blackboard = v.blackboard
  host : H w.host v.host

/-- The same answer, related states and matching worlds; emissions may differ. -/
structure Step.Match {σ ν μ : Type} (H : ω → κ → Prop) (R : ν → μ → Prop)
    (s : Step σ ν (World ω)) (t : Step σ μ (World κ)) : Prop where
  answer : s.answer = t.answer
  state : R s.state t.state
  world : s.world.Match H t.world

theorem Step.Match.imp {σ ν μ : Type} {H : ω → κ → Prop} {R S : ν → μ → Prop}
    {s : Step σ ν (World ω)} {t : Step σ μ (World κ)} (h : s.Match H R t)
    (hRS : ∀ a b, R a b → S a b) : s.Match H S t :=
  ⟨h.answer, hRS _ _ h.state, h.world⟩

structure Lane.Match {ν μ : Type} (R : ν → μ → Prop) (l : Lane ν) (l' : Lane μ) : Prop where
  slot : l.slot = l'.slot
  node : R l.node l'.node

theorem Lane.count_congr {ν μ : Type} {R : ν → μ → Prop} {ls : List (Lane ν)} {ls' : List (Lane μ)}
    (h : List.Forall₂ (Lane.Match R) ls ls') (s : Status) :
    Lane.count s ls = Lane.count s ls' := by
  induction h with
  | nil => rfl
  | cons hl _ ih =>
    simp only [Lane.count] at ih
    simp only [Lane.count, List.countP_cons, hl.slot, ih]

theorem Quorums.verdict_congr {ν μ : Type} {R : ν → μ → Prop} {ls : List (Lane ν)}
    {ls' : List (Lane μ)} (h : List.Forall₂ (Lane.Match R) ls ls') (q : Quorums) :
    q.verdict ls = q.verdict ls' := by
  simp only [Quorums.verdict, Lane.count_congr h, h.length_eq]

theorem Lane.settled_congr {ν μ : Type} {R : ν → μ → Prop} {ls : List (Lane ν)}
    {ls' : List (Lane μ)} (h : List.Forall₂ (Lane.Match R) ls ls') :
    Lane.settled ls = Lane.settled ls' := by
  simp only [Lane.settled, Lane.count_congr h, h.length_eq]

def Predicate.Match (H : ω → κ → Prop) (p : Predicate ω) (p' : Predicate κ) : Prop :=
  ∀ w w', World.Match H w w' → (p w).1 = (p' w').1 ∧ H (p w).2 (p' w').2

def Action.Match (H : ω → κ → Prop) (a : Action ω) (a' : Action κ) : Prop :=
  ∀ seconds w w', World.Match H w w' →
    (a seconds w).1 = (a' seconds w').1 ∧ (a seconds w).2.Match H (a' seconds w').2

namespace Node

def TicksMatch (H : ω → κ → Prop) (R : Node ω → Node κ → Prop) (n : Node ω) (n' : Node κ) : Prop :=
  ∀ {m m' : Moment} {w : World ω} {w' : World κ}, m.elapsed = m'.elapsed → w.Match H w' →
    (tick m n w).Match H R (tick m' n' w')

structure IsBisimulation (H : ω → κ → Prop) (R : Node ω → Node κ → Prop) : Prop where
  tick : ∀ {n : Node ω} {n' : Node κ}, R n n' → TicksMatch H R n n'
  reset : ∀ {n : Node ω} {n' : Node κ}, R n n' → R n.reset n'.reset

def Bisimilar (H : ω → κ → Prop) (n : Node ω) (n' : Node κ) : Prop :=
  ∃ R, IsBisimulation H R ∧ R n n'

theorem isBisimulation_bisimilar (H : ω → κ → Prop) : IsBisimulation H (Bisimilar H) where
  tick := by
    rintro n n' ⟨R, hR, hn⟩ m m' w w' hm hw
    exact (hR.tick hn hm hw).imp fun _ _ h => ⟨R, hR, h⟩
  reset := by
    rintro n n' ⟨R, hR, hn⟩
    exact ⟨R, hR, hR.reset hn⟩

theorem Bisimilar.symm {n n' : Node ω} (h : Bisimilar Eq n n') : Bisimilar Eq n' n := by
  obtain ⟨R, hR, hn⟩ := h
  refine ⟨fun a b => R b a, ⟨?_, hR.reset⟩, hn⟩
  intro a b hab m m' w w' hm hw
  have hstep := hR.tick hab hm.symm ⟨hw.blackboard.symm, hw.host.symm⟩
  exact ⟨hstep.answer.symm, hstep.state, hstep.world.blackboard.symm, hstep.world.host.symm⟩

theorem Bisimilar.trans {H : ω → κ → Prop} {K : κ → ι → Prop} {n : Node ω} {n' : Node κ}
    {n'' : Node ι} (h : Bisimilar H n n') (h' : Bisimilar K n' n'') :
    Bisimilar (Relation.Comp H K) n n'' := by
  refine ⟨Relation.Comp (Bisimilar H) (Bisimilar K), ⟨?_, ?_⟩, n', h, h'⟩
  · rintro a c ⟨b, hab, hbc⟩ m m'' w w'' hm ⟨hblackboard, k, hHk, hkK⟩
    have hw : w.Match H ⟨w.blackboard, k⟩ := ⟨rfl, hHk⟩
    have hw' : World.Match K ⟨w.blackboard, k⟩ w'' := ⟨hblackboard, hkK⟩
    have h₁ := (isBisimulation_bisimilar H).tick hab (rfl : m.elapsed = m.elapsed) hw
    have h₂ := (isBisimulation_bisimilar K).tick hbc hm hw'
    exact ⟨h₁.answer.trans h₂.answer, ⟨_, h₁.state, h₂.state⟩,
      h₁.world.blackboard.trans h₂.world.blackboard, ⟨_, h₁.world.host, h₂.world.host⟩⟩
  · rintro a c ⟨b, hab, hbc⟩
    exact ⟨b.reset, (isBisimulation_bisimilar H).reset hab, (isBisimulation_bisimilar K).reset hbc⟩

/-! ## Lists of children -/

variable {H : ω → κ → Prop} {R : Node ω → Node κ → Prop}

theorem IsBisimulation.walk (hR : IsBisimulation H R) {m m' : Moment} (pass : Status)
    (start index : Nat) {ns : List (Node ω)} {ns' : List (Node κ)} {w : World ω} {w' : World κ}
    (hns : List.Forall₂ R ns ns') (hm : m.elapsed = m'.elapsed) (hw : w.Match H w') :
    (Node.walk m pass start index ns w).Match H (List.Forall₂ R)
      (Node.walk m' pass start index ns' w') := by
  induction hns generalizing index w w' with
  | nil =>
    rw [Node.walk, Node.walk]
    exact ⟨rfl, .nil, hw⟩
  | @cons n n' ns ns' hn hns ih =>
    rw [Node.walk, Node.walk]
    by_cases hskip : index < start
    · have hrest := ih (index + 1) hw
      rw [if_pos hskip, if_pos hskip]
      exact ⟨hrest.answer, .cons hn hrest.state, hrest.world⟩
    · have htick := hR.tick hn hm hw
      rw [if_neg hskip, if_neg hskip]
      dsimp only
      rw [← htick.answer]
      by_cases hpass : (Node.tick m n w).answer = pass
      · have hrest := ih (index + 1) htick.world
        rw [if_pos hpass, if_pos hpass]
        exact ⟨hrest.answer, .cons htick.state hrest.state, hrest.world⟩
      · rw [if_neg hpass, if_neg hpass]
        exact ⟨rfl, .cons htick.state hns, htick.world⟩

theorem IsBisimulation.tickOpen (hR : IsBisimulation H R) {m m' : Moment}
    {ls : List (Lane (Node ω))} {ls' : List (Lane (Node κ))} {w : World ω} {w' : World κ}
    (hls : List.Forall₂ (Lane.Match R) ls ls') (hm : m.elapsed = m'.elapsed) (hw : w.Match H w') :
    (Node.tickOpen m ls w).Match H (List.Forall₂ (Lane.Match R)) (Node.tickOpen m' ls' w') := by
  induction hls generalizing w w' with
  | nil =>
    rw [Node.tickOpen, Node.tickOpen]
    exact ⟨rfl, .nil, hw⟩
  | @cons l l' ls ls' hl hls ih =>
    obtain ⟨slot, n⟩ := l
    obtain ⟨slot', n'⟩ := l'
    obtain rfl : slot = slot' := hl.slot
    rw [Node.tickOpen, Node.tickOpen]
    by_cases hopen : slot = .running
    · have htick := hR.tick hl.node hm hw
      have hrest := ih htick.world
      rw [if_pos hopen, if_pos hopen]
      exact ⟨rfl, .cons ⟨htick.answer, htick.state⟩ hrest.state, hrest.world⟩
    · have hrest := ih hw
      rw [if_neg hopen, if_neg hopen]
      exact ⟨rfl, .cons hl hrest.state, hrest.world⟩

theorem IsBisimulation.resetRoot (hR : IsBisimulation H R) {r : Option (Node ω)}
    {r' : Option (Node κ)} (h : Option.Rel R r r') :
    Option.Rel R (r.map Node.reset) (r'.map Node.reset) := by
  cases h with
  | none => exact .none
  | some h => exact .some (hR.reset h)

theorem IsBisimulation.tickTree (hR : IsBisimulation H R) {m m' : Moment} {t : Tree ω} {t' : Tree κ}
    {w : World ω} {w' : World κ} (hroot : Option.Rel R t.root t'.root)
    (hm : m.elapsed = m'.elapsed) (hw : w.Match H w') :
    (Node.tickTree m t w).Match H (fun t t' => Option.Rel R t.root t'.root)
      (Node.tickTree m' t' w') := by
  cases hr : t.root with
  | none =>
    cases hr' : t'.root with
    | none =>
      rw [tickTree_of_root_none m w hr, tickTree_of_root_none m' w' hr']
      exact ⟨rfl, hroot, hw⟩
    | some r' => simp [hr, hr'] at hroot
  | some r =>
    cases hr' : t'.root with
    | none => simp [hr, hr'] at hroot
    | some r' =>
      have hrr : R r r' := by simpa [hr, hr'] using hroot
      have htick := hR.tick hrr hm hw
      rw [tickTree_of_root_some m w hr, tickTree_of_root_some m' w' hr']
      refine ⟨congrArg some htick.answer, ?_, htick.world⟩
      dsimp only
      rw [← htick.answer]
      split
      · exact .some (hR.reset htick.state)
      · exact .some htick.state

theorem IsBisimulation.resetAll (hR : IsBisimulation H R) {ns : List (Node ω)} {ns' : List (Node κ)}
    (h : List.Forall₂ R ns ns') : List.Forall₂ R (Node.resetAll ns) (Node.resetAll ns') := by
  rw [resetAll_eq_map, resetAll_eq_map, List.forall₂_map_left_iff, List.forall₂_map_right_iff]
  exact h.imp fun _ _ => hR.reset

theorem IsBisimulation.resetLanes (hR : IsBisimulation H R) {ls : List (Lane (Node ω))}
    {ls' : List (Lane (Node κ))} (h : List.Forall₂ (Lane.Match R) ls ls') :
    List.Forall₂ (Lane.Match R) (Node.resetLanes ls) (Node.resetLanes ls') := by
  rw [resetLanes_eq_map, resetLanes_eq_map, List.forall₂_map_left_iff, List.forall₂_map_right_iff]
  exact h.imp fun _ _ hl => ⟨rfl, hR.reset hl.node⟩

/-! ## Parents -/

/-- The same kind of node with the same continuation state, with matching closures and related
children. Names, recorded answers and whatever a shared nested tree owns are left open. -/
inductive SameForm (H : ω → κ → Prop) (R : Node ω → Node κ → Prop) : Node ω → Node κ → Prop
  | condition (h h' : Head) {test : Option (Predicate ω)} {test' : Option (Predicate κ)}
    (htest : Option.Rel (Predicate.Match H) test test') :
    SameForm H R (condition h test) (condition h' test')
  | action (h h' : Head) {run : Option (Action ω)} {run' : Option (Action κ)}
    (hrun : Option.Rel (Action.Match H) run run') : SameForm H R (action h run) (action h' run')
  | decorator (h h' : Head) (kind : Decorator) {c : Option (Node ω)} {c' : Option (Node κ)}
    (hchild : Option.Rel R c c') : SameForm H R (decorator h kind c) (decorator h' kind c')
  | composite (h h' : Head) (order : Order) (cursor : Cursor) {cs : List (Node ω)}
    {cs' : List (Node κ)} (hchildren : List.Forall₂ R cs cs') :
    SameForm H R (composite h order cursor cs) (composite h' order cursor cs')
  | parallel (h h' : Head) (quorums : Quorums) (stalled : Bool) {ls : List (Lane (Node ω))}
    {ls' : List (Lane (Node κ))} (hlanes : List.Forall₂ (Lane.Match R) ls ls') :
    SameForm H R (parallel h quorums stalled ls) (parallel h' quorums stalled ls')
  | subtree (h h' : Head) (scope : Scope) (report : Report) {t : Tree ω} {t' : Tree κ}
    (hroot : Option.Rel R t.root t'.root)
    (hblackboard : scope = .isolated → t.blackboard = t'.blackboard) :
    SameForm H R (subtree h scope report t) (subtree h' scope report t')

theorem IsBisimulation.ticksMatch_decorator (hR : IsBisimulation H R) (h h' : Head)
    (kind : Decorator) {c : Node ω} {c' : Node κ} (hc : R c c') :
    TicksMatch H (SameForm H R) (decorator h kind (some c)) (decorator h' kind (some c')) := by
  intro m m' w w' hm hw
  by_cases hdue : kind.isDue = true
  · rw [tick_decorator_of_due m h c w hdue, tick_decorator_of_due m' h' c' w' hdue]
    exact ⟨rfl, .decorator _ _ _ (.some (hR.reset hc)), hw⟩
  · have htick := hR.tick hc hm hw
    rw [tick_decorator_of_not_due m h c w hdue, tick_decorator_of_not_due m' h' c' w' hdue]
    rw [← htick.answer, ← hm]
    refine ⟨rfl, .decorator _ _ _ (.some ?_), htick.world⟩
    split
    · exact hR.reset htick.state
    · exact htick.state

theorem IsBisimulation.ticksMatch_composite (hR : IsBisimulation H R) (h h' : Head)
    (order : Order) (cursor : Cursor) {cs : List (Node ω)} {cs' : List (Node κ)}
    (hcs : List.Forall₂ R cs cs') :
    TicksMatch H (SameForm H R) (composite h order cursor cs) (composite h' order cursor cs') := by
  intro m m' w w' hm hw
  have hwalk := hR.walk order.pass cursor.start 0 hcs hm hw
  rw [tick_composite, tick_composite]
  rw [← hwalk.answer]
  refine ⟨rfl, .composite _ _ _ _ ?_, hwalk.world⟩
  split
  · exact hR.resetAll hwalk.state
  · exact hwalk.state

theorem IsBisimulation.ticksMatch_parallel (hR : IsBisimulation H R) (h h' : Head) (q : Quorums)
    (stalled : Bool) {ls : List (Lane (Node ω))} {ls' : List (Lane (Node κ))}
    (hls : List.Forall₂ (Lane.Match R) ls ls') :
    TicksMatch H (SameForm H R) (parallel h q stalled ls) (parallel h' q stalled ls') := by
  intro m m' w w' hm hw
  by_cases hnil : ls = []
  · subst hnil
    cases hls
    rw [tick_parallel_nil, tick_parallel_nil]
    exact ⟨rfl, .parallel _ _ _ _ .nil, hw⟩
  · have hnil' : ls' ≠ [] := by
      rintro rfl
      cases hls
      exact hnil rfl
    have hopen := hR.tickOpen hls hm hw
    rw [tick_parallel_of_ne_nil m h q stalled w hnil]
    rw [tick_parallel_of_ne_nil m' h' q stalled w' hnil']
    rw [← Quorums.verdict_congr hopen.state q, ← Lane.settled_congr hopen.state]
    refine ⟨rfl, .parallel _ _ _ _ ?_, hopen.world⟩
    split
    · exact hR.resetLanes hopen.state
    · exact hopen.state

theorem IsBisimulation.ticksMatch_subtree (hR : IsBisimulation H R) (h h' : Head) (scope : Scope)
    (report : Report) {t : Tree ω} {t' : Tree κ} (hroot : Option.Rel R t.root t'.root)
    (hblackboard : scope = .isolated → t.blackboard = t'.blackboard) :
    TicksMatch H (SameForm H R) (subtree h scope report t) (subtree h' scope report t') := by
  intro m m' w w' hm hw
  cases scope with
  | shared =>
    have htree := hR.tickTree hroot hm hw
    rw [tick_subtree_shared, tick_subtree_shared]
    rw [← htree.answer]
    exact ⟨rfl, .subtree _ _ _ _ htree.state (by simp), htree.world⟩
  | isolated =>
    -- The nested trees see their own blackboards, which match; the outer ones are not touched.
    have hown : World.Match H { w with blackboard := t.blackboard }
        { w' with blackboard := t'.blackboard } := ⟨hblackboard rfl, hw.host⟩
    have htree := hR.tickTree hroot hm hown
    rw [tick_subtree_isolated, tick_subtree_isolated]
    rw [← htree.answer]
    exact ⟨rfl, .subtree _ _ _ _ htree.state fun _ => htree.world.blackboard,
      ⟨hw.blackboard, htree.world.host⟩⟩

theorem IsBisimulation.sameForm_tick (hR : IsBisimulation H R) {n : Node ω} {n' : Node κ}
    (h : SameForm H R n n') : TicksMatch H (SameForm H R) n n' := by
  cases h with
  | condition h h' htest =>
    intro m m' w w' hm hw
    cases htest with
    | none => exact ⟨rfl, .condition _ _ .none, hw⟩
    | some hp =>
      obtain ⟨hanswer, hhost⟩ := hp w w' hw
      refine ⟨?_, .condition _ _ (.some hp), ⟨hw.blackboard, hhost⟩⟩
      exact congrArg Status.ofBool hanswer
  | action h h' hrun =>
    intro m m' w w' hm hw
    cases hrun with
    | none => exact ⟨rfl, .action _ _ .none, hw⟩
    | some ha =>
      have hact := ha m.elapsed w w' hw
      rw [Node.tick, Node.tick, ← hm]
      exact ⟨hact.1, .action _ _ (.some ha), hact.2⟩
  | decorator h h' kind hchild =>
    cases hchild with
    | none =>
      intro m m' w w' _ hw
      exact ⟨rfl, .decorator _ _ kind .none, hw⟩
    | some hc => exact hR.ticksMatch_decorator h h' kind hc
  | composite h h' order cursor hchildren =>
    exact hR.ticksMatch_composite h h' order cursor hchildren
  | parallel h h' q stalled hlanes => exact hR.ticksMatch_parallel h h' q stalled hlanes
  | subtree h h' scope report hroot hblackboard =>
    exact hR.ticksMatch_subtree h h' scope report hroot hblackboard

theorem IsBisimulation.sameForm_reset (hR : IsBisimulation H R) {n : Node ω} {n' : Node κ}
    (h : SameForm H R n n') : SameForm H R n.reset n'.reset := by
  cases h with
  | condition h h' htest => exact .condition _ _ htest
  | action h h' hrun => exact .action _ _ hrun
  | decorator h h' kind hchild =>
    cases hchild with
    | none => exact .decorator _ _ _ .none
    | some hc => exact .decorator _ _ _ (.some (hR.reset hc))
  | composite h h' order cursor hchildren => exact .composite _ _ _ _ (hR.resetAll hchildren)
  | parallel h h' q stalled hlanes => exact .parallel _ _ _ _ (hR.resetLanes hlanes)
  | @subtree h h' scope report t t' hroot hblackboard =>
    refine .subtree _ _ _ _ ?_ ?_
    · rw [resetTree_eq, resetTree_eq]
      exact hR.resetRoot hroot
    · simpa [resetTree_eq] using hblackboard

theorem IsBisimulation.sameForm (hR : IsBisimulation H R) : IsBisimulation H (SameForm H R) :=
  ⟨hR.sameForm_tick, hR.sameForm_reset⟩

/-- Nodes of the same form with bisimilar children are bisimilar. -/
theorem SameForm.bisimilar {n : Node ω} {n' : Node κ} (h : SameForm H (Bisimilar H) n n') :
    Bisimilar H n n' :=
  ⟨_, (isBisimulation_bisimilar H).sameForm, h⟩

end Node

end BehaviorTree
