import BehaviorTree.Proofs.Cancellation
import Mathlib.Data.UInt

/-!
# Meters of nested trees

What one tick sends to a channel to which nested trees report. A tick of a nested tree is dated
by the moment that is handed down, a reset by the nested tree's own count. No tree is ticked
again after a reset in the same tick, so the counts in the resets are those that the tick leaves
behind, and the counts together grow by one for each tick that is reported.
-/

namespace BehaviorTree

variable {ω : Type}

structure Meter where
  rooted : Bool
  count : UInt64
  deriving DecidableEq, Repr

namespace Emission

variable (c : String)

@[simp] theorem onChannel_nil : onChannel c [] = [] := rfl

@[simp] theorem onChannel_append (es es' : List Emission) :
    onChannel c (es ++ es') = onChannel c es ++ onChannel c es' :=
  List.filterMap_append

@[simp] theorem onChannel_diagnostic_cons (d : Diagnostic) (es : List Emission) :
    onChannel c (.diagnostic d :: es) = onChannel c es :=
  rfl

theorem onChannel_toChannel (channel : Option String) (e : Event) :
    onChannel c (toChannel channel e) = if channel = some c then [e] else [] := by
  cases channel with
  | none => rfl
  | some channel =>
    by_cases h : channel = c <;> simp [onChannel, toChannel, h]

@[simp] theorem onChannel_finishedComposite (h : Head) (s : Status) :
    onChannel c (finishedComposite h s) = [] := by
  unfold finishedComposite
  split <;> rfl

@[simp] theorem onChannel_finishedParallel (h : Head) (s : Status) :
    onChannel c (finishedParallel h s) = [] := by
  unfold finishedParallel
  split <;> rfl

end Emission

open Emission (onChannel onChannel_toChannel)

def Tree.meter? (c : String) (t : Tree ω) : Option Meter :=
  if t.channel = some c then some ⟨t.root.isSome, t.ticks⟩ else none

namespace Node

def meter? (c : String) : Node ω → Option Meter
  | subtree _ _ _ t => Tree.meter? c t
  | _ => none

/-- The meters of the trees that report to the channel, nested below the node at any depth. -/
def meters (c : String) (n : Node ω) : List Meter :=
  ((n.preorder 0).map (·.2)).filterMap (meter? c)

theorem map_preorder (d : Nat) (n : Node ω) :
    (n.preorder d).map (·.2) = n :: n.children.flatMap fun c => (c.preorder 0).map (·.2) := by
  induction n using childInduction generalizing d with
  | _ n ih =>
    rw [preorder_eq, List.map_cons, List.map_flatMap]
    congr 1
    refine List.flatMap_congr fun c hc => ?_
    rw [ih c hc (d + 1), ih c hc 0]

theorem meters_eq (c : String) (n : Node ω) :
    n.meters c = (n.meter? c).toList ++ n.children.flatMap (meters c) := by
  rw [meters, map_preorder, List.filterMap_cons, List.filterMap_flatMap]
  cases n.meter? c <;> rfl

theorem meters_decorator (c : String) (h : Head) (kind : Decorator) (d : Node ω) :
    (decorator h kind (some d)).meters c = d.meters c := by
  rw [meters_eq]
  simp [meter?, children]

theorem meters_composite (c : String) (h : Head) (order : Order) (cursor : Cursor)
    (cs : List (Node ω)) : (composite h order cursor cs).meters c = cs.flatMap (meters c) := by
  rw [meters_eq]
  rfl

theorem meters_parallel (c : String) (h : Head) (q : Quorums) (stalled : Bool)
    (ls : List (Lane (Node ω))) :
    (parallel h q stalled ls).meters c = (ls.map (·.node)).flatMap (meters c) := by
  rw [meters_eq]
  rfl

theorem meter?_reset (c : String) (n : Node ω) : n.reset.meter? c = n.meter? c := by
  cases n with
  | subtree => simp [reset, meter?, Tree.meter?, resetTree_eq]
  | _ => rfl

theorem meters_reset (c : String) (n : Node ω) : n.reset.meters c = n.meters c := by
  simp only [meters, preorder_reset, List.map_map, List.filterMap_map]
  exact List.filterMap_congr fun x _ => meter?_reset c x.2

end Node

structure Account (index : UInt64) (ms ms' : List Meter) (es : List Event) : Prop where
  rooted : ms'.map (·.rooted) = ms.map (·.rooted)
  dated : ∀ e ∈ es, (∃ s, e = .ticked index s) ∨ ∃ k ∈ ms', e = .reset k.count
  counted : (∀ k ∈ ms, k.rooted = true) →
    (ms'.map (·.count)).sum =
      (ms.map (·.count)).sum + .ofNat (es.countP (·.tag = Event.tickTag))
  silent : ms = [] → es = []

namespace Account

variable {index : UInt64} {ms ms' ns ns' : List Meter} {es es' : List Event}

theorem refl : Account index ms ms [] := ⟨rfl, by simp, by simp, fun _ => rfl⟩

theorem eq_nil (h : Account index ms ms' es) (hms : ms = []) : ms' = [] := by
  have hrooted := h.rooted
  rw [hms] at hrooted
  exact List.map_eq_nil_iff.mp hrooted

theorem append (h : Account index ms ms' es) (h' : Account index ns ns' es') :
    Account index (ms ++ ns) (ms' ++ ns') (es ++ es') where
  rooted := by rw [List.map_append, List.map_append, h.rooted, h'.rooted]
  dated e he := by
    rcases List.mem_append.mp he with he | he
    · refine (h.dated e he).imp_right ?_
      rintro ⟨k, hk, hek⟩
      exact ⟨k, List.mem_append_left _ hk, hek⟩
    · refine (h'.dated e he).imp_right ?_
      rintro ⟨k, hk, hek⟩
      exact ⟨k, List.mem_append_right _ hk, hek⟩
  counted hrooted := by
    have hms := h.counted fun k hk => hrooted k (List.mem_append_left _ hk)
    have hns := h'.counted fun k hk => hrooted k (List.mem_append_right _ hk)
    rw [List.map_append, List.map_append, List.sum_append, List.sum_append, hms, hns,
      List.countP_append, UInt64.ofNat_add]
    ac_rfl
  silent hnil := by
    obtain ⟨hms, hns⟩ := List.append_eq_nil_iff.mp hnil
    rw [h.silent hms, h'.silent hns, List.nil_append]

/-- Resets after the tick report the counts that it left. -/
theorem resets (h : Account index ms ms' es) (hes : ∀ e ∈ es', ∃ k ∈ ms', e = .reset k.count) :
    Account index ms ms' (es ++ es') where
  rooted := h.rooted
  dated e he := by
    rcases List.mem_append.mp he with he | he
    · exact h.dated e he
    · exact .inr (hes e he)
  counted hrooted := by
    have hnone : es'.countP (·.tag = Event.tickTag) = 0 := by
      refine List.countP_eq_zero.mpr fun e he => ?_
      obtain ⟨k, -, rfl⟩ := hes e he
      simp [Event.reset, Event.resetTag, Event.tickTag]
    rw [h.counted hrooted, List.countP_append, hnone, Nat.add_zero]
  silent hms := by
    refine List.append_eq_nil_iff.mpr ⟨h.silent hms, List.eq_nil_iff_forall_not_mem.mpr ?_⟩
    intro e he
    obtain ⟨k, hk, -⟩ := hes e he
    rw [h.eq_nil hms] at hk
    cases hk

/-- A tree around the others is ticked, too, and reports it last. -/
theorem enclose (h : Account index ms ms' es) (count : UInt64) (s : Status) :
    Account index (⟨true, count⟩ :: ms) (⟨true, count + 1⟩ :: ms')
      (es ++ [.ticked index s]) where
  rooted := by rw [List.map_cons, List.map_cons, h.rooted]
  dated e he := by
    rcases List.mem_append.mp he with he | he
    · refine (h.dated e he).imp_right ?_
      rintro ⟨k, hk, hek⟩
      exact ⟨k, List.mem_cons_of_mem _ hk, hek⟩
    · exact .inl ⟨s, List.mem_singleton.mp he⟩
  counted hrooted := by
    have hms := h.counted fun k hk => hrooted k (List.mem_cons_of_mem _ hk)
    have hone : [Event.ticked index s].countP (·.tag = Event.tickTag) = 1 := rfl
    rw [List.map_cons, List.map_cons, List.sum_cons, List.sum_cons, hms, List.countP_append, hone,
      UInt64.ofNat_add, UInt64.ofNat_one]
    dsimp only
    ac_rfl
  silent hnil := by cases hnil

end Account

namespace Node

variable {c : String}

theorem meters_resetAll (ns : List (Node ω)) :
    (resetAll ns).flatMap (meters c) = ns.flatMap (meters c) := by
  rw [resetAll_eq_map, List.flatMap_map]
  exact List.flatMap_congr fun n _ => meters_reset c n

theorem meters_resetLanes (ls : List (Lane (Node ω))) :
    ((resetLanes ls).map (·.node)).flatMap (meters c) =
      (ls.map (·.node)).flatMap (meters c) := by
  rw [resetLanes_eq_map, List.map_map, List.flatMap_map, List.flatMap_map]
  exact List.flatMap_congr fun l _ => meters_reset c l.node

theorem mem_onChannel_flatMap {ns : List (Node ω)} {e : Event} :
    e ∈ onChannel c (ns.flatMap resetEmissions) ↔
      ∃ n ∈ ns, e ∈ onChannel c n.resetEmissions := by
  simp only [onChannel, List.filterMap_flatMap, List.mem_flatMap]

theorem reset_of_mem_onChannel {n : Node ω} :
    ∀ e ∈ onChannel c n.resetEmissions, ∃ k ∈ n.meters c, e = .reset k.count := by
  induction n using childInduction with
  | _ n ih =>
    intro e he
    rw [resetEmissions_eq, Emission.onChannel_append] at he
    rw [meters_eq]
    rcases List.mem_append.mp he with he | he
    · obtain ⟨d, hd, he⟩ := mem_onChannel_flatMap.mp he
      obtain ⟨k, hk, rfl⟩ := ih d hd e he
      exact ⟨k, List.mem_append_right _ (List.mem_flatMap.mpr ⟨d, hd, hk⟩), rfl⟩
    · cases n with
      | subtree _ _ _ t =>
        rw [resetEvent, onChannel_toChannel] at he
        by_cases hc : t.channel = some c
        · rw [if_pos hc, List.mem_singleton] at he
          exact ⟨⟨t.root.isSome, t.ticks⟩, by simp [meter?, Tree.meter?, hc], he⟩
        · simp [hc] at he
      | _ => cases he

theorem reset_of_mem_onChannel_all {ns : List (Node ω)} :
    ∀ e ∈ onChannel c (ns.flatMap resetEmissions), ∃ k ∈ ns.flatMap (meters c),
      e = .reset k.count := by
  intro e he
  obtain ⟨n, hn, he⟩ := mem_onChannel_flatMap.mp he
  obtain ⟨k, hk, rfl⟩ := reset_of_mem_onChannel e he
  exact ⟨k, List.mem_flatMap.mpr ⟨n, hn, hk⟩, rfl⟩

def Accounts (m : Moment) (c : String) (n : Node ω) : Prop :=
  ∀ w, Account m.index (n.meters c) ((tick m n w).state.meters c)
    (onChannel c (tick m n w).emitted)

theorem account_walk {m : Moment} {ns : List (Node ω)} (h : ∀ n ∈ ns, n.Accounts m c)
    (pass : Status) (start index : Nat) (w : World ω) :
    Account m.index (ns.flatMap (meters c))
      ((walk m pass start index ns w).state.flatMap (meters c))
      (onChannel c (walk m pass start index ns w).emitted) := by
  induction ns generalizing index w with
  | nil => exact .refl
  | cons n ns ih =>
    obtain ⟨hn, hns⟩ := List.forall_mem_cons.mp h
    rw [walk]
    split
    · exact Account.refl.append (ih hns (index + 1) w)
    · dsimp only
      split
      · have hrest := (hn w).append (ih hns (index + 1) (tick m n w).world)
        simpa using hrest
      · have hrest := (hn w).append (.refl : Account m.index (ns.flatMap (meters c)) _ [])
        simpa using hrest

theorem account_tickOpen {m : Moment} {ls : List (Lane (Node ω))}
    (h : ∀ n ∈ ls.map (·.node), n.Accounts m c) (w : World ω) :
    Account m.index ((ls.map (·.node)).flatMap (meters c))
      (((tickOpen m ls w).state.map (·.node)).flatMap (meters c))
      (onChannel c (tickOpen m ls w).emitted) := by
  induction ls generalizing w with
  | nil => exact .refl
  | cons l ls ih =>
    obtain ⟨slot, n⟩ := l
    obtain ⟨hn, hns⟩ := List.forall_mem_cons.mp h
    rw [tickOpen]
    split
    · have hrest := (hn w).append (ih hns (tick m n w).world)
      simpa using hrest
    · exact Account.refl.append (ih hns w)

end Node

def Tree.meters (c : String) (t : Tree ω) : List Meter := t.root.toList.flatMap (Node.meters c)

namespace Node

variable {c : String}

theorem account_clear {index : UInt64} {ms : List Meter} {es : List Event} {n : Node ω}
    (h : Account index ms (n.meters c) es) (ended : Bool) :
    Account index ms ((if ended then n.reset else n).meters c)
      (es ++ if ended then onChannel c n.resetEmissions else []) := by
  cases ended with
  | true =>
    simp only [if_true, meters_reset]
    exact h.resets reset_of_mem_onChannel
  | false => simpa using h

theorem account_tickTree {m : Moment} {t : Tree ω} (h : ∀ n ∈ t.root, n.Accounts m c)
    (w : World ω) :
    Account m.index ((Tree.meter? c t).toList ++ Tree.meters c t)
      ((Tree.meter? c (tickTree m t w).state).toList ++ Tree.meters c (tickTree m t w).state)
      (onChannel c (tickTree m t w).emitted) := by
  cases hr : t.root with
  | none =>
    rw [tickTree_of_root_none m w hr]
    simp only [Tree.meter?, Tree.meters, hr]
    split
    · exact ⟨rfl, by simp, by simp, fun _ => rfl⟩
    · exact .refl
  | some r =>
    have hroot := account_clear (h r hr w) (tick m r w).answer.isTerminal
    rw [tickTree_of_root_some m w hr]
    simp only [Tree.meter?, Tree.meters, hr, Option.toList_some, List.flatMap_singleton,
      Option.isSome_some, Emission.onChannel_append, apply_ite (onChannel c),
      Emission.onChannel_diagnostic_cons, Emission.onChannel_nil, onChannel_toChannel]
    split
    · exact hroot.enclose t.ticks (tick m r w).answer
    · simpa using hroot

theorem accounts_decorator {m : Moment} {d : Node ω} (hd : d.Accounts m c) (h : Head)
    (kind : Decorator) : (decorator h kind (some d)).Accounts m c := by
  intro w
  by_cases hdue : kind.isDue = true
  · rw [tick_decorator_of_due m h d w hdue, meters_decorator, meters_decorator, meters_reset]
    exact Account.refl.resets reset_of_mem_onChannel
  · rw [tick_decorator_of_not_due m h d w hdue, meters_decorator, meters_decorator]
    simp only [Emission.onChannel_append, apply_ite (onChannel c), Emission.onChannel_nil]
    exact account_clear (hd w) _

theorem accounts_composite {m : Moment} {cs : List (Node ω)} (hcs : ∀ d ∈ cs, d.Accounts m c)
    (h : Head) (order : Order) (cursor : Cursor) : (composite h order cursor cs).Accounts m c := by
  intro w
  have hwalk := account_walk hcs order.pass cursor.start 0 w
  rw [tick_composite, meters_composite, meters_composite]
  simp only [Emission.onChannel_append, Emission.onChannel_finishedComposite, List.append_nil]
  split
  · rw [meters_resetAll, resetAllEmissions_eq_flatMap]
    exact hwalk.resets reset_of_mem_onChannel_all
  · simpa using hwalk

theorem accounts_parallel {m : Moment} {ls : List (Lane (Node ω))}
    (hls : ∀ d ∈ ls.map (·.node), d.Accounts m c) (h : Head) (q : Quorums) (stalled : Bool) :
    (parallel h q stalled ls).Accounts m c := by
  intro w
  have hopen := account_tickOpen hls w
  by_cases hnil : ls = []
  · subst hnil
    rw [tick_parallel_nil, meters_parallel, meters_parallel, Emission.onChannel_finishedParallel]
    exact .refl
  · rw [tick_parallel_of_ne_nil m h q stalled w hnil, meters_parallel, meters_parallel]
    simp only [Emission.onChannel_append, Emission.onChannel_finishedParallel, List.append_nil]
    split
    · rw [meters_resetLanes, resetLanesEmissions_eq_flatMap]
      exact hopen.resets reset_of_mem_onChannel_all
    · have hwarning : ∀ (b : Bool) (d : Diagnostic),
          onChannel c (if b then [.diagnostic d] else []) = [] := by
        intro b d
        cases b <;> rfl
      rw [hwarning, List.append_nil]
      exact hopen

theorem accounts_subtree {m : Moment} {t : Tree ω} (ht : ∀ n ∈ t.root, n.Accounts m c) (h : Head)
    (scope : Scope) (report : Report) : (subtree h scope report t).Accounts m c := by
  intro w
  cases scope with
  | shared =>
    rw [tick_subtree_shared, meters_eq, meters_eq]
    exact account_tickTree ht w
  | isolated =>
    rw [tick_subtree_isolated, meters_eq, meters_eq]
    exact account_tickTree ht { w with blackboard := t.blackboard }

theorem accounts (m : Moment) (c : String) (n : Node ω) : n.Accounts m c := by
  induction n using childInduction with
  | _ n ih =>
    cases n with
    | condition h test => cases test <;> exact fun w => .refl
    | action h run => cases run <;> exact fun w => .refl
    | decorator h kind d =>
      cases d with
      | none => exact fun w => .refl
      | some d => exact accounts_decorator (ih d (by simp [children])) h kind
    | composite h order cursor cs => exact accounts_composite (fun d hd => ih d hd) h order cursor
    | parallel h q stalled ls => exact accounts_parallel (fun d hd => ih d hd) h q stalled
    | subtree h scope report t =>
      exact accounts_subtree (fun r hr => ih r (by simpa [children] using hr)) h scope report

end Node

end BehaviorTree
