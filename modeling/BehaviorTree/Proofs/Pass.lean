import BehaviorTree.Proofs.Cancellation
import BehaviorTree.Proofs.Operation

/-!
# Passes

Between two operations a tree is either in the middle of a pass, and then both its driver and
its root say that they are running, or its root is as it was built. So a pass that starts after
an end is a first pass: where closures and nested trees have no memory of their own, a tree
whose last tick ended a pass runs like one that was built anew around the same blackboard.
-/

namespace BehaviorTree

variable {ω : Type}

/-! ## The invariant -/

namespace Tree

structure PassInvariant (t : Tree ω) : Prop where
  running_iff : t.last = some .running ↔ t.root.bind Node.status = some .running
  fresh : t.last ≠ some .running → ∀ r ∈ t.root, r.Fresh

theorem passInvariant_of_fresh {t : Tree ω} (hlast : t.last ≠ some .running)
    (hroot : ∀ r ∈ t.root, r.Fresh) : t.PassInvariant := by
  refine ⟨⟨fun h => absurd h hlast, ?_⟩, fun _ => hroot⟩
  intro h
  obtain ⟨r, hr, hstatus⟩ := Option.bind_eq_some_iff.mp h
  rw [(hroot r hr).status_eq] at hstatus
  cases hstatus

theorem PassInvariant.tickTree {t : Tree ω} (ht : t.PassInvariant) (m : Moment) (w : World ω) :
    (Node.tickTree m t w).state.PassInvariant := by
  cases hr : t.root with
  | none =>
    rw [Node.tickTree_of_root_none m w hr]
    exact ⟨ht.running_iff, ht.fresh⟩
  | some r =>
    rw [Node.tickTree_of_root_some m w hr]
    by_cases hended : (Node.tick m r w).answer.isTerminal = true
    · refine passInvariant_of_fresh ?_ ?_
      · intro hlast
        rw [Option.some.inj hlast] at hended
        cases hended
      · simp [hended, Node.fresh_reset]
    · have hrunning : (Node.tick m r w).answer = .running := by
        cases h : (Node.tick m r w).answer <;> simp_all [Status.isTerminal]
      have hstatus := Node.status_tick m r w
      rw [hrunning] at hstatus
      refine ⟨?_, fun h => absurd (congrArg some hrunning) h⟩
      simp [hrunning, Status.isTerminal, hstatus]

theorem passInvariant_resetRoot (t : Tree ω) : (resetRoot t).PassInvariant := by
  rw [resetRoot, Node.resetTree_eq]
  refine passInvariant_of_fresh (by simp) ?_
  intro r hr
  obtain ⟨s, -, rfl⟩ := Option.map_eq_some_iff.mp hr
  exact Node.fresh_reset s

theorem PassInvariant.perform {t : Tree ω} (ht : t.PassInvariant) {op : Operation ω}
    (hop : op.Installs Node.Fresh) (host : ω) : (t.perform host op).state.PassInvariant := by
  cases op with
  | tick seconds =>
    have h := ht.tickTree ⟨t.ticks, seconds⟩ ⟨t.blackboard, host⟩
    exact ⟨h.running_iff, h.fresh⟩
  | tickAt m =>
    have h := ht.tickTree m ⟨t.blackboard, host⟩
    exact ⟨h.running_iff, h.fresh⟩
  | tickOn m lent => exact ht.tickTree m ⟨lent, host⟩
  | reset =>
    have h := passInvariant_resetRoot t
    exact ⟨h.running_iff, h.fresh⟩
  | resetRoot => exact passInvariant_resetRoot t
  | setRoot root =>
    refine passInvariant_of_fresh (by simp [Tree.perform, setRoot]) ?_
    rintro r ⟨⟩
    exact hop
  | write f => exact ⟨ht.running_iff, ht.fresh⟩

theorem PassInvariant.after {t : Tree ω} (ht : t.PassInvariant) {ops : List (Operation ω)}
    (hops : ∀ op ∈ ops, op.Installs Node.Fresh) (host : ω) :
    (t.after ops host).1.PassInvariant := by
  induction ops generalizing t host with
  | nil => exact ht
  | cons op ops ih =>
    obtain ⟨hop, hops⟩ := List.forall_mem_cons.mp hops
    exact ih (ht.perform hop host) hops _

end Tree

/-! ## The tree as it was built -/

def Operation.install (root : Option (Node ω)) : Operation ω → Option (Node ω)
  | setRoot new => some new
  | _ => root

namespace Tree

def installed (root : Option (Node ω)) (ops : List (Operation ω)) : Option (Node ω) :=
  ops.foldl Operation.install root

theorem blank_tickTree (m : Moment) (t : Tree ω) (w : World ω) :
    (Node.tickTree m t w).state.root.map Node.blank = t.root.map Node.blank := by
  cases hr : t.root with
  | none => rw [Node.tickTree_of_root_none m w hr, hr]
  | some r =>
    rw [Node.tickTree_of_root_some m w hr]
    apply congrArg some
    split
    · rw [Node.blank_reset, Node.blank_tick]
    · rw [Node.blank_tick]

theorem blank_resetRoot (t : Tree ω) :
    (resetRoot t).root.map Node.blank = t.root.map Node.blank := by
  rw [resetRoot, Node.resetTree_eq]
  cases t.root with
  | none => rfl
  | some r => exact congrArg some (Node.blank_reset r)

theorem blank_perform {t : Tree ω} {root : Option (Node ω)}
    (h : t.root.map Node.blank = root.map Node.blank) (op : Operation ω) (host : ω) :
    (t.perform host op).state.root.map Node.blank = (op.install root).map Node.blank := by
  cases op with
  | tick seconds => exact (blank_tickTree _ t _).trans h
  | tickAt m => exact (blank_tickTree m t _).trans h
  | tickOn m lent => exact (blank_tickTree m t _).trans h
  | reset => exact (blank_resetRoot t).trans h
  | resetRoot => exact (blank_resetRoot t).trans h
  | setRoot root => rfl
  | write f => exact h

theorem blank_after {t : Tree ω} {root : Option (Node ω)}
    (h : t.root.map Node.blank = root.map Node.blank) (ops : List (Operation ω)) (host : ω) :
    (t.after ops host).1.root.map Node.blank = (installed root ops).map Node.blank := by
  induction ops generalizing t root host with
  | nil => exact h
  | cons op ops ih => exact ih (blank_perform h op host) _

theorem last_tickTree {m : Moment} {t : Tree ω} {w : World ω} {s : Status}
    (h : (Node.tickTree m t w).answer = some s) : (Node.tickTree m t w).state.last = some s := by
  cases hr : t.root with
  | none =>
    rw [Node.tickTree_of_root_none m w hr] at h
    cases h
  | some r =>
    rw [Node.tickTree_of_root_some m w hr] at h ⊢
    exact h

/-- Only a tick answers, and the driver keeps its answer. -/
theorem last_perform {t : Tree ω} {op : Operation ω} {host : ω} {s : Status}
    (h : (t.perform host op).answer = some s) : (t.perform host op).state.last = some s := by
  cases op with
  | tick seconds => exact last_tickTree h
  | tickAt m => exact last_tickTree h
  | tickOn m lent => exact last_tickTree h
  | _ => cases h

theorem installs_of_answer {t : Tree ω} {op : Operation ω} {host : ω} {s : Status}
    (h : (t.perform host op).answer = some s) (P : Node ω → Prop) : op.Installs P := by
  cases op with
  | setRoot => cases h
  | _ => trivial

theorem install_of_answer {t : Tree ω} {op : Operation ω} {host : ω} {s : Status}
    (h : (t.perform host op).answer = some s) (root : Option (Node ω)) :
    op.install root = root := by
  cases op with
  | setRoot => cases h
  | _ => rfl

theorem fresh_installed {root : Option (Node ω)} (hroot : ∀ r ∈ root, r.Fresh)
    {ops : List (Operation ω)} (hops : ∀ op ∈ ops, op.Installs Node.Fresh) :
    ∀ r ∈ installed root ops, r.Fresh := by
  induction ops generalizing root with
  | nil => exact hroot
  | cons op ops ih =>
    obtain ⟨hop, hops⟩ := List.forall_mem_cons.mp hops
    refine ih ?_ hops
    cases op with
    | setRoot new =>
      rintro r ⟨⟩
      exact hop
    | _ => exact hroot

/-- Two fresh roots that a reset makes equal up to stores are equal up to stores. -/
theorem withoutStores_of_blank {root root' : Option (Node ω)}
    (h : root.map Node.blank = root'.map Node.blank) (hroot : ∀ r ∈ root, r.Fresh)
    (hroot' : ∀ r ∈ root', r.Fresh) :
    root.map Node.withoutStores = root'.map Node.withoutStores := by
  have hblank : ∀ r : Node ω, r.Fresh → r.withoutStores = r.blank := by
    intro r hr
    rw [Node.blank, hr.reset_eq]
  calc
    root.map Node.withoutStores = root.map Node.blank :=
      Option.map_congr fun r hr => hblank r (hroot r hr)
    _ = root'.map Node.blank := h
    _ = root'.map Node.withoutStores :=
      (Option.map_congr fun r hr => hblank r (hroot' r hr)).symm

end Tree

/-! ## Trees without memory of their own -/

namespace Node

/-- What the node's closure answers and writes depends on the blackboard and the elapsed time
only. -/
def Stateless : Node ω → Prop
  | condition _ test =>
    ∀ p ∈ test, ∀ blackboard host host', (p ⟨blackboard, host⟩).1 = (p ⟨blackboard, host'⟩).1
  | action _ run =>
    ∀ a ∈ run, ∀ seconds blackboard host host',
      (a seconds ⟨blackboard, host⟩).1 = (a seconds ⟨blackboard, host'⟩).1 ∧
        (a seconds ⟨blackboard, host⟩).2.blackboard = (a seconds ⟨blackboard, host'⟩).2.blackboard
  | _ => True

def Shares : Node ω → Prop
  | subtree _ scope _ _ => scope = .shared
  | _ => True

def AnyHost (_ _ : ω) : Prop := True

theorem bisimilar_of_stateless {n : Node ω} (h : n.Everywhere Stateless) :
    Bisimilar AnyHost n n := by
  induction n using childInduction with
  | _ n ih =>
    have hchildren : List.Forall₂ (Bisimilar AnyHost) n.children n.children :=
      List.forall₂_same.mpr fun c hc => ih c hc (h.children c hc)
    have hform : n.form.Match AnyHost n.form := by
      have hhere : n.Stateless := h.here
      cases n with
      | condition _ test =>
        refine .condition ?_
        cases test with
        | none => exact .none
        | some p =>
          refine .some ?_
          rintro ⟨blackboard, host⟩ ⟨_, host'⟩ ⟨rfl, -⟩
          exact ⟨hhere p rfl blackboard host host', trivial⟩
      | action _ run =>
        refine .action ?_
        cases run with
        | none => exact .none
        | some a =>
          refine .some ?_
          rintro seconds ⟨blackboard, host⟩ ⟨_, host'⟩ ⟨rfl, -⟩
          obtain ⟨hanswer, hblackboard⟩ := hhere a rfl seconds blackboard host host'
          exact ⟨hanswer, hblackboard, trivial⟩
      | decorator _ kind _ => exact .decorator kind
      | composite _ order cursor _ => exact .composite order cursor
      | parallel _ q stalled ls => exact .parallel q stalled _
      | subtree _ scope report t => exact .subtree scope report _
    exact (SameForm.of_form hform hchildren).bisimilar

theorem everywhere_shares_withoutStores {n : Node ω} :
    n.withoutStores.Everywhere Shares ↔ n.Everywhere Shares := by
  induction n using childInduction with
  | _ n ih =>
    have hhere : n.withoutStores.Shares ↔ n.Shares := by
      cases n <;> rfl
    rw [everywhere_iff, everywhere_iff, hhere, children_withoutStores, List.forall_mem_map]
    exact and_congr_right fun _ => forall₂_congr ih

/-- The stores of nested trees on a shared blackboard are never read. -/
theorem alike_withoutStores {n : Node ω} (h : n.Everywhere Shares) : n.withoutStores.Alike n := by
  induction n using childInduction with
  | _ n ih =>
    have hform : n.withoutStores.form = n.form := by
      have hhere : n.Shares := h.here
      cases n with
      | subtree _ scope _ t =>
        obtain rfl : scope = .shared := hhere
        obtain ⟨root, _, _, _, _⟩ := t
        rfl
      | parallel => simp [withoutStores, form, withoutStoresLanes_eq_map]
      | _ => rfl
    refine .of_form_eq hform ?_
    rw [children_withoutStores, List.forall₂_map_left_iff]
    exact List.forall₂_same.mpr fun c hc => ih c hc (h.children c hc)

/-- Of two nodes that differ in stores only, one behaves like the other over any host. -/
theorem bisimilar_of_withoutStores_eq {n n' : Node ω} (h : n.withoutStores = n'.withoutStores)
    (hshares : n'.Everywhere Shares) (hstateless : n'.Everywhere Stateless) :
    Bisimilar AnyHost n n' := by
  -- Without stores both are the same node, and no tick misses the stores of either.
  have hn : n.Everywhere Shares := by
    rwa [← everywhere_shares_withoutStores, h, everywhere_shares_withoutStores]
  have halike : n.Alike n' := by
    have hn' : n.withoutStores.Alike n' := h ▸ alike_withoutStores hshares
    exact (alike_withoutStores hn).symm.trans hn'
  have hcomp := Bisimilar.trans halike (bisimilar_of_stateless hstateless)
  rwa [Relation.eq_comp] at hcomp

end Node

namespace Tree

theorem bisimilar_of_withoutStores_eq {t t' : Tree ω}
    (hroot : t.root.map Node.withoutStores = t'.root.map Node.withoutStores)
    (hmemory : ∀ r ∈ t'.root, r.Everywhere Node.Shares ∧ r.Everywhere Node.Stateless)
    (hblackboard : t.blackboard = t'.blackboard) : t.Bisimilar Node.AnyHost t' := by
  refine ⟨?_, hblackboard⟩
  cases hr : t.root with
  | none =>
    cases hr' : t'.root with
    | none => exact .none
    | some r' => simp [hr, hr'] at hroot
  | some r =>
    cases hr' : t'.root with
    | none => simp [hr, hr'] at hroot
    | some r' =>
      obtain ⟨hshares, hstateless⟩ := hmemory r' hr'
      have hrr : r.withoutStores = r'.withoutStores := by simpa [hr, hr'] using hroot
      exact .some (Node.bisimilar_of_withoutStores_eq hrr hshares hstateless)

/-- A tree built of fresh nodes keeps the invariant, and between passes its root is the one that
was put in last, stores of nested trees aside. After a tick that ends a pass, every run of a tree
without memory of its own goes like that of a new tree on the same blackboard. -/
theorem passInvariant_after {t : Tree ω} (hlast : t.last = none) (hroot : ∀ r ∈ t.root, r.Fresh)
    {ops : List (Operation ω)} (hops : ∀ op ∈ ops, op.Installs Node.Fresh) (host : ω) :
    let reached := t.after ops host
    let built := installed t.root ops
    reached.1.PassInvariant ∧
    (reached.1.last ≠ some .running →
      reached.1.root.map Node.withoutStores = built.map Node.withoutStores) ∧
    ∀ (op : Operation ω) (s : Status),
      (reached.1.perform reached.2 op).answer = some s → s.isTerminal = true →
      (∀ r ∈ built, r.Everywhere Node.Shares ∧ r.Everywhere Node.Stateless) →
      ∀ later : List (Operation ω),
        (∀ op ∈ later, op.Installs (Node.Everywhere Node.Stateless)) → ∀ host' : ω,
        let next := reached.1.perform reached.2 op
        List.Forall₂ (Observation.Match Node.AnyHost)
          (observe later next.state next.world.host)
          (observe later { root := built, blackboard := next.state.blackboard } host') := by
  intro reached built
  have hinvariant : reached.1.PassInvariant :=
    (passInvariant_of_fresh (by simp [hlast]) hroot).after hops host
  have hblank : reached.1.root.map Node.blank = built.map Node.blank := blank_after rfl ops host
  have hbuilt : ∀ r ∈ built, r.Fresh := fresh_installed hroot hops
  refine ⟨hinvariant, ?_, ?_⟩
  · intro hpaused
    exact withoutStores_of_blank hblank (hinvariant.fresh hpaused) hbuilt
  · intro op s hanswer hterminal hmemory later hlater host' next
    have hnext : next.state.PassInvariant :=
      hinvariant.perform (installs_of_answer hanswer Node.Fresh) reached.2
    have hpaused : next.state.last ≠ some .running := by
      rw [last_perform hanswer]
      rintro ⟨⟩
      cases hterminal
    -- The tick has reset the root, so what a reset would give of it is the root itself.
    have hnextBlank : next.state.root.map Node.blank = built.map Node.blank := by
      have hstep := blank_perform hblank op reached.2
      rwa [install_of_answer hanswer] at hstep
    have hstores := withoutStores_of_blank hnextBlank (hnext.fresh hpaused) hbuilt
    have htree : next.state.Bisimilar Node.AnyHost
        { root := built, blackboard := next.state.blackboard } :=
      bisimilar_of_withoutStores_eq hstores hmemory rfl
    have hops' : List.Forall₂ (Operation.Match Node.AnyHost) later later := by
      refine List.forall₂_same.mpr ?_
      intro op hop
      exact op.match_self ((hlater op hop).imp fun _ => Node.bisimilar_of_stateless)
    exact htree.observe (trivial : Node.AnyHost _ host') hops'

/-- Knocks twice, within a nested tree, and marks each knock on the blackboard. -/
def knocking : Tree Nat :=
  let knock : Action Nat := fun _ w =>
    (.success, ⟨w.blackboard.insert .bool "knocked" true, w.host + 1⟩)
  let nested : Tree Nat := ofRoot (some (.action ⟨"knock", none⟩ (some knock)))
  ofRoot (some (Node.decorate (.repeater (some 2) 0) (some (Node.embed .shared .forward nested))))

/-- The first knock leaves the tree in the middle of a pass, the second ends it, and the third
goes like the first of a new tree. -/
theorem passInvariant_after_knocking :
    let reached := knocking.after [.tick 0.5] 0
    let next := reached.1.perform reached.2 (.tick 0.5)
    let later : List (Operation Nat) := [.tick 0.5, .resetRoot, .tick 0.5]
    reached.1.last = some .running ∧ reached.1.root.bind Node.status = some .running ∧
      next.answer = some .success ∧
      List.Forall₂ (Observation.Match Node.AnyHost) (observe later next.state next.world.host)
        (observe later { knocking with blackboard := next.state.blackboard } 7) := by
  intro reached next later
  have hfresh : ∀ r ∈ knocking.root, r.Fresh := by
    rintro r ⟨⟩
    refine Node.fresh_decorate _ ?_
    rintro c ⟨⟩
    refine Node.fresh_embed _ _ rfl ?_
    rintro c ⟨⟩
    exact Node.fresh_action _ _
  have hmemory : ∀ r ∈ knocking.root, r.Everywhere Node.Shares ∧ r.Everywhere Node.Stateless := by
    rintro r ⟨⟩
    simp [Node.decorate, Node.embed, ofRoot, Node.Shares, Node.Stateless]
  have hops : ∀ op ∈ ([.tick 0.5] : List (Operation Nat)), op.Installs Node.Fresh := by
    simp [Operation.Installs]
  obtain ⟨hinvariant, -, hagain⟩ := passInvariant_after rfl hfresh hops 0
  have hlast : reached.1.last = some .running := by decide
  have hanswer : next.answer = some .success := by decide
  refine ⟨hlast, hinvariant.running_iff.mp hlast, hanswer, ?_⟩
  exact hagain _ _ hanswer rfl hmemory later (by simp [later, Operation.Installs]) 7

end Tree

end BehaviorTree
