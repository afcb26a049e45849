import BehaviorTree.Proofs.Pass

/-!
# Who writes where

Only actions write to blackboards, and an action writes to the one of the innermost isolated tree
around it. So what every action outside of isolated trees keeps is kept by a tick of the whole
tree, whatever else is in it. Shared nested trees leave the store of their own alone, and a reset
leaves every store alone.
-/

namespace BehaviorTree

variable {ω : Type}

def Action.Keeps (P : Blackboard → Prop) (a : Action ω) : Prop :=
  ∀ seconds w, P w.blackboard → P (a seconds w).2.blackboard

namespace Node

def isolates : Node ω → Bool
  | subtree _ .isolated _ _ => true
  | _ => false

/-- The node at a position, unless the way to it enters an isolated tree. -/
def outer? : Node ω → List Nat → Option (Node ω)
  | n, [] => some n
  | n, i :: path => if n.isolates then none else n.children[i]?.bind (·.outer? path)

def OuterActionsKeep (P : Blackboard → Prop) (n : Node ω) : Prop :=
  ∀ path h a, n.outer? path = some (action h (some a)) → a.Keeps P

def Confined (n : Node ω) : Prop := ∀ path h a, n.outer? path ≠ some (action h (some a))

theorem Confined.outerActionsKeep {n : Node ω} (h : n.Confined) (P : Blackboard → Prop) :
    n.OuterActionsKeep P := by
  intro path head a ha
  exact absurd ha (h path head a)

section

variable {P : Blackboard → Prop}

theorem outerActionsKeep_iff {n : Node ω} :
    n.OuterActionsKeep P ↔ (∀ h a, n = action h (some a) → a.Keeps P) ∧
      (n.isolates = false → ∀ c ∈ n.children, c.OuterActionsKeep P) := by
  constructor
  · intro hn
    refine ⟨fun h a ha => hn [] h a (congrArg some ha), ?_⟩
    intro hopen c hc path h a ha
    obtain ⟨i, hi, rfl⟩ := List.mem_iff_getElem.mp hc
    refine hn (i :: path) h a ?_
    simpa [outer?, hopen, hi] using ha
  · rintro ⟨hhere, hchildren⟩ path h a ha
    cases path with
    | nil => exact hhere h a (Option.some.inj ha)
    | cons i path =>
      rw [outer?] at ha
      split at ha
      · cases ha
      · next hopen =>
        obtain ⟨c, hc, hca⟩ := Option.bind_eq_some_iff.mp ha
        exact hchildren (by simpa using hopen) c (List.mem_of_getElem? hc) path h a hca

def KeepsAt (P : Blackboard → Prop) (m : Moment) (n : Node ω) : Prop :=
  ∀ w, P w.blackboard → P (tick m n w).world.blackboard

theorem keeps_walk {m : Moment} {ns : List (Node ω)} (h : ∀ n ∈ ns, n.KeepsAt P m) (pass : Status)
    (start index : Nat) {w : World ω} (hw : P w.blackboard) :
    P (walk m pass start index ns w).world.blackboard := by
  induction ns generalizing index w with
  | nil => exact hw
  | cons n ns ih =>
    obtain ⟨hn, hns⟩ := List.forall_mem_cons.mp h
    rw [walk]
    split
    · exact ih hns (index + 1) hw
    · dsimp only
      split
      · exact ih hns (index + 1) (hn w hw)
      · exact hn w hw

theorem keeps_tickOpen {m : Moment} {ls : List (Lane (Node ω))} (h : ∀ l ∈ ls, l.node.KeepsAt P m)
    {w : World ω} (hw : P w.blackboard) : P (tickOpen m ls w).world.blackboard := by
  induction ls generalizing w with
  | nil => exact hw
  | cons l ls ih =>
    obtain ⟨hl, hls⟩ := List.forall_mem_cons.mp h
    obtain ⟨slot, n⟩ := l
    rw [tickOpen]
    split
    · exact ih hls (hl w hw)
    · exact ih hls hw

theorem keeps_tickTree {m : Moment} {t : Tree ω} (h : ∀ r ∈ t.root, r.KeepsAt P m) {w : World ω}
    (hw : P w.blackboard) : P (tickTree m t w).world.blackboard := by
  cases hr : t.root with
  | none =>
    rw [tickTree_of_root_none m w hr]
    exact hw
  | some r =>
    rw [tickTree_of_root_some m w hr]
    exact h r hr w hw

theorem keepsAt_decorator {m : Moment} {c : Node ω} (hc : c.KeepsAt P m) (h : Head)
    (kind : Decorator) : (decorator h kind (some c)).KeepsAt P m := by
  intro w hw
  by_cases hdue : kind.isDue = true
  · rw [tick_decorator_of_due m h c w hdue]
    exact hw
  · rw [tick_decorator_of_not_due m h c w hdue]
    exact hc w hw

theorem keepsAt_composite {m : Moment} {cs : List (Node ω)} (hcs : ∀ c ∈ cs, c.KeepsAt P m)
    (h : Head) (order : Order) (cursor : Cursor) : (composite h order cursor cs).KeepsAt P m := by
  intro w hw
  rw [tick_composite]
  exact keeps_walk hcs order.pass cursor.start 0 hw

theorem keepsAt_parallel {m : Moment} {ls : List (Lane (Node ω))}
    (hls : ∀ l ∈ ls, l.node.KeepsAt P m) (h : Head) (q : Quorums) (stalled : Bool) :
    (parallel h q stalled ls).KeepsAt P m := by
  intro w hw
  by_cases hnil : ls = []
  · subst hnil
    rw [tick_parallel_nil]
    exact hw
  · rw [tick_parallel_of_ne_nil m h q stalled w hnil]
    exact keeps_tickOpen hls hw

theorem keepsAt {n : Node ω} (h : n.OuterActionsKeep P) (m : Moment) : n.KeepsAt P m := by
  induction n using childInduction with
  | _ n ih =>
    have hchild : n.isolates = false → ∀ c ∈ n.children, c.KeepsAt P m :=
      fun hn c hc => ih c hc ((outerActionsKeep_iff.mp h).2 hn c hc)
    cases n with
    | condition head test =>
      intro w hw
      cases test with
      | none => exact hw
      | some p => exact hw
    | action head run =>
      intro w hw
      cases run with
      | none => exact hw
      | some a => exact h [] head a rfl m.elapsed w hw
    | decorator head kind c =>
      cases c with
      | none => exact fun w hw => hw
      | some c => exact keepsAt_decorator (hchild rfl c List.mem_cons_self) head kind
    | composite head order cursor cs => exact keepsAt_composite (hchild rfl) head order cursor
    | parallel head q stalled ls =>
      refine keepsAt_parallel ?_ head q stalled
      intro l hl
      exact hchild rfl l.node (List.mem_map_of_mem hl)
    | subtree head scope report t =>
      intro w hw
      cases scope with
      | shared =>
        rw [tick_subtree_shared]
        exact keeps_tickTree (fun r hr => hchild rfl r (by simpa [children] using hr)) hw
      | isolated =>
        -- The nested tree has a world of its own; only the host comes back from it.
        rw [tick_subtree_isolated]
        exact hw

end

/-! ## In every reachable state -/

theorem outer?_blank (n : Node ω) (path : List Nat) :
    n.blank.outer? path = (n.outer? path).map blank := by
  have hisolates : ∀ s : Node ω, s.blank.isolates = s.isolates := by
    intro s
    cases s with
    | subtree _ scope _ _ => cases scope <;> rfl
    | _ => rfl
  induction path generalizing n with
  | nil => rfl
  | cons i path ih =>
    simp only [outer?, hisolates, children_blank, List.getElem?_map]
    split
    · rfl
    · cases n.children[i]? with
      | none => rfl
      | some c => exact ih c

theorem outer?_eq_action_of_blank_eq {n n' : Node ω} (hblank : n.blank = n'.blank)
    {path : List Nat} {h : Head} {a : Action ω} (ha : n'.outer? path = some (action h (some a))) :
    ∃ h, n.outer? path = some (action h (some a)) := by
  have houter : (n.outer? path).map blank = some (action h.clear (some a)) := by
    rw [← outer?_blank, hblank, outer?_blank, ha]
    rfl
  obtain ⟨s, hs, hsa⟩ := Option.map_eq_some_iff.mp houter
  cases s with
  | action head run =>
    simp only [blank, reset, withoutStores, action.injEq] at hsa
    obtain ⟨-, rfl⟩ := hsa
    exact ⟨head, hs⟩
  | _ => cases hsa

theorem OuterActionsKeep.of_blank_eq {P : Blackboard → Prop} {n n' : Node ω}
    (h : n.OuterActionsKeep P) (hblank : n.blank = n'.blank) : n'.OuterActionsKeep P := by
  intro path head a ha
  obtain ⟨head', ha'⟩ := outer?_eq_action_of_blank_eq hblank ha
  exact h path head' a ha'

theorem Confined.of_blank_eq {n n' : Node ω} (h : n.Confined) (hblank : n.blank = n'.blank) :
    n'.Confined := by
  intro path head a ha
  obtain ⟨head', ha'⟩ := outer?_eq_action_of_blank_eq hblank ha
  exact h path head' a ha'

/-! ## Blackboards of nested trees -/

def blackboard? (scope : Scope) : Node ω → Option Blackboard
  | subtree _ s _ t => if s = scope then some t.blackboard else none
  | _ => none

theorem blackboard?_reset (scope : Scope) (n : Node ω) :
    n.reset.blackboard? scope = n.blackboard? scope := by
  cases n with
  | subtree => simp only [reset, blackboard?, resetTree_eq]
  | _ => rfl

/-- What ticks and resets do to each node, they do to the node at each position. -/
theorem rel_get?_tick {R : Node ω → Node ω → Prop} (hrefl : ∀ n, R n n)
    (htrans : ∀ {n n' n''}, R n n' → R n' n'' → R n n'') (hreset : ∀ n, R n n.reset)
    (htick : ∀ m n w, R n (tick m n w).state) (m : Moment) (n : Node ω) (w : World ω)
    (path : List Nat) : Option.Rel R (n.get? path) ((tick m n w).state.get? path) := by
  induction n using childInduction generalizing w path with
  | _ n ih =>
    cases path with
    | nil => exact .some (htick m n w)
    | cons i path =>
      have hchild : ∀ c ∈ n.children, ∀ c', Successor m c c' →
          Option.Rel R (c.get? path) (c'.get? path) := by
        intro c hc c' hcc'
        -- The inner induction is on how many resets followed the tick of the child.
        induction hcc' with
        | kept =>
          cases c.get? path with
          | none => exact .none
          | some s => exact .some (hrefl s)
        | ticked v => exact ih c hc v path
        | @reset c' _ ihc =>
          rw [get?_of_children_eq_map children_reset]
          generalize c.get? path = s, c'.get? path = s' at ihc ⊢
          cases ihc with
          | none => exact .none
          | some hs => exact .some (htrans hs (hreset _))
      obtain ⟨hlen, hsucc⟩ := List.forall₂_iff_get.mp (successor_children m n w)
      rw [get?, get?]
      by_cases hi : i < n.children.length
      · rw [List.getElem?_eq_getElem hi, List.getElem?_eq_getElem (hlen ▸ hi)]
        exact hchild _ (List.getElem_mem hi) _ (hsucc i hi (hlen ▸ hi))
      · rw [List.getElem?_eq_none (by omega), List.getElem?_eq_none (by omega)]
        exact .none

theorem blackboard?_tick_shared (m : Moment) (n : Node ω) (w : World ω) :
    (tick m n w).state.blackboard? .shared = n.blackboard? .shared := by
  have hblueprint := blueprint_tick m n w
  cases n with
  | subtree h scope report t =>
    cases scope with
    | shared =>
      rw [tick_subtree_shared]
      exact congrArg some (Tree.blackboard_tickTree m t w)
    | isolated =>
      rw [tick_subtree_isolated]
      rfl
  | _ =>
    -- No other kind of node becomes one that embeds a tree.
    generalize (tick m _ w).state = n' at hblueprint ⊢
    cases n' with
    | subtree => cases hblueprint
    | _ => rfl

theorem get?_tick_shared (m : Moment) (n : Node ω) (w : World ω) (path : List Nat) :
    ((tick m n w).state.get? path).bind (blackboard? .shared) =
      (n.get? path).bind (blackboard? .shared) := by
  have hrel := rel_get?_tick (R := fun s s' => s'.blackboard? .shared = s.blackboard? .shared)
    (fun _ => rfl) (fun h h' => h'.trans h) (blackboard?_reset .shared) blackboard?_tick_shared
    m n w path
  generalize n.get? path = s, (tick m n w).state.get? path = s' at hrel ⊢
  cases hrel with
  | none => rfl
  | some h => exact h

/-- If `P` holds of the blackboard that an isolated tree in `n` owns and every action that writes
to it keeps `P`, then `P` holds of the one in `n'`. -/
structure KeepsWithin (P : Blackboard → Prop) (n n' : Node ω) : Prop where
  blank : n.blank = n'.blank
  kept : (∀ c ∈ n.children, c.OuterActionsKeep P) → ∀ b, n.blackboard? .isolated = some b → P b →
    ∃ b', n'.blackboard? .isolated = some b' ∧ P b'

theorem OuterActionsKeep.children_of_blank_eq {P : Blackboard → Prop} {n n' : Node ω}
    (h : ∀ c ∈ n.children, c.OuterActionsKeep P) (hblank : n.blank = n'.blank) :
    ∀ c ∈ n'.children, c.OuterActionsKeep P := by
  intro c hc
  have hmem : c.blank ∈ n.children.map Node.blank := by
    rw [← children_blank, hblank, children_blank]
    exact List.mem_map_of_mem hc
  obtain ⟨d, hd, hdc⟩ := List.mem_map.mp hmem
  exact (h d hd).of_blank_eq hdc

namespace KeepsWithin

variable {P : Blackboard → Prop}

theorem refl (n : Node ω) : KeepsWithin P n n := ⟨rfl, fun _ b hb hP => ⟨b, hb, hP⟩⟩

theorem trans {n n' n'' : Node ω} (h : KeepsWithin P n n') (h' : KeepsWithin P n' n'') :
    KeepsWithin P n n'' := by
  refine ⟨h.blank.trans h'.blank, ?_⟩
  intro hchildren b hb hP
  obtain ⟨b', hb', hP'⟩ := h.kept hchildren b hb hP
  exact h'.kept (OuterActionsKeep.children_of_blank_eq hchildren h.blank) b' hb' hP'

theorem reset (n : Node ω) : KeepsWithin P n n.reset := by
  refine ⟨(blank_reset n).symm, ?_⟩
  intro _ b hb hP
  exact ⟨b, (blackboard?_reset .isolated n).trans hb, hP⟩

theorem tick (m : Moment) (n : Node ω) (w : World ω) : KeepsWithin P n (tick m n w).state := by
  refine ⟨(blank_tick m n w).symm, ?_⟩
  intro hchildren b hb hP
  cases n with
  | subtree h scope report t =>
    cases scope with
    | shared => cases hb
    | isolated =>
      rw [tick_subtree_isolated]
      refine ⟨_, rfl, ?_⟩
      cases hb
      refine keeps_tickTree ?_ hP
      intro r hr
      exact keepsAt (hchildren r (by simpa [Node.children] using hr)) m
  | _ => cases hb

end KeepsWithin

theorem keeps_get?_tick_isolated {P : Blackboard → Prop} {n s : Node ω} {path : List Nat}
    {b : Blackboard} (hs : n.get? path = some s)
    (hchildren : ∀ c ∈ s.children, c.OuterActionsKeep P)
    (hb : s.blackboard? .isolated = some b) (hP : P b) (m : Moment) (w : World ω) :
    ∃ b', ((tick m n w).state.get? path).bind (blackboard? .isolated) = some b' ∧ P b' := by
  have hrel := rel_get?_tick KeepsWithin.refl KeepsWithin.trans KeepsWithin.reset
    (KeepsWithin.tick (P := P)) m n w path
  rw [hs] at hrel
  generalize (tick m n w).state.get? path = next at hrel ⊢
  cases hrel with
  | some h => exact h.kept hchildren b hb hP

end Node

/-! ## Runs -/

def Operation.edit (b : Blackboard) : Operation ω → Blackboard
  | reset => {}
  | write f => f b
  | _ => b

namespace Tree

theorem keeps_tickOn {P : Blackboard → Prop} {t : Tree ω} (h : ∀ r ∈ t.root, r.OuterActionsKeep P)
    (m : Moment) {w : World ω} (hw : P w.blackboard) : P (t.tickOn m w).world.blackboard :=
  Node.keeps_tickTree (fun r hr => Node.keepsAt (h r hr) m) hw

theorem blackboard_tickOn_of_confined {t : Tree ω} (h : ∀ r ∈ t.root, r.Confined) (m : Moment)
    (w : World ω) : (t.tickOn m w).world.blackboard = w.blackboard :=
  keeps_tickOn (P := fun b => b = w.blackboard) (fun r hr => (h r hr).outerActionsKeep _) m rfl

theorem forall_root_of_blank_eq {Q : Node ω → Prop}
    (hQ : ∀ {n n' : Node ω}, Q n → n.blank = n'.blank → Q n') {root root' : Option (Node ω)}
    (hblank : root.map Node.blank = root'.map Node.blank) (h : ∀ r ∈ root, Q r) :
    ∀ r ∈ root', Q r := by
  intro r' hr'
  obtain ⟨r, hr, hrr'⟩ := Option.map_eq_some_iff.mp (hblank.trans (congrArg _ hr'))
  exact hQ (h r hr) hrr'

theorem blackboard_perform_of_confined {t : Tree ω} (h : ∀ r ∈ t.root, r.Confined)
    (op : Operation ω) (host : ω) :
    (t.perform host op).state.blackboard = op.edit t.blackboard := by
  cases op with
  | tick seconds => exact blackboard_tickOn_of_confined h _ ⟨t.blackboard, host⟩
  | tickAt m => exact blackboard_tickOn_of_confined h m ⟨t.blackboard, host⟩
  | tickOn m lent => exact blackboard_tickTree m t ⟨lent, host⟩
  | resetRoot => rw [perform, resetRoot, Node.resetTree_eq]; rfl
  | _ => rfl

theorem confined_perform {t : Tree ω} (h : ∀ r ∈ t.root, r.Confined) {op : Operation ω}
    (hop : op.Installs Node.Confined) (host : ω) :
    ∀ r ∈ (t.perform host op).state.root, r.Confined := by
  refine forall_root_of_blank_eq Node.Confined.of_blank_eq (blank_perform rfl op host).symm ?_
  cases op with
  | setRoot root =>
    rintro r ⟨⟩
    exact hop
  | _ => exact h

theorem after_of_confined {t : Tree ω} (h : ∀ r ∈ t.root, r.Confined) {ops : List (Operation ω)}
    (hops : ∀ op ∈ ops, op.Installs Node.Confined) (host : ω) :
    (∀ r ∈ (t.after ops host).1.root, r.Confined) ∧
      (t.after ops host).1.blackboard = ops.foldl Operation.edit t.blackboard := by
  induction ops generalizing t host with
  | nil => exact ⟨h, rfl⟩
  | cons op ops ih =>
    obtain ⟨hop, hops⟩ := List.forall_mem_cons.mp hops
    have hnext := ih (confined_perform h hop host) hops (t.perform host op).world.host
    rwa [blackboard_perform_of_confined h] at hnext

/-- Whatever else is in the tree, a tick keeps what the actions outside of isolated trees keep;
where there are none of those, only the owner changes the blackboard. Seen from any node, the same
holds within each isolated tree, and blackboards that are not in use stay as they are. -/
theorem writes_confined (t : Tree ω) (ops : List (Operation ω)) (host : ω) :
    let reached := (t.after ops host).1
    (∀ P : Blackboard → Prop, (∀ r ∈ installed t.root ops, r.OuterActionsKeep P) →
      ∀ (m : Moment) (w : World ω),
        (P w.blackboard → P (reached.tickOn m w).world.blackboard) ∧
        (P reached.blackboard → P (reached.tickAt m w.host).state.blackboard)) ∧
    ((∀ r ∈ t.root, r.Confined) → (∀ op ∈ ops, op.Installs Node.Confined) →
      reached.blackboard = ops.foldl Operation.edit t.blackboard ∧
      ∀ (m : Moment) (w : World ω), (reached.tickOn m w).world.blackboard = w.blackboard) ∧
    ∀ (n : Node ω) (path : List Nat),
      (∀ scope, (n.reset.get? path).bind (·.blackboard? scope) =
        (n.get? path).bind (·.blackboard? scope)) ∧
      ∀ (m : Moment) (w : World ω),
        let next := (Node.tick m n w).state.get? path
        next.bind (·.blackboard? .shared) = (n.get? path).bind (·.blackboard? .shared) ∧
        ∀ (P : Blackboard → Prop) (s : Node ω) (b : Blackboard), n.get? path = some s →
          (∀ c ∈ s.children, c.OuterActionsKeep P) → s.blackboard? .isolated = some b → P b →
          ∃ b', next.bind (·.blackboard? .isolated) = some b' ∧ P b' := by
  intro reached
  refine ⟨?_, ?_, ?_⟩
  · intro P hP m w
    have hroot : ∀ r ∈ reached.root, r.OuterActionsKeep P :=
      forall_root_of_blank_eq Node.OuterActionsKeep.of_blank_eq (blank_after rfl ops host).symm hP
    exact ⟨keeps_tickOn hroot m, fun hown => keeps_tickOn (w := ⟨_, w.host⟩) hroot m hown⟩
  · intro ht hops
    obtain ⟨hroot, hblackboard⟩ := after_of_confined ht hops host
    exact ⟨hblackboard, blackboard_tickOn_of_confined hroot⟩
  · intro n path
    constructor
    · intro scope
      rw [Node.get?_of_children_eq_map Node.children_reset, Option.bind_map]
      exact Option.bind_congr fun s _ => Node.blackboard?_reset scope s
    · intro m w next
      constructor
      · exact Node.get?_tick_shared m n w path
      · intro P s b hs hchildren hb hPb
        exact Node.keeps_get?_tick_isolated hs hchildren hb hPb m w

/-- A healer in an isolated tree, within which a further tree shares the store, behind an action
of the outer tree that marks the healer as seen. -/
def infirmary : Tree Unit :=
  let healing : Tree Unit := ofRoot (some (.action ⟨"heal", none⟩ (some fun _ w =>
    (.success, { w with blackboard := w.blackboard.insert .int "hp" 5 }))))
  let ward : Tree Unit := { root := some (.embed .shared .forward healing) }
  ofRoot (some (.compose .sequence false
    [.action ⟨"see", none⟩ (some fun _ w =>
      (.success, { w with blackboard := w.blackboard.insert .bool "seen" true })),
    .embed .isolated .forward ward]))

/-- Three points of health outside stay three, although the healer inside has its five. -/
theorem writes_confined_infirmary :
    let hurt := (infirmary.after [.write (·.insert .int "hp" 3)] ()).1
    let next := hurt.tickAt ⟨0, 0.5⟩ ()
    hurt.blackboard.get? .int "hp" = some 3 ∧
      next.state.blackboard.get? .int "hp" = some 3 ∧
      next.state.blackboard.get? .bool "seen" = some true ∧
      (next.state.root.bind (·.get? [1])).bind (fun n => (n.blackboard? .isolated).map
        (·.get? .int "hp")) = some (some 5) := by
  intro hurt next
  obtain ⟨hkeeps, -, -⟩ := writes_confined infirmary [.write (·.insert .int "hp" 3)] ()
  have hroot : ∀ r ∈ infirmary.root, r.OuterActionsKeep fun b => b.get? .int "hp" = some 3 := by
    rintro r ⟨⟩
    refine Node.outerActionsKeep_iff.mpr ⟨by rintro h a ⟨⟩, ?_⟩
    rintro - c (_ | ⟨_, _ | ⟨_, ⟨⟩⟩⟩)
    · refine Node.outerActionsKeep_iff.mpr ⟨?_, by rintro - c ⟨⟩⟩
      rintro h a ⟨⟩ seconds w hw
      exact (w.blackboard.get?_insert_of_ne _ _ _ (by decide)).trans hw
    · exact Node.outerActionsKeep_iff.mpr ⟨by rintro h a ⟨⟩, by rintro ⟨⟩⟩
  have hhurt : hurt.blackboard.get? .int "hp" = some 3 :=
    (Blackboard.get?_insert {} .int "hp" "hp" 3).trans (if_pos rfl)
  refine ⟨hhurt, (hkeeps _ hroot ⟨0, 0.5⟩ ⟨{}, ()⟩).2 hhurt, ?_, ?_⟩
  · exact (Blackboard.get?_insert _ .bool "seen" "seen" true).trans (if_pos rfl)
  · exact congrArg some ((Blackboard.get?_insert {} .int "hp" "hp" 5).trans (if_pos rfl))

end Tree

end BehaviorTree
