import BehaviorTree.Proofs.Columns

/-!
# Reset as cancellation

Whatever happened to a tree of fresh nodes, a reset of any node in it gives that node as it
was built, down to the last descendant. What a reset keeps besides are the blackboards and
the counts of ticks of the nested trees. So the state after a reset is made of two parts:
the node as built, with empty blackboards and counts of zero, and the list of stores.
-/

namespace BehaviorTree

variable {ω : Type}

/-- The fresh node with the given blueprint and children, on an empty blackboard if it has one. -/
def Blueprint.build : Blueprint ω → List (Node ω) → Node ω
  | condition name test, _ => .condition ⟨name, none⟩ test
  | action name run, _ => .action ⟨name, none⟩ run
  | decorator name kind, cs => .decorator ⟨name, none⟩ kind cs.head?
  | composite name order cursor, cs => .composite ⟨name, none⟩ order cursor cs
  | parallel name quorums, cs => .parallel ⟨name, none⟩ quorums false (cs.map fun node => { node })
  | subtree name scope report channel, cs =>
    .subtree ⟨name, none⟩ scope report { root := cs.head?, channel }

namespace Node

mutual

def withoutStores : Node ω → Node ω
  | condition h t => condition h t
  | action h r => action h r
  | decorator h k c => decorator h k (withoutStoresChild c)
  | composite h o c cs => composite h o c (withoutStoresAll cs)
  | parallel h q s ls => parallel h q s (withoutStoresLanes ls)
  | subtree h s r t => subtree h s r (withoutStoresTree t)

def withoutStoresChild : Option (Node ω) → Option (Node ω)
  | none => none
  | some n => some n.withoutStores

def withoutStoresAll : List (Node ω) → List (Node ω)
  | [] => []
  | n :: ns => n.withoutStores :: withoutStoresAll ns

def withoutStoresLanes : List (Lane (Node ω)) → List (Lane (Node ω))
  | [] => []
  | ⟨slot, n⟩ :: ls => ⟨slot, n.withoutStores⟩ :: withoutStoresLanes ls

def withoutStoresTree : Tree ω → Tree ω
  | ⟨root, last, channel, _, _⟩ => ⟨withoutStoresChild root, last, channel, {}, 0⟩

end

theorem withoutStoresAll_eq_map (ns : List (Node ω)) :
    withoutStoresAll ns = ns.map withoutStores := by
  induction ns with
  | nil => simp [withoutStoresAll]
  | cons n ns ih => simp [withoutStoresAll, ih]

theorem withoutStoresLanes_eq_map (ls : List (Lane (Node ω))) :
    withoutStoresLanes ls = ls.map fun l => ⟨l.slot, l.node.withoutStores⟩ := by
  induction ls with
  | nil => simp [withoutStoresLanes]
  | cons l ls ih => simp [withoutStoresLanes, ih]

@[simp] theorem children_withoutStores (n : Node ω) :
    n.withoutStores.children = n.children.map withoutStores := by
  cases n with
  | condition | action => rfl
  | decorator _ _ c => cases c <;> rfl
  | composite => simp [children, withoutStores, withoutStoresAll_eq_map]
  | parallel => simp [children, withoutStores, withoutStoresLanes_eq_map]
  | subtree _ _ _ t =>
    obtain ⟨root, _, _, _, _⟩ := t
    cases root <;> rfl

def store? : Node ω → Option (Blackboard × UInt64)
  | subtree _ _ _ t => some (t.blackboard, t.ticks)
  | _ => none

def stores (n : Node ω) : List (Blackboard × UInt64) := (n.preorder 0).filterMap fun p => p.2.store?

/-- The node as a reset leaves it, stores aside. -/
def blank (n : Node ω) : Node ω := n.reset.withoutStores

theorem blank_eq_build (n : Node ω) : n.blank = n.blueprint.build (n.children.map blank) := by
  cases n with
  | condition | action => rfl
  | decorator _ _ c => cases c <;> rfl
  | composite =>
    simp [blank, blueprint, Blueprint.build, children, reset, withoutStores, resetAll_eq_map,
      withoutStoresAll_eq_map, Head.clear, Function.comp_def]
  | parallel =>
    simp [blank, blueprint, Blueprint.build, children, reset, withoutStores, resetLanes_eq_map,
      withoutStoresLanes_eq_map, Head.clear, Function.comp_def]
  | subtree _ _ _ t =>
    obtain ⟨root, _, _, _, _⟩ := t
    cases root <;> rfl

theorem blank_congr {n n' : Node ω} (hblueprint : n.blueprint = n'.blueprint)
    (hchildren : n.children.map blank = n'.children.map blank) : n.blank = n'.blank := by
  rw [blank_eq_build, blank_eq_build n', hblueprint, hchildren]

@[simp] theorem blank_reset (n : Node ω) : n.reset.blank = n.blank := by
  rw [blank, blank, reset_reset]

theorem blank_tick (m : Moment) (n : Node ω) (w : World ω) :
    (tick m n w).state.blank = n.blank := by
  induction n using childInduction generalizing w with
  | _ n ih =>
    refine blank_congr (blueprint_tick m n w) ?_
    -- The order of ticks and resets of a child does not matter: each keeps its blank form.
    have hblank : ∀ c ∈ n.children, ∀ c', Successor m c c' → c'.blank = c.blank := by
      intro c hc c' hcc'
      induction hcc' with
      | kept => rfl
      | ticked v => exact ih c hc v
      | reset _ ih => rw [blank_reset, ih]
    have hmap : List.Forall₂ (fun c' c => blank c' = blank c) (tick m n w).state.children
        n.children := by
      refine List.Forall₂.flip (List.forall₂_iff_zip.mpr ?_)
      obtain ⟨hlen, hzip⟩ := List.forall₂_iff_zip.mp (successor_children m n w)
      exact ⟨hlen, fun hp => hblank _ (List.of_mem_zip hp).1 _ (hzip hp)⟩
    rwa [← List.forall₂_eq_eq_eq, List.forall₂_map_left_iff, List.forall₂_map_right_iff]

/-! ## Changes at a position -/

theorem children_blank (n : Node ω) : n.blank.children = n.children.map blank := by
  rw [blank, children_withoutStores, children_reset, List.map_map]
  rfl

theorem blank_get? (n : Node ω) (path : List Nat) :
    n.blank.get? path = (n.get? path).map blank :=
  get?_of_children_eq_map children_blank n path

theorem withChildren_blank (n : Node ω) {cs : List (Node ω)} (h : cs.length = n.children.length) :
    n.blank.withChildren cs = n.blueprint.build cs := by
  rw [blank_eq_build]
  cases n with
  | condition | action => rfl
  | decorator _ _ c =>
    cases c with
    | none => simp_all [children, blueprint, Blueprint.build, withChildren]
    | some c => rfl
  | composite =>
    simp only [children] at h
    simp [children, blueprint, Blueprint.build, withChildren, ← h]
  | parallel =>
    simp only [children, List.length_map] at h
    apply congrArg (parallel _ _ _)
    exact List.ext_getElem (by simp [children, h]) (by simp)
  | subtree _ _ _ t =>
    obtain ⟨root, _, _, _, _⟩ := t
    cases root with
    | none => simp_all [children, blueprint, Blueprint.build, withChildren]
    | some r => rfl

theorem blank_update {f g : Node ω → Node ω} (h : ∀ n : Node ω, (f n).blank = g n.blank)
    (n : Node ω) (path : List Nat) : (n.update f path).blank = n.blank.update g path := by
  induction path generalizing n with
  | nil => exact h n
  | cons i path ih =>
    have hlen : (n.children.modify i fun c => c.update f path).length = n.children.length := by simp
    rw [update, update, blank_eq_build, blueprint_withChildren, children_withChildren hlen,
      withChildren_blank n (by simp [children_blank]), children_blank]
    congr 1
    apply List.ext_getElem?
    intro j
    simp only [List.getElem?_map, List.getElem?_modify]
    cases n.children[j]? with
    | none => rfl
    | some c => by_cases hij : i = j <;> simp [hij, ih]

theorem update_id (n : Node ω) (path : List Nat) : n.update id path = n := by
  induction path generalizing n with
  | nil => rfl
  | cons i path ih =>
    have hid : (fun c : Node ω => c.update id path) = id := funext ih
    rw [update, hid, List.modify_id, withChildren_children]

theorem blank_push (n child : Node ω) : (n.push child).blank = n.blank.push child.blank := by
  cases n with
  | composite => simp [push, blank, reset, withoutStores, resetAll_eq_map, withoutStoresAll_eq_map]
  | parallel =>
    simp [push, blank, reset, withoutStores, resetLanes_eq_map, withoutStoresLanes_eq_map]
  | _ => rfl

/-! ## The tree as it was built -/

/-- Pushes what the change pushes, and runs and resets nothing. -/
def assemble (n : Node ω) : Change ω → Node ω
  | .push path child => n.update (fun s => s.push child) path
  | _ => n

def built (n : Node ω) (changes : List (Change ω)) : Node ω := changes.foldl assemble n

theorem blank_apply {n b : Node ω} (h : n.blank = b.blank) (c : Change ω) :
    (c.apply n).blank = (b.assemble c).blank := by
  cases c with
  | tick path m w =>
    -- To blank nodes a tick at a position is no change at all.
    calc
      (n.update (fun s => (tick m s w).state) path).blank = n.blank.update id path :=
        blank_update (fun s => blank_tick m s w) n path
      _ = b.blank := by rw [update_id, h]
  | reset path =>
    calc
      (n.update reset path).blank = n.blank.update id path := blank_update blank_reset n path
      _ = b.blank := by rw [update_id, h]
  | push path child =>
    have hpush : ∀ x : Node ω, (x.update (fun s => s.push child) path).blank =
        x.blank.update (fun s => s.push child.blank) path :=
      fun x => blank_update (fun s => blank_push s child) x path
    calc
      (n.update (fun s => s.push child) path).blank
          = n.blank.update (fun s => s.push child.blank) path := hpush n
      _ = b.blank.update (fun s => s.push child.blank) path := by rw [h]
      _ = (b.update (fun s => s.push child) path).blank := (hpush b).symm

theorem blank_after {n b : Node ω} (h : n.blank = b.blank) (changes : List (Change ω)) :
    (n.after changes).blank = (b.built changes).blank := by
  induction changes generalizing n b with
  | nil => exact h
  | cons c cs ih => exact ih (blank_apply h c)

theorem Fresh.push {n child : Node ω} (hn : n.Fresh) (hchild : child.Fresh) :
    (n.push child).Fresh := by
  refine Everywhere.push ?_ hn hchild
  rintro n child ⟨hsettled, hanswer⟩
  cases n with
  | parallel _ _ _ ls =>
    obtain ⟨hstalled, hslots⟩ := hsettled
    refine ⟨⟨hstalled, ?_⟩, hanswer⟩
    intro l hl
    rcases List.mem_append.mp hl with hl | hl
    · exact hslots l hl
    · rw [List.mem_singleton.mp hl]
  | _ => exact ⟨hsettled, hanswer⟩

theorem Fresh.update {f : Node ω → Node ω} (hf : ∀ n : Node ω, n.Fresh → (f n).Fresh) {n : Node ω}
    (hn : n.Fresh) (path : List Nat) : (n.update f path).Fresh := by
  refine Everywhere.update ?_ hf hn path
  rintro n cs - ⟨hsettled, hanswer⟩
  cases n with
  | parallel _ _ _ ls =>
    obtain ⟨hstalled, hslots⟩ := hsettled
    refine ⟨⟨hstalled, ?_⟩, hanswer⟩
    intro l hl
    obtain ⟨i, hi, rfl⟩ := List.mem_iff_getElem.mp hl
    simp [hslots]
  | _ => exact ⟨hsettled, hanswer⟩

theorem Fresh.built {n : Node ω} (hn : n.Fresh) {changes : List (Change ω)}
    (hpush : ∀ c ∈ changes, c.Pushes Fresh) : (n.built changes).Fresh := by
  induction changes generalizing n with
  | nil => exact hn
  | cons c cs ih =>
    obtain ⟨hc, hcs⟩ := List.forall_mem_cons.mp hpush
    refine ih ?_ hcs
    cases c with
    | push path child => exact hn.update (fun s hs => Fresh.push hs hc) path
    | _ => exact hn

/-! ## What a reset keeps -/

theorem preorderAll_eq_flatMap (d : Nat) (ns : List (Node ω)) :
    preorderAll d ns = ns.flatMap (preorder d) := by
  induction ns with
  | nil => simp [preorderAll]
  | cons n ns ih => simp [preorderAll, ih]

theorem preorderLanes_eq_flatMap (d : Nat) (ls : List (Lane (Node ω))) :
    preorderLanes d ls = (ls.map (·.node)).flatMap (preorder d) := by
  induction ls with
  | nil => simp [preorderLanes]
  | cons l ls ih => simp [preorderLanes, ih]

theorem preorder_eq (d : Nat) (n : Node ω) :
    n.preorder d = (d, n) :: n.children.flatMap (preorder (d + 1)) := by
  cases n with
  | condition | action => rfl
  | decorator _ _ c => cases c <;> simp [preorder, preorderChild, children]
  | composite => simp [preorder, preorderAll_eq_flatMap, children]
  | parallel => simp [preorder, preorderLanes_eq_flatMap, children]
  | subtree _ _ _ t =>
    obtain ⟨root, _, _, _, _⟩ := t
    cases root <;> simp [preorder, preorderTree, preorderChild, children]

theorem preorder_reset (d : Nat) (n : Node ω) :
    n.reset.preorder d = (n.preorder d).map fun p => (p.1, p.2.reset) := by
  induction n using childInduction generalizing d with
  | _ n ih =>
    rw [preorder_eq, preorder_eq, children_reset, List.map_cons, List.flatMap_map, List.map_flatMap]
    congr 1
    exact List.flatMap_congr fun c hc => ih c hc (d + 1)

theorem stores_reset (n : Node ω) : n.reset.stores = n.stores := by
  have hstore : ∀ s : Node ω, s.reset.store? = s.store? := by
    intro s
    cases s with
    | subtree => simp [reset, store?, resetTree_eq]
    | _ => rfl
  simp [stores, preorder_reset, List.filterMap_map, hstore]

def resetEvent : Node ω → List Emission
  | subtree _ _ _ t => Emission.toChannel t.channel (Event.reset t.ticks)
  | _ => []

theorem resetLanesEmissions_eq_flatMap (ls : List (Lane (Node ω))) :
    resetLanesEmissions ls = (ls.map (·.node)).flatMap resetEmissions := by
  induction ls with
  | nil => simp [resetLanesEmissions]
  | cons l ls ih => simp [resetLanesEmissions, ih]

theorem resetEmissions_eq (n : Node ω) :
    n.resetEmissions = n.children.flatMap resetEmissions ++ n.resetEvent := by
  cases n with
  | condition | action => rfl
  | decorator _ _ c => cases c <;> simp [resetEmissions, resetChildEmissions, children, resetEvent]
  | composite => simp [resetEmissions, resetAllEmissions_eq_flatMap, children, resetEvent]
  | parallel => simp [resetEmissions, resetLanesEmissions_eq_flatMap, children, resetEvent]
  | subtree _ _ _ t =>
    obtain ⟨root, _, _, _, _⟩ := t
    cases root <;>
      simp [resetEmissions, resetTreeEmissions, resetChildEmissions, children, resetEvent]

theorem event_of_mem_resetEmissions (n : Node ω) :
    ∀ e ∈ n.resetEmissions, ∃ channel tick, e = .event channel (.reset tick) := by
  induction n using childInduction with
  | _ n ih =>
    intro e he
    rw [resetEmissions_eq] at he
    rcases List.mem_append.mp he with he | he
    · obtain ⟨c, hc, he⟩ := List.mem_flatMap.mp he
      exact ih c hc e he
    · cases n with
      | subtree _ _ _ t =>
        obtain ⟨channel, -, rfl⟩ := List.mem_map.mp he
        exact ⟨channel, t.ticks, rfl⟩
      | _ => cases he

/-- A reset takes no world, so it calls no closure and sees no blackboard that is lent to the
node: what is left to say is what it makes of the node itself. That it reaches every child of a
parallel is not for granted where children and slots are kept apart, for then it walks the two
side by side; but whatever has happened to them, there is a slot for each child. -/
theorem reset_eq_built {n : Node ω} (hn : n.Fresh) {changes : List (Change ω)}
    (hpush : ∀ c ∈ changes, c.Pushes Fresh) {path : List Nat} {s : Node ω}
    (hs : (n.after changes).get? path = some s) :
    (∃ b, (n.built changes).get? path = some b ∧ b.Fresh ∧
      s.reset.withoutStores = b.withoutStores) ∧
    s.reset.Fresh ∧ s.reset.stores = s.stores ∧ s.reset.reset = s.reset ∧
    (∀ e ∈ s.resetEmissions, ∃ channel tick, e = .event channel (.reset tick)) ∧
    ∀ h q stalled ls, s = parallel h q stalled ls → (∃ p, s.ByColumns h q p) ∧
      ∀ p, Columns.Reached conduct h.name q p → s = p.toNode h q → s.ByColumns h q p := by
  refine ⟨?_, fresh_reset s, stores_reset s, reset_reset s, event_of_mem_resetEmissions s, ?_⟩
  · have hblank : some s.blank = ((n.built changes).get? path).map blank := by
      rw [← blank_get?, ← blank_after rfl, blank_get?, hs]
      rfl
    obtain ⟨b, hb, hsb⟩ := Option.map_eq_some_iff.mp hblank.symm
    have hfresh : b.Fresh := (Fresh.built hn hpush).get? hb
    refine ⟨b, hb, hfresh, ?_⟩
    calc
      s.reset.withoutStores = b.reset.withoutStores := hsb.symm
      _ = b.withoutStores := by rw [hfresh.reset_eq]
  · intro h q stalled ls hparallel
    have hpushed : ∀ c ∈ changes, c.Pushes (Everywhere InColumns) :=
      fun c hc => (hpush c hc).imp fun _ => Fresh.inColumns
    have hafter := hn.inColumns.after lasting_inColumns hpushed
    refine ⟨(hafter.get? hs).here.exists_byColumns hparallel, ?_⟩
    intro p hp hnode
    exact byColumns_of_reached hp hnode

/-- Over a host that counts calls: a parallel around a nested tree that keeps a score of its own
and reports success while it repeats for ever. -/
def errands : Node Nat :=
  let note : Action Nat := fun _ w =>
    (.success, ⟨w.blackboard.insert .int "score" w.host.toInt32, w.host + 1⟩)
  abreast ⟨.requireAll, .requireOne⟩
    [embed .isolated .alwaysSucceed
        { root := decorate (.repeater none 0) (some (action ⟨"note", none⟩ (some note))) },
      action ⟨"wait", none⟩ (some fun _ w => (.running, w))]

theorem fresh_errands : errands.Fresh := by
  refine fresh_abreast _ ?_
  rintro c (_ | ⟨_, _ | ⟨_, ⟨⟩⟩⟩)
  · refine fresh_embed _ _ rfl ?_
    rintro r ⟨⟩
    exact fresh_decorate _ (by simp [fresh_action])
  · exact fresh_action _ _

/-- In the middle of a pass the nested tree has answered and still runs. The reset gives the
parallel as it was built, with the child that was pushed in between, on the old store; kept in two
columns, the parallel has three children and three slots by then. -/
theorem reset_eq_built_errands :
    let child : Node Nat := action ⟨"ring", none⟩ (some fun _ w => (.success, w))
    let n := errands.after
      [.tick [] ⟨0, 0.5⟩ ⟨{}, 0⟩, .push [] child, .tick [] ⟨1, 0.5⟩ ⟨{}, 1⟩]
    n.children.map status = [some .success, some .running, some .success] ∧
      (n.get? [0, 0]).map status = some (some .running) ∧
      n.reset.withoutStores = (errands.push child).withoutStores ∧
      n.reset.stores = n.stores ∧ n.stores.map (·.2) = [1] ∧
      ∃ h p, n.ByColumns h ⟨.requireAll, .requireOne⟩ p ∧
        p.slots = [.success, .running, .success] ∧ p.children.length = 3 := by
  intro child n
  have hchild : child.Fresh := fresh_action _ _
  have hn : n.get? [] = some n := rfl
  obtain ⟨⟨b, hb, -, hreset⟩, -, hstores, -, -, hcolumns⟩ :=
    reset_eq_built fresh_errands (by simpa [Change.Pushes] using hchild) hn
  cases hb
  refine ⟨by decide, by decide, hreset, hstores, by decide, ?_⟩
  have hblueprint : n.blueprint = .parallel "Parallel" ⟨.requireAll, .requireOne⟩ := rfl
  obtain ⟨status, stalled, ls, hparallel⟩ := exists_parallel_of_blueprint hblueprint
  obtain ⟨⟨p, hp⟩, -⟩ := hcolumns _ _ _ _ hparallel
  have hslots : p.slots = [.success, .running, .success] := by
    rw [← slots_toNode hp.aligned _ _, ← hp.node]
    decide
  exact ⟨_, p, hp, hslots, by rw [← hp.aligned, hslots]; rfl⟩

end Node

end BehaviorTree
