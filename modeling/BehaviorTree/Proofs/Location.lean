import BehaviorTree.Proofs.Cancellation
import BehaviorTree.Proofs.Recording

/-!
# Located calls

A tree whose bound leaves write down, besides each call of their closure, the position at which
they stand. Positions are compared as lists of numbers, an initial segment before its
extensions: this is the order in which the nodes of a tree are listed, parents first and
children from left to right, across nested trees.
-/

namespace BehaviorTree

variable {ω : Type}

abbrev Located (ω : Type) := ω × List (List Nat × Call ω)

def World.bare (w : World (Located ω)) : World ω := ⟨w.blackboard, w.host.1⟩

def Predicate.located (place : List Nat) (leaf : String) (p : Predicate ω) :
    Predicate (Located ω) := fun w =>
  ((p w.bare).1, ((p w.bare).2, w.host.2 ++ [(place, .test leaf p w.bare)]))

def Action.located (place : List Nat) (leaf : String) (a : Action ω) : Action (Located ω) :=
  fun seconds w =>
    let s := a seconds w.bare
    (s.1, ⟨s.2.blackboard, (s.2.host, w.host.2 ++ [(place, .run leaf a seconds w.bare)])⟩)

namespace Node

mutual

def located (place : List Nat) : Node ω → Node (Located ω)
  | condition h t => condition h (t.map (Predicate.located place h.name))
  | action h r => action h (r.map (Action.located place h.name))
  | decorator h k c => decorator h k (locatedChild place c)
  | composite h o c cs => composite h o c (locatedAll place 0 cs)
  | parallel h q s ls => parallel h q s (locatedLanes place 0 ls)
  | subtree h s r t => subtree h s r (locatedTree place t)

def locatedChild (place : List Nat) : Option (Node ω) → Option (Node (Located ω))
  | none => none
  | some n => some (n.located (place ++ [0]))

def locatedAll (place : List Nat) (index : Nat) : List (Node ω) → List (Node (Located ω))
  | [] => []
  | n :: ns => n.located (place ++ [index]) :: locatedAll place (index + 1) ns

def locatedLanes (place : List Nat) (index : Nat) :
    List (Lane (Node ω)) → List (Lane (Node (Located ω)))
  | [] => []
  | ⟨slot, n⟩ :: ls => ⟨slot, n.located (place ++ [index])⟩ :: locatedLanes place (index + 1) ls

def locatedTree (place : List Nat) : Tree ω → Tree (Located ω)
  | ⟨root, last, channel, blackboard, ticks⟩ =>
    ⟨locatedChild place root, last, channel, blackboard, ticks⟩

end

end Node

def Tree.located (place : List Nat) (t : Tree ω) : Tree (Located ω) :=
  { root := t.root.map (Node.located place), last := t.last, channel := t.channel,
    blackboard := t.blackboard, ticks := t.ticks }

namespace Node

theorem locatedTree_eq (place : List Nat) (t : Tree ω) :
    locatedTree place t = Tree.located (place ++ [0]) t := by
  obtain ⟨root, _, _, _, _⟩ := t
  cases root <;> rfl

@[simp] theorem head_located (place : List Nat) (n : Node ω) : (n.located place).head = n.head := by
  cases n <;> rfl

@[simp] theorem name_located (place : List Nat) (n : Node ω) : (n.located place).name = n.name := by
  rw [name, head_located, name]

theorem map_node_locatedLanes (place : List Nat) (index : Nat) (ls : List (Lane (Node ω))) :
    (locatedLanes place index ls).map (·.node) = locatedAll place index (ls.map (·.node)) := by
  induction ls generalizing index with
  | nil => rfl
  | cons l ls ih => rw [locatedLanes, List.map_cons, List.map_cons, locatedAll, ih]

theorem children_located (place : List Nat) (n : Node ω) :
    (n.located place).children = locatedAll place 0 n.children := by
  cases n with
  | condition | action | composite => rfl
  | decorator _ _ c => cases c <;> rfl
  | parallel => exact map_node_locatedLanes place 0 _
  | subtree _ _ _ t =>
    obtain ⟨root, _, _, _, _⟩ := t
    cases root <;> rfl

theorem map_locatedAll {f : Node ω → Node ω} {g : Node (Located ω) → Node (Located ω)}
    {ns : List (Node ω)} (h : ∀ n ∈ ns, ∀ place, g (n.located place) = (f n).located place)
    (place : List Nat) (index : Nat) :
    (locatedAll place index ns).map g = locatedAll place index (ns.map f) := by
  induction ns generalizing index with
  | nil => rfl
  | cons n ns ih =>
    obtain ⟨hn, hns⟩ := List.forall_mem_cons.mp h
    rw [locatedAll, List.map_cons, List.map_cons, locatedAll, hn, ih hns]

theorem map_locatedLanes (s : Status → Status) {f : Node ω → Node ω}
    {g : Node (Located ω) → Node (Located ω)} {ls : List (Lane (Node ω))}
    (h : ∀ n ∈ ls.map (·.node), ∀ place, g (n.located place) = (f n).located place)
    (place : List Nat) (index : Nat) :
    ((locatedLanes place index ls).map fun l => ⟨s l.slot, g l.node⟩) =
      locatedLanes place index (ls.map fun l => ⟨s l.slot, f l.node⟩) := by
  induction ls generalizing index with
  | nil => rfl
  | cons l ls ih =>
    obtain ⟨hl, hls⟩ := List.forall_mem_cons.mp h
    rw [locatedLanes, List.map_cons, List.map_cons, locatedLanes, hl, ih hls]

/-! ## Resets -/

theorem resetAll_locatedAll {ns : List (Node ω)}
    (h : ∀ n ∈ ns, ∀ place, (n.located place).reset = n.reset.located place) (place : List Nat)
    (index : Nat) : resetAll (locatedAll place index ns) = locatedAll place index (resetAll ns) := by
  rw [resetAll_eq_map, resetAll_eq_map]
  exact map_locatedAll h place index

theorem resetLanes_locatedLanes {ls : List (Lane (Node ω))}
    (h : ∀ n ∈ ls.map (·.node), ∀ place, (n.located place).reset = n.reset.located place)
    (place : List Nat) (index : Nat) :
    resetLanes (locatedLanes place index ls) = locatedLanes place index (resetLanes ls) := by
  rw [resetLanes_eq_map, resetLanes_eq_map]
  exact map_locatedLanes (fun _ => .running) h place index

theorem reset_located (place : List Nat) (n : Node ω) :
    (n.located place).reset = n.reset.located place := by
  induction n using childInduction generalizing place with
  | _ n ih =>
    cases n with
    | condition | action => rfl
    | decorator h k c =>
      cases c with
      | none => rfl
      | some c =>
        have hc := ih c (by simp [children]) (place ++ [0])
        simp only [located, locatedChild, reset, resetChild, hc]
    | composite h o c cs =>
      have hcs := resetAll_locatedAll (fun n hn => ih n hn) place 0
      exact congrArg (composite h.clear o c.rewind) hcs
    | parallel h q s ls =>
      have hls := resetLanes_locatedLanes (fun n hn => ih n hn) place 0
      exact congrArg (parallel h.clear q false) hls
    | subtree h s r t =>
      obtain ⟨root, _, _, _, _⟩ := t
      cases root with
      | none => rfl
      | some root =>
        have hroot := ih root (by simp [children]) (place ++ [0])
        simp only [located, locatedTree, locatedChild, reset, resetTree, resetChild, hroot]

theorem resetEvent_located (place : List Nat) (n : Node ω) :
    (n.located place).resetEvent = n.resetEvent := by
  cases n with
  | subtree => simp only [located, locatedTree_eq, Tree.located, resetEvent]
  | _ => rfl

theorem flatMap_locatedAll {β : Type} {f : Node (Located ω) → List β} {g : Node ω → List β}
    {ns : List (Node ω)} (h : ∀ n ∈ ns, ∀ place, f (n.located place) = g n) (place : List Nat)
    (index : Nat) : (locatedAll place index ns).flatMap f = ns.flatMap g := by
  induction ns generalizing index with
  | nil => rfl
  | cons n ns ih =>
    obtain ⟨hn, hns⟩ := List.forall_mem_cons.mp h
    rw [locatedAll, List.flatMap_cons, List.flatMap_cons, hn, ih hns]

theorem resetEmissions_located (place : List Nat) (n : Node ω) :
    (n.located place).resetEmissions = n.resetEmissions := by
  induction n using childInduction generalizing place with
  | _ n ih =>
    rw [resetEmissions_eq, resetEmissions_eq, children_located, resetEvent_located,
      flatMap_locatedAll ih]

/-! ## The order of positions -/

mutual

/-- The node at the given position and its descendants in evaluation order, each with its
position. -/
def placed (place : List Nat) : Node ω → List (List Nat × Node ω)
  | condition h t => [(place, condition h t)]
  | action h r => [(place, action h r)]
  | decorator h k c => (place, decorator h k c) :: placedChild place c
  | composite h o c cs => (place, composite h o c cs) :: placedAll place 0 cs
  | parallel h q s ls => (place, parallel h q s ls) :: placedLanes place 0 ls
  | subtree h s r t => (place, subtree h s r t) :: placedTree place t

def placedChild (place : List Nat) : Option (Node ω) → List (List Nat × Node ω)
  | none => []
  | some n => n.placed (place ++ [0])

def placedAll (place : List Nat) (index : Nat) : List (Node ω) → List (List Nat × Node ω)
  | [] => []
  | n :: ns => n.placed (place ++ [index]) ++ placedAll place (index + 1) ns

def placedLanes (place : List Nat) (index : Nat) :
    List (Lane (Node ω)) → List (List Nat × Node ω)
  | [] => []
  | ⟨_, n⟩ :: ls => n.placed (place ++ [index]) ++ placedLanes place (index + 1) ls

def placedTree (place : List Nat) : Tree ω → List (List Nat × Node ω)
  | ⟨root, _, _, _, _⟩ => placedChild place root

end

theorem placedLanes_eq (place : List Nat) (index : Nat) (ls : List (Lane (Node ω))) :
    placedLanes place index ls = placedAll place index (ls.map (·.node)) := by
  induction ls generalizing index with
  | nil => rfl
  | cons l ls ih => rw [placedLanes, List.map_cons, placedAll, ih]

theorem placedTree_eq (place : List Nat) (t : Tree ω) :
    placedTree place t = t.root.toList.flatMap (placed (place ++ [0])) := by
  obtain ⟨root, _, _, _, _⟩ := t
  cases root <;> simp [placedTree, placedChild]

theorem placed_eq (place : List Nat) (n : Node ω) :
    n.placed place = (place, n) :: placedAll place 0 n.children := by
  cases n with
  | condition | action => rfl
  | decorator _ _ c => cases c <;> simp [placed, placedChild, placedAll, children]
  | composite => rw [placed, children]
  | parallel => rw [placed, placedLanes_eq, children]
  | subtree _ _ _ t =>
    obtain ⟨root, _, _, _, _⟩ := t
    cases root <;> simp [placed, placedTree, placedChild, placedAll, children]

theorem flatMap_preorder_eq {place : List Nat} {ns : List (Node ω)}
    (h : ∀ n ∈ ns, ∀ place : List Nat,
      n.preorder place.length = (n.placed place).map fun x => (x.1.length, x.2)) (index : Nat) :
    ns.flatMap (preorder (place.length + 1)) =
      (placedAll place index ns).map fun x => (x.1.length, x.2) := by
  induction ns generalizing index with
  | nil => rfl
  | cons n ns ih =>
    obtain ⟨hn, hns⟩ := List.forall_mem_cons.mp h
    have hfirst := hn (place ++ [index])
    rw [List.length_append, List.length_singleton] at hfirst
    rw [List.flatMap_cons, placedAll, List.map_append, hfirst, ih hns (index + 1)]

/-- Listing the nodes with their positions is listing them with their depths. -/
theorem preorder_eq_map_placed (place : List Nat) (n : Node ω) :
    n.preorder place.length = (n.placed place).map fun x => (x.1.length, x.2) := by
  induction n using childInduction generalizing place with
  | _ n ih => rw [preorder_eq, placed_eq, List.map_cons, flatMap_preorder_eq ih 0]

theorem mem_placedAll_iff {place p : List Nat} {ns : List (Node ω)} {s : Node ω}
    (h : ∀ n ∈ ns, ∀ place, (p, s) ∈ n.placed place ↔
      ∃ path, p = place ++ path ∧ n.get? path = some s) (index : Nat) :
    (p, s) ∈ placedAll place index ns ↔
      ∃ i path, p = place ++ (index + i) :: path ∧ ns[i]?.bind (·.get? path) = some s := by
  induction ns generalizing index with
  | nil => simp [placedAll]
  | cons n ns ih =>
    obtain ⟨hn, hns⟩ := List.forall_mem_cons.mp h
    rw [placedAll, List.mem_append, hn, ih hns]
    constructor
    · rintro (⟨path, rfl, hpath⟩ | ⟨i, path, rfl, hpath⟩)
      · exact ⟨0, path, by simp, hpath⟩
      · exact ⟨i + 1, path, by rw [Nat.add_right_comm, Nat.add_assoc], hpath⟩
    · rintro ⟨i, path, rfl, hpath⟩
      cases i with
      | zero => exact .inl ⟨path, by simp, hpath⟩
      | succ i => exact .inr ⟨i, path, by rw [Nat.add_right_comm, Nat.add_assoc], hpath⟩

theorem mem_placed_iff {place p : List Nat} {n s : Node ω} :
    (p, s) ∈ n.placed place ↔ ∃ path, p = place ++ path ∧ n.get? path = some s := by
  induction n using childInduction generalizing place with
  | _ n ih =>
    rw [placed_eq, List.mem_cons, mem_placedAll_iff (fun c hc place => ih c hc) 0, Prod.mk.injEq]
    constructor
    · rintro (⟨rfl, rfl⟩ | ⟨i, path, rfl, hpath⟩)
      · exact ⟨[], by simp, rfl⟩
      · exact ⟨i :: path, by simp, hpath⟩
    · rintro ⟨path, rfl, hpath⟩
      cases path with
      | nil =>
        cases hpath
        exact .inl ⟨by simp, rfl⟩
      | cons i path => exact .inr ⟨i, path, by simp, hpath⟩

theorem placedAll_increasing {place : List Nat} {ns : List (Node ω)}
    (h : ∀ n ∈ ns, ∀ place, (n.placed place).Pairwise (·.1 < ·.1)) (index : Nat) :
    (placedAll place index ns).Pairwise (·.1 < ·.1) := by
  induction ns generalizing index with
  | nil => exact .nil
  | cons n ns ih =>
    obtain ⟨hn, hns⟩ := List.forall_mem_cons.mp h
    rw [placedAll, List.pairwise_append]
    refine ⟨hn _, ih hns _, ?_⟩
    rintro ⟨p, s⟩ hp ⟨q, t⟩ hq
    obtain ⟨path, rfl, -⟩ := mem_placed_iff.mp hp
    obtain ⟨i, path', rfl, -⟩ := (mem_placedAll_iff (fun _ _ _ => mem_placed_iff) _).mp hq
    rw [List.append_assoc]
    exact List.append_left_lt (List.Lex.rel (by omega))

theorem placed_increasing (place : List Nat) (n : Node ω) :
    (n.placed place).Pairwise (·.1 < ·.1) := by
  induction n using childInduction generalizing place with
  | _ n ih =>
    rw [placed_eq, List.pairwise_cons]
    refine ⟨?_, placedAll_increasing ih 0⟩
    rintro ⟨q, s⟩ hq
    obtain ⟨i, path, rfl, -⟩ := (mem_placedAll_iff (fun _ _ _ => mem_placed_iff) _).mp hq
    calc
      place = place ++ [] := (List.append_nil place).symm
      _ < place ++ (0 + i) :: path := List.append_left_lt List.Lex.nil

end Node

end BehaviorTree
