import BehaviorTree.Node.Reset
import BehaviorTree.Proofs.Descendants

/-!
# Settled and fresh nodes

A node is settled when no continuation state is left in it or below it: cursors,
counters and clocks are at their initial values and every lane of a parallel is open.
It is fresh when, moreover, no answer is recorded anywhere. Fresh nodes are what
construction gives, what a reset gives, and exactly what a reset leaves alone.
-/

namespace BehaviorTree

variable {ω : Type}

def Decorator.AtStart : Decorator → Prop
  | .inverter | .succeeder => True
  | .repeater _ completed => completed = 0
  | .timer _ elapsed => elapsed = 0

theorem Decorator.atStart_rewind (d : Decorator) : d.rewind.AtStart := by
  cases d <;> trivial

theorem Decorator.AtStart.rewind_eq {d : Decorator} (h : d.AtStart) : d.rewind = d := by
  cases d with
  | inverter | succeeder => rfl
  | repeater _ completed =>
    cases h
    rfl
  | timer _ elapsed =>
    cases h
    rfl

@[simp] theorem Cursor.start_rewind (c : Cursor) : c.rewind.start = 0 := by cases c <;> rfl

theorem Cursor.rewind_eq {c : Cursor} (h : c.start = 0) : c.rewind = c := by
  cases c with
  | restart => rfl
  | resume index =>
    cases h
    rfl

namespace Node

/-- The node's own continuation state is as construction left it. -/
def SettledHere : Node ω → Prop
  | condition .. | action .. | subtree .. => True
  | decorator _ kind _ => kind.AtStart
  | composite _ _ cursor _ => cursor.start = 0
  | parallel _ _ stalled lanes => stalled = false ∧ ∀ l ∈ lanes, l.slot = .running

def Unanswered : Node ω → Prop
  | subtree h _ _ tree => h.status = none ∧ tree.last = none
  | n => n.status = none

def Settled (n : Node ω) : Prop := n.Everywhere SettledHere

def Fresh (n : Node ω) : Prop := n.Everywhere fun s => s.SettledHere ∧ s.Unanswered

theorem settled_iff {n : Node ω} : n.Settled ↔ n.SettledHere ∧ ∀ c ∈ n.children, c.Settled :=
  everywhere_iff

theorem fresh_iff {n : Node ω} :
    n.Fresh ↔ (n.SettledHere ∧ n.Unanswered) ∧ ∀ c ∈ n.children, c.Fresh :=
  everywhere_iff

theorem Fresh.settled {n : Node ω} (h : n.Fresh) : n.Settled := h.imp fun _ hs => hs.1

theorem Unanswered.status_eq {n : Node ω} (h : n.Unanswered) : n.status = none := by
  cases n with
  | subtree => exact h.1
  | _ => exact h

theorem Fresh.status_eq {n : Node ω} (h : n.Fresh) : n.status = none := h.here.2.status_eq

/-! ## Construction -/

theorem fresh_condition (name : String) (test : Option (Predicate ω)) :
    (condition ⟨name, none⟩ test).Fresh :=
  fresh_iff.mpr ⟨⟨trivial, rfl⟩, by simp [children]⟩

theorem fresh_action (name : String) (run : Option (Action ω)) : (action ⟨name, none⟩ run).Fresh :=
  fresh_iff.mpr ⟨⟨trivial, rfl⟩, by simp [children]⟩

theorem fresh_decorate (kind : Decorator) {child : Option (Node ω)} (h : ∀ c ∈ child, c.Fresh) :
    (decorate kind child).Fresh :=
  fresh_iff.mpr ⟨⟨kind.atStart_rewind, rfl⟩, by simpa [children, decorate] using h⟩

theorem fresh_compose (order : Order) (memory : Bool) {cs : List (Node ω)}
    (h : ∀ c ∈ cs, c.Fresh) : (compose order memory cs).Fresh :=
  fresh_iff.mpr ⟨⟨by cases memory <;> rfl, rfl⟩, h⟩

theorem fresh_abreast (quorums : Quorums) {cs : List (Node ω)} (h : ∀ c ∈ cs, c.Fresh) :
    (abreast quorums cs).Fresh :=
  fresh_iff.mpr ⟨⟨⟨rfl, by simp⟩, rfl⟩, by simpa [children, abreast] using h⟩

theorem fresh_embed (scope : Scope) (report : Report) {tree : Tree ω} (hlast : tree.last = none)
    (h : ∀ r ∈ tree.root, r.Fresh) : (embed scope report tree).Fresh :=
  fresh_iff.mpr ⟨⟨trivial, rfl, hlast⟩, by simpa [children, embed] using h⟩

/-! ## Reset -/

theorem resetTree_eq (t : Tree ω) :
    resetTree t = { t with root := t.root.map reset, last := none } := by
  obtain ⟨root, _, _, _, _⟩ := t
  rw [resetTree, resetChild_eq_map]

@[simp] theorem children_reset (n : Node ω) : n.reset.children = n.children.map reset := by
  cases n with
  | condition | action => rfl
  | decorator _ _ c => cases c <;> rfl
  | composite => simp [children, reset, resetAll_eq_map]
  | parallel => simp [children, reset, resetLanes_eq_map]
  | subtree _ _ _ t => simp [children, reset, resetTree_eq, Option.toList_map]

theorem settledHere_reset (n : Node ω) : n.reset.SettledHere := by
  cases n with
  | condition | action | subtree => trivial
  | decorator _ kind _ => exact kind.atStart_rewind
  | composite _ _ cursor _ => exact cursor.start_rewind
  | parallel => exact ⟨rfl, by simp [resetLanes_eq_map]⟩

theorem unanswered_reset (n : Node ω) : n.reset.Unanswered := by
  cases n with
  | subtree _ _ _ t => exact ⟨rfl, by rw [resetTree_eq]⟩
  | _ => rfl

theorem fresh_reset (n : Node ω) : n.reset.Fresh := by
  induction n using childInduction with
  | _ n ih =>
    refine fresh_iff.mpr ⟨⟨n.settledHere_reset, n.unanswered_reset⟩, ?_⟩
    intro c hc
    rw [children_reset] at hc
    obtain ⟨d, hd, rfl⟩ := List.mem_map.mp hc
    exact ih d hd

theorem Fresh.reset_eq {n : Node ω} (h : n.Fresh) : n.reset = n := by
  induction n using childInduction with
  | _ n ih =>
    obtain ⟨⟨hsettled, hanswer⟩, hchildren⟩ := fresh_iff.mp h
    have hkept : ∀ c ∈ n.children, c.reset = c := fun c hc => ih c hc (hchildren c hc)
    have hhead : n.head.clear = n.head := by
      have hstatus := hanswer.status_eq
      simp only [status] at hstatus
      simp [Head.clear, ← hstatus]
    cases n with
    | condition | action =>
      simp only [head] at hhead
      simp [reset, hhead]
    | decorator _ _ c =>
      simp only [head] at hhead
      rw [reset, hhead, Decorator.AtStart.rewind_eq hsettled]
      cases c with
      | none => rfl
      | some c => simp [resetChild, hkept c (by simp [children])]
    | composite _ _ _ cs =>
      simp only [head] at hhead
      have hcs : cs.map reset = cs := (List.map_congr_left hkept).trans (List.map_id cs)
      rw [reset, hhead, Cursor.rewind_eq hsettled, resetAll_eq_map, hcs]
    | parallel _ _ _ ls =>
      simp only [head] at hhead
      obtain ⟨rfl, hslots⟩ := hsettled
      have hlanes : ∀ l ∈ ls, (⟨.running, l.node.reset⟩ : Lane (Node ω)) = l := by
        intro l hl
        rw [hkept l.node (List.mem_map_of_mem hl), ← hslots l hl]
      have hls : ls.map (fun l => (⟨.running, l.node.reset⟩ : Lane (Node ω))) = ls :=
        (List.map_congr_left hlanes).trans (List.map_id ls)
      rw [reset, hhead, resetLanes_eq_map, hls]
    | subtree _ _ _ t =>
      simp only [head] at hhead
      have hlast : t.last = none := hanswer.2
      have hroot : t.root.map reset = t.root := by
        cases hr : t.root with
        | none => rfl
        | some r => simp [hkept r (by simp [children, hr])]
      rw [reset, hhead, resetTree_eq, hroot, ← hlast]

theorem fresh_iff_reset_eq {n : Node ω} : n.Fresh ↔ n.reset = n :=
  ⟨Fresh.reset_eq, fun h => h ▸ fresh_reset n⟩

@[simp] theorem reset_reset (n : Node ω) : n.reset.reset = n.reset := (fresh_reset n).reset_eq

end Node

end BehaviorTree
