import BehaviorTree.Proofs.Congruence
import BehaviorTree.Proofs.Settled

/-!
# How composites end

A composite that finishes leaves children that behave as after a reset, whether it resets them or
not. A composite with memory always resets them. One that walks from the first child may leave
them alone, but then each of them has just finished and settled itself.
-/

namespace BehaviorTree

variable {ω : Type}

@[simp] theorem Cursor.after_eq_restart {cursor : Cursor} {answer : Option (Nat × Status)} :
    cursor.after answer = .restart ↔ cursor = .restart := by
  unfold Cursor.after
  split <;> cases cursor <;> simp [Cursor.rewind, Cursor.moveTo]

theorem Order.clears_of_running {order : Order} {cursor : Cursor} {answer : Option (Nat × Status)}
    (h : ¬ (order.conclude answer).isTerminal = true) : order.clears cursor answer = false := by
  cases answer with
  | none => cases order <;> simp [Order.conclude, Order.pass, Status.isTerminal] at h
  | some a => simpa [Order.clears, Order.conclude] using h

namespace Node

/-- Whenever the node finishes, in this state or a later one, it is settled. -/
structure Settler (n : Node ω) : Prop where
  forwards : n.Everywhere Forwards
  settledWhenEmpty : n.Everywhere SettledWhenEmpty

namespace Settler

variable {m : Moment} {n n' : Node ω}

theorem of_fresh (h : n.Fresh) (hforwards : n.Everywhere Forwards) : n.Settler :=
  ⟨hforwards, h.settledWhenEmpty⟩

theorem settlesAt (h : n.Settler) (m : Moment) : n.SettlesAt m :=
  Node.settlesAt h.forwards h.settledWhenEmpty m

theorem reset (h : n.Settler) : n.reset.Settler where
  forwards := h.forwards.reset lasting_forwards.reset
  settledWhenEmpty := h.settledWhenEmpty.reset lasting_settledWhenEmpty.reset

theorem tick (h : n.Settler) (m : Moment) (w : World ω) : (tick m n w).state.Settler where
  forwards := h.forwards.tick lasting_forwards.reset lasting_forwards.tick m w
  settledWhenEmpty :=
    h.settledWhenEmpty.tick lasting_settledWhenEmpty.reset lasting_settledWhenEmpty.tick m w

theorem successor (h : n.Settler) (hn : Successor m n n') : n'.Settler := by
  induction hn with
  | kept => exact h
  | ticked w => exact h.tick m w
  | reset _ ih => exact ih.reset

theorem children_tick (h : ∀ c ∈ n.children, c.Settler) (m : Moment) (w : World ω) :
    ∀ c ∈ (Node.tick m n w).state.children, c.Settler := by
  intro c hc
  obtain ⟨d, hd, hdc⟩ := exists_of_mem_forall₂ (successor_children m n w) hc
  exact (h d hd).successor hdc

theorem children_reset (h : ∀ c ∈ n.children, c.Settler) : ∀ c ∈ n.reset.children, c.Settler := by
  intro c hc
  rw [Node.children_reset] at hc
  obtain ⟨d, hd, rfl⟩ := List.mem_map.mp hc
  exact (h d hd).reset

end Settler

instance : Std.Refl (Alike (ω := ω)) := ⟨Alike.refl⟩

theorem forall₂_alike_trans {as bs cs : List (Node ω)} (h : List.Forall₂ Alike as bs)
    (h' : List.Forall₂ Alike bs cs) : List.Forall₂ Alike as cs := by
  induction h generalizing cs with
  | nil => exact h'
  | cons hab _ ih =>
    cases h' with
    | cons hbc hrest => exact .cons (hab.trans hbc) (ih hrest)

theorem forall₂_alike_symm {as bs : List (Node ω)} (h : List.Forall₂ Alike as bs) :
    List.Forall₂ Alike bs as := (h.imp fun _ _ hab => hab.symm).flip

theorem forall₂_alike_resetAll {as bs : List (Node ω)} (h : List.Forall₂ Alike as bs) :
    List.Forall₂ Alike (resetAll as) (resetAll bs) :=
  (isBisimulation_bisimilar Eq).resetAll h

theorem alike_composite (h h' : Head) (order : Order) (cursor : Cursor) {cs cs' : List (Node ω)}
    (hcs : List.Forall₂ Alike cs cs') :
    (composite h order cursor cs).Alike (composite h' order cursor cs') :=
  .of_form_eq rfl hcs

def kept (order : Order) (cursor : Cursor)
    (c : Step (Option (Nat × Status)) (List (Node ω)) (World ω)) : List (Node ω) :=
  if order.clears cursor c.answer then resetAll c.state else c.state

theorem alike_kept_of_finished {m : Moment} {order : Order} (cursor : Cursor)
    {cs : List (Node ω)} {w : World ω} (hcs : cursor = .restart → ∀ c ∈ cs, c.Settler)
    (hdone : (order.conclude (walk m order.pass cursor.start 0 cs w).answer).isTerminal = true) :
    List.Forall₂ Alike (kept order cursor (walk m order.pass cursor.start 0 cs w))
      (resetAll (walk m order.pass cursor.start 0 cs w).state) := by
  unfold kept
  split
  · exact List.forall₂_refl _
  · next hclears =>
    obtain ⟨hnone, rfl, rfl⟩ := Order.of_not_clears hdone hclears
    rw [resetAll_eq_map, List.forall₂_map_right_iff]
    apply List.forall₂_same.mpr
    intro c' hc'
    -- All children have failed in this very walk.
    obtain ⟨c, hc, v, hpass, rfl⟩ := walk_eq_none hnone c' hc'
    have hsettled : (tick m c v).state.Settled :=
      (hcs rfl c hc).settlesAt m v (by rw [hpass]; rfl)
    exact hsettled.alike_reset.symm

end Node

end BehaviorTree
