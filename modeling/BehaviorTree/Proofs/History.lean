import BehaviorTree.Proofs.Blueprint

/-!
# Histories

What can happen to a node once it is built: ticks at any moment in any world, resets, and
fresh children pushed to composites and parallels, each at any position. A property that
no such change takes from a single node is kept everywhere by every history.
-/

namespace BehaviorTree

variable {ω : Type}

inductive Change (ω : Type) where
  | tick (path : List Nat) (m : Moment) (w : World ω)
  | reset (path : List Nat)
  | push (path : List Nat) (child : Node ω)

namespace Change

def apply : Change ω → Node ω → Node ω
  | tick path m w, n => n.update (fun s => (Node.tick m s w).state) path
  | reset path, n => n.update Node.reset path
  | push path child, n => n.update (fun s => s.push child) path

def Pushes (P : Node ω → Prop) : Change ω → Prop
  | push _ child => P child
  | _ => True

theorem Pushes.imp {P Q : Node ω → Prop} {c : Change ω} (h : c.Pushes P) (hPQ : ∀ n, P n → Q n) :
    c.Pushes Q := by
  cases c with
  | push => exact hPQ _ h
  | _ => trivial

end Change

namespace Node

def after (n : Node ω) (changes : List (Change ω)) : Node ω :=
  changes.foldl (fun n c => c.apply n) n

/-- A property of a node by itself, not of its children, that no change takes away. -/
structure Lasting (P : Node ω → Prop) : Prop where
  reset : ∀ n : Node ω, P n → P n.reset
  tick : ∀ (m : Moment) (n : Node ω) (w : World ω), P n → P (tick m n w).state
  push : ∀ n child : Node ω, P n → P (n.push child)
  withChildren : ∀ (n : Node ω) (cs : List (Node ω)), cs.length = n.children.length → P n →
    P (n.withChildren cs)

theorem lasting_blueprint (Q : Blueprint ω → Prop) : Lasting fun n : Node ω => Q n.blueprint where
  reset n h := by rwa [blueprint_reset]
  tick m n w h := by rwa [blueprint_tick]
  push n child h := by rwa [blueprint_push]
  withChildren n cs _ h := by rwa [blueprint_withChildren]

theorem mem_children_push {n child c : Node ω} (h : c ∈ (n.push child).children) :
    c ∈ n.children ∨ c = child := by
  cases n with
  | composite | parallel => simpa [push, children, or_comm] using h
  | _ => exact .inl h

namespace Everywhere

variable {P : Node ω → Prop} {n : Node ω}

theorem push (hpush : ∀ n child : Node ω, P n → P (n.push child)) (h : n.Everywhere P)
    {child : Node ω} (hchild : child.Everywhere P) : (n.push child).Everywhere P := by
  refine .intro (hpush n child h.here) ?_
  intro c hc
  rcases mem_children_push hc with hc | rfl
  · exact h.children c hc
  · exact hchild

theorem apply (hP : Lasting P) (h : n.Everywhere P) {c : Change ω}
    (hc : c.Pushes (Everywhere P)) : (c.apply n).Everywhere P := by
  cases c with
  | tick path m w => exact h.update hP.withChildren (fun s hs => hs.tick hP.reset hP.tick m w) path
  | reset path => exact h.update hP.withChildren (fun s hs => hs.reset hP.reset) path
  | push path child => exact h.update hP.withChildren (fun s hs => hs.push hP.push hc) path

theorem after (hP : Lasting P) (h : n.Everywhere P) {changes : List (Change ω)}
    (hc : ∀ c ∈ changes, c.Pushes (Everywhere P)) : (n.after changes).Everywhere P := by
  induction changes generalizing n with
  | nil => exact h
  | cons c cs ih =>
    obtain ⟨hc, hcs⟩ := List.forall_mem_cons.mp hc
    exact ih (h.apply hP hc) hcs

end Everywhere

end Node

end BehaviorTree
