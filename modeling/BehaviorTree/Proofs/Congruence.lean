import BehaviorTree.Proofs.Bisimulation

/-!
# Behavioural equivalence in context

Two nodes over one host behave alike when they are bisimilar for equality of hosts. Behaving
alike is a congruence: putting a node in place of one that behaves alike, at any position of
any tree, gives a tree that behaves alike. Recorded answers have no influence on behaviour,
so a reset of a settled node changes nothing that can be observed.
-/

namespace BehaviorTree

variable {ω κ : Type}

/-- What a tick reads of a node by itself: its continuation state and what construction fixes,
without names and without the store of a shared nested tree. -/
inductive Form (ω : Type) where
  | condition (test : Option (Predicate ω))
  | action (run : Option (Action ω))
  | decorator (kind : Decorator)
  | composite (order : Order) (cursor : Cursor)
  | parallel (quorums : Quorums) (stalled : Bool) (slots : List Status)
  | subtree (scope : Scope) (report : Report) (own : Option Blackboard)

inductive Form.Match (H : ω → κ → Prop) : Form ω → Form κ → Prop
  | condition {test : Option (Predicate ω)} {test' : Option (Predicate κ)}
    (htest : Option.Rel (Predicate.Match H) test test') :
    Match H (.condition test) (.condition test')
  | action {run : Option (Action ω)} {run' : Option (Action κ)}
    (hrun : Option.Rel (Action.Match H) run run') : Match H (.action run) (.action run')
  | decorator (kind : Decorator) : Match H (.decorator kind) (.decorator kind)
  | composite (order : Order) (cursor : Cursor) :
    Match H (.composite order cursor) (.composite order cursor)
  | parallel (quorums : Quorums) (stalled : Bool) (slots : List Status) :
    Match H (.parallel quorums stalled slots) (.parallel quorums stalled slots)
  | subtree (scope : Scope) (report : Report) (own : Option Blackboard) :
    Match H (.subtree scope report own) (.subtree scope report own)

theorem World.Match.eq {w w' : World ω} (h : w.Match Eq w') : w = w' := by
  obtain ⟨blackboard, host⟩ := w
  obtain ⟨rfl, rfl⟩ := h
  rfl

theorem optionRel_of_forall₂ {α β : Type} {R : α → β → Prop} {a : Option α} {b : Option β}
    (h : List.Forall₂ R a.toList b.toList) : Option.Rel R a b := by
  cases a with
  | none =>
    cases b with
    | none => exact .none
    | some b => cases h
  | some a =>
    cases b with
    | none => cases h
    | some b =>
      cases h with
      | cons hab _ => exact .some hab

theorem Lane.match_of_slots {ν μ : Type} {R : ν → μ → Prop} {ls : List (Lane ν)}
    {ls' : List (Lane μ)} (hslots : ls.map (·.slot) = ls'.map (·.slot))
    (hnodes : List.Forall₂ R (ls.map (·.node)) (ls'.map (·.node))) :
    List.Forall₂ (Lane.Match R) ls ls' := by
  induction ls generalizing ls' with
  | nil =>
    obtain rfl : ls' = [] := by simpa using hslots.symm
    exact .nil
  | cons l ls ih =>
    cases ls' with
    | nil => cases hslots
    | cons l' ls' =>
      obtain ⟨hslot, hslots⟩ := List.cons.inj hslots
      cases hnodes with
      | cons hnode hnodes => exact .cons ⟨hslot, hnode⟩ (ih hslots hnodes)

theorem Form.Match.parallel_eq {H : ω → κ → Prop} {q q' : Quorums} {stalled stalled' : Bool}
    {slots slots' : List Status}
    (h : Form.Match H (.parallel q stalled slots) (.parallel q' stalled' slots')) :
    q = q' ∧ stalled = stalled' ∧ slots = slots' := by
  cases h
  exact ⟨rfl, rfl, rfl⟩

theorem Form.Match.subtree_eq {H : ω → κ → Prop} {s s' : Scope} {r r' : Report}
    {own own' : Option Blackboard} (h : Form.Match H (.subtree s r own) (.subtree s' r' own')) :
    s = s' ∧ r = r' ∧ own = own' := by
  cases h
  exact ⟨rfl, rfl, rfl⟩

theorem Form.match_self (f : Form ω) : f.Match Eq f := by
  cases f with
  | condition test =>
    refine .condition ?_
    cases test with
    | none => exact .none
    | some p =>
      refine .some ?_
      intro w w' hw
      rw [hw.eq]
      exact ⟨rfl, rfl⟩
  | action run =>
    refine .action ?_
    cases run with
    | none => exact .none
    | some a =>
      refine .some ?_
      intro seconds w w' hw
      rw [hw.eq]
      exact ⟨rfl, rfl, rfl⟩
  | decorator kind => exact .decorator kind
  | composite order cursor => exact .composite order cursor
  | parallel q stalled slots => exact .parallel q stalled slots
  | subtree scope report own => exact .subtree scope report own

namespace Node

def form : Node ω → Form ω
  | condition _ test => .condition test
  | action _ run => .action run
  | decorator _ kind _ => .decorator kind
  | composite _ order cursor _ => .composite order cursor
  | parallel _ quorums stalled lanes => .parallel quorums stalled (lanes.map (·.slot))
  | subtree _ scope report t =>
    .subtree scope report (if scope = .isolated then some t.blackboard else none)

def Alike (n n' : Node ω) : Prop := Bisimilar Eq n n'

theorem Alike.symm {n n' : Node ω} (h : n.Alike n') : n'.Alike n := Bisimilar.symm h

theorem Alike.trans {n n' n'' : Node ω} (h : n.Alike n') (h' : n'.Alike n'') : n.Alike n'' := by
  have hcomp := Bisimilar.trans h h'
  rwa [Relation.eq_comp] at hcomp

theorem Alike.reset {n n' : Node ω} (h : n.Alike n') : n.reset.Alike n'.reset :=
  (isBisimulation_bisimilar Eq).reset h

theorem SameForm.of_form {H : ω → κ → Prop} {R : Node ω → Node κ → Prop} {n : Node ω}
    {n' : Node κ} (hform : n.form.Match H n'.form)
    (hchildren : List.Forall₂ R n.children n'.children) : SameForm H R n n' := by
  cases n with
  | condition h test =>
    cases n' with
    | condition h' test' =>
      cases hform with
      | condition htest => exact .condition h h' htest
    | _ => cases hform
  | action h run =>
    cases n' with
    | action h' run' =>
      cases hform with
      | action hrun => exact .action h h' hrun
    | _ => cases hform
  | decorator h kind c =>
    cases n' with
    | decorator h' kind' c' =>
      cases hform
      exact .decorator h h' kind (optionRel_of_forall₂ hchildren)
    | _ => cases hform
  | composite h order cursor cs =>
    cases n' with
    | composite h' order' cursor' cs' =>
      cases hform
      exact .composite h h' order cursor hchildren
    | _ => cases hform
  | parallel h q stalled ls =>
    cases n' with
    | parallel h' q' stalled' ls' =>
      obtain ⟨rfl, rfl, hslots⟩ := hform.parallel_eq
      exact .parallel h h' q stalled (Lane.match_of_slots hslots hchildren)
    | _ => cases hform
  | subtree h scope report t =>
    cases n' with
    | subtree h' scope' report' t' =>
      obtain ⟨rfl, rfl, hown⟩ := hform.subtree_eq
      refine .subtree h h' scope report (optionRel_of_forall₂ hchildren) ?_
      rintro rfl
      simpa using hown
    | _ => cases hform

/-- Nodes of the same form whose children behave alike behave alike. -/
theorem Alike.of_form_eq {n n' : Node ω} (hform : n.form = n'.form)
    (hchildren : List.Forall₂ Alike n.children n'.children) : n.Alike n' := by
  have hmatch : n.form.Match Eq n'.form := hform ▸ n.form.match_self
  exact (SameForm.of_form hmatch hchildren).bisimilar

theorem Alike.refl (n : Node ω) : n.Alike n := by
  induction n using childInduction with
  | _ n ih => exact .of_form_eq rfl (List.forall₂_same.mpr ih)

theorem form_withChildren (n : Node ω) {cs : List (Node ω)} (h : cs.length = n.children.length) :
    (n.withChildren cs).form = n.form := by
  cases n with
  | parallel _ _ _ ls =>
    simp only [children, List.length_map] at h
    apply congrArg (Form.parallel _ _)
    exact List.ext_getElem (by simp [h]) (by simp)
  | _ => rfl

/-- A node behaves as before when children of it are replaced by ones that behave alike. -/
theorem Alike.withChildren {n : Node ω} {cs : List (Node ω)}
    (h : List.Forall₂ Alike cs n.children) : (n.withChildren cs).Alike n := by
  refine .of_form_eq (form_withChildren n h.length_eq) ?_
  rwa [children_withChildren h.length_eq]

theorem Alike.update {f : Node ω → Node ω} {n s : Node ω} {path : List Nat}
    (hs : n.get? path = some s) (hf : (f s).Alike s) : (n.update f path).Alike n := by
  induction path generalizing n with
  | nil =>
    cases hs
    exact hf
  | cons i path ih =>
    obtain ⟨c, hc, hcs⟩ := Option.bind_eq_some_iff.mp hs
    refine Alike.withChildren (List.forall₂_iff_get.mpr ⟨by simp, ?_⟩)
    intro j hj hj'
    simp only [List.get_eq_getElem, List.getElem_modify]
    split
    · next hij =>
      subst hij
      obtain ⟨_, rfl⟩ := List.getElem?_eq_some_iff.mp hc
      exact ih hcs
    · exact Alike.refl _

theorem form_reset {n : Node ω} (h : n.SettledHere) : n.reset.form = n.form := by
  cases n with
  | condition | action => rfl
  | decorator _ kind _ => exact congrArg Form.decorator (Decorator.AtStart.rewind_eq h)
  | composite _ order cursor _ => exact congrArg (Form.composite order) (Cursor.rewind_eq h)
  | parallel _ _ stalled ls =>
    obtain ⟨rfl, hslots⟩ := h
    simpa [reset, form, resetLanes_eq_map] using fun l hl => (hslots l hl).symm
  | subtree => simp [reset, form, resetTree_eq]

/-- A reset of a settled node clears recorded answers only, which no tick reads. -/
theorem Settled.alike_reset {n : Node ω} (h : n.Settled) : n.reset.Alike n := by
  induction n using childInduction with
  | _ n ih =>
    obtain ⟨hhere, hchildren⟩ := settled_iff.mp h
    refine .of_form_eq (form_reset hhere) ?_
    rw [children_reset, List.forall₂_map_left_iff]
    exact List.forall₂_same.mpr fun c hc => ih c hc (hchildren c hc)

end Node

end BehaviorTree
