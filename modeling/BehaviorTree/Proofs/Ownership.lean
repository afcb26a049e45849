import BehaviorTree.Guard
import BehaviorTree.Proofs.Confinement
import BehaviorTree.Proofs.Precedence
import BehaviorTree.Proofs.Unfolding

/-!
# Who writes what on the guard's blackboard

The entries of the guard's blackboard have owners. Actions write its position, its next waypoint,
its count of attacks and its intent; sensing writes what it perceives of the player, and its health;
everything else is as the document says. This holds of every tree whose actions are the guard's.
-/

namespace BehaviorTree

variable {ω : Type}

theorem Registry.action?_withAction (r : Registry ω) (other name : String) (run : Action ω)
    (leaf : Position) : (r.withAction other run).action? name leaf =
      if other = name then some run else r.action? name leaf := by
  simp only [action?, withAction, Std.ExtTreeMap.getElem?_insert, Std.compare_eq_iff_eq]
  split <;> rfl

theorem Node.OuterActionsKeep.of_children {P : Blackboard → Prop} {n : Node ω}
    (hn : ∀ h a, n ≠ action h (some a)) (hchildren : ∀ c ∈ n.children, c.OuterActionsKeep P) :
    n.OuterActionsKeep P :=
  outerActionsKeep_iff.mpr ⟨fun h a ha => absurd ha (hn h a), fun _ => hchildren⟩

/-- What all actions of the registry keep is kept by those of a tree that is built with it. -/
theorem Document.Unfolds.outerActionsKeep {d : Document} {r : Registry ω} {place : Position}
    {s : Spec} {n : Node ω} (h : d.Unfolds r place s n) {P : Blackboard → Prop}
    (hP : ∀ name leaf a, r.action? name leaf = some a → a.Keeps P) : n.OuterActionsKeep P := by
  induction h with
  | condition | childless => exact .of_children (by simp) (by simp [Node.children])
  | action =>
    refine Node.outerActionsKeep_iff.mpr ⟨?_, by simp [Node.children]⟩
    intro h a ha
    injection ha with _ ha
    exact hP _ _ a ha
  | decorator _ _ ih | subtree _ _ ih =>
    refine .of_children (by simp) ?_
    intro c hc
    rwa [List.mem_singleton.mp hc]
  | composite hlength _ ih => exact .of_children (by simp) (Document.forall_of_unfolds hlength ih)
  | @parallel _ _ _ _ nodes hlength _ ih =>
    refine .of_children (by simp) ?_
    intro c hc
    have hc : c ∈ nodes := by simpa [Node.children] using hc
    exact Document.forall_of_unfolds hlength ih c hc

namespace Blackboard

def SameOutside (slots : List (Kind × String)) (b c : Blackboard) : Prop :=
  ∀ k key, (k, key) ∉ slots → c.get? k key = b.get? k key

namespace SameOutside

variable {slots slots' : List (Kind × String)} {b c d : Blackboard}

theorem refl (slots : List (Kind × String)) (b : Blackboard) : SameOutside slots b b :=
  fun _ _ _ => rfl

theorem trans (h : SameOutside slots b c) (h' : SameOutside slots c d) : SameOutside slots b d :=
  fun k key hout => (h' k key hout).trans (h k key hout)

theorem mono (h : SameOutside slots b c) (hsub : slots ⊆ slots') : SameOutside slots' b c :=
  fun k key hout => h k key fun hmem => hout (hsub hmem)

theorem insert (h : SameOutside slots b c) {k : Kind} {key : String} (hslot : (k, key) ∈ slots)
    (value : k.Value) : SameOutside slots b (c.insert k key value) := by
  intro l key' hout
  rw [← h l key' hout]
  by_cases hkind : l = k
  · subst hkind
    rw [get?_insert, if_neg]
    rintro rfl
    exact hout hslot
  · exact get?_insert_of_ne c key key' value hkind

end SameOutside

end Blackboard

namespace Guard

open Blackboard (SameOutside)

def actionEntries : List (Kind × String) :=
  [(.vector, "self_pos"), (.int, "waypoint"), (.int, "attacks"), (.string, "intent")]

def perceptionEntries : List (Kind × String) :=
  [(.vector, "player_pos"), (.bool, "player_visible"), (.bool, "in_attack_range"),
    (.float, "health")]

/-! ## Actions -/

structure Moves (b c : Blackboard) : Prop where
  same : SameOutside actionEntries b c
  waypoint : c.get? .int "waypoint" = b.get? .int "waypoint" ∨
    c.get? .int "waypoint" = some 1 ∨ c.get? .int "waypoint" = some 2

namespace Moves

variable {b c d : Blackboard}

theorem refl (b : Blackboard) : Moves b b := ⟨.refl _ b, .inl rfl⟩

theorem trans (h : Moves b c) (h' : Moves c d) : Moves b d := by
  refine ⟨h.same.trans h'.same, ?_⟩
  rcases h'.waypoint with hsame | hnext
  · rw [hsame]
    exact h.waypoint
  · exact .inr hnext

theorem insert (h : Moves b c) {k : Kind} {key : String} (hslot : (k, key) ∈ actionEntries)
    (hwaypoint : (k, key) ≠ (.int, "waypoint")) (value : k.Value) :
    Moves b (c.insert k key value) := by
  refine ⟨h.same.insert hslot value, ?_⟩
  -- The entry is none of those outside of the slot that is written.
  have hsame := (SameOutside.refl [(k, key)] c).insert (List.mem_singleton_self _) value .int
    "waypoint" fun hmem => hwaypoint (List.mem_singleton.mp hmem).symm
  rw [hsame]
  exact h.waypoint

theorem intend (h : Moves b c) (intent : String) : Moves b (Guard.intend intent c) :=
  h.insert (k := .string) (by decide) (by decide) intent

theorem stand (h : Moves b c) (place : Vec3) : Moves b (Guard.stand c place) :=
  h.insert (k := .vector) (by decide) (by decide) place

end Moves

/-- The index is the remainder of what was on the blackboard, negative or not, and the target is
the waypoint of that index. -/
theorem waypoint_index (n : Int32) :
    (waypoint n).1.toInt = n.toInt % 2 ∧
      waypoints[(waypoint n).1.toInt.toNat]? = some (waypoint n).2 ∧
      (((waypoint n).1 + 1 = 1) ∨ ((waypoint n).1 + 1 = 2)) := by
  have hindex : (waypoint n).1.toInt = n.toInt % 2 := by
    change (Int32.ofInt (n.toInt % 2)).toInt = n.toInt % 2
    exact Int32.toInt_ofInt_of_le (by omega) (by omega)
  refine ⟨hindex, ?_, ?_⟩
  · rw [hindex]
    exact List.getElem?_eq_getElem (index_lt n)
  · rcases Int.emod_two_eq n.toInt with heven | hodd
    · have hzero : (waypoint n).1 = 0 := Int32.toInt_inj.mp (hindex.trans heven)
      rw [hzero]
      exact .inl rfl
    · have hone : (waypoint n).1 = 1 := Int32.toInt_inj.mp (hindex.trans hodd)
      rw [hone]
      exact .inr rfl

theorem moves_chase (seconds : Float32) (b : Blackboard) : Moves b (chase seconds b).2 := by
  unfold chase
  split
  · exact .refl b
  · exact ((Moves.refl b).intend _).stand _

theorem moves_attack (seconds : Float32) (b : Blackboard) : Moves b (attack seconds b).2 :=
  ((Moves.refl b).insert (k := .int) (by decide) (by decide) _).intend _

theorem moves_patrol (seconds : Float32) (b : Blackboard) : Moves b (patrol seconds b).2 := by
  unfold patrol
  dsimp only
  have hstood := ((Moves.refl b).intend "patrol").stand ((position b).moveTowards
    (waypoint (b.getD .int "waypoint" 0)).2 (reach b seconds))
  split
  · refine ⟨hstood.same.insert (k := .int) (by decide) _, .inr ?_⟩
    rw [Blackboard.get?_insert, if_pos rfl, Option.some_inj, Option.some_inj]
    exact (waypoint_index _).2.2
  · exact hstood

theorem moves_flee (seconds : Float32) (b : Blackboard) : Moves b (flee seconds b).2 :=
  ((Moves.refl b).intend _).stand _

theorem moves_of_mem_actions {name : String} {f : Behavior} (h : (name, f) ∈ actions)
    (seconds : Float32) (b : Blackboard) : Moves b (f seconds b).2 := by
  simp only [actions, List.mem_cons, List.not_mem_nil, or_false, Prod.mk.injEq] at h
  rcases h with ⟨-, rfl⟩ | ⟨-, rfl⟩ | ⟨-, rfl⟩ | ⟨-, rfl⟩ | ⟨-, rfl⟩ | ⟨-, rfl⟩
  · exact moves_chase seconds b
  · exact (Moves.refl b).intend _
  · exact moves_attack seconds b
  · exact moves_patrol seconds b
  · exact moves_flee seconds b
  · exact (Moves.refl b).intend _

/-! ## Bindings -/

theorem actions_foldl_withCondition (cs : List (String × (Blackboard → Bool))) (r : Registry ω) :
    (cs.foldl (fun r (name, test) =>
      r.withCondition name fun w => (test w.blackboard, w.host)) r).actions = r.actions := by
  induction cs generalizing r with
  | nil => rfl
  | cons c cs ih =>
    rw [List.foldl_cons, ih]
    rfl

theorem of_action?_foldl {fs : List (String × Behavior)} {r : Registry ω} {name : String}
    {leaf : Position} {a : Action ω}
    (h : (fs.foldl (fun r (name, f) => r.withAction name f.toAction) r).action? name leaf = some a) :
    r.action? name leaf = some a ∨ ∃ f, (name, f) ∈ fs ∧ a = f.toAction := by
  induction fs generalizing r with
  | nil => exact .inl h
  | cons entry fs ih =>
    obtain ⟨other, f⟩ := entry
    rcases ih h with hnext | ⟨g, hg, rfl⟩
    · change (r.withAction other f.toAction).action? name leaf = some a at hnext
      rw [Registry.action?_withAction] at hnext
      split at hnext
      · next hother =>
        subst hother
        cases hnext
        exact .inr ⟨f, .head _, rfl⟩
      · exact .inl hnext
    · exact .inr ⟨g, .tail _ hg, rfl⟩

theorem action?_registry {name : String} {leaf : Position} {a : Action ω}
    (h : (registry : Registry ω).action? name leaf = some a) :
    ∃ f, (name, f) ∈ actions ∧ a = f.toAction := by
  rcases of_action?_foldl h with hbare | hfound
  · rw [Registry.action?, actions_foldl_withCondition] at hbare
    simp at hbare
  · exact hfound

/-- Whatever was on the blackboard, the actions outside of isolated trees do to it what actions may
do. -/
def Kept (n : Node ω) : Prop := ∀ b, n.OuterActionsKeep (Moves b)

theorem kept_of_unfolds {d : Document} {place : Position} {s : Spec} {n : Node ω}
    (h : d.Unfolds registry place s n) : Kept n := by
  intro b
  refine h.outerActionsKeep ?_
  intro name leaf a ha seconds w hw
  obtain ⟨f, hf, rfl⟩ := action?_registry ha
  exact hw.trans (moves_of_mem_actions hf seconds w.blackboard)

def Built (n : Node ω) : Prop :=
  ∃ mode d name, (Builder.buildTree ⟨registry, mode⟩ d name).result = .ok n

theorem Built.kept {n : Node ω} (h : Built n) : Kept n := by
  obtain ⟨mode, d, name, h⟩ := h
  obtain ⟨_, -, hunfolds⟩ := Builder.unfolds_of_buildNamed h
  exact kept_of_unfolds hunfolds

theorem kept_root_of_build {mode : Mode} {d : Document} {t : Tree ω}
    (h : (Builder.build ⟨registry, mode⟩ d).result = .ok t) : ∀ r ∈ t.root, Kept r := by
  obtain ⟨_, root, -, hunfolds, rfl⟩ := Builder.unfolding_of_build h
  rintro r ⟨⟩
  exact kept_of_unfolds hunfolds

/-! ## Runs -/

section Run

variable {t : Tree ω}

theorem moves_tickOn (h : ∀ r ∈ t.root, Kept r) (m : Moment) (w : World ω) :
    Moves w.blackboard (t.tickOn m w).world.blackboard :=
  Tree.keeps_tickOn (fun r hr => h r hr w.blackboard) m (.refl w.blackboard)

/-- An operation does what the owner's hand does, and what actions may do. -/
theorem moves_perform (h : ∀ r ∈ t.root, Kept r) (op : Operation ω) (host : ω) :
    Moves (op.edit t.blackboard) (t.perform host op).state.blackboard := by
  cases op with
  | tick seconds => exact moves_tickOn h _ ⟨t.blackboard, host⟩
  | tickAt m => exact moves_tickOn h m ⟨t.blackboard, host⟩
  | tickOn m lent =>
    have hown := Tree.blackboard_tickTree m t ⟨lent, host⟩
    change Moves t.blackboard (Node.tickTree m t ⟨lent, host⟩).state.blackboard
    rw [hown]
    exact .refl _
  | resetRoot =>
    rw [Tree.perform, Tree.resetRoot, Node.resetTree_eq]
    exact .refl _
  | _ => exact .refl _

theorem kept_perform (h : ∀ r ∈ t.root, Kept r) {op : Operation ω} (hop : op.Installs Kept)
    (host : ω) : ∀ r ∈ (t.perform host op).state.root, Kept r := by
  refine Tree.forall_root_of_blank_eq (fun hn hblank b => (hn b).of_blank_eq hblank)
    (Tree.blank_perform rfl op host).symm ?_
  cases op with
  | setRoot root =>
    rintro r ⟨⟩
    exact hop
  | _ => exact h

theorem kept_after (h : ∀ r ∈ t.root, Kept r) {ops : List (Operation ω)}
    (hops : ∀ op ∈ ops, op.Installs Kept) (host : ω) :
    ∀ r ∈ (t.after ops host).1.root, Kept r := by
  induction ops generalizing t host with
  | nil => exact h
  | cons op ops ih =>
    obtain ⟨hop, hops⟩ := List.forall_mem_cons.mp hops
    exact ih (kept_perform h hop host) hops _

/-- A relation that allows what actions do, and what the owner does in the run, holds between the
first blackboard of the run and the last one. -/
theorem rel_after {R : Blackboard → Blackboard → Prop} (hrefl : ∀ b, R b b)
    (htrans : ∀ {b c d}, R b c → R c d → R b d) (hmoves : ∀ {b c}, Moves b c → R b c)
    (h : ∀ r ∈ t.root, Kept r) {ops : List (Operation ω)}
    (hops : ∀ op ∈ ops, op.Installs Kept) (hedit : ∀ op ∈ ops, ∀ b, R b (op.edit b)) (host : ω) :
    R t.blackboard (t.after ops host).1.blackboard := by
  induction ops generalizing t host with
  | nil => exact hrefl _
  | cons op ops ih =>
    obtain ⟨hop, hops⟩ := List.forall_mem_cons.mp hops
    obtain ⟨hfirst, hedit⟩ := List.forall_mem_cons.mp hedit
    have hstep : R t.blackboard (t.perform host op).state.blackboard :=
      htrans (hfirst t.blackboard) (hmoves (moves_perform h op host))
    exact htrans hstep (ih (kept_perform h hop host) hops hedit _)

end Run

/-! ## Sensing -/

theorem sameOutside_sense (player : Vec3) (seconds : Float32) (b : Blackboard) :
    SameOutside perceptionEntries b (sense player seconds b) := by
  have hplayer : SameOutside perceptionEntries b (b.insert .vector "player_pos" player) :=
    (SameOutside.refl _ b).insert (k := .vector) (by decide) player
  have hseen : SameOutside perceptionEntries b ((b.insert .vector "player_pos" player).insert .bool
      "player_visible" ((position b).distance player < sightRadius)) :=
    hplayer.insert (k := .bool) (by decide) _
  have hnear := hseen.insert (by decide : (Kind.bool, "in_attack_range") ∈ perceptionEntries)
    ((position b).distance player ≤ attackRange)
  unfold sense
  dsimp only
  split
  · exact hnear.insert (k := .float) (by decide) _
  · exact hnear

theorem health_sense {player : Vec3} {b : Blackboard}
    (h : ¬ (position b).distance player ≤ attackRange) (seconds : Float32) :
    (sense player seconds b).get? .float "health" = b.get? .float "health" := by
  unfold sense
  simp only [decide_eq_true_eq, if_neg h]
  rw [Blackboard.get?_insert_of_ne _ _ _ _ (by decide),
    Blackboard.get?_insert_of_ne _ _ _ _ (by decide),
    Blackboard.get?_insert_of_ne _ _ _ _ (by decide)]

/-- Everything has its owner, whatever tree is built with the guard's bindings. A tick changes
nothing but the entries of the actions, and where it changes the waypoint it leaves one or two; so
does any part of a run in which the owner writes nothing. The waypoint that is walked to is always
one of the list. Sensing changes nothing but its own entries, and health only within attack range.
So where the owner only senses, what belongs to neither is in the end as the document says. -/
theorem writes_owned {mode : Mode} {d : Document} {t : Tree ω}
    (ht : (Builder.build ⟨registry, mode⟩ d).result = .ok t) {ops : List (Operation ω)}
    (hops : ∀ op ∈ ops, op.Installs Built) (host : ω) :
    let reached := (t.after ops host).1
    (∀ (m : Moment) (w : World ω),
      Moves w.blackboard (reached.tickOn m w).world.blackboard ∧
        Moves reached.blackboard (reached.tickAt m w.host).state.blackboard) ∧
    (∀ before rest, ops = before ++ rest → (∀ op ∈ rest, ∀ b, op.edit b = b) →
      Moves (t.after before host).1.blackboard reached.blackboard) ∧
    (∀ index : Int32, (waypoint index).1.toInt = index.toInt % 2 ∧
      waypoints[(waypoint index).1.toInt.toNat]? = some (waypoint index).2) ∧
    (∀ (player : Vec3) (seconds : Float32) (b : Blackboard),
      SameOutside perceptionEntries b (sense player seconds b) ∧
        (¬ (position b).distance player ≤ attackRange →
          (sense player seconds b).get? .float "health" = b.get? .float "health")) ∧
    ((∀ op ∈ ops, ∀ b, op.edit b = b ∨ ∃ player seconds, op.edit b = sense player seconds b) →
      SameOutside (actionEntries ++ perceptionEntries) d.blackboard reached.blackboard) := by
  intro reached
  have hroot := kept_root_of_build ht
  have hkept : ∀ op ∈ ops, op.Installs Kept := fun op hop => (hops op hop).imp fun _ => Built.kept
  refine ⟨?_, ?_, ?_, ?_, ?_⟩
  · intro m w
    have hreached : ∀ r ∈ reached.root, Kept r := kept_after hroot hkept host
    exact ⟨moves_tickOn hreached m w, moves_tickOn hreached m ⟨reached.blackboard, w.host⟩⟩
  · rintro before rest rfl hrest
    obtain ⟨hbefore, hafter⟩ := List.forall_mem_append.mp hkept
    simp only [reached, Tree.after_append]
    refine rel_after .refl .trans id (kept_after hroot hbefore host) hafter ?_ _
    intro op hop b
    rw [hrest op hop b]
    exact .refl b
  · exact fun index => ⟨(waypoint_index index).1, (waypoint_index index).2.1⟩
  · exact fun player seconds b =>
      ⟨sameOutside_sense player seconds b, fun hfar => health_sense hfar seconds⟩
  · intro hsenses
    obtain ⟨_, _, -, -, rfl⟩ := Builder.unfolding_of_build ht
    refine rel_after (.refl _) .trans (fun hbc => hbc.same.mono ?_) hroot hkept ?_ host
    · exact List.subset_append_left _ _
    · intro op hop b
      rcases hsenses op hop b with hsame | ⟨player, seconds, hsense⟩
      · rw [hsame]
        exact .refl _ b
      · rw [hsense]
        exact (sameOutside_sense player seconds b).mono (List.subset_append_right _ _)

def sentryDocument : Document where
  root := "sentry"
  blackboard := (Blackboard.empty.insert .int "waypoint" (-3)).insert .float "speed" 4
  trees := (∅ : Table Spec).insert "sentry" (.composite .selector false none
    [.composite .sequence false none
      [.leaf .condition "in_attack_range" none, .leaf .action "attack" none],
    .leaf .action "patrol" none])

/-- The sentry keeps the speed of its document and the player that it saw last. A waypoint of minus
three means the second of the two. -/
theorem writes_owned_sentry :
    ∃ t : Tree Unit, (Builder.build ⟨registry, .strict⟩ sentryDocument).result = .ok t ∧
      let sensed := (t.after [.write (sense usualPlayer 0.5)] ()).1
      let reached := (t.after [.write (sense usualPlayer 0.5), .tick 0.5, .tick 0.5] ()).1
      reached.blackboard.get? .float "speed" = some 4 ∧
        reached.blackboard.get? .vector "player_pos" = sensed.blackboard.get? .vector "player_pos" ∧
        (reached.blackboard.get? .int "waypoint" = some (-3) ∨
          reached.blackboard.get? .int "waypoint" = some 1 ∨
          reached.blackboard.get? .int "waypoint" = some 2) ∧
        (waypoint (-3)).1.toInt = 1 := by
  have hspec : sentryDocument.trees["sentry"]? = some (.composite .selector false none
    [.composite .sequence false none
      [.leaf .condition "in_attack_range" none, .leaf .action "attack" none],
    .leaf .action "patrol" none]) := rfl
  obtain ⟨t, ht⟩ : ∃ t : Tree Unit,
      (Builder.build ⟨registry, .strict⟩ sentryDocument).result = .ok t := by
    rw [Builder.build, if_pos (by decide), Build.result_bind]
    change ∃ t, Except.bind (Builder.buildNamed _ _ [] [] "sentry").result _ = .ok t
    rw [Builder.buildNamed_of_accepted rfl hspec]
    exact ⟨_, rfl⟩
  refine ⟨t, ht, ?_⟩
  intro sensed reached
  have hops : ∀ op ∈ ([.write (sense usualPlayer 0.5), .tick 0.5, .tick 0.5] :
      List (Operation Unit)), op.Installs Built := by
    rintro op (_ | ⟨_, _ | ⟨_, _ | ⟨_, ⟨⟩⟩⟩⟩) <;> trivial
  obtain ⟨-, hmoves, hwaypoint, hsense, howned⟩ := writes_owned ht hops ()
  have hticks : Moves sensed.blackboard reached.blackboard := by
    refine hmoves [_] [.tick 0.5, .tick 0.5] rfl ?_
    rintro op (_ | ⟨_, _ | ⟨_, ⟨⟩⟩⟩) b <;> rfl
  have hblackboard : t.blackboard = sentryDocument.blackboard := by
    obtain ⟨_, _, -, -, rfl⟩ := Builder.unfolding_of_build ht
    rfl
  have hseed : sensed.blackboard.get? .int "waypoint" = some (-3) := by
    have hkept := (hsense usualPlayer 0.5 t.blackboard).1 .int "waypoint" (by decide)
    refine hkept.trans ?_
    rw [hblackboard, sentryDocument, Blackboard.get?_insert_of_ne _ _ _ _ (by decide),
      Blackboard.get?_insert, if_pos rfl]
  refine ⟨?_, hticks.same .vector "player_pos" (by decide), ?_, ?_⟩
  · refine (howned ?_ .float "speed" (by decide)).trans ?_
    · rintro op (_ | ⟨_, _ | ⟨_, _ | ⟨_, ⟨⟩⟩⟩⟩) b
      · exact .inr ⟨usualPlayer, 0.5, rfl⟩
      · exact .inl rfl
      · exact .inl rfl
    · rw [sentryDocument, Blackboard.get?_insert, if_pos rfl]
  · rw [← hseed]
    exact hticks.waypoint
  · exact (hwaypoint (-3)).1

end Guard

end BehaviorTree
