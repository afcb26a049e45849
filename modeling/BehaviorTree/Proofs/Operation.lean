import BehaviorTree.Proofs.Congruence
import BehaviorTree.Tree

/-!
# Operations on trees

Everything the owner of a tree can do to it between two looks at it, and what a run of such
operations shows: answers, blackboards and the state of the host. Trees with bisimilar roots
and equal blackboards show the same in every run, whatever their counts of ticks, last
answers and channels are.
-/

namespace BehaviorTree

variable {ω κ : Type}

inductive Operation (ω : Type) where
  | tick (seconds : Float32)
  | tickAt (m : Moment)
  | tickOn (m : Moment) (lent : Blackboard)
  | reset
  | resetRoot
  | setRoot (root : Node ω)
  | write (f : Blackboard → Blackboard)

def Operation.Installs (P : Node ω → Prop) : Operation ω → Prop
  | setRoot root => P root
  | _ => True

theorem Operation.Installs.imp {P Q : Node ω → Prop} {op : Operation ω} (h : op.Installs P)
    (hPQ : ∀ n, P n → Q n) : op.Installs Q := by
  cases op with
  | setRoot => exact hPQ _ h
  | _ => trivial

theorem Operation.installs_of_forall {P : Node ω → Prop} (op : Operation ω) (h : ∀ n, P n) :
    op.Installs P := by
  cases op with
  | setRoot => exact h _
  | _ => trivial

def Operation.map (f : Node ω → Node κ) : Operation ω → Operation κ
  | tick seconds => tick seconds
  | tickAt m => tickAt m
  | tickOn m lent => tickOn m lent
  | reset => reset
  | resetRoot => resetRoot
  | setRoot root => setRoot (f root)
  | write f => write f

inductive Operation.Match (H : ω → κ → Prop) : Operation ω → Operation κ → Prop
  | tick (seconds : Float32) : Match H (.tick seconds) (.tick seconds)
  | tickAt (m : Moment) : Match H (.tickAt m) (.tickAt m)
  | tickOn (m : Moment) (lent : Blackboard) : Match H (.tickOn m lent) (.tickOn m lent)
  | reset : Match H .reset .reset
  | resetRoot : Match H .resetRoot .resetRoot
  | setRoot {root : Node ω} {root' : Node κ} (h : Node.Bisimilar H root root') :
    Match H (.setRoot root) (.setRoot root')
  | write (f : Blackboard → Blackboard) : Match H (.write f) (.write f)

theorem Operation.match_map {H : ω → κ → Prop} {f : Node ω → Node κ} (op : Operation ω)
    (h : op.Installs fun root => Node.Bisimilar H root (f root)) : op.Match H (op.map f) := by
  cases op with
  | setRoot root => exact .setRoot h
  | tick seconds => exact .tick seconds
  | tickAt m => exact .tickAt m
  | tickOn m lent => exact .tickOn m lent
  | reset => exact .reset
  | resetRoot => exact .resetRoot
  | write f => exact .write f

theorem Operation.match_self {H : ω → ω → Prop} (op : Operation ω)
    (h : op.Installs fun root => Node.Bisimilar H root root) : op.Match H op := by
  have hid : op.map id = op := by cases op <;> rfl
  have hmatch : op.Match H (op.map id) := op.match_map h
  rwa [hid] at hmatch

/-- What is seen after an operation: the answer of a tick, the blackboard worked on, which for
a tick on a lent blackboard is that one, the tree's own blackboard, and the host. -/
structure Observation (ω : Type) where
  answer : Option Status
  blackboard : Blackboard
  own : Blackboard
  host : ω

structure Observation.Match (H : ω → κ → Prop) (o : Observation ω) (o' : Observation κ) : Prop where
  answer : o.answer = o'.answer
  blackboard : o.blackboard = o'.blackboard
  own : o.own = o'.own
  host : H o.host o'.host

namespace Tree

/-- The world of the step holds the blackboard that the operation worked on. -/
def perform (t : Tree ω) (host : ω) : Operation ω → Step (Option Status) (Tree ω) (World ω)
  | .tick seconds =>
    let s := tick seconds t host
    ⟨s.answer, s.state, ⟨s.state.blackboard, s.world⟩, s.emitted⟩
  | .tickAt m =>
    let s := tickAt m t host
    ⟨s.answer, s.state, ⟨s.state.blackboard, s.world⟩, s.emitted⟩
  | .tickOn m lent => tickOn m t ⟨lent, host⟩
  | .reset => ⟨none, reset t, ⟨{}, host⟩, resetEmissions t⟩
  | .resetRoot => ⟨none, resetRoot t, ⟨t.blackboard, host⟩, resetRootEmissions t⟩
  | .setRoot root => ⟨none, setRoot root t, ⟨t.blackboard, host⟩, []⟩
  | .write f => ⟨none, { t with blackboard := f t.blackboard }, ⟨f t.blackboard, host⟩, []⟩

def after : List (Operation ω) → Tree ω → ω → Tree ω × ω
  | [], t, host => (t, host)
  | op :: ops, t, host =>
    let s := perform t host op
    after ops s.state s.world.host

theorem after_append (ops ops' : List (Operation ω)) (t : Tree ω) (host : ω) :
    t.after (ops ++ ops') host = (t.after ops host).1.after ops' (t.after ops host).2 := by
  induction ops generalizing t host with
  | nil => rfl
  | cons op ops ih => exact ih _ _

def steps : List (Operation ω) → Tree ω → ω → List (Step (Option Status) (Tree ω) (World ω))
  | [], _, _ => []
  | op :: ops, t, host =>
    let s := perform t host op
    s :: steps ops s.state s.world.host

/-- Two runs match step by step if matching operations bring about matching steps, and these leave
trees and hosts for which that goes on. -/
theorem forall₂_steps {M : Operation ω → Operation κ → Prop}
    {Q : Tree ω → ω → Tree κ → κ → Prop}
    {R : Step (Option Status) (Tree ω) (World ω) → Step (Option Status) (Tree κ) (World κ) → Prop}
    (hperform : ∀ t host t' host', Q t host t' host' →
      ∀ op op', M op op' → R (t.perform host op) (t'.perform host' op'))
    (hnext : ∀ c c', R c c' → Q c.state c.world.host c'.state c'.world.host)
    {ops : List (Operation ω)} {ops' : List (Operation κ)} (hops : List.Forall₂ M ops ops')
    {t : Tree ω} {host : ω} {t' : Tree κ} {host' : κ} (h : Q t host t' host') :
    List.Forall₂ R (steps ops t host) (steps ops' t' host') := by
  induction hops generalizing t host t' host' with
  | nil => exact .nil
  | cons hop _ ih =>
    have hmatch := hperform t host t' host' h _ _ hop
    exact .cons hmatch (ih (hnext _ _ hmatch))

def observe (ops : List (Operation ω)) (t : Tree ω) (host : ω) : List (Observation ω) :=
  (steps ops t host).map fun s =>
    ⟨s.answer, s.world.blackboard, s.state.blackboard, s.world.host⟩

structure Bisimilar (H : ω → κ → Prop) (t : Tree ω) (t' : Tree κ) : Prop where
  root : Option.Rel (Node.Bisimilar H) t.root t'.root
  blackboard : t.blackboard = t'.blackboard

variable {H : ω → κ → Prop} {t : Tree ω} {t' : Tree κ}

theorem blackboard_tickTree (m : Moment) (t : Tree ω) (w : World ω) :
    (Node.tickTree m t w).state.blackboard = t.blackboard := by
  cases hr : t.root with
  | none => rw [Node.tickTree_of_root_none m w hr]
  | some r => rw [Node.tickTree_of_root_some m w hr]

theorem Bisimilar.tickAt (ht : t.Bisimilar H t') {host : ω} {host' : κ} (hh : H host host')
    {m m' : Moment} (hm : m.elapsed = m'.elapsed) :
    let s := Tree.tickAt m t host
    let s' := Tree.tickAt m' t' host'
    s.answer = s'.answer ∧ s.state.Bisimilar H s'.state ∧ H s.world s'.world := by
  have hstep := (Node.isBisimulation_bisimilar H).tickTree ht.root hm
    (⟨ht.blackboard, hh⟩ : World.Match H ⟨t.blackboard, host⟩ ⟨t'.blackboard, host'⟩)
  exact ⟨hstep.answer, ⟨hstep.state, hstep.world.blackboard⟩, hstep.world.host⟩

theorem Bisimilar.resetRoot (ht : t.Bisimilar H t') :
    (Tree.resetRoot t).Bisimilar H (Tree.resetRoot t') := by
  rw [Tree.resetRoot, Tree.resetRoot, Node.resetTree_eq, Node.resetTree_eq]
  exact ⟨(Node.isBisimulation_bisimilar H).resetRoot ht.root, ht.blackboard⟩

theorem Bisimilar.perform (ht : t.Bisimilar H t') {host : ω} {host' : κ} (hh : H host host')
    {op : Operation ω} {op' : Operation κ} (hop : op.Match H op') :
    (t.perform host op).Match H (Bisimilar H) (t'.perform host' op') := by
  cases hop with
  | tick seconds =>
    have hm : (Moment.mk t.ticks seconds).elapsed = (Moment.mk t'.ticks seconds).elapsed := rfl
    obtain ⟨hanswer, hstate, hhost⟩ := ht.tickAt hh hm
    exact ⟨hanswer, hstate, hstate.blackboard, hhost⟩
  | tickAt m =>
    obtain ⟨hanswer, hstate, hhost⟩ := ht.tickAt hh (rfl : m.elapsed = m.elapsed)
    exact ⟨hanswer, hstate, hstate.blackboard, hhost⟩
  | tickOn m lent =>
    have hstep := (Node.isBisimulation_bisimilar H).tickTree ht.root (rfl : m.elapsed = m.elapsed)
      (⟨rfl, hh⟩ : World.Match H ⟨lent, host⟩ ⟨lent, host'⟩)
    refine ⟨hstep.answer, ⟨hstep.state, ?_⟩, hstep.world⟩
    simp only [Tree.perform, tickOn, blackboard_tickTree, ht.blackboard]
  | reset => exact ⟨rfl, ⟨ht.resetRoot.root, rfl⟩, rfl, hh⟩
  | resetRoot => exact ⟨rfl, ht.resetRoot, ht.blackboard, hh⟩
  | setRoot h => exact ⟨rfl, ⟨.some h, ht.blackboard⟩, ht.blackboard, hh⟩
  | write f =>
    have hf : f t.blackboard = f t'.blackboard := congrArg f ht.blackboard
    exact ⟨rfl, ⟨ht.root, hf⟩, hf, hh⟩

theorem Bisimilar.observe (ht : t.Bisimilar H t') {host : ω} {host' : κ} (hh : H host host')
    {ops : List (Operation ω)} {ops' : List (Operation κ)}
    (hops : List.Forall₂ (Operation.Match H) ops ops') :
    List.Forall₂ (Observation.Match H) (t.observe ops host) (t'.observe ops' host') := by
  have hsteps : List.Forall₂ (Step.Match H (Bisimilar H)) (steps ops t host)
      (steps ops' t' host') := by
    refine forall₂_steps (Q := fun t host t' host' => t.Bisimilar H t' ∧ H host host') ?_ ?_ hops
      ⟨ht, hh⟩
    · rintro t host t' host' ⟨ht, hh⟩ op op' hop
      exact ht.perform hh hop
    · intro c c' hc
      exact ⟨hc.state, hc.world.host⟩
  exact List.rel_map (fun _ _ hc =>
    ⟨hc.answer, hc.world.blackboard, hc.state.blackboard, hc.world.host⟩) hsteps

end Tree

end BehaviorTree
