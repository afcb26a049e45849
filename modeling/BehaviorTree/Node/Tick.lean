import BehaviorTree.Node.Reset

/-!
# Ticks

One tick of a node at a moment, in a world. Composites walk their children until one
of them does not pass; decorators see at most one answer of their child; a parallel
ticks the children that are still open in the current pass; a nested tree runs its
own driver step, which resets its root as soon as that finishes.
-/

namespace BehaviorTree

variable {ω : Type}

/--
The result of running a part `ν` of a tree: its answer, its next state, the world
left behind and what it told the outside, in order.
-/
structure Step (σ ν κ : Type) where
  answer : σ
  state : ν
  world : κ
  emitted : List Emission

namespace Decorator

structure Verdict where
  status : Status
  kind : Decorator
  resetsChild : Bool

def isDue : Decorator → Bool
  | inverter | succeeder => false
  | repeater limit completed => limit.any (· ≤ completed)
  | timer duration elapsed => elapsed ≥ duration

/-- The number after `n`, except that the largest one is its own successor. -/
def bump (n : UInt32) : UInt32 := if n + 1 = 0 then n else n + 1

def advance (seconds : Float32) : Decorator → Decorator
  | inverter => inverter
  | succeeder => succeeder
  | repeater limit completed => repeater limit (bump completed)
  | timer duration elapsed => timer duration (elapsed + seconds)

def judge (seconds : Float32) (kind : Decorator) (child : Status) : Verdict :=
  let next := kind.advance seconds
  match kind, child with
  | inverter, s => ⟨s.invert, kind, false⟩
  | succeeder, .running => ⟨.running, kind, false⟩
  | succeeder, _ => ⟨.success, kind, false⟩
  | repeater .., .running => ⟨.running, kind, false⟩
  | repeater .., .failure => ⟨.failure, kind.rewind, true⟩
  | repeater .., .success =>
    if next.isDue then ⟨.success, kind.rewind, true⟩ else ⟨.running, next, true⟩
  | timer .., _ =>
    if next.isDue then ⟨.success, kind.rewind, true⟩ else ⟨.running, next, false⟩

end Decorator

def Cursor.isRestart (c : Cursor) : Bool := c = restart

/-- A selector that re-walks its children leaves them alone when all of them failed. -/
def Order.keepsPassedChildren (order : Order) (cursor : Cursor) : Bool :=
  order = selector && cursor.isRestart

namespace Lane

variable {ν : Type}

def count (s : Status) (ls : List (Lane ν)) : Nat := ls.countP (·.slot = s)

end Lane

namespace Quorums

def outcome (q : Quorums) (successes failures total : Nat) : Status :=
  if q.success.isMet successes total then .success
  else if q.failure.isMet failures total then .failure
  else .running

end Quorums

def finishedComposite (h : Head) (s : Status) : List Emission :=
  if s.isTerminal then [.diagnostic (.compositeFinished h.name s)] else []

def finishedParallel (h : Head) (s : Status) : List Emission :=
  if s.isTerminal then [.diagnostic (.parallelFinished h.name s)] else []

namespace Node

mutual

def tick (m : Moment) : Node ω → World ω → Step Status (Node ω) (World ω)
  | condition h test, w =>
    match test with
    | none => ⟨.failure, condition (h.record .failure) none, w, []⟩
    | some p =>
      let (b, host) := p w
      let s := Status.ofBool b
      ⟨s, condition (h.record s) (some p), { w with host }, []⟩
  | action h run, w =>
    match run with
    | none => ⟨.failure, action (h.record .failure) none, w, []⟩
    | some a =>
      let (s, w) := a m.elapsed w
      ⟨s, action (h.record s) (some a), w, []⟩
  | decorator h kind none, w =>
    ⟨.failure, decorator (h.record .failure) kind none, w, [.diagnostic (.childMissing h.name)]⟩
  | decorator h kind (some child), w =>
    if kind.isDue then
      ⟨.success, decorator (h.record .success) kind.rewind (some child.reset), w,
        child.resetEmissions⟩
    else
      let c := tick m child w
      let v := kind.judge m.elapsed c.answer
      let next := if v.resetsChild then c.state.reset else c.state
      let cleared := if v.resetsChild then c.state.resetEmissions else []
      ⟨v.status, decorator (h.record v.status) v.kind (some next), c.world, c.emitted ++ cleared⟩
  | composite h order cursor children, w =>
    let c := walk m order.pass cursor.start 0 children w
    match c.answer with
    | some (index, .running) =>
      ⟨.running, composite (h.record .running) order (cursor.moveTo index) c.state, c.world,
        c.emitted⟩
    | some (_, s) =>
      ⟨s, composite (h.record s) order cursor.rewind (resetAll c.state), c.world,
        c.emitted ++ resetAllEmissions c.state ++ finishedComposite h s⟩
    | none =>
      let s := order.pass
      if order.keepsPassedChildren cursor then
        ⟨s, composite (h.record s) order cursor.rewind c.state, c.world,
          c.emitted ++ finishedComposite h s⟩
      else
        ⟨s, composite (h.record s) order cursor.rewind (resetAll c.state), c.world,
          c.emitted ++ resetAllEmissions c.state ++ finishedComposite h s⟩
  | parallel h quorums stalled lanes, w =>
    if lanes.isEmpty then
      ⟨.success, parallel (h.record .success) quorums stalled [], w, finishedParallel h .success⟩
    else
      let c := tickOpen m lanes w
      let successes := Lane.count .success c.state
      let failures := Lane.count .failure c.state
      let s := quorums.outcome successes failures c.state.length
      if s.isTerminal then
        ⟨s, parallel (h.record s) quorums false (resetLanes c.state), c.world,
          c.emitted ++ resetLanesEmissions c.state ++ finishedParallel h s⟩
      else
        let settled := successes + failures = c.state.length
        let warning :=
          if settled ∧ ¬ stalled then
            [.diagnostic (.parallelStalled h.name successes failures)]
          else []
        ⟨s, parallel (h.record s) quorums (stalled || settled) c.state, c.world,
          c.emitted ++ warning⟩
  | subtree h scope report tree, w =>
    match scope with
    | .shared =>
      let c := tickTree m tree w
      let s := report.answer c.answer
      ⟨s, subtree (h.record s) .shared report c.state, c.world, c.emitted⟩
    | .isolated =>
      let c := tickTree m tree { w with blackboard := tree.blackboard }
      let s := report.answer c.answer
      ⟨s, subtree (h.record s) .isolated report { c.state with blackboard := c.world.blackboard },
        { w with host := c.world.host }, c.emitted⟩

/--
Ticks children from number `start` on, `index` being the number of the first one in
the list, until an answer differs from `pass`; that answer and its child's number are
the answer of the walk.
-/
def walk (m : Moment) (pass : Status) (start index : Nat) :
    List (Node ω) → World ω → Step (Option (Nat × Status)) (List (Node ω)) (World ω)
  | [], w => ⟨none, [], w, []⟩
  | n :: ns, w =>
    if index < start then
      let rest := walk m pass start (index + 1) ns w
      { rest with state := n :: rest.state }
    else
      let c := tick m n w
      if c.answer = pass then
        let rest := walk m pass start (index + 1) ns c.world
        ⟨rest.answer, c.state :: rest.state, rest.world, c.emitted ++ rest.emitted⟩
      else ⟨some (index, c.answer), c.state :: ns, c.world, c.emitted⟩

def tickOpen (m : Moment) :
    List (Lane (Node ω)) → World ω → Step Unit (List (Lane (Node ω))) (World ω)
  | [], w => ⟨(), [], w, []⟩
  | ⟨slot, n⟩ :: ls, w =>
    if slot = .running then
      let c := tick m n w
      let rest := tickOpen m ls c.world
      ⟨(), ⟨c.answer, c.state⟩ :: rest.state, rest.world, c.emitted ++ rest.emitted⟩
    else
      let rest := tickOpen m ls w
      { rest with state := ⟨slot, n⟩ :: rest.state }

/--
The driver step of a tree against the blackboard of the given world, which need not
be the tree's own. A root that finishes is reset at once.
-/
def tickTree (m : Moment) :
    Tree ω → World ω → Step (Option Status) (Tree ω) (World ω)
  | ⟨none, last, channel, blackboard, ticks⟩, w =>
    ⟨none, ⟨none, last, channel, blackboard, ticks + 1⟩, w, []⟩
  | ⟨some root, _, channel, blackboard, ticks⟩, w =>
    let c := tick m root w
    let ended := c.answer.isTerminal
    let next := if ended then c.state.reset else c.state
    let cleared :=
      if ended then
        .diagnostic (.passEnded c.state.name m.index c.answer) :: c.state.resetEmissions
      else []
    ⟨some c.answer, ⟨some next, some c.answer, channel, blackboard, ticks + 1⟩, c.world,
      c.emitted ++ cleared ++ Emission.toChannel channel (Event.ticked m.index c.answer)⟩

end

end Node

end BehaviorTree
