import BehaviorTree.Proofs.Meter
import BehaviorTree.Proofs.Operation

/-!
# Clocks of nested trees

A tree that runs on its own clock hands its index down to the trees nested in it, and their
ticks are reported under that index. Their resets are not: a nested tree reports them under its
own count. The two agree at a reset exactly when the nested tree has been ticked as often as the
index of the tree around it says, which fails for every reset in the middle of a tick of a
nested tree that has not been passed over, and for every later reset of one that has.
-/

namespace BehaviorTree

variable {ω : Type}

namespace Operation

inductive OnOwnClock : Operation ω → Prop
  | tick (seconds : Float32) : OnOwnClock (.tick seconds)
  | reset : OnOwnClock .reset
  | resetRoot : OnOwnClock .resetRoot

def isTick : Operation ω → Bool
  | tick _ | tickAt _ | tickOn .. => true
  | _ => false

end Operation

/-- An event on a channel, with the index of the tree when the operation that sends it begins
and the counts of the nested trees that report to the channel when it ends. -/
structure LogEntry where
  clock : UInt64
  counts : List UInt64
  event : Event
  deriving DecidableEq, Repr

namespace Tree

variable {c : String} {t : Tree ω}

def counts (c : String) (t : Tree ω) : List UInt64 := (meters c t).map (·.count)

def chronicle (c : String) : List (Operation ω) → Tree ω → ω → List LogEntry
  | [], _, _ => []
  | op :: ops, t, host =>
    let s := t.perform host op
    (Emission.onChannel c s.emitted).map (⟨t.ticks, counts c s.state, ·⟩) ++
      chronicle c ops s.state s.world.host

theorem meters_resetRoot (c : String) (t : Tree ω) : meters c (resetRoot t) = meters c t := by
  rw [resetRoot, Node.resetTree_eq, meters, meters]
  cases t.root with
  | none => rfl
  | some r => simp [Node.meters_reset]

theorem reset_of_mem_resetRootEmissions (hc : t.channel ≠ some c) :
    ∀ e ∈ Emission.onChannel c (resetRootEmissions t), ∃ k ∈ meters c t, e = .reset k.count := by
  obtain ⟨root, _, channel, _, ticks⟩ := t
  rw [resetRootEmissions, Node.resetTreeEmissions, Emission.onChannel_append,
    Emission.onChannel_toChannel, if_neg hc, List.append_nil, meters]
  cases root with
  | none => simp [Node.resetChildEmissions]
  | some r => simpa [Node.resetChildEmissions] using Node.reset_of_mem_onChannel

theorem account_perform (hc : t.channel ≠ some c) (host : ω) {op : Operation ω}
    (hop : op.OnOwnClock) :
    Account t.ticks (meters c t) (meters c (t.perform host op).state)
      (Emission.onChannel c (t.perform host op).emitted) := by
  cases hop with
  | tick seconds =>
    let m : Moment := ⟨t.ticks, seconds⟩
    let w : World ω := ⟨t.blackboard, host⟩
    have htree := Node.account_tickTree (fun n (_ : n ∈ t.root) => n.accounts m c) w
    have hchannel : (Node.tickTree m t w).state.channel ≠ some c := by
      rwa [Node.channel_tickTree]
    rwa [meter?, if_neg hc, meter?, if_neg hchannel] at htree
  | reset =>
    have hmeters : meters c (t.perform host .reset).state = meters c t := meters_resetRoot c t
    rw [hmeters]
    exact Account.refl.resets (reset_of_mem_resetRootEmissions hc)
  | resetRoot =>
    have hmeters : meters c (t.perform host .resetRoot).state = meters c t := meters_resetRoot c t
    rw [hmeters]
    exact Account.refl.resets (reset_of_mem_resetRootEmissions hc)

theorem channel_perform (t : Tree ω) (host : ω) (op : Operation ω) :
    (t.perform host op).state.channel = t.channel := by
  obtain ⟨_, _, _, _, _⟩ := t
  cases op with
  | tick | tickAt | tickOn => exact Node.channel_tickTree _ _ _
  | reset | resetRoot | setRoot | write => rfl

theorem ticks_perform (t : Tree ω) (host : ω) {op : Operation ω} (hop : op.OnOwnClock) :
    (t.perform host op).state.ticks = if op.isTick then t.ticks + 1 else t.ticks := by
  obtain ⟨root, _, _, _, _⟩ := t
  cases hop with
  | tick => cases root <;> rfl
  | reset | resetRoot => rfl

theorem exists_meters_perform (hc : t.channel ≠ some c) {k : Meter} (hk : meters c t = [k])
    (host : ω) {op : Operation ω} (hop : op.OnOwnClock) :
    ∃ k', meters c (t.perform host op).state = [k'] ∧ k'.rooted = k.rooted := by
  have hrooted := (account_perform hc host hop).rooted
  rw [hk, List.map_singleton, List.map_eq_singleton_iff] at hrooted
  exact hrooted

theorem entries_dated {ops : List (Operation ω)} (hops : ∀ op ∈ ops, op.OnOwnClock)
    (hc : t.channel ≠ some c) {k : Meter} (hk : meters c t = [k]) (host : ω) :
    ∀ x ∈ chronicle c ops t host, ∃ count, x.counts = [count] ∧
      ((∃ s, x.event = .ticked x.clock s) ∨ x.event = .reset count) := by
  induction ops generalizing t host k with
  | nil => simp [chronicle]
  | cons op ops ih =>
    obtain ⟨hop, hops⟩ := List.forall_mem_cons.mp hops
    obtain ⟨k', hk', -⟩ := exists_meters_perform hc hk host hop
    have hc' : (t.perform host op).state.channel ≠ some c := by rwa [channel_perform t host op]
    intro x hx
    rcases List.mem_append.mp hx with hx | hx
    · obtain ⟨e, he, rfl⟩ := List.mem_map.mp hx
      refine ⟨k'.count, by simp [counts, hk'], ?_⟩
      refine ((account_perform hc host hop).dated e he).imp_right ?_
      simp [hk']
    · exact ih hops hc' hk' _ x hx

theorem counts_after {ops : List (Operation ω)} (hops : ∀ op ∈ ops, op.OnOwnClock)
    (hc : t.channel ≠ some c) {k : Meter} (hk : meters c t = [k]) (hrooted : k.rooted = true)
    (host : ω) : counts c (t.after ops host).1 =
      [k.count + .ofNat ((chronicle c ops t host).countP (·.event.tag = Event.tickTag))] := by
  induction ops generalizing t host k with
  | nil => simp [after, chronicle, counts, hk]
  | cons op ops ih =>
    obtain ⟨hop, hops⟩ := List.forall_mem_cons.mp hops
    obtain ⟨k', hk', hrooted'⟩ := exists_meters_perform hc hk host hop
    have hc' : (t.perform host op).state.channel ≠ some c := by rwa [channel_perform t host op]
    have hcounted := (account_perform hc host hop).counted (by simpa [hk] using hrooted)
    rw [hk, hk'] at hcounted
    simp only [List.map_singleton, List.sum_singleton] at hcounted
    rw [after, ih hops hc' hk' (hrooted'.trans hrooted), chronicle, List.countP_append,
      List.countP_map, hcounted, UInt64.ofNat_add, ← UInt64.add_assoc]
    rfl

theorem toNat_ticks_perform (t : Tree ω) (host : ω) {op : Operation ω} (hop : op.OnOwnClock)
    (hbound : t.ticks.toNat + [op].countP Operation.isTick < UInt64.size) :
    (t.perform host op).state.ticks.toNat = t.ticks.toNat + [op].countP Operation.isTick := by
  rw [ticks_perform t host hop]
  cases htick : op.isTick with
  | false =>
    have hcount : [op].countP Operation.isTick = 0 := by simp [htick]
    rw [hcount, if_neg Bool.false_ne_true, Nat.add_zero]
  | true =>
    have hcount : [op].countP Operation.isTick = 1 := by simp [htick]
    rw [hcount] at hbound ⊢
    rw [if_pos rfl, UInt64.toNat_add]
    exact Nat.mod_eq_of_lt hbound

theorem clocks_sorted {ops : List (Operation ω)} (hops : ∀ op ∈ ops, op.OnOwnClock)
    (hbound : t.ticks.toNat + ops.countP Operation.isTick < UInt64.size) (host : ω) :
    (∀ x ∈ chronicle c ops t host, t.ticks ≤ x.clock) ∧
      (chronicle c ops t host).Pairwise (·.clock ≤ ·.clock) := by
  induction ops generalizing t host with
  | nil => simp [chronicle]
  | cons op ops ih =>
    obtain ⟨hop, hops⟩ := List.forall_mem_cons.mp hops
    rw [← List.singleton_append, List.countP_append] at hbound
    have hticks := toNat_ticks_perform t host hop (by omega)
    have hrest : (t.perform host op).state.ticks.toNat + ops.countP Operation.isTick < UInt64.size := by
      omega
    obtain ⟨hfrom, hsorted⟩ := ih hops hrest (t.perform host op).world.host
    have hle : t.ticks ≤ (t.perform host op).state.ticks := by
      rw [UInt64.le_iff_toNat_le]
      omega
    have hhere : ∀ x ∈ (Emission.onChannel c (t.perform host op).emitted).map
        (⟨t.ticks, counts c (t.perform host op).state, ·⟩ : Event → LogEntry), x.clock = t.ticks := by
      intro x hx
      obtain ⟨e, -, rfl⟩ := List.mem_map.mp hx
      rfl
    constructor
    · intro x hx
      rcases List.mem_append.mp hx with hx | hx
      · exact UInt64.le_of_eq (hhere x hx).symm
      · exact UInt64.le_trans hle (hfrom x hx)
    · refine List.pairwise_append.mpr ⟨?_, hsorted, fun x hx y hy => ?_⟩
      · exact List.pairwise_map.mpr (List.pairwise_of_forall fun _ _ => UInt64.le_refl _)
      · rw [hhere x hx]
        exact UInt64.le_trans hle (hfrom y hy)

/-- The whole record of a nested tree goes by the clock of the tree around it exactly when at
each reset on record the two counts agree; then it never goes back. -/
theorem nested_log_onClock_iff {ops : List (Operation ω)} {k : Meter} (host : ω)
    (hops : ∀ op ∈ ops, op.OnOwnClock)
    (hbound : t.ticks.toNat + ops.countP Operation.isTick < UInt64.size)
    (houter : t.channel ≠ some c) (hnested : meters c t = [k]) :
    let log := chronicle c ops t host
    (∀ x ∈ log, ∃ count, x.counts = [count] ∧
      ((∃ s, x.event = .ticked x.clock s) ∨ x.event = .reset count)) ∧
    ((∀ x ∈ log, x.event.tick = x.clock) ↔
      ∀ x ∈ log, x.event.tag = Event.resetTag → x.counts = [x.clock]) ∧
    (k.rooted = true → counts c (t.after ops host).1 =
      [k.count + .ofNat (log.countP (·.event.tag = Event.tickTag))]) ∧
    log.Pairwise (·.clock ≤ ·.clock) ∧
    ((∀ x ∈ log, x.event.tick = x.clock) → log.Pairwise (·.event.tick ≤ ·.event.tick)) := by
  intro log
  have hdated := entries_dated hops houter hnested host
  obtain ⟨-, hsorted⟩ := clocks_sorted (c := c) hops hbound host
  refine ⟨hdated, ?_, fun hrooted => counts_after hops houter hnested hrooted host, hsorted, ?_⟩
  · constructor
    · intro htimely x hx htag
      obtain ⟨count, hcount, ⟨s, hs⟩ | hreset⟩ := hdated x hx
      · simp [hs, Event.ticked, Event.tickTag, Event.resetTag] at htag
      · have hclock : count = x.clock := by simpa [hreset, Event.reset] using htimely x hx
        rw [hcount, hclock]
    · intro hagree x hx
      obtain ⟨count, hcount, ⟨s, hs⟩ | hreset⟩ := hdated x hx
      · rw [hs]
        rfl
      · have hclock := hagree x hx (by rw [hreset]; rfl)
        rw [hcount, List.cons.injEq] at hclock
        rw [hreset]
        exact hclock.1
  · intro htimely
    exact hsorted.imp_of_mem fun hx hy hle => by rwa [htimely _ hx, htimely _ hy]

def lodger : Node Nat :=
  .embed .shared .forward
    { root := some (.action ⟨"inner", none⟩ (some fun _ w => (.running, w))), channel := some "x" }

/-- Ticked from the start, the nested tree counts as the tree around it does. -/
theorem nested_log_onClock_lodger :
    let log := chronicle "x" [.tick 0.5, .tick 0.5, .resetRoot] (ofRoot (some lodger)) 0
    log.map (fun x => (x.clock, x.event.tick)) = [(0, 0), (1, 1), (2, 2)] ∧
      log.Pairwise (·.event.tick ≤ ·.event.tick) := by
  intro log
  have hops : ∀ op ∈ ([.tick 0.5, .tick 0.5, .resetRoot] : List (Operation Nat)),
      op.OnOwnClock := by
    rintro op (_ | ⟨_, _ | ⟨_, _ | ⟨_, ⟨⟩⟩⟩⟩)
    · exact .tick _
    · exact .tick _
    · exact .resetRoot
  obtain ⟨-, -, -, -, hsorted⟩ := nested_log_onClock_iff (t := ofRoot (some lodger)) (c := "x")
    (k := ⟨true, 0⟩) 0 hops (by decide) (by decide) (by decide)
  exact ⟨by decide, hsorted (by decide)⟩

def gated : Tree Nat :=
  let gate : Action Nat := fun _ w =>
    (if w.host < 2 then .running else .success, { w with host := w.host + 1 })
  ofRoot (some (.compose .sequence false [.action ⟨"gate", none⟩ (some gate), lodger]))

/-- The reset comes between ticks two and three, and is dated one. -/
theorem gated_reset_goes_back :
    let log := chronicle "x" [.tick 0.5, .tick 0.5, .tick 0.5, .resetRoot] gated 0
    log.map (fun x => (x.clock, x.event)) = [(2, .ticked 2 .running), (3, .reset 1)] ∧
      ¬ (∀ x ∈ log, x.event.tick = x.clock) ∧ ¬ log.Pairwise (·.event.tick ≤ ·.event.tick) := by
  decide

end Tree

end BehaviorTree
