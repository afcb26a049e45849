import BehaviorTree.Proofs.Duality

/-!
# Flattening of composites

A composite among the children of another one of the same kind may be replaced by its own
children. The nested composite resets its children as soon as it finishes, where the flat one
keeps them until it finishes itself; but children that have passed are settled, and a reset of
those cannot be observed. With memory, one cursor of the flat composite stands for the two of
the nested ones.
-/

namespace BehaviorTree

variable {ω : Type}

/-- The cursor over a flat list of children, and the cursors of two nested composites at the same
place, if the inner one stands behind `a` other children and has `b` of its own. -/
inductive Cursor.Splits (a b : Nat) : (flat outer inner : Cursor) → Prop
  | restart : Splits a b .restart .restart .restart
  | before {i : Nat} (h : i < a) : Splits a b (.resume i) (.resume i) (.resume 0)
  | within {i : Nat} (h : i ≤ b) : Splits a b (.resume (a + i)) (.resume a) (.resume i)
  | behind (i : Nat) : Splits a b (.resume (a + b + i)) (.resume (a + 1 + i)) (.resume 0)

theorem Cursor.rewind_rewind (cursor : Cursor) : cursor.rewind.rewind = cursor.rewind := by
  cases cursor <;> rfl

theorem Cursor.running_of_lt_start {cursor : Cursor} {answer : Option (Nat × Status)} {i : Nat}
    (h : i < (cursor.after answer).start) : ∃ j, answer = some (j, .running) ∧ i < j := by
  unfold Cursor.after at h
  split at h
  · next j =>
    refine ⟨j, rfl, ?_⟩
    cases cursor with
    | restart => exact absurd h (Nat.not_lt_zero i)
    | resume => exact h
  · rw [Cursor.start_rewind] at h
    exact absurd h (Nat.not_lt_zero i)

theorem Cursor.not_lt_start_of_clears {order : Order} {cursor : Cursor}
    {answer : Option (Nat × Status)} (h : order.clears cursor answer = true) (i : Nat) :
    ¬ i < (cursor.after answer).start := by
  intro hi
  obtain ⟨j, rfl, -⟩ := Cursor.running_of_lt_start hi
  cases h

namespace Cursor.Splits

variable {a b : Nat} {flat outer inner : Cursor}

theorem rewind (h : Splits a b flat outer inner) :
    Splits a b flat.rewind outer.rewind inner.rewind := by
  have hzero : Splits a b (.resume 0) (.resume 0) (.resume 0) := by
    rcases Nat.eq_zero_or_pos a with rfl | ha
    · exact within (Nat.zero_le b)
    · exact before ha
  cases h with
  | restart => exact restart
  | before | within | behind => exact hzero

theorem moveTo_before (h : Splits a b flat outer inner) {i : Nat} (hi : i < a)
    (hstart : flat.start ≤ i) : Splits a b (flat.moveTo i) (outer.moveTo i) inner := by
  cases h with
  | restart => exact restart
  | before => exact before hi
  | within | behind =>
    simp only [Cursor.start] at hstart
    omega

theorem moveTo_within (h : Splits a b flat outer inner) {i : Nat} (hi : i ≤ b) :
    Splits a b (flat.moveTo (a + i)) (outer.moveTo a) (inner.moveTo i) := by
  cases h with
  | restart => exact restart
  | before | within | behind => exact within hi

theorem moveTo_behind (h : Splits a b flat outer inner) (i : Nat) :
    Splits a b (flat.moveTo (a + b + i)) (outer.moveTo (a + 1 + i)) inner.rewind := by
  cases h with
  | restart => exact restart
  | before | within | behind => exact behind i

theorem isRestart_eq (h : Splits a b flat outer inner) : outer.isRestart = flat.isRestart := by
  cases h <;> rfl

theorem lt_start_before (h : Splits a b flat outer inner) {i : Nat} (hi : i < a) :
    i < outer.start ↔ i < flat.start := by
  cases h <;> simp only [Cursor.start] <;> omega

theorem lt_start_within (h : Splits a b flat outer inner) (hopen : outer.start ≤ a) (i : Nat) :
    a + i < flat.start ↔ i < inner.start := by
  cases h <;> simp only [Cursor.start] at * <;> omega

theorem lt_start_flat (h : Splits a b flat outer inner) {i : Nat} (hi : i < inner.start) :
    a + i < flat.start := by
  cases h <;> simp only [Cursor.start] at * <;> omega

theorem lt_start_behind (h : Splits a b flat outer inner) (i : Nat) :
    a + 1 + i < outer.start ↔ a + b + i < flat.start := by
  cases h <;> simp only [Cursor.start] <;> omega

/-- The nested composite has been gone through. -/
theorem passed (h : Splits a b flat outer inner) (hpassed : a < outer.start) :
    a + b ≤ flat.start ∧ inner.rewind = inner := by
  cases h with
  | restart | before | within =>
    simp only [Cursor.start] at hpassed
    omega
  | behind i => exact ⟨Nat.le_add_right _ i, rfl⟩

end Cursor.Splits

namespace Node

/-! ## Walks over parts of a list -/

theorem walk_skip (m : Moment) (pass : Status) {start index : Nat} {ns : List (Node ω)}
    (w : World ω) (h : index + ns.length ≤ start) :
    walk m pass start index ns w = ⟨none, ns, w, []⟩ := by
  induction ns generalizing index with
  | nil => rw [walk]
  | cons n ns ih =>
    simp only [List.length_cons] at h
    rw [walk, if_pos (by omega), ih (by omega)]

theorem walk_append_of_some {m : Moment} {pass : Status} {start index : Nat} {ns : List (Node ω)}
    {w : World ω} {a : Nat × Status} (h : (walk m pass start index ns w).answer = some a)
    (ms : List (Node ω)) :
    let c := walk m pass start index ns w
    walk m pass start index (ns ++ ms) w = ⟨some a, c.state ++ ms, c.world, c.emitted⟩ := by
  induction ns generalizing index w with
  | nil => cases h
  | cons n ns ih =>
    rw [walk] at h
    rw [List.cons_append, walk, walk]
    by_cases hskip : index < start
    · rw [if_pos hskip] at h ⊢
      rw [if_pos hskip, ih h]
      rfl
    · rw [if_neg hskip] at h ⊢
      rw [if_neg hskip]
      by_cases hpass : (tick m n w).answer = pass
      · rw [if_pos hpass] at h ⊢
        rw [if_pos hpass, ih h]
        rfl
      · rw [if_neg hpass] at h ⊢
        cases h
        rw [if_neg hpass]
        rfl

def onward (c d : Step (Option (Nat × Status)) (List (Node ω)) (World ω)) :
    Step (Option (Nat × Status)) (List (Node ω)) (World ω) :=
  ⟨d.answer, c.state ++ d.state, d.world, c.emitted ++ d.emitted⟩

theorem walk_append_of_none {m : Moment} {pass : Status} {start index : Nat} {ns : List (Node ω)}
    {w : World ω} (h : (walk m pass start index ns w).answer = none) (ms : List (Node ω)) :
    let c := walk m pass start index ns w
    walk m pass start index (ns ++ ms) w =
      onward c (walk m pass start (index + ns.length) ms c.world) := by
  induction ns generalizing index w with
  | nil => rfl
  | cons n ns ih =>
    have hlen : index + (n :: ns).length = index + 1 + ns.length := by
      rw [List.length_cons]
      omega
    rw [walk] at h
    rw [List.cons_append, walk, walk, hlen]
    by_cases hskip : index < start
    · rw [if_pos hskip] at h ⊢
      rw [if_pos hskip, ih h]
      rfl
    · rw [if_neg hskip] at h ⊢
      rw [if_neg hskip]
      by_cases hpass : (tick m n w).answer = pass
      · rw [if_pos hpass] at h ⊢
        rw [if_pos hpass, ih h]
        simp [onward]
      · rw [if_neg hpass] at h
        cases h

/-- Two walks that skip the same children differ in the numbers of the children only. -/
theorem walk_shift (m : Moment) (pass : Status) (start start' k index : Nat)
    (ns : List (Node ω)) (w : World ω)
    (h : ∀ i, index ≤ i → i < index + ns.length → (i + k < start' ↔ i < start)) :
    let c := walk m pass start index ns w
    walk m pass start' (index + k) ns w =
      { c with answer := c.answer.map fun a => (a.1 + k, a.2) } := by
  induction ns generalizing index w with
  | nil => rfl
  | cons n ns ih =>
    simp only [List.length_cons] at h
    have hhere := h index (Nat.le_refl index) (by omega)
    have hrest : ∀ i, index + 1 ≤ i → i < index + 1 + ns.length → (i + k < start' ↔ i < start) :=
      fun i hi hi' => h i (by omega) (by omega)
    have hindex : index + k + 1 = index + 1 + k := by omega
    rw [walk, walk, hindex]
    by_cases hskip : index < start
    · rw [if_pos hskip, if_pos (hhere.mpr hskip), ih (index + 1) w hrest]
    · rw [if_neg hskip, if_neg (mt hhere.mp hskip)]
      by_cases hpass : (tick m n w).answer = pass
      · rw [if_pos hpass, if_pos hpass, ih (index + 1) _ hrest]
      · rw [if_neg hpass, if_neg hpass]
        rfl

theorem walk_eq_some {m : Moment} {pass : Status} {start index : Nat} {ns : List (Node ω)}
    {w : World ω} {i : Nat} {s : Status}
    (h : (walk m pass start index ns w).answer = some (i, s)) :
    start ≤ i ∧ index ≤ i ∧ i < index + ns.length ∧ s ≠ pass := by
  induction ns generalizing index w with
  | nil => cases h
  | cons n ns ih =>
    rw [walk] at h
    rw [List.length_cons]
    by_cases hskip : index < start
    · rw [if_pos hskip] at h
      have := ih h
      exact ⟨this.1, by omega, by omega, this.2.2.2⟩
    · rw [if_neg hskip] at h
      by_cases hpass : (tick m n w).answer = pass
      · rw [if_pos hpass] at h
        have := ih h
        exact ⟨this.1, by omega, by omega, this.2.2.2⟩
      · rw [if_neg hpass] at h
        cases h
        exact ⟨by omega, by omega, by omega, hpass⟩

/-- Children that a walk has gone through behave as after a reset, if those did that it skips. -/
theorem alike_reset_of_walk (m : Moment) {pass : Status} (hterminal : pass.isTerminal = true)
    (start index : Nat) {ns : List (Node ω)} (w : World ω) (hns : ∀ n ∈ ns, n.Settler)
    (hskipped : ∀ i n, ns[i]? = some n → index + i < start → n.reset.Alike n) :
    let c := walk m pass start index ns w
    ∀ i n, c.state[i]? = some n → (∀ j s, c.answer = some (j, s) → index + i < j) →
      n.reset.Alike n := by
  induction ns generalizing index w with
  | nil => simp [walk]
  | cons n ns ih =>
    obtain ⟨hn, hns⟩ := List.forall_mem_cons.mp hns
    have hskipped' : ∀ i d, ns[i]? = some d → index + 1 + i < start → d.reset.Alike d :=
      fun i d hd hi => hskipped (i + 1) d hd (by omega)
    rw [walk]
    intro c
    by_cases hskip : index < start
    · simp only [c, if_pos hskip]
      rintro (_ | i) d hd hstop
      · cases hd
        exact hskipped 0 n rfl hskip
      · refine ih _ _ hns hskipped' i d hd fun j s hj => ?_
        have := hstop j s hj
        omega
    · simp only [c, if_neg hskip]
      by_cases hpass : (tick m n w).answer = pass
      · rw [if_pos hpass]
        rintro (_ | i) d hd hstop
        · cases hd
          exact (hn.settlesAt m w (by rw [hpass, hterminal])).alike_reset
        · refine ih _ _ hns hskipped' i d hd fun j s hj => ?_
          have := hstop j s hj
          omega
      · rw [if_neg hpass]
        intro i d _ hstop
        have := hstop index _ rfl
        omega

theorem alike_resetAll_of_walk (m : Moment) {pass : Status} (hterminal : pass.isTerminal = true)
    (start : Nat) {ns : List (Node ω)} (w : World ω) (hns : ∀ n ∈ ns, n.Settler)
    (hskipped : ∀ i n, ns[i]? = some n → i < start → n.reset.Alike n) :
    let c := walk m pass start 0 ns w
    c.answer = none → List.Forall₂ Alike (resetAll c.state) c.state := by
  intro c hend
  have hgone := alike_reset_of_walk m hterminal start 0 w hns (by simpa using hskipped)
  rw [resetAll_eq_map, List.forall₂_map_left_iff]
  refine List.forall₂_same.mpr fun n hn => ?_
  obtain ⟨i, hi, rfl⟩ := List.getElem_of_mem hn
  exact hgone i _ (List.getElem?_eq_getElem hi) fun j s hj => by simp [c, hj] at hend

/-! ## The nested composite -/

def nested (order : Order) (outer inner : Cursor) (as bs cs : List (Node ω)) : Node ω :=
  composite ⟨order.label outer, none⟩ order outer
    (as ++ composite ⟨order.label inner, none⟩ order inner bs :: cs)

/-- What a walk over the children of the flat composite and one over those of the outer composite
make of them. The inner composite may have reset its children where the flat one is about to. -/
structure Parallels (order : Order) (a b : Nat) (flat outer : Cursor)
    (c c' : Step (Option (Nat × Status)) (List (Node ω)) (World ω)) : Prop where
  world : c'.world = c.world
  conclude : order.conclude c'.answer = order.conclude c.answer
  clears : order.clears outer c'.answer = order.clears flat c.answer
  children : ∃ as bs cs h inner bs', c.state = as ++ (bs ++ cs) ∧
    c'.state = as ++ composite h order inner bs' :: cs ∧ as.length = a ∧ bs.length = b ∧
    Cursor.Splits a b (flat.after c.answer) (outer.after c'.answer)
      (if order.clears flat c.answer then inner.rewind else inner) ∧
    (List.Forall₂ Alike bs' bs ∨ order.clears flat c.answer = true ∧ bs' = resetAll bs)

section Walks

variable (m : Moment) (order : Order) {flat outer inner : Cursor} {as bs cs : List (Node ω)}
  (w : World ω)

theorem length_walk (m : Moment) (pass : Status) (start index : Nat) (ns : List (Node ω))
    (w : World ω) : (walk m pass start index ns w).state.length = ns.length :=
  (successor_walk m pass start index ns w).length_eq.symm

theorem walk_before (hsplit : Cursor.Splits as.length bs.length flat outer inner) :
    walk m order.pass outer.start 0 as w = walk m order.pass flat.start 0 as w := by
  have hshift := walk_shift m order.pass flat.start outer.start 0 0 as w
    fun i _ hi => hsplit.lt_start_before (by omega)
  simpa using hshift

theorem walk_within (hsplit : Cursor.Splits as.length bs.length flat outer inner)
    (hopen : outer.start ≤ as.length) (v : World ω) :
    let c := walk m order.pass inner.start 0 bs v
    walk m order.pass flat.start as.length bs v =
      { c with answer := c.answer.map fun a => (as.length + a.1, a.2) } := by
  have hshift := walk_shift m order.pass inner.start flat.start as.length 0 bs v fun i _ _ => by
    rw [Nat.add_comm, hsplit.lt_start_within hopen]
  simpa [Nat.add_comm] using hshift

/-- Behind the nested composite the two walks differ in the numbers of the children. -/
theorem walk_behind (cs : List (Node ω))
    (hsplit : Cursor.Splits as.length bs.length flat outer inner) (v : World ω) :
    ∃ c : Step (Option (Nat × Status)) (List (Node ω)) (World ω),
      walk m order.pass flat.start (as.length + bs.length) cs v =
        { c with answer := c.answer.map fun a => (as.length + bs.length + a.1, a.2) } ∧
      walk m order.pass outer.start (as.length + 1) cs v =
        { c with answer := c.answer.map fun a => (as.length + 1 + a.1, a.2) } := by
  let start := flat.start - (as.length + bs.length)
  refine ⟨walk m order.pass start 0 cs v, ?_, ?_⟩
  · have hshift := walk_shift m order.pass start flat.start (as.length + bs.length) 0 cs v
      fun i _ _ => by omega
    simpa [Nat.add_comm] using hshift
  · have hshift := walk_shift m order.pass start outer.start (as.length + 1) 0 cs v
      fun i _ _ => by
        have := hsplit.lt_start_behind i
        omega
    simpa [Nat.add_comm] using hshift

/-! The walks come to an end in front of the nested composite, in it, or behind it. -/

theorem parallels_of_before (hsplit : Cursor.Splits as.length bs.length flat outer inner)
    (h : Head) {c : Step (Option (Nat × Status)) (List (Node ω)) (World ω)} {i : Nat} {s : Status}
    (hi : i < as.length) (hstart : flat.start ≤ i) (hlen : c.state.length = as.length) :
    Parallels order as.length bs.length flat outer
      ⟨some (i, s), c.state ++ (bs ++ cs), c.world, c.emitted⟩
      ⟨some (i, s), c.state ++ composite h order inner bs :: cs, c.world, c.emitted⟩ := by
  refine ⟨rfl, rfl, rfl, c.state, bs, cs, h, inner, bs, rfl, rfl, hlen, rfl, ?_, .inl ?_⟩
  · cases s with
    | running => exact hsplit.moveTo_before hi hstart
    | success | failure => exact hsplit.rewind
  · exact List.forall₂_refl bs

theorem parallels_of_within {a : Nat} (hsplit : Cursor.Splits a bs.length flat outer inner)
    {c c' : Step (Option (Nat × Status)) (List (Node ω)) (World ω)} {j : Nat} {s : Status}
    (hj : j ≤ bs.length) (hworld : c'.world = c.world) (hc : c.answer = some (a + j, s))
    (hc' : c'.answer = some (a, s)) {as' bs' : List (Node ω)} {h : Head}
    (hstate : c.state = as' ++ (bs' ++ cs))
    (hstate' : c'.state = as' ++ composite h order (inner.after (some (j, s)))
      (if s.isTerminal then resetAll bs' else bs') :: cs)
    (has : as'.length = a) (hbs : bs'.length = bs.length) :
    Parallels order a bs.length flat outer c c' := by
  refine ⟨hworld, by rw [hc, hc']; rfl, by rw [hc, hc']; rfl, as', bs', cs, h, _, _, hstate,
    hstate', has, hbs, ?_, ?_⟩
  · rw [hc, hc']
    cases s with
    | running => exact hsplit.moveTo_within hj
    | success | failure =>
      simp only [Order.clears, Status.isTerminal, Cursor.after, Cursor.rewind_rewind]
      exact hsplit.rewind
  · rw [hc]
    cases s with
    | running => exact .inl (List.forall₂_refl bs')
    | success | failure => exact .inr ⟨rfl, rfl⟩

theorem parallels_of_behind {a b : Nat} (hsplit : Cursor.Splits a b flat outer inner)
    {c c' : Step (Option (Nat × Status)) (List (Node ω)) (World ω)}
    {answer : Option (Nat × Status)} (hworld : c'.world = c.world)
    (hc : c.answer = answer.map fun d => (a + b + d.1, d.2))
    (hc' : c'.answer = answer.map fun d => (a + 1 + d.1, d.2))
    {as' bs' bs'' cs' : List (Node ω)} {h : Head} (hstate : c.state = as' ++ (bs' ++ cs'))
    (hstate' : c'.state = as' ++ composite h order inner.rewind bs'' :: cs')
    (has : as'.length = a) (hbs : bs'.length = b) (halike : List.Forall₂ Alike bs'' bs') :
    Parallels order a b flat outer c c' := by
  have hclears : order.clears outer c'.answer = order.clears flat c.answer := by
    rw [hc, hc']
    cases answer with
    | none => simp [Order.clears, Order.keepsPassedChildren, hsplit.isRestart_eq]
    | some d => rfl
  refine ⟨hworld, ?_, hclears, as', bs', cs', h, _, _, hstate, hstate', has, hbs, ?_, .inl halike⟩
  · rw [hc, hc']
    cases answer <;> rfl
  · rw [Cursor.rewind_rewind, ite_self, hc, hc']
    cases answer with
    | none => exact hsplit.rewind
    | some d =>
      obtain ⟨i, s⟩ := d
      cases s with
      | running => exact hsplit.moveTo_behind i
      | success | failure => exact hsplit.rewind

/-! In the walks that go on behind `as`, the nested composite is ticked or it has been passed. -/

section

variable {c : Step (Option (Nat × Status)) (List (Node ω)) (World ω)}

theorem parallels_inside (cs : List (Node ω))
    (hsplit : Cursor.Splits as.length bs.length flat outer inner) (h : Head)
    (hopen : outer.start ≤ as.length) (hbs : ∀ n ∈ bs, n.Settler)
    (hskipped : ∀ i n, bs[i]? = some n → i < inner.start → n.reset.Alike n)
    (hlen : c.state.length = as.length) :
    Parallels order as.length bs.length flat outer
      (onward c (walk m order.pass flat.start as.length (bs ++ cs) c.world))
      (onward c (walk m order.pass outer.start as.length (composite h order inner bs :: cs)
        c.world)) := by
  have hwithin := walk_within m order hsplit hopen c.world
  have hsettled := alike_resetAll_of_walk m order.isTerminal_pass inner.start c.world hbs hskipped
  have hstop : ∀ j s, (walk m order.pass inner.start 0 bs c.world).answer = some (j, s) →
      j < bs.length ∧ s ≠ order.pass := by
    intro j s hj
    obtain ⟨-, -, hlt, hs⟩ := walk_eq_some hj
    exact ⟨by omega, hs⟩
  have hlen' := length_walk m order.pass inner.start 0 bs c.world
  rw [walk, if_neg (by omega), tick_composite]
  generalize walk m order.pass inner.start 0 bs c.world = d at hwithin hsettled hstop hlen'
  cases hend : d.answer with
  | some answer =>
    obtain ⟨j, s⟩ := answer
    obtain ⟨hj, hs⟩ := hstop j s hend
    have hanswer : (walk m order.pass flat.start as.length bs c.world).answer =
        some (as.length + j, s) := by rw [hwithin, hend]; rfl
    have hstops : ¬ order.conclude (some (j, s)) = order.pass := hs
    rw [walk_append_of_some hanswer cs, hwithin]
    simp only [if_neg hstops]
    exact parallels_of_within order hsplit (Nat.le_of_lt hj) rfl rfl rfl rfl rfl hlen hlen'
  | none =>
    -- The inner composite passes and may reset its children, all of which are settled.
    have hanswer : (walk m order.pass flat.start as.length bs c.world).answer = none := by
      rw [hwithin, hend]; rfl
    have hpasses : order.conclude none = order.pass := rfl
    obtain ⟨e, hflat, houter⟩ := walk_behind m order cs hsplit d.world
    rw [walk_append_of_none hanswer cs, hwithin]
    simp only [if_pos hpasses, hflat, houter]
    refine parallels_of_behind order hsplit rfl rfl rfl rfl rfl hlen hlen' ?_
    split
    · exact hsettled hend
    · exact List.forall₂_refl _

theorem parallels_beyond (cs : List (Node ω))
    (hsplit : Cursor.Splits as.length bs.length flat outer inner) (h : Head)
    (hpassed : as.length < outer.start) (hlen : c.state.length = as.length) :
    Parallels order as.length bs.length flat outer
      (onward c (walk m order.pass flat.start as.length (bs ++ cs) c.world))
      (onward c (walk m order.pass outer.start as.length (composite h order inner bs :: cs)
        c.world)) := by
  obtain ⟨hskip, hrewind⟩ := hsplit.passed hpassed
  obtain ⟨e, hflat, houter⟩ := walk_behind m order cs hsplit c.world
  have hwalk := walk_skip m order.pass c.world hskip
  rw [walk_append_of_none (by rw [hwalk]), hwalk, walk, if_pos hpassed, hflat, houter]
  exact parallels_of_behind order hsplit rfl rfl rfl rfl (by rw [hrewind]; rfl) hlen rfl
    (List.forall₂_refl bs)

end

theorem parallels_walk (cs : List (Node ω))
    (hsplit : Cursor.Splits as.length bs.length flat outer inner) (h : Head)
    (hbs : ∀ n ∈ bs, n.Settler)
    (hskipped : ∀ i n, bs[i]? = some n → i < inner.start → n.reset.Alike n) :
    Parallels order as.length bs.length flat outer
      (walk m order.pass flat.start 0 (as ++ (bs ++ cs)) w)
      (walk m order.pass outer.start 0 (as ++ composite h order inner bs :: cs) w) := by
  have hbefore := walk_before m order w hsplit
  have hlen := length_walk m order.pass flat.start 0 as w
  cases hanswer : (walk m order.pass flat.start 0 as w).answer with
  | some d =>
    obtain ⟨i, s⟩ := d
    obtain ⟨hstart, -, hi, -⟩ := walk_eq_some hanswer
    rw [walk_append_of_some hanswer (bs ++ cs),
      walk_append_of_some (hbefore ▸ hanswer) (composite h order inner bs :: cs), hbefore]
    exact parallels_of_before order hsplit h (by omega) hstart hlen
  | none =>
    rw [walk_append_of_none hanswer (bs ++ cs),
      walk_append_of_none (hbefore ▸ hanswer) (composite h order inner bs :: cs), hbefore,
      Nat.zero_add]
    rcases Nat.lt_or_ge as.length outer.start with hpassed | hopen
    · exact parallels_beyond m order cs hsplit h hpassed hlen
    · exact parallels_inside m order cs hsplit h hopen hbs hskipped hlen

end Walks

structure Parted (flat outer inner : Cursor) (as bs cs : List (Node ω)) : Prop where
  splits : Cursor.Splits as.length bs.length flat outer inner
  settlers : ∀ c ∈ as ++ (bs ++ cs), c.Settler
  passed : ∀ i c, (as ++ (bs ++ cs))[i]? = some c → i < flat.start → c.reset.Alike c

def Flattens (n d : Node ω) : Prop :=
  ∃ h order flat outer inner as bs cs, n = composite h order flat (as ++ (bs ++ cs)) ∧
    Parted flat outer inner as bs cs ∧ (nested order outer inner as bs cs).Alike d

section

variable {order : Order} {flat outer inner : Cursor} {as bs cs : List (Node ω)}

theorem alike_nested (h h' : Head) {bs' : List (Node ω)} (hbs : List.Forall₂ Alike bs' bs) :
    (nested order outer inner as bs cs).Alike
      (composite h order outer (as ++ composite h' order inner bs' :: cs)) := by
  refine alike_composite _ _ _ _ (List.rel_append (List.forall₂_refl as) (.cons ?_ ?_))
  · exact alike_composite _ _ _ _ (forall₂_alike_symm hbs)
  · exact List.forall₂_refl cs

theorem resetAll_append (as bs : List (Node ω)) :
    resetAll (as ++ bs) = resetAll as ++ resetAll bs := by
  simp only [resetAll_eq_map, List.map_append]

theorem resetAll_resetAll (as : List (Node ω)) : resetAll (resetAll as) = resetAll as := by
  simp only [resetAll_eq_map, List.map_map]
  exact List.map_congr_left fun n _ => reset_reset n

theorem length_resetAll (as : List (Node ω)) : (resetAll as).length = as.length := by
  rw [resetAll_eq_map, List.length_map]

theorem Parted.passed_within (h : Parted flat outer inner as bs cs) :
    ∀ i n, bs[i]? = some n → i < inner.start → n.reset.Alike n := by
  intro i n hn hi
  refine h.passed (as.length + i) n ?_ (h.splits.lt_start_flat hi)
  obtain ⟨hlt, -⟩ := List.getElem?_eq_some_iff.mp hn
  rw [List.getElem?_append_right (Nat.le_add_right ..), Nat.add_sub_cancel_left,
    List.getElem?_append_left hlt, hn]

/-- Heads do not matter, nor does it which nodes the inner composite has that behave alike. -/
theorem Parted.flattens (hparted : Parted flat outer inner as bs cs) (head : Head) {h h' : Head}
    {bs' : List (Node ω)} (hbs : List.Forall₂ Alike bs' bs) {d : Node ω}
    (halike : (composite h order outer (as ++ composite h' order inner bs' :: cs)).Alike d) :
    (composite head order flat (as ++ (bs ++ cs))).Flattens d :=
  ⟨head, order, flat, outer, inner, as, bs, cs, rfl, hparted, (alike_nested h h' hbs).trans halike⟩

theorem Flattens.tick {n d : Node ω} (h : n.Flattens d) : TicksMatch Eq Flattens n d := by
  obtain ⟨head, order, flat, outer, inner, as, bs, cs, rfl, hparted, halike⟩ := h
  intro m m' w w' hm hw
  have hstep := (isBisimulation_bisimilar Eq).tick halike hm hw
  have hsettlers := Settler.children_tick (n := composite head order flat (as ++ (bs ++ cs)))
    hparted.settlers m w
  have hpassed := alike_reset_of_walk m order.isTerminal_pass flat.start 0 w hparted.settlers
    (by simpa using hparted.passed)
  have hwalks := parallels_walk m order w cs hparted.splits ⟨order.label inner, none⟩
    (fun n hn => hparted.settlers n (by simp [hn])) hparted.passed_within
  rw [nested, tick_composite] at hstep
  rw [tick_composite] at hsettlers ⊢
  generalize walk m order.pass flat.start 0 (as ++ (bs ++ cs)) w = c at *
  generalize walk m order.pass outer.start 0
    (as ++ composite ⟨order.label inner, none⟩ order inner bs :: cs) w = c' at *
  obtain ⟨hworld, hconclude, hclears, as', bs', cs', h', inner', bs'', hstate, hstate', has, hbs,
    hsplits, hinner⟩ := hwalks
  rw [hworld] at hstep
  refine ⟨hconclude ▸ hstep.answer, ?_, hstep.world⟩
  have hnested := hstep.state
  simp only [hclears, hstate'] at hnested
  simp only [children] at hsettlers
  -- Either all children are reset and both cursors rewound, or those behind the cursor have passed.
  cases hclear : order.clears flat c.answer with
  | true =>
    have hchildren : resetAll c.state = resetAll as' ++ (resetAll bs' ++ resetAll cs') := by
      rw [hstate, resetAll_append, resetAll_append]
    rw [if_pos hclear] at hsettlers hsplits
    rw [if_pos hclear, resetAll_append] at hnested
    have hparted' : Parted (flat.after c.answer) (outer.after c'.answer) inner'.rewind
        (resetAll as') (resetAll bs') (resetAll cs') :=
      ⟨by rwa [length_resetAll, length_resetAll, has, hbs], by rwa [← hchildren],
        fun i _ _ hi => absurd hi (Cursor.not_lt_start_of_clears hclear i)⟩
    have hkept : List.Forall₂ Alike (resetAll bs'') (resetAll bs') := by
      rcases hinner with hinner | ⟨-, rfl⟩
      · exact forall₂_alike_resetAll hinner
      · rw [resetAll_resetAll]
        exact List.forall₂_refl _
    simp only [if_true, hchildren]
    exact hparted'.flattens _ hkept hnested
  | false =>
    have hclear' : ¬ order.clears flat c.answer = true := by simp [hclear]
    rw [if_neg hclear'] at hnested hsettlers hsplits
    have hparted' : Parted (flat.after c.answer) (outer.after c'.answer) inner' as' bs' cs' := by
      refine ⟨by rwa [has, hbs], by rwa [← hstate], fun i n hn hi => ?_⟩
      obtain ⟨j, hj, hlt⟩ := Cursor.running_of_lt_start hi
      rw [← hstate] at hn
      refine hpassed i n hn fun k s hk => ?_
      rw [hj] at hk
      cases hk
      omega
    have hkept : List.Forall₂ Alike bs'' bs' := hinner.resolve_right fun h => hclear' h.1
    simp only [Bool.false_eq_true, if_false, hstate]
    exact hparted'.flattens _ hkept hnested

theorem Flattens.reset {n d : Node ω} (h : n.Flattens d) : n.reset.Flattens d.reset := by
  obtain ⟨head, order, flat, outer, inner, as, bs, cs, rfl, hparted, halike⟩ := h
  have hchildren : resetAll (as ++ (bs ++ cs)) = resetAll as ++ (resetAll bs ++ resetAll cs) := by
    rw [resetAll_append, resetAll_append]
  have hnested : (nested order outer inner as bs cs).reset.Alike d.reset := halike.reset
  rw [nested, Node.reset, resetAll_append] at hnested
  have hsettlers : ∀ c ∈ resetAll as ++ (resetAll bs ++ resetAll cs), c.Settler := by
    have hreset := Settler.children_reset (n := composite head order flat (as ++ (bs ++ cs)))
      hparted.settlers
    simpa [children, Node.reset, hchildren] using hreset
  have hparted' : Parted flat.rewind outer.rewind inner.rewind (resetAll as) (resetAll bs)
      (resetAll cs) := by
    refine ⟨?_, hsettlers, fun i n _ hi => ?_⟩
    · rw [length_resetAll, length_resetAll]
      exact hparted.splits.rewind
    · rw [Cursor.start_rewind] at hi
      exact absurd hi (Nat.not_lt_zero i)
  rw [Node.reset, hchildren]
  exact hparted'.flattens _ (List.forall₂_refl _) hnested

end

variable {as bs cs : List (Node ω)}

theorem alike_flatten (order : Order) (memory : Bool) (h : ∀ c ∈ as ++ (bs ++ cs), c.Settler) :
    (compose order memory (as ++ (bs ++ cs))).Alike
      (compose order memory (as ++ compose order memory bs :: cs)) := by
  let cursor := if memory then Cursor.resume 0 else .restart
  have hstart : cursor.start = 0 := by cases memory <;> rfl
  have hsplits : Cursor.Splits as.length bs.length cursor cursor cursor := by
    cases memory with
    | false => exact .restart
    | true =>
      -- a rewound cursor, wherever it stood
      exact (Cursor.Splits.behind 0).rewind
  have hparted : Parted cursor cursor cursor as bs cs :=
    ⟨hsplits, h, fun i c _ hi => absurd (hstart ▸ hi) (Nat.not_lt_zero i)⟩
  exact ⟨Flattens, ⟨Flattens.tick, Flattens.reset⟩,
    _, order, cursor, cursor, cursor, as, bs, cs, rfl, hparted, Alike.refl _⟩

/-- A composite with one of its own kind among its children, and the one with the children of that
in its place: from the as-built state on they give the same responses in every run and call the
same closures in the same order. -/
theorem responses_flatten (order : Order) (memory : Bool)
    (hchildren : ∀ c ∈ as ++ bs ++ cs, c.Fresh ∧ c.Everywhere Forwards) (ss : List Stimulus)
    (w : World ω) :
    let n := compose order memory (as ++ [compose order memory bs] ++ cs)
    let flat := compose order memory (as ++ bs ++ cs)
    responses ss n w = responses ss flat w ∧
      responsesWithCalls ss n w = responsesWithCalls ss flat w := by
  simp only [List.append_assoc, List.singleton_append] at hchildren ⊢
  have hsettlers : ∀ c ∈ as ++ (bs ++ cs), c.Settler := by
    intro c hc
    obtain ⟨hfresh, hforwards⟩ := hchildren c hc
    exact .of_fresh hfresh hforwards
  have hrecorded :
      ∀ c ∈ as.map recorded ++ (bs.map recorded ++ cs.map recorded), c.Settler := by
    intro c hc
    rw [← List.map_append, ← List.map_append] at hc
    obtain ⟨b, hb, rfl⟩ := List.mem_map.mp hc
    obtain ⟨hfresh, hforwards⟩ := hchildren b hb
    exact .of_fresh (fresh_recorded hfresh) (forwards_recorded hforwards)
  constructor
  · exact ((alike_flatten order memory hsettlers).responses_eq ss w).symm
  · simp only [responsesWithCalls, recorded_compose, List.map_append, List.map_cons]
    exact ((alike_flatten order memory hrecorded).responses_eq ss _).symm

/-- The sequences resume at a child of the inner one. It gives up in the second tick, and each of
them starts over. -/
theorem responses_flatten_hesitant :
    let ready : Node Nat := action ⟨"ready", none⟩ (some fun _ w => (.success, w))
    let n := compose .sequence true ([ready] ++ [compose .sequence true [ready, hesitant]] ++ [])
    let flat := compose .sequence true ([ready] ++ [ready, hesitant] ++ [])
    let ss : List Stimulus :=
      [.tick ⟨0, 0.5⟩, .tick ⟨1, 0.5⟩, .write fun b => b, .tick ⟨2, 0.5⟩, .reset, .tick ⟨7, 0.5⟩]
    let w : World Nat := ⟨{}, 0⟩
    (responses ss n w).map (·.1) =
        [some .running, some .failure, none, some .failure, none, some .failure] ∧
      responses ss n w = responses ss flat w ∧
      responsesWithCalls ss n w = responsesWithCalls ss flat w := by
  intro ready n flat ss w
  have hchildren : ∀ c ∈ [ready] ++ [ready, hesitant] ++ [],
      c.Fresh ∧ c.Everywhere Forwards := by
    have hready : ready.Fresh ∧ ready.Everywhere Forwards :=
      ⟨fresh_action _ _, by simp [ready, Forwards, blueprint, Blueprint.Forwards]⟩
    simpa using ⟨hready, fresh_hesitant, forwards_hesitant⟩
  exact ⟨by decide, responses_flatten .sequence true hchildren ss w⟩

end Node

end BehaviorTree
