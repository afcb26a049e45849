import BehaviorTree.Proofs.Round

/-!
# Decisions without memory

A composite without memory ticks a shortest part of its children, from the first one on, that
decides it: all up to the first that does not pass. The children behind that one take no part,
whatever state they are in, though they are reset with the others when the composite finishes.
-/

namespace BehaviorTree

variable {ω : Type}

namespace Node

theorem round_callsFrom_zero (m : Moment) (pass : Status) (ns : List (Node ω)) (w : World ω) :
    let k := decider m pass ns w
    let r := round m (callsFrom m pass 0 ns w) ns w
    let part := fullRound m (ns.take (k + 1)) w
    r.answer[k]? = (fullRound m ns w).answer[k]? ∧
      r.state = (fullRound m ns w).state.take (k + 1) ++ ns.drop (k + 1) ∧
      r.world = part.world ∧ r.emitted = part.emitted := by
  intro k r part
  have hr : r = ⟨part.answer ++ (ns.drop (k + 1)).map fun _ => none,
      part.state ++ ns.drop (k + 1), part.world, part.emitted⟩ := round_replicate m (k + 1) ns w
  obtain ⟨hanswer, hstate⟩ := fullRound_take m (k + 1) ns w
  refine ⟨?_, ?_, ?_, ?_⟩
  · have hlen : (fullRound m ns w).answer.length = ns.length := length_answer_round ..
    have hpart : part.answer = (fullRound m ns w).answer.take (k + 1) := hanswer
    rw [hr]
    simp only [hpart]
    by_cases hk : k < ns.length
    · rw [List.getElem?_append_left (by rw [List.length_take]; omega),
        List.getElem?_take_of_lt (Nat.lt_succ_self k)]
    · rw [List.getElem?_eq_none (by simp; omega), List.getElem?_eq_none (by omega)]
  · rw [hr, ← hstate]
  · rw [hr]
  · rw [hr]

theorem answer_fullRound (m : Moment) {ns : List (Node ω)} (w : World ω) {i : Nat}
    (hi : i < ns.length) : ∃ s, (fullRound m ns w).answer[i]? = some (some s) := by
  obtain ⟨a, _, ha, -, hturn⟩ := turn_round m (ns.map fun _ => true) ns w i hi
  have hsome := hturn.isSome_eq
  rw [List.getElem?_map, List.getElem?_eq_getElem hi] at hsome
  obtain ⟨s, rfl⟩ := Option.isSome_iff_exists.mp hsome
  exact ⟨s, ha⟩

theorem decider_cases (m : Moment) (pass : Status) (ns : List (Node ω)) (w : World ω) :
    let k := decider m pass ns w
    (k = ns.length ∧ (fullRound m ns w).answer[k]? = none) ∨
      ∃ s, s ≠ pass ∧ (fullRound m ns w).answer[k]? = some (some s) := by
  intro k
  have hlen : (fullRound m ns w).answer.length = ns.length := length_answer_round ..
  have hle : k ≤ ns.length := hlen ▸ List.findIdx_le_length
  rcases Nat.lt_or_eq_of_le hle with hlt | heq
  · obtain ⟨s, hs⟩ := answer_fullRound m w hlt
    have hk : (fullRound m ns w).answer.findIdx (· ≠ some pass) <
        (fullRound m ns w).answer.length := hlen ▸ hlt
    have hnot := List.findIdx_getElem (w := hk)
    rw [← Option.some.inj ((List.getElem?_eq_getElem hk).symm.trans hs).symm] at hnot
    exact .inr ⟨s, by simpa using hnot, hs⟩
  · exact .inl ⟨heq, List.getElem?_eq_none (by omega)⟩

/-- Let the children be ticked one after the other, and let `k` be the number of the first that does
not pass. Only the children up to that one are ticked, and its answer is the answer of the
composite. -/
theorem tick_restart_decided (m : Moment) (h : Head) (order : Order) (cs : List (Node ω))
    (w : World ω) :
    let all := fullRound m cs w
    let k := all.answer.findIdx (· ≠ some order.pass)
    let part := fullRound m (cs.take (k + 1)) w
    let s := tick m (composite h order .restart cs) w
    s.answer = (all.answer[k]?.join).getD order.pass ∧
    s.world = part.world ∧
    part.emitted <+: s.emitted ∧
    (s.answer = .running → s.state.children = all.state.take (k + 1) ++ cs.drop (k + 1)) ∧
    (s.answer.isTerminal = true → ¬ (order = .selector ∧ s.answer = .failure) →
      s.state.children = (all.state.take (k + 1) ++ cs.drop (k + 1)).map reset) ∧
    (order = .selector → s.answer = .failure → k = cs.length ∧ s.state.children = all.state) := by
  intro all k part s
  obtain ⟨hanswer, hstate, hworld, hemitted⟩ := round_callsFrom_zero m order.pass cs w
  have hcases : (k = cs.length ∧ all.answer[k]? = none) ∨
      ∃ a, a ≠ order.pass ∧ all.answer[k]? = some (some a) := decider_cases m order.pass cs w
  have hstep := tick_composite_eq_round m h order .restart cs w
  have hstop : stop m order.pass 0 cs w = k := Nat.zero_add _
  simp only [Cursor.start, hstop, hstate, hworld, hemitted] at hstep
  rw [show (round m (callsFrom m order.pass 0 cs w) cs w).answer[k]? = all.answer[k]? from hanswer]
    at hstep
  change s = _ at hstep
  rcases hcases with ⟨hlen, hnone⟩ | ⟨a, hpass, hsome⟩
  · -- All children pass, so the part that is ticked is the whole.
    have hall : all.state.length = cs.length := length_state_round ..
    have hwhole : all.state.take (k + 1) ++ cs.drop (k + 1) = all.state := by
      rw [List.take_of_length_le (by omega), List.drop_of_length_le (by omega), List.append_nil]
    rw [hnone] at hstep ⊢
    rw [hstep]
    refine ⟨rfl, rfl, ⟨_, (List.append_assoc ..).symm⟩, ?_, ?_, ?_⟩
    · intro hrunning
      cases order <;> cases hrunning
    · intro _ hkept
      cases order with
      | sequence => rfl
      | selector => exact absurd ⟨rfl, rfl⟩ hkept
    · rintro rfl -
      exact ⟨hlen, hwhole⟩
  · rw [hsome] at hstep ⊢
    rw [hstep]
    refine ⟨rfl, rfl, ⟨_, (List.append_assoc ..).symm⟩, ?_, ?_, ?_⟩
    · rintro rfl
      rfl
    · intro hended _
      exact if_pos hended
    · rintro rfl rfl
      exact absurd rfl hpass

/-- The first child fails, the second succeeds, and the third, which still runs from an earlier
pass, is reset without a tick. -/
theorem tick_restart_decided_stale :
    let count (answer : Status) : Option (Action Nat) :=
      some fun _ w => (answer, { w with host := w.host + 1 })
    let cs : List (Node Nat) := [action ⟨"door", none⟩ (count .failure),
      action ⟨"window", none⟩ (count .success), action ⟨"wall", some .running⟩ (count .running)]
    let s := tick ⟨0, 0.5⟩ (composite ⟨"way", none⟩ .selector .restart cs) ⟨{}, 0⟩
    s.answer = .success ∧ s.world.host = 2 ∧
      s.state.children = ((fullRound ⟨0, 0.5⟩ cs ⟨{}, 0⟩).state.take 2 ++ cs.drop 2).map reset := by
  intro count cs s
  obtain ⟨hanswer, hworld, -, -, hreset, -⟩ :=
    tick_restart_decided ⟨0, 0.5⟩ ⟨"way", none⟩ .selector cs ⟨{}, 0⟩
  refine ⟨hanswer.trans (by decide), by decide, ?_⟩
  exact hreset (by decide) (by decide)

end Node

end BehaviorTree
