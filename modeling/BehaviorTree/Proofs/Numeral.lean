import BehaviorTree.Proofs.Reread
import BehaviorTree.Yaml.Decode

/-!
# Integers written in decimal

The text of an integer has no padding and no base, so it is read as that integer, and nothing in
it keeps it from being written as it is.
-/

namespace BehaviorTree.Yaml

theorem forall_isDigit {P : Char → Prop} (h : ∀ n < 10, P (Nat.digitChar n)) {c : Char}
    (hc : c.isDigit = true) : P c := by
  have hbounds : 48 ≤ c.toNat ∧ c.toNat ≤ 57 := by
    simpa [Char.isDigit, UInt32.le_iff_toNat_le] using hc
  have hdigits : ∀ n < 10, Char.ofNat (48 + n) = Nat.digitChar n := by decide
  have hdigit := hdigits (c.toNat - 48) (by omega)
  rw [Nat.add_sub_cancel' hbounds.1, Char.ofNat_toNat] at hdigit
  rw [hdigit]
  exact h _ (by omega)

def isInner (c : Char) : Bool :=
  isPrintable c && !isGap c && c ≠ ':' && c ≠ '#'

def indicators : List Char := "#,[]\x7b\x7d&*!|>'\"%@`".toList

theorem hasPair_eq_false {p : Char → Char → Bool} {cs : List Char}
    (h : ∀ a ∈ cs, ∀ b ∈ cs, p a b = false) : hasPair p cs = false := by
  rw [hasPair, List.any_eq_false]
  rintro ⟨a, b⟩ hab
  obtain ⟨ha, hb⟩ := List.of_mem_zip hab
  simp [h a ha b (List.mem_of_mem_tail hb)]

theorem admitsPlain_of_isInner {cs : List Char} (h : ∀ c ∈ cs, isInner c = true)
    (hstart : looksStructural cs = false) : admitsPlain cs = true := by
  have hinner : ∀ c ∈ cs, isPrintable c = true ∧ c ≠ ' ' ∧ isBreak c = false := by
    intro c hc
    have := h c hc
    simp_all [isInner, isGap, isBlank]
  have hedge : ∀ c ∈ cs, (c = ' ' || isBreak c) = false := by
    intro c hc
    simp [hinner c hc]
  have hhead : cs.head?.any (fun c => c = ' ' || isBreak c) = false :=
    (Option.any_eq_false ..).mpr fun c hc => hedge c (List.mem_of_head? hc)
  have hlast : cs.getLast?.any (fun c => c = ' ' || isBreak c) = false :=
    (Option.any_eq_false ..).mpr fun c hc => hedge c (List.mem_of_getLast? hc)
  have hprintable : cs.all isPrintable = true := List.all_eq_true.mpr fun c hc => (hinner c hc).1
  have hbreak : cs.any isBreak = false :=
    List.any_eq_false.mpr fun c hc => by simp [hinner c hc]
  simp [admitsPlain, *]

/-- Structure shows at the front of such a text or nowhere. -/
theorem looksStructural_of_isInner {cs : List Char} (h : ∀ c ∈ cs, isInner c = true)
    (hmarker : ['-', '-', '-'].isPrefixOf cs = false ∧ ['.', '.', '.'].isPrefixOf cs = false)
    (hindicator : cs.head?.any indicators.contains = false)
    (hentry : cs.head?.any "?:-".toList.contains = true → cs.length ≠ 1) :
    looksStructural cs = false := by
  have hinner : ∀ c ∈ cs, c ≠ ':' ∧ c ≠ '#' ∧ isGap c = false := by
    intro c hc
    have := h c hc
    simp_all [isInner]
  have hlast : cs.getLast? ≠ some ':' := fun hc => (hinner ':' (List.mem_of_getLast? hc)).1 rfl
  have hkey : hasPair (fun a b => a = ':' && isGap b) cs = false :=
    hasPair_eq_false fun a ha b _ => by simp [hinner a ha]
  have hcomment : hasPair (fun a b => isGap a && b = '#') cs = false :=
    hasPair_eq_false fun a _ b hb => by simp [hinner b hb]
  unfold indicators at hindicator
  simp only [looksStructural, hmarker, hindicator, hlast, hkey, hcomment]
  rcases cs with - | ⟨c, - | ⟨d, cs⟩⟩
  · rfl
  · simp_all
  · simp [hinner d]

/-- Digits of which the first is a zero only if it is the only one. -/
structure IsNumeral (cs : List Char) : Prop where
  ne_nil : cs ≠ []
  digits : ∀ c ∈ cs, c.isDigit = true
  unpadded : ∀ c ds, cs ≠ '0' :: c :: ds

theorem isNumeral_toDigits (n : Nat) : IsNumeral (Nat.toDigits 10 n) := by
  refine ⟨Nat.toDigits_ne_nil, fun c => Nat.isDigit_of_mem_toDigits (by decide) (by decide), ?_⟩
  induction n using Nat.strongRecOn with
  | ind n ih =>
    intro c ds h
    rw [Nat.toDigits_eq_if (by decide)] at h
    split at h
    · simp at h
    · next hn =>
      -- The digits in front are those of `n / 10`, which start with a zero only if it is zero.
      cases hfront : Nat.toDigits 10 (n / 10) with
      | nil => exact Nat.toDigits_ne_nil hfront
      | cons d front =>
        rw [hfront] at h
        obtain ⟨rfl, -⟩ := List.cons.inj h
        cases front with
        | nil =>
          have hvalue := Nat.ofDigitChars_ten_toDigits (n := n / 10)
          rw [hfront] at hvalue
          have hzero : n / 10 = 0 := hvalue.symm
          omega
        | cons e front => exact ih (n / 10) (by omega) e front hfront

namespace IsNumeral

variable {cs : List Char}

theorem ne_cons (h : IsNumeral cs) {c : Char} (hc : c.isDigit = false) (ds : List Char) :
    cs ≠ c :: ds := by
  rintro rfl
  rw [h.digits c (.head ds)] at hc
  cases hc

theorem dropSign_eq (h : IsNumeral cs) : dropSign cs = cs := by
  unfold dropSign
  split
  · exact absurd rfl (h.ne_cons rfl _)
  · exact absurd rfl (h.ne_cons rfl _)
  · rfl

theorem isPadded_eq (h : IsNumeral cs) : isPadded cs = false ∧ isPadded ('-' :: cs) = false := by
  have hplain : ∀ ds, dropSign ds = cs → isPadded ds = false := by
    intro ds hds
    unfold isPadded
    rw [hds]
    split
    · next c es => exact absurd rfl (h.unpadded c es)
    · rfl
  exact ⟨hplain cs h.dropSign_eq, hplain ('-' :: cs) rfl⟩

theorem magnitude?_eq (h : IsNumeral cs) : magnitude? cs = some (Nat.ofDigitChars 10 cs 0) := by
  have hbased : based? cs = none := by
    unfold based?
    split <;> first | rfl | exact absurd rfl (h.unpadded _ _)
  have hdigit : ∀ c : Char, c.isDigit = true → digitValue? 10 c = some (c.toNat - '0'.toNat) :=
    fun c => forall_isDigit (P := fun c => digitValue? 10 c = some (c.toNat - '0'.toNat))
      (by decide)
  have hfold : ∀ (ds : List Char) (n : Nat), (∀ c ∈ ds, c.isDigit = true) →
      ds.foldl (fun n c => do return (← n) * 10 + (← digitValue? 10 c)) (some n) =
        some (Nat.ofDigitChars 10 ds n) := by
    intro ds
    induction ds with
    | nil => simp
    | cons d ds ih =>
      intro n hds
      have hd := hdigit d (hds d (.head ds))
      simp only [List.foldl_cons, hd, Nat.ofDigitChars_cons]
      exact (ih _ fun c hc => hds c (.tail d hc)).trans (by rw [Nat.mul_comm])
  have hsome : cs.isEmpty = false := by simpa using h.ne_nil
  simp only [magnitude?, hbased, digits?, hsome]
  exact hfold cs 0 h.digits

/-- Nothing about a numeral looks like anything but plain text, with or without a sign. -/
theorem admitsPlain_eq (h : IsNumeral cs) :
    admitsPlain cs = true ∧ admitsPlain ('-' :: cs) = true := by
  have hinner : ∀ c ∈ cs, isInner c = true := fun c hc =>
    forall_isDigit (P := fun c => isInner c = true) (by decide) (h.digits c hc)
  obtain ⟨c, ds, rfl⟩ := List.exists_cons_of_ne_nil h.ne_nil
  have hfirst : c ≠ '-' ∧ c ≠ '.' ∧ indicators.contains c = false ∧
      "?:-".toList.contains c = false :=
    forall_isDigit (P := fun c => c ≠ '-' ∧ c ≠ '.' ∧
      indicators.contains c = false ∧ "?:-".toList.contains c = false)
      (by decide) (h.digits c (.head ds))
  constructor
  · refine admitsPlain_of_isInner hinner (looksStructural_of_isInner hinner ?_ ?_ ?_)
    · simp [List.isPrefixOf, hfirst.1.symm, hfirst.2.1.symm]
    · exact hfirst.2.2.1
    · intro hentry
      rw [List.head?_cons, Option.any_some, hfirst.2.2.2] at hentry
      cases hentry
  · have hsigned : ∀ d ∈ '-' :: c :: ds, isInner d = true := by
      intro d hd
      rcases List.mem_cons.mp hd with rfl | hd
      · decide
      · exact hinner d hd
    refine admitsPlain_of_isInner hsigned (looksStructural_of_isInner hsigned ?_ ?_ ?_)
    · simp [List.isPrefixOf, hfirst.1.symm]
    · exact (by decide : indicators.contains '-' = false)
    · simp

end IsNumeral

theorem integer?_toString (n : Int) : integer? (toString n) = some n := by
  have hmagnitude : ∀ m : Nat, magnitude? (Nat.toDigits 10 m) = some m := fun m => by
    rw [(isNumeral_toDigits m).magnitude?_eq, Nat.ofDigitChars_ten_toDigits]
  rw [Int.toString_eq_repr, Int.repr_eq_if]
  split
  · next hn =>
    have hnumeral := isNumeral_toDigits n.toNat
    simp only [integer?, Nat.toList_repr, hnumeral.isPadded_eq.1, if_neg Bool.false_ne_true]
    split
    · next h => exact absurd h (hnumeral.ne_cons rfl _)
    · next h => exact absurd h (hnumeral.ne_cons rfl _)
    · rw [hmagnitude]
      exact congrArg some (Int.toNat_of_nonneg hn)
  · next hn =>
    have hnumeral := isNumeral_toDigits (-n).toNat
    have htext : ("-" ++ (-n).toNat.repr).toList = '-' :: Nat.toDigits 10 (-n).toNat := by simp
    simp only [integer?, htext, hnumeral.isPadded_eq.2, hmagnitude]
    have hvalue : -((-n).toNat : Int) = n := by omega
    exact congrArg some hvalue

theorem admitsPlain_toString (n : Int) : admitsPlain (toString n).toList = true := by
  rw [Int.toString_eq_repr, Int.repr_eq_if]
  split
  · rw [Nat.toList_repr]
    exact (isNumeral_toDigits n.toNat).admitsPlain_eq.1
  · have htext : ("-" ++ (-n).toNat.repr).toList = '-' :: Nat.toDigits 10 (-n).toNat := by simp
    rw [htext]
    exact (isNumeral_toDigits (-n).toNat).admitsPlain_eq.2

end BehaviorTree.Yaml
