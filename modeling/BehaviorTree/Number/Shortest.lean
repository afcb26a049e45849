import BehaviorTree.Number.Binary

/-!
# Shortest decimal digits

The decimals that read back as a given float fill an interval around it, ends
included when the significand is even. The digits written are those of a decimal
in the interval with the fewest digits, and of these the one nearest to the value.
On a decimal grid only the two neighbours of the value can qualify.
-/

namespace BehaviorTree.Number

/-- The value `digits * 10 ^ exponent`. -/
structure Decimal where
  digits : Nat
  exponent : Int
  deriving DecidableEq, Repr

inductive Tie where
  | upward
  | toEven
  deriving DecidableEq, Repr

namespace Decimal

def strip : Nat → Decimal → Decimal
  | 0, d => d
  | fuel + 1, d =>
    if d.digits ≠ 0 ∧ d.digits % 10 = 0 then strip fuel ⟨d.digits / 10, d.exponent + 1⟩ else d

def text (d : Decimal) : String := toString d.digits

def leading (d : Decimal) : Int := d.text.length - 1 + d.exponent

end Decimal

/-- Values and decimal grids as multiples of a common unit, a quarter of the float's own. -/
structure Interval where
  low : Nat
  value : Nat
  high : Nat
  closed : Bool

namespace Interval

/--
The interval of `significand * 2 ^ exponent` in units of `2 ^ (exponent - 2)`. Below
a power of two the floats lie twice as dense, so the lower end is nearer.
-/
def around (F : Format) (significand : Nat) (exponent : Int) : Interval where
  low :=
    if significand = twoTo (F.precision - 1) ∧ F.minExponent < exponent then 4 * significand - 1
    else 4 * significand - 2
  value := 4 * significand
  high := 4 * significand + 2
  closed := significand % 2 = 0

def holds (I : Interval) (n d : Nat) : Bool :=
  if I.closed then I.low * d ≤ n && n ≤ I.high * d else I.low * d < n && n < I.high * d

end Interval

def nearer (tie : Tie) (num den k : Nat) : Nat :=
  let below := num - k * den
  let above := (k + 1) * den - num
  if below < above then k
  else if above < below then k + 1
  else match tie with
    | .upward => k + 1
    | .toEven => if k % 2 = 0 then k else k + 1

/--
Tries the grids of step `10 ^ e` for falling `e`. The value is `num / den`, a grid
point `k` is `k * 10 ^ e`, and `unit` is the interval's unit over the same
denominators.
-/
def searchGrid (tie : Tie) (I : Interval) (unitNum unitDen : Nat) : Nat → Int → Decimal
  | 0, e => ⟨0, e⟩
  | fuel + 1, e =>
    let (stepNum, stepDen) := if 0 ≤ e then (tenTo e.toNat, 1) else (1, tenTo (-e).toNat)
    -- One grid step is `n / d` interval units.
    let n := stepNum * unitDen
    let d := stepDen * unitNum
    let num := I.value * d
    let k := num / n
    let lower := I.holds (k * n) d
    let upper := I.holds ((k + 1) * n) d
    if lower && upper then ⟨nearer tie num n k, e⟩
    else if lower then ⟨k, e⟩
    else if upper then ⟨k + 1, e⟩
    else searchGrid tie I unitNum unitDen fuel (e - 1)

def decimalBound (num den : Nat) : Int :=
  ((toString num).length : Int) - (toString den).length + 1

def shortest (F : Format) (tie : Tie) (significand : Nat) (exponent : Int) : Decimal :=
  if significand = 0 then ⟨0, 0⟩ else
    let I := Interval.around F significand exponent
    let unit := exponent - 2
    let (unitNum, unitDen) :=
      if 0 ≤ unit then (twoTo unit.toNat, 1) else (1, twoTo (-unit).toNat)
    let start := decimalBound (I.value * unitNum) unitDen
    let found := searchGrid tie I unitNum unitDen (F.precision + 4) start
    found.strip F.precision

end BehaviorTree.Number
