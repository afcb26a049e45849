import BehaviorTree.Number.Shortest

/-!
# Laying out decimal digits

The digits of a float do not depend on where it is written; the place of the
point, the exponent and the texts of the values that are no numbers do. One
`Layout` records the choices of one output format.
-/

namespace BehaviorTree.Number

structure Layout where
  tie : Tie
  /-- Scientific exponents written without an exponent part; `none` is all of them. -/
  positional : Option (Int × Int)
  /-- Whether an integral value ends in `.0`. -/
  pointed : Bool
  /-- Whether a positive exponent carries a sign. -/
  signedExponent : Bool
  nan : String
  infinity : String
  negativeInfinity : String

namespace Layout

def zeros (n : Nat) : String := String.ofList (List.replicate n '0')

def insertPoint (digits : String) (places : Nat) : String :=
  String.ofList (digits.toList.take places) ++ "." ++ String.ofList (digits.toList.drop places)

def writePositional (L : Layout) (d : Decimal) : String :=
  let digits := d.text
  let point := (digits.length : Int) + d.exponent
  if 0 ≤ d.exponent then
    digits ++ zeros d.exponent.toNat ++ (if L.pointed then ".0" else "")
  else if 0 < point then insertPoint digits point.toNat
  else "0." ++ zeros (-point).toNat ++ digits

def writeScientific (L : Layout) (d : Decimal) : String :=
  let digits := d.text
  let mantissa := if digits.length ≤ 1 then digits else insertPoint digits 1
  let sign := if L.signedExponent ∧ 0 ≤ d.leading then "+" else ""
  mantissa ++ "e" ++ sign ++ toString d.leading

def writeDecimal (L : Layout) (d : Decimal) : String :=
  match L.positional with
  | none => L.writePositional d
  | some (low, high) =>
    if d.digits = 0 ∨ low ≤ d.leading ∧ d.leading ≤ high then L.writePositional d
    else L.writeScientific d

def write (L : Layout) (F : Format) : Binary → String
  | .nan => L.nan
  | .infinite negative => if negative then L.negativeInfinity else L.infinity
  | .finite negative m e =>
    (if negative then "-" else "") ++ L.writeDecimal (shortest F L.tie m e)

def writeSingle (L : Layout) (x : Float32) : String := L.write .single (.ofSingle x)

def writeDouble (L : Layout) (x : Float) : String := L.write .double (.ofDouble x)

/-- Running text: all digits, no exponent, and no point after an integral value. -/
def prose : Layout where
  tie := .upward
  positional := none
  pointed := false
  signedExponent := false
  nan := "NaN"
  infinity := "inf"
  negativeInfinity := "-inf"

/-- Running text that shows by its point that the number is not an integer. -/
def pointedProse : Layout := { prose with pointed := true }

/-- Inspection of a value: very large and very small numbers have an exponent. -/
def inspection : Layout := { pointedProse with positional := some (-4, 15) }

end Layout

/-- The value with `places` digits after the point, ties to the even digit. -/
def fixed (places : Nat) : Binary → String
  | .nan => "NaN"
  | .infinite negative => if negative then "-inf" else "inf"
  | .finite negative m e =>
    let scaled :=
      if 0 ≤ e then m * twoTo e.toNat * tenTo places
      else roundDiv (m * tenTo places) (twoTo (-e).toNat)
    let digits := toString scaled
    let padded := Layout.zeros (places + 1 - digits.length) ++ digits
    (if negative then "-" else "") ++ Layout.insertPoint padded (padded.length - places)

end BehaviorTree.Number
