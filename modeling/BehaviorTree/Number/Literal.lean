import BehaviorTree.Number.Binary

/-!
# Decimal literals

Digits with an optional sign, point and exponent; one digit at least stands before the
exponent, on either side of the point.
-/

namespace BehaviorTree.Number

/-- The value `significand * 10 ^ exponent`, negated if `negative`. -/
structure Literal where
  negative : Bool
  significand : Nat
  exponent : Int
  deriving DecidableEq, Repr

def natValue (digits : List Char) : Nat :=
  digits.foldl (fun n c => n * 10 + (c.toNat - '0'.toNat)) 0

def takeSign : List Char → Bool × List Char
  | '-' :: rest => (true, rest)
  | '+' :: rest => (false, rest)
  | text => (false, text)

/-- The exponent part up to the end of the text; no text is an exponent of zero. -/
def exponent? : List Char → Option Int
  | [] => some 0
  | e :: rest =>
    let (negative, digits) := takeSign rest
    if (e = 'e' ∨ e = 'E') ∧ ¬ digits.isEmpty ∧ digits.all Char.isDigit then
      some (if negative then -natValue digits else natValue digits)
    else none

namespace Literal

def ofChars? (text : List Char) : Option Literal := do
  let (negative, text) := takeSign text
  let whole := text.takeWhile Char.isDigit
  let text := text.dropWhile Char.isDigit
  let (fraction, text) := match text with
    | '.' :: rest => (rest.takeWhile Char.isDigit, rest.dropWhile Char.isDigit)
    | text => ([], text)
  if whole.isEmpty ∧ fraction.isEmpty then none
  else
    let e ← exponent? text
    return ⟨negative, natValue (whole ++ fraction), e - fraction.length⟩

def toDouble (l : Literal) : Float :=
  doubleOfBits (Format.double.ofDecimal l.negative l.significand l.exponent)

def toSingle (l : Literal) : Float32 :=
  singleOfBits (Format.single.ofDecimal l.negative l.significand l.exponent)

end Literal

end BehaviorTree.Number
