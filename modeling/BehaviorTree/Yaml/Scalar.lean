import BehaviorTree.Number.Literal
import BehaviorTree.Mismatch
import BehaviorTree.Yaml.Node

/-!
# What scalars mean

A plain scalar without a tag is a null, a boolean, a number or a string, by its text
alone. Digits behind a leading zero are a string. A core tag forces one reading; any
other scalar is a string.
-/

namespace BehaviorTree.Yaml

def bool? (text : String) : Option Bool :=
  if ["true", "True", "TRUE"].contains text then some true
  else if ["false", "False", "FALSE"].contains text then some false
  else none

def isNullWord (text : String) : Bool := ["null", "Null", "NULL", "~"].contains text

def digitValue? (base : Nat) (c : Char) : Option Nat := (Text.hexValue? c).filter (· < base)

def digits? (base : Nat) (cs : List Char) : Option Nat :=
  if cs.isEmpty then none
  else cs.foldl (fun n c => do return (← n) * base + (← digitValue? base c)) (some 0)

def dropSign : List Char → List Char
  | '+' :: cs | '-' :: cs => cs
  | cs => cs

/-- Digits that are no number because they start with a zero. -/
def isPadded (cs : List Char) : Bool :=
  match dropSign cs with
  | '0' :: c :: cs => (c :: cs).all Char.isDigit
  | _ => false

/-- The digits behind `0x`, `0o` or `0b`, and their base. -/
def based? : List Char → Option (Nat × List Char)
  | '0' :: 'x' :: cs => some (16, cs)
  | '0' :: 'o' :: cs => some (8, cs)
  | '0' :: 'b' :: cs => some (2, cs)
  | _ => none

def magnitude? (cs : List Char) : Option Nat :=
  match based? cs with
  | some (base, cs) => digits? base cs
  | none => digits? 10 cs

def integer? (text : String) : Option Int :=
  match text.toList with
  | cs =>
    if isPadded cs then none
    else match cs with
      | '-' :: cs => (magnitude? cs).map fun n => -(n : Int)
      | '+' :: cs | cs => (magnitude? cs).map fun n => (n : Int)

def float? (text : String) : Option Float :=
  let cs := text.toList
  let positive := match cs with
    | '+' :: cs => cs
    | cs => cs
  if positive ≠ cs ∧ (positive.head?.any fun c => c = '+' || c = '-') then none
  else
    let infinite := [".inf", ".Inf", ".INF"]
    if infinite.contains (String.ofList positive) then
      some (Number.doubleOfBits Number.Format.double.infinityBits)
    else if (infinite.map ("-" ++ ·)).contains text then
      some (-Number.doubleOfBits Number.Format.double.infinityBits)
    else if [".nan", ".NaN", ".NAN"].contains text then some Number.doubleNaN
    else ((Number.Literal.ofChars? positive).map (·.toDouble)).filter (·.isFinite)

def boolTag : String := "tag:yaml.org,2002:bool"

def intTag : String := "tag:yaml.org,2002:int"

def floatTag : String := "tag:yaml.org,2002:float"

def nullTag : String := "tag:yaml.org,2002:null"

def isLocalTag (tag : Option String) : Bool := tag.any (·.startsWith "!")

/-- An integer as found, told from those beyond 64 bits; `none` beyond 128 bits. -/
def foundInteger? (n : Int) : Option Found :=
  if Int64.minValue.toInt ≤ n ∧ n < UInt64.size then some (.integer n)
  else if 0 ≤ n ∧ n < Number.twoTo 128 then some (.wideInteger n "u128")
  else if -Number.twoTo 127 ≤ n ∧ n < 0 then some (.wideInteger n "i128")
  else none

def foundPlain (text : String) : Found :=
  if text.isEmpty ∨ isNullWord text then .unit
  else match bool? text with
    | some b => .bool b
    | none =>
      match (integer? text).bind foundInteger? with
      | some found => found
      | none =>
        if isPadded text.toList then .string text
        else match float? text with
          | some x => .float x
          | none => .string text

/-- What a scalar is; a text that is not of the kind its tag names is a mismatch of its own. -/
def foundScalar (tag : Option String) (style : Style) (text : String) : Except Mismatch Found :=
  let forced (found : Option Found) (expected : String) : Except Mismatch Found :=
    match found with
    | some f => .ok f
    | none => .error (.invalidValue (.string text) expected)
  if tag = some boolTag then forced ((bool? text).map .bool) "a boolean"
  else if tag = some intTag then forced ((integer? text).bind foundInteger?) "an integer"
  else if tag = some floatTag then forced ((float? text).map .float) "a float"
  else if tag = some nullTag then forced (if isNullWord text then some .unit else none) "null"
  else if style = .plain ∧ (tag.isNone ∨ isLocalTag tag) then .ok (foundPlain text)
  else .ok (.string text)

def mayBe (kindTag : String) (tag : Option String) (style : Style) : Bool :=
  style = .plain || (style = .literal && tag = some kindTag)

def isVoid (style : Style) (text : String) : Bool := style = .plain && text.isEmpty

end BehaviorTree.Yaml
