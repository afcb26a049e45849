import BehaviorTree.Text.Inspection

/-!
# Mismatches

The ways in which data can fail to have the shape that is wanted of it, whatever
notation it came in. Notations differ in how they name some of the data found.
-/

namespace BehaviorTree

inductive Found where
  | bool (value : Bool)
  | integer (value : Int)
  /-- An integer beyond 64 bits, with the name of a type that holds it. -/
  | wideInteger (value : Int) (type : String)
  | float (value : Float)
  | string (value : String)
  | unit
  | sequence
  | map
  | enumeration
  | bareVariant

structure Wording where
  unit : String
  float : Number.Layout

namespace Found

def describe (w : Wording) : Found → String
  | bool value => "boolean `" ++ toString value ++ "`"
  | integer value => "integer `" ++ toString value ++ "`"
  | wideInteger value type => "integer `" ++ toString value ++ "` as " ++ type
  | float value => "floating point `" ++ w.float.writeDouble value ++ "`"
  | string value => "string " ++ Text.quote value
  | unit => w.unit
  | sequence => "sequence"
  | map => "map"
  | enumeration => "enum"
  | bareVariant => "unit variant"

end Found

inductive Mismatch where
  | invalidType (found : Found) (expected : String)
  | invalidValue (found : Found) (expected : String)
  | invalidLength (length : Nat) (expected : String)
  | unknownField (name : String) (known : List String)
  | unknownVariant (name : String) (known : List String)
  | missingField (name : String)
  | duplicateField (name : String)

namespace Mismatch

def ticked (name : String) : String := "`" ++ name ++ "`"

def choice : List String → String
  | [a] => ticked a
  | [a, b] => ticked a ++ " or " ++ ticked b
  | names => "one of " ++ ", ".intercalate (names.map ticked)

def message (w : Wording) : Mismatch → String
  | invalidType found expected =>
    "invalid type: " ++ found.describe w ++ ", expected " ++ expected
  | invalidValue found expected =>
    "invalid value: " ++ found.describe w ++ ", expected " ++ expected
  | invalidLength length expected =>
    "invalid length " ++ toString length ++ ", expected " ++ expected
  | unknownField name known => "unknown field `" ++ name ++ "`, expected " ++ choice known
  | unknownVariant name known => "unknown variant `" ++ name ++ "`, expected " ++ choice known
  | missingField name => "missing field `" ++ name ++ "`"
  | duplicateField name => "duplicate field `" ++ name ++ "`"

end Mismatch

end BehaviorTree
