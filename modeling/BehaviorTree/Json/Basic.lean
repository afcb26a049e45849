import BehaviorTree.Number.Layout
import BehaviorTree.Text.Inspection

/-!
# JSON texts

A value as it stands in a text, numbers as their literals and members in the order
written. Where a text stops being JSON, what was read up to there is kept: whoever
takes a value from it meets the fault only on arriving there.
-/

namespace BehaviorTree

inductive Json where
  | null
  | bool (value : Bool)
  | number (literal : String)
  | string (value : String)
  /-- A string literal that is well formed but names no text, having half of a surrogate pair. -/
  | unpaired
  | array (items : List Json) (closed : Bool)
  /-- With what stands where a member or the end should, if the object is not closed. -/
  | object (members : List (String × Json)) (stray : Option Json)
  /-- No value can be read here. -/
  | unreadable
  deriving Inhabited

namespace Json

def ofNat (n : Nat) : Json := number (toString n)

def ofInt (n : Int) : Json := number (toString n)

def list (items : List Json) : Json := array items true

def record (members : List (String × Json)) : Json := object members none

/-- Floats in JSON texts; what is no number is written as `null`. -/
def floatLayout : Number.Layout where
  tie := .toEven
  positional := some (-6, 12)
  pointed := true
  signedExponent := true
  nan := "null"
  infinity := "null"
  negativeInfinity := "null"

/-- Doubles stay positional over a wider range upwards and a narrower one downwards. -/
def doubleLayout : Number.Layout := { floatLayout with positional := some (-5, 15) }

def ofSingle (x : Float32) : Json := number (floatLayout.writeSingle x)

def escapeChar (c : Char) : String :=
  if c = '"' then "\\\""
  else if c = '\\' then "\\\\"
  else if c = '\n' then "\\n"
  else if c = '\t' then "\\t"
  else if c = '\r' then "\\r"
  else if c = '\x08' then "\\b"
  else if c = '\x0c' then "\\f"
  else if c.toNat < 0x20 then
    "\\u00" ++ (if c.toNat < 0x10 then "0" else "") ++ Text.hexDigits c.toNat
  else c.toString

def quote (s : String) : String := "\"" ++ String.join (s.toList.map escapeChar) ++ "\""

mutual

def compact : Json → String
  | null => "null"
  | bool value => toString value
  | number literal => literal
  | string value => quote value
  | array items _ => "[" ++ ",".intercalate (compactItems items) ++ "]"
  | object members _ => "\x7b" ++ ",".intercalate (compactMembers members) ++ "\x7d"
  | unpaired | unreadable => ""

def compactItems : List Json → List String
  | [] => []
  | j :: js => j.compact :: compactItems js

def compactMembers : List (String × Json) → List String
  | [] => []
  | (key, j) :: members => (quote key ++ ":" ++ j.compact) :: compactMembers members

end

def block (depth : Nat) (opening closing : String) (parts : List String) : String :=
  if parts.isEmpty then opening ++ closing
  else
    let indented := parts.map fun part => "".pushn ' ' (2 * depth + 2) ++ part
    opening ++ "\n" ++ ",\n".intercalate indented ++ "\n" ++ "".pushn ' ' (2 * depth) ++ closing

mutual

def pretty (depth : Nat) : Json → String
  | array items _ => block depth "[" "]" (prettyItems (depth + 1) items)
  | object members _ => block depth "\x7b" "\x7d" (prettyMembers (depth + 1) members)
  | null => "null"
  | bool value => toString value
  | number literal => literal
  | string value => quote value
  | unpaired | unreadable => ""

def prettyItems (depth : Nat) : List Json → List String
  | [] => []
  | j :: js => j.pretty depth :: prettyItems depth js

def prettyMembers (depth : Nat) : List (String × Json) → List String
  | [] => []
  | (key, j) :: members => (quote key ++ ": " ++ j.pretty depth) :: prettyMembers depth members

end

end Json

end BehaviorTree
