import BehaviorTree.Text.Hexadecimal
import BehaviorTree.Text.Visible
import BehaviorTree.Number.Layout

/-!
# Inspection

A readable picture of a value for diagnostics: records with their field names, tables,
lists, and texts in quotes. It is written on one line, or with one part a line and
four blanks of indentation a level.
-/

namespace BehaviorTree.Text

def escapeChar (c : Char) : String :=
  if c = '"' then "\\\""
  else if c = '\\' then "\\\\"
  else if c = '\n' then "\\n"
  else if c = '\t' then "\\t"
  else if c = '\r' then "\\r"
  else if c = '\x00' then "\\0"
  else if isNumbered c then "\\u\x7b" ++ hexDigits c.toNat ++ "\x7d"
  else c.toString

def quote (s : String) : String := "\"" ++ String.join (s.toList.map escapeChar) ++ "\""

end BehaviorTree.Text

namespace BehaviorTree

inductive Inspection where
  | atom (text : String)
  | list (items : List Inspection)
  | table (rows : List (Inspection × Inspection))
  | record (name : String) (fields : List (String × Inspection))
  | wrapped (name : String) (inner : Inspection)

namespace Inspection

def string (s : String) : Inspection := atom (Text.quote s)

def option {α : Type} (inspect : α → Inspection) : Option α → Inspection
  | none => atom "None"
  | some a => wrapped "Some" (inspect a)

def single (x : Float32) : Inspection := atom (Number.Layout.inspection.writeSingle x)

mutual

def line : Inspection → String
  | atom text => text
  | list items => "[" ++ ", ".intercalate (lineItems items) ++ "]"
  | table rows => "\x7b" ++ ", ".intercalate (lineRows rows) ++ "\x7d"
  | record name fields => name ++ " \x7b " ++ ", ".intercalate (lineFields fields) ++ " \x7d"
  | wrapped name inner => name ++ "(" ++ inner.line ++ ")"

def lineItems : List Inspection → List String
  | [] => []
  | i :: is => i.line :: lineItems is

def lineRows : List (Inspection × Inspection) → List String
  | [] => []
  | (k, v) :: rows => (k.line ++ ": " ++ v.line) :: lineRows rows

def lineFields : List (String × Inspection) → List String
  | [] => []
  | (name, v) :: fields => (name ++ ": " ++ v.line) :: lineFields fields

end

def indentation (depth : Nat) : String := "".pushn ' ' (4 * depth)

/-- One part a line between two brackets; nothing at all between them if there is no part. -/
def block (depth : Nat) (opening closing : String) (parts : List String) : String :=
  if parts.isEmpty then opening ++ closing
  else
    let inner := parts.map fun part => indentation (depth + 1) ++ part ++ ",\n"
    opening ++ "\n" ++ String.join inner ++ indentation depth ++ closing

mutual

def lines (depth : Nat) : Inspection → String
  | atom text => text
  | list items => block depth "[" "]" (linesItems (depth + 1) items)
  | table rows => block depth "\x7b" "\x7d" (linesRows (depth + 1) rows)
  | record name fields => block depth (name ++ " \x7b") "\x7d" (linesFields (depth + 1) fields)
  | wrapped name inner => block depth (name ++ "(") ")" [inner.lines (depth + 1)]

def linesItems (depth : Nat) : List Inspection → List String
  | [] => []
  | i :: is => i.lines depth :: linesItems depth is

def linesRows (depth : Nat) : List (Inspection × Inspection) → List String
  | [] => []
  | (k, v) :: rows => (k.lines depth ++ ": " ++ v.lines depth) :: linesRows depth rows

def linesFields (depth : Nat) : List (String × Inspection) → List String
  | [] => []
  | (name, v) :: fields => (name ++ ": " ++ v.lines depth) :: linesFields depth fields

end

end Inspection

end BehaviorTree
