import BehaviorTree.Yaml.Presentation
import BehaviorTree.Yaml.Scalar

/-!
# Printing YAML nodes

Nodes are written in block form, two blanks of indentation a level; a sequence in a
mapping is not indented further. Empty collections are written in flow form. A key
that is long or has a line break stands behind a question mark. Tags are not written,
and what is no node of a text leaves an empty place.
-/

namespace BehaviorTree.Yaml

def endLine (cs : List Char) : List Char :=
  if cs.getLast?.any isBreak then cs else cs ++ ['\n']

def isSimpleKey : Node → Bool
  | .scalar _ _ text => ! text.toList.any isBreak && text.utf8ByteSize ≤ 128
  | _ => false

namespace Node

/-- The scalar by which a text is written so that it is read as a string. -/
def ofString (s : String) : Node :=
  let style :=
    if s.toList.contains '\n' then Style.literal
    else match foundPlain s with
      | .string _ => if isPadded s.toList then .singleQuoted else .plain
      | _ => .singleQuoted
  scalar none style s

def ofPlain (text : String) : Node := scalar none .plain text

def null : Node := ofPlain "null"

def ofBool (b : Bool) : Node := ofPlain (if b then "true" else "false")

def ofInt (n : Int32) : Node := ofPlain (toString n.toInt)

def floatLayout : Number.Layout where
  tie := .toEven
  positional := some (-6, 12)
  pointed := true
  signedExponent := false
  nan := ".nan"
  infinity := ".inf"
  negativeInfinity := "-.inf"

def ofSingle (x : Float32) : Node := ofPlain (floatLayout.writeSingle x)

def entry (key : String) (value : Node) : Entry Node := ⟨some key, ofString key, value⟩

def record (members : List (String × Node)) : Node :=
  mapping none (members.map fun (key, value) => entry key value)

def list (items : List Node) : Node := sequence none items

/-- Where the value behind a simple key starts: beside the colon, or on a line of its own. -/
def valueStart (indent : Nat) : Node → List Char × Nat
  | sequence _ (_ :: _) => ('\n' :: blanks indent, indent)
  | mapping _ (_ :: _) => ('\n' :: blanks (indent + 2), indent + 2)
  | scalar _ .plain "" | absent | tooDeep .. | unreadable => ([], indent + 2)
  | scalar .. | sequence _ [] | mapping _ [] => ([' '], indent + 2)

def printKey (indent : Nat) : Node → List Char
  | scalar _ style text => presentScalar (indent + 2) style text
  | _ => []

mutual

/-- A node that starts at column `indent` of a line begun, up to the end of its last line. -/
def print (indent : Nat) : Node → List Char
  | scalar _ style text => endLine (presentScalar indent style text)
  | sequence _ [] => ['[', ']', '\n']
  | sequence _ (item :: items) => printItems indent [] (item :: items)
  | mapping _ [] => ['\x7b', '\x7d', '\n']
  | mapping _ (e :: entries) => printEntries indent [] (e :: entries)
  | absent | tooDeep .. | unreadable => ['\n']

/-- Items at column `indent`; `gap` is what the line of the first one still lacks before it. -/
def printItems (indent : Nat) (gap : List Char) : List Node → List Char
  | [] => []
  | item :: items =>
    gap ++ '-' :: ' ' :: item.print (indent + 2) ++ printItems indent (blanks indent) items

def printEntries (indent : Nat) (gap : List Char) : List (Entry Node) → List Char
  | [] => []
  | ⟨_, key, value⟩ :: entries =>
    let (lead, column) := valueStart indent value
    let simple := isSimpleKey key
    let front :=
      if simple then printKey indent key ++ ':' :: lead
      else '?' :: ' ' :: key.print (indent + 2) ++ blanks indent ++ [':', ' ']
    gap ++ front ++ value.print (if simple then column else indent + 2) ++
      printEntries indent (blanks indent) entries

end

end Node

def write (node : Node) : String := String.ofList (node.print 0)

end BehaviorTree.Yaml
