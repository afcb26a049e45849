import BehaviorTree.Number.Literal
import BehaviorTree.Yaml.Token.Scalar

/-!
# Scanning anchors, tags and directives

These stand in front of nodes and documents. Each scanner starts at the indicator and
fails where the text breaks the form.
-/

namespace BehaviorTree.Yaml

/-- The name of an anchor or an alias, which only blanks and some indicators may follow. -/
def scanName (c : Cursor) : Option (String × Cursor) :=
  let c := c.advance 1
  let name := c.rest.takeWhile isWord
  let c := c.advance name.length
  let closed := c.endsWordAt 0 ||
    c.head?.any fun d => "?:,]\x7d%@`".toList.contains d
  if name.isEmpty ∨ ¬ closed then none else some (String.ofList name, c)

def scanTagHandle (c : Cursor) : Option (List Char × Cursor) :=
  if c.head? ≠ some '!' then none
  else
    let c := c.advance 1
    let name := c.rest.takeWhile isWord
    let c := c.advance name.length
    if c.head? = some '!' then some ('!' :: name ++ ['!'], c.advance 1)
    else some ('!' :: name, c)

def isUriChar (inBrackets : Bool) (c : Char) : Bool :=
  isWord c || ";/?:@&=+$.!~*'()".toList.contains c || (inBrackets && ",[]".toList.contains c)

/-- The byte of an escape: a percent sign and two hexadecimal digits. -/
def escapedByte? (text : List Char) : Option Nat :=
  match text with
  | '%' :: a :: b :: _ => Text.hexNumber? [a, b]
  | _ => none

def leadingByte? (byte : Nat) : Option (Nat × Nat) :=
  if byte < 0x80 then some (1, byte)
  else if byte / 0x20 = 6 then some (2, byte % 0x20)
  else if byte / 0x10 = 14 then some (3, byte % 0x10)
  else if byte / 8 = 30 then some (4, byte % 8)
  else none

def continuation : Nat → (code : Nat) → List Char → Option Nat
  | 0, code, _ => some code
  | n + 1, code, text => do
    let byte ← escapedByte? text
    if byte / 0x40 = 2 then continuation n (code * 0x40 + byte % 0x40) (text.drop 3) else none

def escapedCode? (text : List Char) : Option (Char × Nat) := do
  let (width, bits) ← leadingByte? (← escapedByte? text)
  let code ← continuation (width - 1) bits (text.drop 3)
  return (Char.ofNat code, width)

def scanUri (inBrackets : Bool) : Nat → Cursor → Option (List Char × Cursor)
  | 0, _ => none
  | fuel + 1, c =>
    match c.head? with
    | some '%' => do
      let (d, width) ← escapedCode? c.rest
      let (text, c) ← scanUri inBrackets fuel (c.advance (3 * width))
      return (d :: text, c)
    | some d =>
      if isUriChar inBrackets d then do
        let (text, c) ← scanUri inBrackets fuel (c.advance 1)
        return (d :: text, c)
      else some ([], c)
    | none => some ([], c)

def uri (inBrackets : Bool) (c : Cursor) : Option (List Char × Cursor) :=
  scanUri inBrackets (c.rest.length + 1) c

/-- Handle and suffix of a tag between `!<` and `>`. -/
def scanVerbatimTag (c : Cursor) : Option (String × String × Cursor) := do
  let (suffix, c) ← uri true (c.advance 2)
  if suffix.isEmpty ∨ c.head? ≠ some '>' then none
  else return ("", String.ofList suffix, c.advance 1)

/-- Handle and suffix of any other tag; a lone exclamation mark is a suffix without handle. -/
def scanShortTag (c : Cursor) : Option (String × String × Cursor) := do
  let (handle, c) ← scanTagHandle c
  if 1 < handle.length ∧ handle.getLast? = some '!' then
    let (suffix, c) ← uri false c
    if suffix.isEmpty then none else return (String.ofList handle, String.ofList suffix, c)
  else
    let (more, c) ← uri false c
    let suffix := handle.drop 1 ++ more
    if suffix.isEmpty then return ("", "!", c) else return ("!", String.ofList suffix, c)

def scanTag (inFlow : Bool) (c : Cursor) : Option (Token × Cursor) := do
  let (handle, suffix, c) ← if c.at? 1 = some '<' then scanVerbatimTag c else scanShortTag c
  if c.endsWordAt 0 ∨ inFlow ∧ c.head? = some ',' then return (.tag handle suffix, c) else none

def scanVersionNumber (c : Cursor) : Option (Nat × Cursor) :=
  let digits := c.rest.takeWhile Char.isDigit
  if digits.isEmpty ∨ 9 < digits.length then none
  else some (Number.natValue digits, c.advance digits.length)

def scanVersion (c : Cursor) : Option (Token × Cursor) := do
  let (major, c) ← scanVersionNumber (c.advanceWhile isBlank)
  if c.head? ≠ some '.' then none
  let (minor, c) ← scanVersionNumber (c.advance 1)
  return (.versionDirective major minor, c)

def scanTagDirective (c : Cursor) : Option (Token × Cursor) := do
  let (handle, c) ← scanTagHandle (c.advanceWhile isBlank)
  if handle ≠ ['!'] ∧ handle.getLast? ≠ some '!' then none
  if ¬ c.isAtBlank then none
  let (stem, c) ← uri true (c.advanceWhile isBlank)
  if stem.isEmpty ∨ ¬ c.endsWordAt 0 then none
  return (.tagDirective (String.ofList handle) (String.ofList stem), c)

def scanDirective (c : Cursor) : Option (Token × Cursor) := do
  let c := c.advance 1
  let name := c.rest.takeWhile isWord
  let c := c.advance name.length
  if name.isEmpty ∨ ¬ c.endsWordAt 0 then none
  let (token, c) ←
    if String.ofList name = "YAML" then scanVersion c
    else if String.ofList name = "TAG" then scanTagDirective c
    else none
  return (token, ← finishLine c)

end BehaviorTree.Yaml
