import BehaviorTree.Json.Basic

/-!
# Reading JSON texts

Every text is read: what is no JSON ends in values that are unreadable, unclosed or
have a stray part. Reading recurs on a bound of the nesting that the length of the
text provides.
-/

namespace BehaviorTree.Json

def isBlank (c : Char) : Bool := c = ' ' || c = '\n' || c = '\t' || c = '\r'

def skipBlanks (text : List Char) : List Char := text.dropWhile isBlank

/-- A part of a string literal: a character, or a 16-bit unit given by its number. -/
inductive Piece where
  | char (c : Char)
  | unit (code : Nat)

def escaped? (c : Char) : Option Char :=
  match c with
  | '"' => some '"'
  | '\\' => some '\\'
  | '/' => some '/'
  | 'b' => some '\x08'
  | 'f' => some '\x0c'
  | 'n' => some '\n'
  | 'r' => some '\r'
  | 't' => some '\t'
  | _ => none

def scanString : List Char → Option (List Piece × List Char)
  | [] => none
  | '"' :: rest => some ([], rest)
  | '\\' :: 'u' :: a :: b :: c :: d :: rest => do
    let code ← Text.hexNumber? [a, b, c, d]
    let (pieces, rest) ← scanString rest
    return (.unit code :: pieces, rest)
  | '\\' :: e :: rest => do
    let c ← escaped? e
    let (pieces, rest) ← scanString rest
    return (.char c :: pieces, rest)
  | c :: rest =>
    if c.toNat < 0x20 ∨ c = '\\' then none
    else do
      let (pieces, rest) ← scanString rest
      return (.char c :: pieces, rest)

def isHighHalf (code : Nat) : Bool := 0xd800 ≤ code && code < 0xdc00

def isLowHalf (code : Nat) : Bool := 0xdc00 ≤ code && code < 0xe000

/-- Joins the halves of surrogate pairs; a half on its own stands for no character. -/
def joinPieces : List Piece → Option (List Char)
  | [] => some []
  | .char c :: ps => return c :: (← joinPieces ps)
  | .unit high :: .unit low :: ps =>
    if isHighHalf high then
      if isLowHalf low then
        return Char.ofNat (0x10000 + (high - 0xd800) * 0x400 + (low - 0xdc00)) :: (← joinPieces ps)
      else none
    else if isLowHalf high then none
    else return Char.ofNat high :: (← joinPieces (.unit low :: ps))
  | .unit code :: ps =>
    if isHighHalf code || isLowHalf code then none
    else return Char.ofNat code :: (← joinPieces ps)

def textOfPieces (pieces : List Piece) : Option String := (joinPieces pieces).map String.ofList

def scanDigits (text : List Char) : Option (List Char × List Char) :=
  let digits := text.takeWhile Char.isDigit
  if digits.isEmpty then none else some (digits, text.dropWhile Char.isDigit)

/-- Without superfluous zeros in front. -/
def scanWhole : List Char → Option (List Char × List Char)
  | '0' :: rest => if (rest.head?.map Char.isDigit).getD false then none else some (['0'], rest)
  | text => scanDigits text

def scanFraction : List Char → Option (List Char × List Char)
  | '.' :: rest => do
    let (digits, rest) ← scanDigits rest
    return ('.' :: digits, rest)
  | text => some ([], text)

def scanExponent : List Char → Option (List Char × List Char)
  | e :: sign :: rest =>
    if e = 'e' ∨ e = 'E' then
      if sign = '+' ∨ sign = '-' then do
        let (digits, rest) ← scanDigits rest
        return (e :: sign :: digits, rest)
      else do
        let (digits, rest) ← scanDigits (sign :: rest)
        return (e :: digits, rest)
    else some ([], e :: sign :: rest)
  | [e] => if e = 'e' ∨ e = 'E' then none else some ([], [e])
  | [] => some ([], [])

def scanNumber (text : List Char) : Option (List Char × List Char) := do
  let (sign, text) := match text with
    | '-' :: rest => (['-'], rest)
    | text => ([], text)
  let (whole, text) ← scanWhole text
  let (fraction, text) ← scanFraction text
  let (exponent, text) ← scanExponent text
  return (sign ++ whole ++ fraction ++ exponent, text)

/-- A value, and the text after it unless reading stops inside the value. -/
structure Reading where
  value : Json
  rest : Option (List Char)

def stuck : Reading := ⟨unreadable, none⟩

def readScalar (text : List Char) : Reading :=
  match text with
  | 'n' :: 'u' :: 'l' :: 'l' :: rest => ⟨null, some rest⟩
  | 't' :: 'r' :: 'u' :: 'e' :: rest => ⟨bool true, some rest⟩
  | 'f' :: 'a' :: 'l' :: 's' :: 'e' :: rest => ⟨bool false, some rest⟩
  | '"' :: rest =>
    match scanString rest with
    | none => stuck
    | some (pieces, rest) =>
      match textOfPieces pieces with
      | some s => ⟨string s, some rest⟩
      | none => ⟨unpaired, some rest⟩
  | text =>
    match scanNumber text with
    | some (literal, rest) => ⟨number (String.ofList literal), some rest⟩
    | none => stuck

mutual

def readValue : Nat → List Char → Reading
  | 0, _ => stuck
  | fuel + 1, text =>
    match skipBlanks text with
    | '[' :: rest =>
      match skipBlanks rest with
      | ']' :: rest => ⟨array [] true, some rest⟩
      | rest =>
        let (items, rest) := readItems fuel rest
        ⟨array items rest.isSome, rest⟩
    | '\x7b' :: rest =>
      match skipBlanks rest with
      | '\x7d' :: rest => ⟨object [] none, some rest⟩
      | rest =>
        let (members, stray, rest) := readMembers fuel rest
        ⟨object members stray, rest⟩
    | text => readScalar text

def readItems : Nat → List Char → List Json × Option (List Char)
  | 0, _ => ([], none)
  | fuel + 1, text =>
    let item := readValue fuel text
    match item.rest.map skipBlanks with
    | some (']' :: rest) => ([item.value], some rest)
    | some (',' :: rest) =>
      let (items, rest) := readItems fuel rest
      (item.value :: items, rest)
    | _ => ([item.value], none)

def readMembers : Nat → List Char → List (String × Json) × Option Json × Option (List Char)
  | 0, _ => ([], some unreadable, none)
  | fuel + 1, text =>
    let key := readValue fuel text
    match key.value, key.rest.map skipBlanks with
    | string name, some (':' :: rest) =>
      let member := readValue fuel rest
      match member.rest.map skipBlanks with
      | some ('\x7d' :: rest) => ([(name, member.value)], none, some rest)
      | some (',' :: rest) =>
        let (members, stray, rest) := readMembers fuel rest
        ((name, member.value) :: members, stray, rest)
      | _ => ([(name, member.value)], some unreadable, none)
    | string name, _ => ([(name, unreadable)], some unreadable, none)
    | value, _ => ([], some value, none)

end

/-- The value of a text, and whether nothing follows it. -/
def parse (text : String) : Json × Bool :=
  let reading := readValue (2 * text.length + 2) text.toList
  (reading.value, (reading.rest.map fun rest => (skipBlanks rest).isEmpty).getD false)

mutual

/-- Whether the value can be passed over: it is complete, whatever its numbers and strings mean. -/
def isWhole : Json → Bool
  | unreadable => false
  | array items closed => closed && areWhole items
  | object members stray => stray.isNone && membersAreWhole members
  | null | bool _ | number _ | string _ | unpaired => true

def areWhole : List Json → Bool
  | [] => true
  | j :: js => j.isWhole && areWhole js

def membersAreWhole : List (String × Json) → Bool
  | [] => true
  | (_, j) :: members => j.isWhole && membersAreWhole members

end

/-- The first member of the given name. -/
def get? (name : String) : Json → Option Json
  | object members _ => members.lookup name
  | _ => none

end BehaviorTree.Json
