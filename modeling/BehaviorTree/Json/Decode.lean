import BehaviorTree.Json.Parse
import BehaviorTree.Number.Literal
import BehaviorTree.Mismatch
import BehaviorTree.Blackboard
import BehaviorTree.Trace

/-!
# Values from JSON texts

Taking a text for a value of a given type goes through it from left to right and
fails at the first fault, be it a datum of the wrong shape or the end of what is JSON.
Faults in parts that are passed over count only if they break the text.
-/

namespace BehaviorTree.Json

inductive Failure where
  | malformed
  | mismatch (m : Mismatch)

/-- JSON speaks of `null` and writes floats as its own texts do. -/
def wording : Wording where
  unit := "null"
  float := doubleLayout

def Failure.message : Failure → String
  | .malformed => "syntax"
  | .mismatch m => m.message wording

abbrev Decoder (α : Type) := Json → Except Failure α

/-- What a literal stands for: integers of 64 bits are exact. -/
inductive Numeral where
  | natural (n : Nat)
  | negative (n : Int)
  | float (x : Float)

/-- Appends digits while the number fits in 64 bits; the digits left over are the second part. -/
def appendDigits (n : Nat) : List Char → Nat × List Char
  | [] => (n, [])
  | c :: cs =>
    let next := n * 10 + (c.toNat - '0'.toNat)
    if next < UInt64.size then appendDigits next cs else (n, c :: cs)

def doubleTenTo (n : Nat) : Float :=
  Number.doubleOfBits (Number.Format.double.nearest (Number.tenTo n) 1)

/--
`x * 10 ^ exponent` by one multiplication or division, after divisions by `10 ^ 308` as
long as the exponent is below that; `none` if the magnitude is too large.
-/
def scale (fuel : Nat) (x : Float) (exponent : Int) : Option Float :=
  if 0 ≤ exponent then
    if exponent ≤ 308 then
      let y := x * doubleTenTo exponent.toNat
      if y.isInf then none else some y
    else if x == 0 then some x else none
  else if -308 ≤ exponent then some (x / doubleTenTo (-exponent).toNat)
  else match fuel with
    | 0 => some 0
    | fuel + 1 => if x == 0 then some x else scale fuel (x / doubleTenTo 308) (exponent + 308)

def intOfExponent : List Char → Int
  | '-' :: digits => -Number.natValue digits
  | '+' :: digits => Number.natValue digits
  | digits => Number.natValue digits

def numeral? (literal : String) : Option Numeral := do
  let (negative, text) := match literal.toList with
    | '-' :: rest => (true, rest)
    | text => (false, text)
  let whole := text.takeWhile Char.isDigit
  let text := text.dropWhile Char.isDigit
  let (fraction, text) := match text with
    | '.' :: rest => (rest.takeWhile Char.isDigit, rest.dropWhile Char.isDigit)
    | text => ([], text)
  let (n, dropped) := appendDigits 0 whole
  if fraction.isEmpty ∧ text.isEmpty ∧ dropped.isEmpty ∧ ¬ (negative ∧ (n = 0 ∨ Number.twoTo 63 < n)) then
    return if negative then .negative (-n) else .natural n
  let (m, ignored) := appendDigits n fraction
  let shift : Int := dropped.length - (fraction.length - ignored.length : Nat)
  let exponent := intOfExponent (text.drop 1)
  if Number.twoTo 31 ≤ exponent.natAbs then
    if m ≠ 0 ∧ 0 ≤ exponent then none
    else return .float (if negative then -0 else 0)
  else
    let x ← scale 4 (Number.doubleOfBits (Number.Format.double.nearest m 1)) (shift + exponent)
    return .float (if negative then -x else x)

def found : Decoder Found
  | null => .ok .unit
  | bool b => .ok (.bool b)
  | number literal =>
    match numeral? literal with
    | some (.natural n) => .ok (.integer n)
    | some (.negative n) => .ok (.integer n)
    | some (.float x) => .ok (.float x)
    | none => .error .malformed
  | string s => .ok (.string s)
  | array .. => .ok .sequence
  | object .. => .ok .map
  | unpaired | unreadable => .error .malformed

def wrongType {α : Type} (expected : String) : Decoder α := fun j => do
  throw (.mismatch (.invalidType (← found j) expected))

def decodeInteger (type : String) (low high : Int) : Decoder Int
  | number literal => do
    let check (n : Int) : Except Failure Int :=
      if low ≤ n ∧ n ≤ high then .ok n
      else .error (.mismatch (.invalidValue (.integer n) type))
    match numeral? literal with
    | some (.natural n) => check n
    | some (.negative n) => check n
    | _ => wrongType type (number literal)
  | j => wrongType type j

def decodeInt : Decoder Int32 := fun j => do
  return Int32.ofInt (← decodeInteger "i32" Int32.minValue.toInt Int32.maxValue.toInt j)

def decodeWord : Decoder UInt64 := fun j => do
  return UInt64.ofNat (← decodeInteger "u64" 0 (UInt64.size - 1 : Nat) j).toNat

/-- A double is rounded; an integer is rounded once, not through a double. -/
def decodeSingle : Decoder Float32
  | number literal =>
    match numeral? literal with
    | some (.natural n) => .ok (Number.singleOfBits (Number.Format.single.nearest n 1))
    | some (.negative n) => .ok (-Number.singleOfBits (Number.Format.single.nearest n.natAbs 1))
    | some (.float x) => .ok (Number.narrow x)
    | none => .error .malformed
  | j => wrongType "f32" j

def decodeBool : Decoder Bool
  | bool b => .ok b
  | j => wrongType "a boolean" j

def decodeString : Decoder String
  | string s => .ok s
  | j => wrongType "a string" j

def decodeItems {α : Type} (item : Decoder α) : List Json → Except Failure (List α)
  | [] => .ok []
  | j :: js => do
    let a ← item j
    return a :: (← decodeItems item js)

def decodeList {α : Type} (item : Decoder α) : Decoder (List α)
  | array items closed => do
    let values ← decodeItems item items
    if closed then return values else throw .malformed
  | j => wrongType "a sequence" j

/-- Of members with equal names the last one counts. -/
def decodeTable {α : Type} (value : Decoder α) : Decoder (Table α)
  | object members stray => do
    let table ← members.foldlM
      (fun (table : Table α) (member : String × Json) => do
        return table.insert member.1 (← value member.2)) ∅
    if stray.isSome then throw .malformed else return table
  | j => wrongType "a map" j

structure Shape (V : Type) where
  type : String
  fields : List (String × Decoder V)
  defaulted : Bool

def elements (n : Nat) : String := toString n ++ (if n = 1 then " element" else " elements")

def decodePositions {V : Type} (shape : Shape V) (closed : Bool) (position : Nat) :
    List (String × Decoder V) → List Json → Except Failure (List (String × V))
  | [], [] => if closed then .ok [] else .error .malformed
  | [], _ :: _ => .error .malformed
  | _ :: _, [] =>
    if ¬ closed then .error .malformed
    else if shape.defaulted then .ok []
    else .error (.mismatch (.invalidLength position
      ("struct " ++ shape.type ++ " with " ++ elements shape.fields.length)))
  | (name, field) :: fields, j :: js => do
    let v ← field j
    return (name, v) :: (← decodePositions shape closed (position + 1) fields js)

/-- Members in any order; unknown ones are passed over. -/
def decodeMembers {V : Type} (shape : Shape V) (seen : List (String × V)) :
    List (String × Json) → Except Failure (List (String × V))
  | [] => .ok seen
  | (name, j) :: members =>
    match shape.fields.lookup name with
    | none => if j.isWhole then decodeMembers shape seen members else .error .malformed
    | some field => do
      if (seen.lookup name).isSome then throw (.mismatch (.duplicateField name))
      let v ← field j
      decodeMembers shape (seen ++ [(name, v)]) members

def decodeRecord {V : Type} (shape : Shape V) : Decoder (List (String × V))
  | array items closed => decodePositions shape closed 0 shape.fields items
  | object members stray => do
    let values ← decodeMembers shape [] members
    if stray.isSome then throw .malformed
    match shape.fields.find? fun f => (values.lookup f.1).isNone with
    | some (name, _) =>
      if shape.defaulted then return values else throw (.mismatch (.missingField name))
    | none => return values
  | j => wrongType ("struct " ++ shape.type) j

/-- One of a list of names, as a string or as the only member of an object that holds `null`. -/
def decodeName {α : Type} (choices : List (String × α)) : Decoder α
  | string s => choose s
  | object ((name, j) :: members) stray => do
    let a ← choose name
    match j with
    | null => if members.isEmpty ∧ stray.isNone then return a else throw .malformed
    | j => wrongType "unit" j
  | object [] (some key) => wrongType "variant identifier" key
  | _ => .error .malformed
where
  choose (name : String) : Except Failure α :=
    match choices.lookup name with
    | some a => .ok a
    | none => .error (.mismatch (.unknownVariant name (choices.map (·.1))))

def decodeVector : Decoder Vec3 := fun j => do
  let values ← decodeRecord ⟨"Vec3", ["x", "y", "z"].map (·, decodeSingle), false⟩ j
  let field name := (values.lookup name).getD 0
  return ⟨field "x", field "y", field "z"⟩

def decodeValue : (k : Kind) → Decoder k.Value
  | .float => decodeSingle
  | .int => decodeInt
  | .bool => decodeBool
  | .vector => decodeVector
  | .string => decodeString

/-- Absent sections are empty. -/
def decodeBlackboard : Decoder Blackboard := fun j => do
  let fields := Kind.all.map fun k =>
    (k.sectionName, fun j => do
      let table ← decodeTable (decodeValue k) j
      return fun b : Blackboard => b.setEntries k table)
  let values ← decodeRecord ⟨"Blackboard", fields, true⟩ j
  return values.foldl (fun b v => v.2 b) {}

def decodeEvent : Decoder Event := fun j => do
  let word : Decoder (UInt64 ⊕ String) := fun j => do return .inl (← decodeWord j)
  let text : Decoder (UInt64 ⊕ String) := fun j => do return .inr (← decodeString j)
  let fields := [("tick", word), ("tag", text), ("a", word), ("b", word)]
  let values ← decodeRecord ⟨"TraceEvent", fields, false⟩ j
  let number name := ((values.lookup name).bind Sum.getLeft?).getD 0
  let tag := ((values.lookup "tag").bind Sum.getRight?).getD ""
  return ⟨number "tick", tag, number "a", number "b"⟩

def decodeLog : Decoder Log := fun j => do
  let values ← decodeRecord ⟨"TraceLog", [("events", decodeList decodeEvent)], false⟩ j
  return ⟨((values.lookup "events").getD []).toArray⟩

def decodeText {α : Type} (decoder : Decoder α) (text : String) : Except Failure α := do
  let (j, alone) := parse text
  let a ← decoder j
  if alone then return a else throw .malformed

end BehaviorTree.Json
