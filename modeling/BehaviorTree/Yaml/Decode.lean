import BehaviorTree.Yaml.Scalar
import BehaviorTree.Blackboard

/-!
# Values from YAML nodes

A decoder takes a node for a value of its type and fails at the first fault on the
way through the document, telling where it is. Where a collection is wanted, nothing
written stands for an empty one.
-/

namespace BehaviorTree.Yaml

inductive Segment where
  | index (i : Nat)
  | key (name : String)
  /-- An entry whose key is not written as a scalar. -/
  | unnamed

/-- Innermost segment first. -/
abbrev Path := List Segment

def Path.text : Path → String
  | [] => "."
  | .index i :: parent => Path.text parent ++ "[" ++ toString i ++ "]"
  | .key name :: [] => name
  | .key name :: parent => Path.text parent ++ "." ++ name
  | .unnamed :: [] => "?"
  | .unnamed :: parent => Path.text parent ++ "." ++ "?"

def Path.enter (path : Path) : Option String → Path
  | some name => .key name :: path
  | none => .unnamed :: path

inductive Failure where
  | malformed
  | tooDeep
  /-- Another document follows. -/
  | notAlone
  | mismatch (path : Path) (m : Mismatch)

/-- YAML calls its null a unit value and shows that a float is one by its point. -/
def wording : Wording where
  unit := "unit value"
  float := Number.Layout.pointedProse

def Failure.message : Failure → String
  | malformed => "YAML syntax"
  | tooDeep => "recursion limit exceeded"
  | notAlone => "deserializing from YAML containing more than one document is not supported"
  | mismatch path m =>
    if path.text = "." then m.message wording else path.text ++ ": " ++ m.message wording

abbrev Decoder (α : Type) := Path → Node → Except Failure α

mutual

def Node.isWhole : Node → Bool
  | .sequence _ items => Node.areWhole items
  | .mapping _ entries => Node.entriesAreWhole entries
  | .unreadable => false
  | .scalar .. | .absent | .tooDeep .. => true

def Node.areWhole : List Node → Bool
  | [] => true
  | n :: ns => n.isWhole && Node.areWhole ns

def Node.entriesAreWhole : List (Entry Node) → Bool
  | [] => true
  | ⟨_, key, value⟩ :: entries => key.isWhole && value.isWhole && Node.entriesAreWhole entries

end

def wrongType {α : Type} (expected : String) : Decoder α := fun path node =>
  match node with
  | .scalar tag style text =>
    match foundScalar tag style text with
    | .ok found => .error (.mismatch path (.invalidType found expected))
    | .error m => .error (.mismatch path m)
  | .sequence .. | .tooDeep _ false => .error (.mismatch path (.invalidType .sequence expected))
  | .mapping .. | .tooDeep _ true => .error (.mismatch path (.invalidType .map expected))
  | .absent | .unreadable => .error .malformed

def decodeBool : Decoder Bool := fun path node =>
  match node with
  | .scalar tag style text =>
    match if mayBe boolTag tag style then bool? text else none with
    | some b => .ok b
    | none => wrongType "a boolean" path node
  | _ => wrongType "a boolean" path node

def decodeInt : Decoder Int32 := fun path node =>
  match node with
  | .scalar tag style text =>
    match if mayBe intTag tag style then integer? text else none with
    | some n =>
      if n < Int64.minValue.toInt ∨ Int64.maxValue.toInt < n then wrongType "i32" path node
      else if Int32.minValue.toInt ≤ n ∧ n ≤ Int32.maxValue.toInt then .ok (Int32.ofInt n)
      else .error (.mismatch path (.invalidValue (.integer n) "i32"))
    | none => wrongType "i32" path node
  | _ => wrongType "i32" path node

def decodeSingle : Decoder Float32 := fun path node =>
  match node with
  | .scalar tag style text =>
    match if mayBe floatTag tag style then float? text else none with
    | some x => .ok (Number.narrow x)
    | none => wrongType "f32" path node
  | _ => wrongType "f32" path node

/-- Any scalar is its text. -/
def decodeString : Decoder String := fun path node =>
  match node with
  | .scalar _ _ text => .ok text
  | node => wrongType "a string" path node

def decodeName (kind : String) : Decoder String := fun path node =>
  match node with
  | .scalar _ _ text => .ok text
  | node => wrongType (kind ++ " identifier") path node

/-- Whether an optional value is there: a plain null or nothing stands for none. -/
def isPresent : Decoder Bool := fun path node =>
  match node with
  | .scalar tag .plain text =>
    match tag with
    | some tag =>
      if tag ≠ nullTag then .ok true
      else if isNullWord text then .ok false
      else .error (.mismatch path (.invalidValue (.string text) "null"))
    | none => .ok (! text.isEmpty && ! isNullWord text)
  | .absent => .ok false
  | .unreadable => .error .malformed
  | _ => .ok true

def decodeEntries (expected : String) : Decoder (List (Entry Node)) := fun path node =>
  match node with
  | .mapping _ entries => .ok entries
  | .tooDeep _ true => .error .tooDeep
  | .absent => .ok []
  | .scalar _ style text => if isVoid style text then .ok [] else wrongType expected path node
  | node => wrongType expected path node

/-- Of entries with equal keys the last one counts. -/
def decodeTable {α : Type} (value : Decoder α) : Decoder (Table α) := fun path node => do
  let entries ← decodeEntries "a map" path node
  entries.foldlM (fun (table : Table α) (e : Entry Node) => do
    let key ← decodeString path e.key
    return table.insert key (← value (path.enter e.label) e.value)) ∅

/-- The fields of a record in any order; unknown ones are passed over. -/
def decodeFields {V : Type} (fields : List (String × Decoder V)) (path : Path)
    (seen : List (String × V)) : List (Entry Node) → Except Failure (List (String × V))
  | [] => .ok seen
  | ⟨label, key, value⟩ :: entries => do
    let name ← decodeName "field" path key
    match fields.lookup name with
    | none => if value.isWhole then decodeFields fields path seen entries else throw .malformed
    | some field => do
      if (seen.lookup name).isSome then throw (.mismatch path (.duplicateField name))
      let v ← field (path.enter label) value
      decodeFields fields path (seen ++ [(name, v)]) entries

def decodeVector : Decoder Vec3 := fun path node => do
  let entries ← decodeEntries "struct Vec3" path node
  let names := ["x", "y", "z"]
  let values ← decodeFields (names.map (·, decodeSingle)) path [] entries
  match names.find? fun name => (values.lookup name).isNone with
  | some name => throw (.mismatch path (.missingField name))
  | none =>
    let field name := (values.lookup name).getD 0
    return ⟨field "x", field "y", field "z"⟩

def decodeValue : (k : Kind) → Decoder k.Value
  | .float => decodeSingle
  | .int => decodeInt
  | .bool => decodeBool
  | .vector => decodeVector
  | .string => decodeString

/-- Absent sections are empty. -/
def decodeBlackboard : Decoder Blackboard := fun path node => do
  let entries ← decodeEntries "struct Blackboard" path node
  let fields := Kind.all.map fun k =>
    (k.sectionName, (fun path node => do
      let table ← decodeTable (decodeValue k) path node
      return fun b : Blackboard => b.setEntries k table : Decoder (Blackboard → Blackboard)))
  let values ← decodeFields fields path [] entries
  return values.foldl (fun b v => v.2 b) {}

end BehaviorTree.Yaml
