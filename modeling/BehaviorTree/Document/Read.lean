import BehaviorTree.Document.Fields
import BehaviorTree.Yaml.Decode

/-!
# Reading documents

A document is a mapping with a few known fields; so is the body of a node. A node is a
mapping whose only key is its kind. Tags do not take the place of that key. A field
that is not known, written twice or missing though required is a fault.
-/

namespace BehaviorTree

open Yaml (Path Failure Decoder Entry wrongType)

/-- One of several words; written as a mapping it is a variant with a body, which they are not. -/
def decodeWord {α : Type} (type : String) (choices : List (String × α)) : Decoder α :=
  fun path node =>
    let choose (word : String) : Except Failure α :=
      match choices.lookup word with
      | some a => .ok a
      | none => .error (.mismatch path (.unknownVariant word (choices.map (·.1))))
    let foundHere (found : Found) : Except Failure α :=
      .error (.mismatch path (.invalidType found ("enum " ++ type)))
    match node with
    | .scalar tag style text =>
      if Yaml.isLocalTag tag then foundHere .enumeration
      else match Yaml.foundScalar tag style text with
        | .ok (.string word) => choose word
        | .ok found => foundHere found
        | .error m => .error (.mismatch path m)
    | .sequence tag _ => foundHere (if Yaml.isLocalTag tag then .enumeration else .sequence)
    | .mapping tag entries =>
      if Yaml.isLocalTag tag then foundHere .enumeration
      else match entries with
        | [] => .error (.mismatch path (.invalidValue .map "map with a single key"))
        | e :: _ => do
          let word ← Yaml.decodeName "variant" path e.key
          let _ ← choose word
          throw (.mismatch path (.invalidType .map "unit variant"))
    | .tooDeep tag _ => if Yaml.isLocalTag tag then foundHere .enumeration else .error .tooDeep
    | .absent | .unreadable => .error .malformed

def decodeQuorum : Decoder Quorum :=
  decodeWord "ParallelPolicy" (Quorum.all.map fun q => (q.word, q))

def decodeScope : Decoder Scope :=
  decodeWord "BlackboardScope" (Scope.all.map fun s => (s.word, s))

def decodeReport : Decoder Report :=
  decodeWord "SubtreeReport" (Report.all.map fun r => (r.word, r))

def decodeKind : Decoder NodeKind := fun path node => do
  let word ← Yaml.decodeName "variant" path node
  match NodeKind.all.find? (·.word = word) with
  | some kind => return kind
  | none => throw (.mismatch path (.unknownVariant word (NodeKind.all.map (·.word))))

def decodeField (kind : NodeKind) : Decoder Field := fun path node => do
  let word ← Yaml.decodeName "field" path node
  match kind.fields.find? (·.word = word) with
  | some field => return field
  | none => throw (.mismatch path (.unknownField word (kind.fields.map (·.word))))

/-- A text, or nothing; a fault in telling which is one of the body around it. -/
def decodeLabel (outer : Path) : Decoder (Option String) := fun path node => do
  if ← Yaml.isPresent outer node then return some (← Yaml.decodeString path node)
  else return none

def decodeBareNode : Decoder Spec := fun path node =>
  let foundHere (found : Found) : Except Failure Spec :=
    .error (.mismatch path (.invalidType found "enum NodeSpec"))
  match node with
  | .scalar tag style text =>
    if Yaml.isLocalTag tag then foundHere .enumeration
    else match Yaml.foundScalar tag style text with
      | .ok (.string word) =>
        if NodeKind.all.any (·.word = word) then
          .error (.mismatch path (.invalidType .bareVariant "newtype variant"))
        else .error (.mismatch path (.unknownVariant word (NodeKind.all.map (·.word))))
      | .ok found => foundHere found
      | .error m => .error (.mismatch path m)
  | .sequence tag _ => foundHere (if Yaml.isLocalTag tag then .enumeration else .sequence)
  | .mapping .. => foundHere .enumeration
  | .tooDeep tag _ => if Yaml.isLocalTag tag then foundHere .enumeration else .error .tooDeep
  | .absent | .unreadable => .error .malformed

def closeBody (kind : NodeKind) (path : Path) (body : Body) : Except Failure Spec :=
  match body.missing? kind with
  | some field => .error (.mismatch path (.missingField field.word))
  | none => .ok (body.toSpec kind)

namespace Spec

mutual

def decode (path : Path) : Yaml.Node → Except Failure Spec
  | .mapping tag entries =>
    if Yaml.isLocalTag tag then decodeBareNode path (.mapping tag entries)
    else decodeKinds path entries
  | node => decodeBareNode path node

def decodeKinds (path : Path) : List (Entry Yaml.Node) → Except Failure Spec
  | [] => .error (.mismatch path (.invalidValue .map "map with a single key"))
  | ⟨label, key, value⟩ :: rest => do
    let kind ← decodeKind path key
    let spec ← decodeBody kind (path.enter label) value
    match rest with
    | [] => return spec
    | e :: _ =>
      if e.key.isWhole then throw (.mismatch path (.invalidValue .map "map with a single key"))
      else throw .malformed

def decodeBody (kind : NodeKind) (path : Path) : Yaml.Node → Except Failure Spec
  | .mapping _ entries => decodeFields kind path {} entries
  | .tooDeep _ true => .error .tooDeep
  | .scalar tag style text =>
    if Yaml.isVoid style text then closeBody kind path {}
    else wrongType ("struct " ++ kind.bodyName) path (.scalar tag style text)
  | node => wrongType ("struct " ++ kind.bodyName) path node

def decodeFields (kind : NodeKind) (path : Path) (body : Body) :
    List (Entry Yaml.Node) → Except Failure Spec
  | [] => closeBody kind path body
  | ⟨label, key, value⟩ :: rest => do
    let field ← decodeField kind path key
    if body.has field then throw (.mismatch path (.duplicateField field.word))
    let inner := path.enter label
    let body ← match field with
      | .binding => do pure { body with binding := some (← Yaml.decodeString inner value) }
      | .name => do pure { body with name := some (← decodeLabel path inner value) }
      | .child => do
        let child ← if ← Yaml.isPresent path value then some <$> decode inner value else pure none
        pure { body with child := some child }
      | .limit => do pure { body with limit := some (← Yaml.decodeInt inner value) }
      | .duration => do pure { body with duration := some (← Yaml.decodeSingle inner value) }
      | .memory => do pure { body with memory := some (← Yaml.decodeBool inner value) }
      | .children => do pure { body with children := some (← decodeChildren inner value) }
      | .success => do pure { body with success := some (← decodeQuorum inner value) }
      | .failure => do pure { body with failure := some (← decodeQuorum inner value) }
      | .tree => do pure { body with tree := some (← Yaml.decodeString inner value) }
      | .blackboard => do pure { body with scope := some (← decodeScope inner value) }
      | .report => do pure { body with report := some (← decodeReport inner value) }
    decodeFields kind path body rest

def decodeChildren (path : Path) : Yaml.Node → Except Failure (List Spec)
  | .sequence _ items => decodeItems path 0 items
  | .tooDeep _ false => .error .tooDeep
  | .scalar tag style text =>
    if Yaml.isVoid style text then .ok []
    else wrongType "a sequence" path (.scalar tag style text)
  | node => wrongType "a sequence" path node

def decodeItems (path : Path) (index : Nat) : List Yaml.Node → Except Failure (List Spec)
  | [] => .ok []
  | item :: items => do
    let spec ← decode (.index index :: path) item
    return spec :: (← decodeItems path (index + 1) items)

end

end Spec

namespace Document

structure Parts where
  root : Option String := none
  blackboard : Option Blackboard := none
  trees : Option (Table Spec) := none

def fieldNames : List String := ["root", "blackboard", "trees"]

def decodeParts (path : Path) (parts : Parts) :
    List (Entry Yaml.Node) → Except Failure Parts
  | [] => .ok parts
  | ⟨label, key, value⟩ :: rest => do
    let name ← Yaml.decodeName "field" path key
    let inner := path.enter label
    let unlessTwice {α : Type} (old : Option α) (decoder : Decoder α) : Except Failure α :=
      if old.isSome then .error (.mismatch path (.duplicateField name)) else decoder inner value
    let parts ←
      if name = "root" then do
        pure { parts with root := some (← unlessTwice parts.root Yaml.decodeString) }
      else if name = "blackboard" then do
        pure { parts with blackboard := some (← unlessTwice parts.blackboard Yaml.decodeBlackboard) }
      else if name = "trees" then do
        pure { parts with trees := some (← unlessTwice parts.trees (Yaml.decodeTable Spec.decode)) }
      else throw (.mismatch path (.unknownField name fieldNames))
    decodeParts path parts rest

def decode : Decoder Document := fun path node => do
  let parts ← decodeParts path {} (← Yaml.decodeEntries "struct TreeDocument" path node)
  match parts.root with
  | none => throw (.mismatch path (.missingField "root"))
  | some root => return ⟨root, parts.blackboard.getD {}, parts.trees.getD ∅⟩

/-- Faults of the data come before faults of the text that follows them. -/
def ofYaml (text : String) : Except Failure Document := do
  let reading := Yaml.read text
  let document ← decode [] reading.node
  if ¬ reading.sound then throw .malformed
  if ¬ reading.alone then throw .notAlone
  return document

end Document

end BehaviorTree
