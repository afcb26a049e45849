import BehaviorTree.Yaml.Token.Stream

/-!
# Sources

The nodes of a text as written: aliases are names, and tags are resolved against the
handles in force. Where the tokens stop making sense, the nodes read up to there are
kept and an unreadable node stands for what is missing.
-/

namespace BehaviorTree.Yaml

structure Properties (ρ : Type) where
  anchor : Option ρ := none
  tag : Option String := none
  deriving DecidableEq, Repr

/-- A node as written; anchors and aliases refer to each other by a `ρ`. -/
inductive Written (ρ : Type) where
  | scalar (properties : Properties ρ) (text : String) (style : Style)
  | sequence (properties : Properties ρ) (items : List (Written ρ))
  | mapping (properties : Properties ρ) (entries : List (Written ρ × Written ρ))
  | aliasTo (target : ρ)
  | unreadable

instance (ρ : Type) : Inhabited (Written ρ) := ⟨.unreadable⟩

abbrev Source := Written String

namespace Source

open Written

def empty : Source := scalar {} "" .plain

/-- A node or nodes, and the tokens behind unless reading stops there. -/
abbrev Reading (α : Type) := α × Option (List Token)

abbrev Handles := List (String × String)

def defaultHandles : Handles := [("!", "!"), ("!!", "tag:yaml.org,2002:")]

def takeProperties : List Token → Option String × Option (String × String) × List Token
  | .anchor a :: .tag h s :: rest => (some a, some (h, s), rest)
  | .tag h s :: .anchor a :: rest => (some a, some (h, s), rest)
  | .anchor a :: rest => (some a, none, rest)
  | .tag h s :: rest => (none, some (h, s), rest)
  | tokens => (none, none, tokens)

/-- The full name of a tag; `none` if its handle is unknown. -/
def tagName (handles : Handles) : Option (String × String) → Option (Option String)
  | none => some none
  | some (handle, suffix) =>
    if handle.isEmpty then some (some suffix)
    else (handles.lookup handle).map fun stem => some (stem ++ suffix)

inductive Context where
  | flow
  | block
  /-- In a block mapping, whose sequences need not be indented. -/
  | blockMapping
  deriving DecidableEq

def endsBlockItem : Token → Bool
  | .blockEntry | .blockEnd => true
  | _ => false

def endsBlockValue : Token → Bool
  | .key | .value | .blockEnd => true
  | _ => false

def endsIndentlessItem (t : Token) : Bool := endsBlockItem t || endsBlockValue t

def endsSequencePart : Token → Bool
  | .flowEntry | .flowSequenceEnd => true
  | _ => false

def endsMappingPart : Token → Bool
  | .flowEntry | .flowMappingEnd => true
  | _ => false

def isValue (t : Token) : Bool := t = .value

mutual

def readNode (handles : Handles) : Nat → Context → List Token → Reading Source
  | 0, _, _ => (unreadable, none)
  | fuel + 1, context, tokens =>
    match tokens with
    | .aliasTo name :: rest => (aliasTo name, some rest)
    | tokens =>
      let (anchor, written, rest) := takeProperties tokens
      match tagName handles written with
      | none => (unreadable, none)
      | some tag =>
        let properties : Properties String := ⟨anchor, tag⟩
        match rest with
        | .scalar text style :: rest =>
          (scalar { properties with tag := tag.filter (· ≠ "!") } text style, some rest)
        | .flowSequenceStart :: rest =>
          let (items, rest) := readFlowItems handles fuel true rest
          (sequence properties items, rest)
        | .flowMappingStart :: rest =>
          let (entries, rest) := readFlowEntries handles fuel true rest
          (mapping properties entries, rest)
        | .blockEntry :: _ =>
          if context = .blockMapping then
            let (items, rest) := readIndentlessItems handles fuel rest
            (sequence properties items, rest)
          else bare properties rest
        | .blockSequenceStart :: rest' =>
          if context = .flow then bare properties rest
          else
            let (items, rest) := readBlockItems handles fuel rest'
            (sequence properties items, rest)
        | .blockMappingStart :: rest' =>
          if context = .flow then bare properties rest
          else
            let (entries, rest) := readBlockEntries handles fuel rest'
            (mapping properties entries, rest)
        | [] => (unreadable, none)
        | rest => bare properties rest
where
  /-- A node that has properties only. -/
  bare (properties : Properties String) (rest : List Token) : Reading Source :=
    if properties = {} then (unreadable, none) else (scalar properties "" .plain, some rest)

def readOptional (handles : Handles) (fuel : Nat) (context : Context) (ends : Token → Bool)
    (tokens : List Token) : Reading Source :=
  match fuel with
  | 0 => (unreadable, none)
  | fuel + 1 =>
    match tokens with
    | [] => (unreadable, none)
    | t :: rest => if ends t then (empty, some (t :: rest)) else readNode handles fuel context (t :: rest)

def readBlockItems (handles : Handles) : Nat → List Token → Reading (List Source)
  | 0, _ => ([unreadable], none)
  | fuel + 1, tokens =>
    match tokens with
    | .blockEntry :: rest =>
      match readOptional handles fuel .block endsBlockItem rest with
      | (item, none) => ([item, unreadable], none)
      | (item, some rest) =>
        let (items, rest) := readBlockItems handles fuel rest
        (item :: items, rest)
    | .blockEnd :: rest => ([], some rest)
    | _ => ([unreadable], none)

def readIndentlessItems (handles : Handles) : Nat → List Token → Reading (List Source)
  | 0, _ => ([unreadable], none)
  | fuel + 1, tokens =>
    match tokens with
    | .blockEntry :: rest =>
      match readOptional handles fuel .block endsIndentlessItem rest with
      | (item, none) => ([item, unreadable], none)
      | (item, some rest) =>
        let (items, rest) := readIndentlessItems handles fuel rest
        (item :: items, rest)
    | [] => ([unreadable], none)
    | tokens => ([], some tokens)

def readValue (handles : Handles) (fuel : Nat) (context : Context) (ends : Token → Bool)
    (tokens : List Token) : Reading Source :=
  match fuel with
  | 0 => (unreadable, none)
  | fuel + 1 =>
    match tokens with
    | .value :: rest => readOptional handles fuel context ends rest
    | [] => (unreadable, none)
    | tokens => (empty, some tokens)

def readBlockEntries (handles : Handles) : Nat → List Token → Reading (List (Source × Source))
  | 0, _ => ([(unreadable, unreadable)], none)
  | fuel + 1, tokens =>
    match tokens with
    | .key :: rest =>
      match readOptional handles fuel .blockMapping endsBlockValue rest with
      | (key, none) => ([(key, unreadable)], none)
      | (key, some rest) =>
        match readValue handles fuel .blockMapping endsBlockValue rest with
        | (value, none) => ([(key, value), (unreadable, unreadable)], none)
        | (value, some rest) =>
          let (entries, rest) := readBlockEntries handles fuel rest
          ((key, value) :: entries, rest)
    | .blockEnd :: rest => ([], some rest)
    | _ => ([(unreadable, unreadable)], none)

def readFlowItems (handles : Handles) : Nat → (isFirst : Bool) → List Token →
    Reading (List Source)
  | 0, _, _ => ([unreadable], none)
  | fuel + 1, isFirst, tokens =>
    match tokens, isFirst with
    | .flowSequenceEnd :: rest, _ => ([], some rest)
    | .flowEntry :: .flowSequenceEnd :: rest, false => ([], some rest)
    | .flowEntry :: rest, false => item fuel rest
    | _, false => ([unreadable], none)
    | tokens, true => item fuel tokens
where
  item (fuel : Nat) (tokens : List Token) : Reading (List Source) :=
    match fuel with
    | 0 => ([unreadable], none)
    | fuel + 1 =>
      match readFlowItem handles fuel tokens with
      | (node, none) => ([node, unreadable], none)
      | (node, some rest) =>
        let (items, rest) := readFlowItems handles fuel false rest
        (node :: items, rest)

/-- An item of a flow sequence; one with a key indicator is a mapping of one entry. -/
def readFlowItem (handles : Handles) (fuel : Nat) (tokens : List Token) : Reading Source :=
  match fuel with
  | 0 => (unreadable, none)
  | fuel + 1 =>
    match tokens with
    | .key :: rest =>
      let pair (key : Source) (rest : List Token) : Reading Source :=
        match readValue handles fuel .flow endsSequencePart rest with
        | (value, none) => (mapping {} [(key, value), (unreadable, unreadable)], none)
        | (value, some rest) => (mapping {} [(key, value)], some rest)
      match readOptional handles fuel .flow (fun t => isValue t || endsSequencePart t) rest with
      | (key, none) => (mapping {} [(key, unreadable)], none)
      | (key, some after) =>
        -- The token that shows the key to be left out is passed over.
        pair key (if after.length = rest.length then after.drop 1 else after)
    | tokens => readNode handles fuel .flow tokens

def readFlowEntries (handles : Handles) : Nat → (isFirst : Bool) → List Token →
    Reading (List (Source × Source))
  | 0, _, _ => ([(unreadable, unreadable)], none)
  | fuel + 1, isFirst, tokens =>
    match tokens, isFirst with
    | .flowMappingEnd :: rest, _ => ([], some rest)
    | .flowEntry :: .flowMappingEnd :: rest, false => ([], some rest)
    | .flowEntry :: rest, false => entry fuel rest
    | _, false => ([(unreadable, unreadable)], none)
    | tokens, true => entry fuel tokens
where
  entry (fuel : Nat) (tokens : List Token) : Reading (List (Source × Source)) :=
    match fuel with
    | 0 => ([(unreadable, unreadable)], none)
    | fuel + 1 =>
      match readFlowEntry handles fuel tokens with
      | ((key, value), none) => ([(key, value), (unreadable, unreadable)], none)
      | ((key, value), some rest) =>
        let (entries, rest) := readFlowEntries handles fuel false rest
        ((key, value) :: entries, rest)

/-- An entry of a flow mapping; without a key indicator it has no value. -/
def readFlowEntry (handles : Handles) (fuel : Nat) (tokens : List Token) :
    Reading (Source × Source) :=
  match fuel with
  | 0 => ((unreadable, unreadable), none)
  | fuel + 1 =>
    match tokens with
    | .key :: rest =>
      match readOptional handles fuel .flow (fun t => isValue t || endsMappingPart t) rest with
      | (key, none) => ((key, unreadable), none)
      | (key, some rest) =>
        match readValue handles fuel .flow endsMappingPart rest with
        | (value, rest) => ((key, value), rest)
    | tokens =>
      match readNode handles fuel .flow tokens with
      | (key, none) => ((key, unreadable), none)
      | (key, some rest) => ((key, empty), some rest)

end

structure Document where
  /-- `none` if the stream holds no document. -/
  root : Option Source
  /-- Whether the document is complete. -/
  sound : Bool
  /-- Whether the stream ends behind the document. -/
  alone : Bool

/-- The tag handles that directives declare, and the tokens behind; one version at most, 1.1 or 1.2. -/
def takeDirectives : List Token → (versioned : Bool) → Handles → Option (Handles × List Token)
  | .versionDirective major minor :: rest, versioned, handles =>
    if versioned ∨ major ≠ 1 ∨ minor ≠ 1 ∧ minor ≠ 2 then none
    else takeDirectives rest true handles
  | .tagDirective handle stem :: rest, versioned, handles =>
    if (handles.lookup handle).isSome then none
    else takeDirectives rest versioned ((handle, stem) :: handles)
  | tokens, _, handles => some (handles, tokens)

def isDocumentBoundary : Token → Bool
  | .versionDirective .. | .tagDirective .. | .documentStart | .documentEnd | .streamEnd => true
  | _ => false

def endsStream : List Token → Bool
  | .documentEnd :: rest => endsStream rest
  | .streamEnd :: _ => true
  | _ => false

def document (tokens : List Token) : Document :=
  let fuel := 4 * tokens.length + 4
  let finish (reading : Reading Source) : Document :=
    match reading with
    | (root, none) | (root, some []) => ⟨some root, false, false⟩
    | (root, some rest) => ⟨some root, true, endsStream rest⟩
  match tokens with
  | [] => ⟨some unreadable, false, false⟩
  | .streamEnd :: _ => ⟨none, true, true⟩
  | t :: rest =>
    if isDocumentBoundary t ∧ t ≠ .documentEnd then
      match takeDirectives (t :: rest) false [] with
      | some (handles, .documentStart :: rest) =>
        finish (readOptional (handles ++ defaultHandles) fuel .block isDocumentBoundary rest)
      | _ => ⟨some unreadable, false, false⟩
    else finish (readNode defaultHandles fuel .block (t :: rest))

end Source

end BehaviorTree.Yaml
