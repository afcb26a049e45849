import BehaviorTree.Yaml.Source

/-!
# YAML nodes

The tree of a document with every alias replaced by what it stands for. An anchor
has the number of different anchor names before it, and an alias means the last node
in the document whose anchor has that number. Nesting is cut off below a depth of 128,
which also bounds aliases to a node around them; and at most a hundred aliases for
each part of the document are followed.
-/

namespace BehaviorTree.Yaml

structure Entry (ν : Type) where
  /-- The key's text where it is written as a scalar at this place. -/
  label : Option String
  key : ν
  value : ν
  deriving Repr

inductive Node where
  | scalar (tag : Option String) (style : Style) (text : String)
  | sequence (tag : Option String) (items : List Node)
  | mapping (tag : Option String) (entries : List (Entry Node))
  /-- What a stream without documents holds. -/
  | absent
  /-- A collection below the greatest depth. -/
  | tooDeep (tag : Option String) (isMapping : Bool)
  | unreadable

namespace Node

instance : Inhabited Node := ⟨unreadable⟩

def greatestDepth : Nat := 128

/-! ## Anchors and aliases -/

structure Links where
  /-- Numbers of the anchor names seen, latest first. -/
  numbers : List (String × Nat) := []
  /-- The number of different names. -/
  names : Nat := 0
  /-- Whether an alias without anchor ended the document. -/
  ended : Bool := false

def Links.note (l : Links) : Option String → Option Nat × Links
  | none => (none, l)
  | some name =>
    let known := (l.numbers.lookup name).isSome
    (some l.names,
      { l with
        numbers := (name, l.names) :: l.numbers
        names := if known then l.names else l.names + 1 })

mutual

def link : Source → Links → Written Nat × Links
  | .scalar ⟨anchor, tag⟩ text style, l =>
    let (anchor, l) := l.note anchor
    (.scalar ⟨anchor, tag⟩ text style, l)
  | .sequence ⟨anchor, tag⟩ items, l =>
    let (anchor, l) := l.note anchor
    let (items, l) := linkItems items l
    (.sequence ⟨anchor, tag⟩ items, l)
  | .mapping ⟨anchor, tag⟩ entries, l =>
    let (anchor, l) := l.note anchor
    let (entries, l) := linkEntries entries l
    (.mapping ⟨anchor, tag⟩ entries, l)
  | .aliasTo name, l =>
    match l.numbers.lookup name with
    | some n => (.aliasTo n, l)
    | none => (.unreadable, { l with ended := true })
  | .unreadable, l => (.unreadable, l)

def linkItems : List Source → Links → List (Written Nat) × Links
  | [], l => ([], l)
  | item :: items, l =>
    let (item, l) := link item l
    if l.ended then ([item, .unreadable], l)
    else
      let (items, l) := linkItems items l
      (item :: items, l)

def linkEntries : List (Source × Source) → Links → List (Written Nat × Written Nat) × Links
  | [], l => ([], l)
  | (key, value) :: entries, l =>
    let (key, l) := link key l
    if l.ended then ([(key, .unreadable)], l)
    else
      let (value, l) := link value l
      if l.ended then ([(key, value), (.unreadable, .unreadable)], l)
      else
        let (entries, l) := linkEntries entries l
        ((key, value) :: entries, l)

end

mutual

def anchored : Written Nat → List (Nat × Written Nat)
  | .scalar p text style => (p.anchor.map (·, .scalar p text style)).toList
  | .sequence p items => (p.anchor.map (·, .sequence p items)).toList ++ anchoredItems items
  | .mapping p entries => (p.anchor.map (·, .mapping p entries)).toList ++ anchoredEntries entries
  | .aliasTo _ | .unreadable => []

def anchoredItems : List (Written Nat) → List (Nat × Written Nat)
  | [] => []
  | item :: items => anchored item ++ anchoredItems items

def anchoredEntries : List (Written Nat × Written Nat) → List (Nat × Written Nat)
  | [] => []
  | (key, value) :: entries => anchored key ++ anchored value ++ anchoredEntries entries

end

mutual

/-- Scalars and aliases count once, collections twice. -/
def weight : Written Nat → Nat
  | .scalar .. | .aliasTo _ => 1
  | .sequence _ items => 2 + weightItems items
  | .mapping _ entries => 2 + weightEntries entries
  | .unreadable => 0

def weightItems : List (Written Nat) → Nat
  | [] => 0
  | item :: items => weight item + weightItems items

def weightEntries : List (Written Nat × Written Nat) → Nat
  | [] => 0
  | (key, value) :: entries => weight key + weight value + weightEntries entries

end

def isAlias {ρ : Type} : Written ρ → Bool
  | .aliasTo _ => true
  | _ => false

/-- The key's text if it is written as a scalar. -/
def labelOf : Written Nat → Option String
  | .scalar _ text _ => some text
  | _ => none

/-- The number of aliases that may still be followed. -/
abbrev Expansion := StateM Nat

def follow (targets : Nat → Written Nat) : Written Nat → Expansion (Option (Written Nat))
  | .aliasTo n => do
    match ← get with
    | 0 => return none
    | left + 1 =>
      set left
      return some (targets n)
  | node => return some node

def expand (targets : Nat → Written Nat) : Nat → Written Nat → Expansion Node
  | 0, written => do
    match ← follow targets written with
    | some (.scalar p text style) => return .scalar p.tag style text
    | some (.sequence p _) => return .tooDeep p.tag false
    | some (.mapping p _) => return .tooDeep p.tag true
    | some (.aliasTo _) | some .unreadable | none => return .unreadable
  | depth + 1, written => do
    match ← follow targets written with
    | some (.scalar p text style) => return .scalar p.tag style text
    | some (.sequence p items) => return .sequence p.tag (← items.mapM (expand targets depth))
    | some (.mapping p entries) =>
      let entries ← entries.mapM fun (key, value) => do
        let expanded ← expand targets depth key
        return ⟨labelOf key, expanded, ← expand targets depth value⟩
      return .mapping p.tag entries
    | some (.aliasTo _) | some .unreadable | none => return .unreadable

def ofSource (source : Source) : Node × Bool :=
  let (linked, l) := link source {}
  let table := (anchored linked).reverse
  let targets n := (table.lookup n).getD .unreadable
  let (node, _) := (expand targets greatestDepth linked).run (100 * weight linked)
  (node, !l.ended)

end Node

/-- A text as a stream of documents, of which the first counts. -/
structure Reading where
  node : Node
  sound : Bool
  alone : Bool

def read (text : String) : Reading :=
  let d := Source.document (tokens text)
  match d.root with
  | none => ⟨.absent, d.sound, d.alone⟩
  | some source =>
    let (node, linked) := Node.ofSource source
    ⟨node, d.sound && linked, d.alone⟩

end BehaviorTree.Yaml
