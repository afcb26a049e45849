import BehaviorTree.Yaml.Token.Property

/-!
# Token streams

Indentation turns into tokens that open and close block collections. A mapping key
shows itself only by the colon behind it: until then, what may be a key is kept in
mind, and tokens are put in front of it when the colon comes. A key without an
indicator lies on one line and is at most 1024 characters long.

A fault ends the stream. The tokens before it count, except those from a possible key
on, whose role was still open.
-/

namespace BehaviorTree.Yaml

structure PossibleKey where
  /-- Number of the key's first token. -/
  token : Nat
  /-- Whether the block context lets the token be nothing but a key. -/
  required : Bool
  index : Nat
  line : Nat
  column : Nat

def PossibleKey.isStale (k : PossibleKey) (c : Cursor) : Bool :=
  k.line < c.line || k.index + 1024 < c.index

structure Scanner where
  cursor : Cursor
  tokens : Array Token := #[]
  /-- Indentation of the current block, `none` outside all blocks. -/
  indent : Option Nat := none
  /-- Indentations of the enclosing blocks. -/
  outer : List (Option Nat) := []
  keyAllowed : Bool := true
  /-- The possible key of each open flow collection, innermost first. -/
  flow : List (Option PossibleKey) := []
  /-- The possible key outside flow collections. -/
  blockKey : Option PossibleKey := none
  ended : Bool := false

namespace Scanner

def inFlow (s : Scanner) : Bool := !s.flow.isEmpty

def emit (s : Scanner) (t : Token) : Scanner := { s with tokens := s.tokens.push t }

def indicate (s : Scanner) (t : Token) (length : Nat) : Scanner :=
  { s.emit t with cursor := s.cursor.advance length }

def key (s : Scanner) : Option PossibleKey :=
  match s.flow with
  | [] => s.blockKey
  | k :: _ => k

def setKey (s : Scanner) (k : Option PossibleKey) : Scanner :=
  match s.flow with
  | [] => { s with blockKey := k }
  | _ :: outer => { s with flow := k :: outer }

/-- Gives up the current possible key, unless it has to be one. -/
def dropKey (s : Scanner) : Option Scanner :=
  if s.key.any (·.required) then none else some (s.setKey none)

/-- Gives up the possible keys that a key at the cursor's place can no longer end. -/
def dropStaleKeys (s : Scanner) : Option Scanner :=
  let isStale (k : Option PossibleKey) : Bool := k.any (·.isStale s.cursor)
  if isStale s.blockKey ∧ s.blockKey.any (·.required) then none
  else some { s with
    blockKey := if isStale s.blockKey then none else s.blockKey
    flow := s.flow.map fun k => if isStale k then none else k }

def noteKey (s : Scanner) : Option Scanner :=
  if s.keyAllowed then do
    let c := s.cursor
    let s ← s.dropKey
    let required := ¬ s.inFlow ∧ s.indent = some c.column
    return s.setKey (some ⟨s.tokens.size, required, c.index, c.line, c.column⟩)
  else some s

def openBlock (s : Scanner) (column position : Nat) (t : Token) : Scanner :=
  if ¬ s.inFlow ∧ s.indent.all (· < column) then
    { s with
      indent := some column
      outer := s.indent :: s.outer
      tokens := s.tokens.insertIdxIfInBounds position t }
  else s

def closeBlocks (column : Option Nat) (s : Scanner) : Scanner :=
  if s.inFlow then s
  else
    let rec close : List (Option Nat) → Option Nat → Array Token → Scanner
      | [], _, tokens => { s with indent := none, outer := [], tokens }
      | o :: outer, indent, tokens =>
        if indent.any fun i => column.all (· < i) then close outer o (tokens.push .blockEnd)
        else { s with indent, outer := o :: outer, tokens }
    close s.outer s.indent s.tokens

def skipToToken : Nat → Scanner → Scanner
  | 0, s => s
  | fuel + 1, s =>
    let tabs := s.inFlow || !s.keyAllowed
    let c := s.cursor.advanceWhile fun d => d = ' ' || (tabs && d = '\t')
    let c := if c.head? = some '#' then c.advanceWhile (! isBreak ·) else c
    if c.isAtBreak then
      skipToToken fuel { s with cursor := c.nextLine, keyAllowed := s.keyAllowed || !s.inFlow }
    else { s with cursor := c }

def streamEnd (s : Scanner) : Option Scanner := do
  let s ← (s.closeBlocks none).dropKey
  return { s.emit .streamEnd with keyAllowed := false, ended := true }

def directive (s : Scanner) : Option Scanner := do
  let s ← (s.closeBlocks none).dropKey
  let (t, cursor) ← scanDirective s.cursor
  return { s.emit t with keyAllowed := false, cursor }

def documentMarker (s : Scanner) (t : Token) : Option Scanner := do
  let s ← (s.closeBlocks none).dropKey
  return { s.indicate t 3 with keyAllowed := false }

def flowStart (s : Scanner) (t : Token) : Option Scanner := do
  let s ← s.noteKey
  return { s.indicate t 1 with flow := none :: s.flow, keyAllowed := true }

def flowEnd (s : Scanner) (t : Token) : Option Scanner := do
  let s ← s.dropKey
  return { s.indicate t 1 with flow := s.flow.drop 1, keyAllowed := false }

def flowEntry (s : Scanner) : Option Scanner := do
  let s ← s.dropKey
  return { s.indicate .flowEntry 1 with keyAllowed := true }

def blockEntry (s : Scanner) : Option Scanner :=
  if ¬ s.inFlow ∧ ¬ s.keyAllowed then none
  else do
    let s ← (s.openBlock s.cursor.column s.tokens.size .blockSequenceStart).dropKey
    return { s.indicate .blockEntry 1 with keyAllowed := true }

def explicitKey (s : Scanner) : Option Scanner :=
  if ¬ s.inFlow ∧ ¬ s.keyAllowed then none
  else do
    let s ← (s.openBlock s.cursor.column s.tokens.size .blockMappingStart).dropKey
    return { s.indicate .key 1 with keyAllowed := !s.inFlow }

def mappingValue (s : Scanner) : Option Scanner :=
  match s.key with
  | some k =>
    let s := (s.setKey none)
    let s := { s with tokens := s.tokens.insertIdxIfInBounds k.token .key }
    let s := s.openBlock k.column k.token .blockMappingStart
    some { s.indicate .value 1 with keyAllowed := false }
  | none =>
    if ¬ s.inFlow ∧ ¬ s.keyAllowed then none
    else
      let s := s.openBlock s.cursor.column s.tokens.size .blockMappingStart
      some { s.indicate .value 1 with keyAllowed := !s.inFlow }

def nameToken (s : Scanner) (make : String → Token) : Option Scanner := do
  let s ← s.noteKey
  let (name, cursor) ← scanName s.cursor
  return { s.emit (make name) with keyAllowed := false, cursor }

def tagToken (s : Scanner) : Option Scanner := do
  let s ← s.noteKey
  let (t, cursor) ← scanTag s.inFlow s.cursor
  return { s.emit t with keyAllowed := false, cursor }

def blockScalar (s : Scanner) (style : Style) : Option Scanner := do
  let s ← s.dropKey
  let r ← scanBlock (style = .literal) s.indent s.cursor
  return { s.emit (.scalar (String.ofList r.text) style) with keyAllowed := true, cursor := r.cursor }

def quotedScalar (s : Scanner) (quote : Char) (style : Style) : Option Scanner := do
  let s ← s.noteKey
  let c := s.cursor.advance 1
  let r ← scanQuoted quote (c.rest.length + 1) c
  return { s.emit (.scalar (String.ofList r.text) style) with keyAllowed := false, cursor := r.cursor }

def plainScalar (s : Scanner) : Option Scanner := do
  let s ← s.noteKey
  let margin := (s.indent.map (· + 1)).getD 0
  let r ← scanPlain s.inFlow margin (s.cursor.rest.length + 1) s.cursor {}
  return { s.emit (.scalar (String.ofList r.text) .plain) with
    keyAllowed := r.passedBreak, cursor := r.cursor }

/-- Whether a plain scalar may start with `d` with the given character behind it. -/
def startsPlain (s : Scanner) (d : Char) : Bool :=
  let c := s.cursor
  if d = '-' then !(c.at? 1).any isBlank
  else if d = '?' ∨ d = ':' then !s.inFlow && !c.endsWordAt 1
  else !(",[]\x7b\x7d#&*!|>'\"%@`".toList.contains d || isBlank d || isBreak d)

/-- Scans the next token, with the tokens of blocks that open or close at it. -/
def step (s : Scanner) : Option Scanner := do
  let s ← (skipToToken (s.cursor.rest.length + 1) s).dropStaleKeys
  let s := s.closeBlocks (some s.cursor.column)
  let c := s.cursor
  match c.head? with
  | none => s.streamEnd
  | some d =>
    if c.column = 0 ∧ d = '%' then s.directive
    else if c.isAtDocumentMarker then
      s.documentMarker (if d = '-' then .documentStart else .documentEnd)
    else match d with
      | '[' => s.flowStart .flowSequenceStart
      | '\x7b' => s.flowStart .flowMappingStart
      | ']' => s.flowEnd .flowSequenceEnd
      | '\x7d' => s.flowEnd .flowMappingEnd
      | ',' => s.flowEntry
      | '*' => s.nameToken .aliasTo
      | '&' => s.nameToken .anchor
      | '!' => s.tagToken
      | '\'' => s.quotedScalar d .singleQuoted
      | '"' => s.quotedScalar d .doubleQuoted
      | d =>
        if d = '-' ∧ c.endsWordAt 1 then s.blockEntry
        else if d = '?' ∧ (s.inFlow ∨ c.endsWordAt 1) then s.explicitKey
        else if d = ':' ∧ (s.inFlow ∨ c.endsWordAt 1) then s.mappingValue
        else if d = '|' ∧ ¬ s.inFlow then s.blockScalar .literal
        else if d = '>' ∧ ¬ s.inFlow then s.blockScalar .folded
        else if s.startsPlain d then s.plainScalar
        else none

def settled (s : Scanner) : List Token :=
  let isOpen (k : PossibleKey) : Bool := k.required || !k.isStale s.cursor
  let first := (s.blockKey :: s.flow).foldl (fun n k =>
    match k with
    | some k => if isOpen k then min n k.token else n
    | none => n) s.tokens.size
  s.tokens.toList.take first

def run : Nat → Scanner → List Token
  | 0, s => s.settled
  | fuel + 1, s =>
    match s.step with
    | none => s.settled
    | some s => if s.ended then s.tokens.toList else run fuel s

end Scanner

/--
The tokens of a text. They end with the end of the stream if the text has no fault. A
byte order mark in front is ignored; a character that may not occur in a text is a
fault of the text as a whole.
-/
def tokens (text : String) : List Token :=
  let cs := match text.toList with
    | '\ufeff' :: cs => cs
    | cs => cs
  if cs.all isAllowed then Scanner.run (cs.length + 2) { cursor := ⟨cs, 0, 0, 0⟩ } else []

end BehaviorTree.Yaml
