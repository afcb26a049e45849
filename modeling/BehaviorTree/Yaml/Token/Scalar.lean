import BehaviorTree.Text.Hexadecimal
import BehaviorTree.Yaml.Cursor
import BehaviorTree.Yaml.Token

/-!
# Scanning scalars

Line breaks inside a flow scalar fold: a single one becomes a blank, of several all
but the first stay. A block scalar keeps the breaks of its lines, or folds those
between lines that do not start with a blank, and its indicators say what becomes of
the breaks at its end. All scanners fail on a text that is no scalar of their style.
-/

namespace BehaviorTree.Yaml

structure Gap where
  blanks : List Char := []
  /-- The first break, empty where it was escaped. -/
  first : List Char := []
  others : List Char := []
  broken : Bool := false

namespace Gap

def fold (g : Gap) : List Char :=
  if ¬ g.broken then g.blanks
  else if g.first = ['\n'] then if g.others.isEmpty then [' '] else g.others
  else g.first ++ g.others

end Gap

/--
Takes blanks and breaks. In a plain scalar a tab may not stand in the indentation,
that is before column `margin`; quoted scalars have no margin.
-/
def scanGap (margin : Nat) : Nat → Cursor → Gap → Option (Gap × Cursor)
  | 0, c, g => some (g, c)
  | fuel + 1, c, g =>
    match c.head? with
    | none => some (g, c)
    | some d =>
      if isBlank d then
        if g.broken ∧ d = '\t' ∧ c.column < margin then none
        else if g.broken then scanGap margin fuel (c.advance 1) g
        else scanGap margin fuel (c.advance 1) { g with blanks := g.blanks ++ [d] }
      else if isBreak d then
        if g.broken then
          scanGap margin fuel c.nextLine { g with others := g.others ++ c.breakText }
        else scanGap margin fuel c.nextLine { g with first := c.breakText, broken := true }
      else some (g, c)

def isFlowIndicator (c : Char) : Bool :=
  c = ',' || c = '[' || c = ']' || c = '\x7b' || c = '\x7d'

def plainWord (inFlow : Bool) : List Char → Option (List Char)
  | [] => some []
  | c :: rest =>
    if isBlank c || isBreak c then some []
    else if inFlow && c = ':' && rest.head?.any (fun d => isFlowIndicator d || d = '?') then none
    else if c = ':' && rest.head?.all (fun d => isBlank d || isBreak d) then some []
    else if inFlow && isFlowIndicator c then some []
    else (plainWord inFlow rest).map (c :: ·)

structure Scanned where
  text : List Char
  cursor : Cursor
  /-- Whether the cursor stands on a line after that of the scalar's last character. -/
  passedBreak : Bool := false

/-- `margin` is the least column of a continuation line outside flow collections. -/
def scanPlain (inFlow : Bool) (margin : Nat) : Nat → Cursor → Gap → Option Scanned
  | 0, _, _ => none
  | fuel + 1, c, g =>
    if c.isAtDocumentMarker ∨ c.head? = some '#' then some ⟨[], c, g.broken⟩
    else do
      let word ← plainWord inFlow c.rest
      if word.isEmpty then return ⟨[], c, g.broken⟩
      let text := g.fold ++ word
      let c := c.advance word.length
      if ¬ (c.isAtBlank || c.isAtBreak) then return ⟨text, c, false⟩
      let (g, c) ← scanGap margin (c.rest.length + 1) c {}
      if ¬ inFlow ∧ c.column < margin then return ⟨text, c, g.broken⟩
      let more ← scanPlain inFlow margin fuel c g
      return { more with text := text ++ more.text }

/-- A part of a quoted scalar without blanks: its text, its length, and whether an escaped break ends it. -/
structure Word where
  text : List Char
  length : Nat
  escapesBreak : Bool := false

def singleQuotedWord : List Char → Word
  | [] => ⟨[], 0, false⟩
  | '\'' :: '\'' :: rest =>
    let w := singleQuotedWord rest
    { w with text := '\'' :: w.text, length := w.length + 2 }
  | c :: rest =>
    if c = '\'' || isBlank c || isBreak c then ⟨[], 0, false⟩
    else
      let w := singleQuotedWord rest
      { w with text := c :: w.text, length := w.length + 1 }

def escapedChar? (c : Char) : Option Char :=
  match c with
  | '0' => some '\x00'
  | 'a' => some '\x07'
  | 'b' => some '\x08'
  | 't' | '\t' => some '\t'
  | 'n' => some '\n'
  | 'v' => some '\x0b'
  | 'f' => some '\x0c'
  | 'r' => some '\r'
  | 'e' => some '\x1b'
  | ' ' => some ' '
  | '"' => some '"'
  | '/' => some '/'
  | '\\' => some '\\'
  | 'N' => some '\x85'
  | '_' => some '\xa0'
  | 'L' => some '\u2028'
  | 'P' => some '\u2029'
  | _ => none

def escapedDigits? (c : Char) : Option Nat :=
  match c with
  | 'x' => some 2
  | 'u' => some 4
  | 'U' => some 8
  | _ => none

def hexChar? (n : Nat) (text : List Char) : Option Char := do
  let digits := text.take n
  if digits.length < n then none
  let code ← Text.hexNumber? digits
  if code.isValidChar then some (Char.ofNat code) else none

def doubleQuotedWord (text : List Char) : Option Word :=
  match text with
  | [] => some ⟨[], 0, false⟩
  | ['\\'] => none
  | '\\' :: c :: rest =>
    if isBreak c then some ⟨[], 1, true⟩
    else match escapedChar? c with
      | some d => do
        let w ← doubleQuotedWord rest
        return { w with text := d :: w.text, length := w.length + 2 }
      | none => do
        let n ← escapedDigits? c
        let d ← hexChar? n rest
        let w ← doubleQuotedWord (rest.drop n)
        return { w with text := d :: w.text, length := w.length + n + 2 }
  | c :: rest =>
    if c = '"' || isBlank c || isBreak c then some ⟨[], 0, false⟩
    else do
      let w ← doubleQuotedWord rest
      return { w with text := c :: w.text, length := w.length + 1 }
termination_by text.length

/-- The rest of a quoted scalar; the cursor stands behind the opening quote or a gap. -/
def scanQuoted (quote : Char) : Nat → Cursor → Option Scanned
  | 0, _ => none
  | fuel + 1, c =>
    if c.isAtDocumentMarker ∨ c.isAtEnd then none
    else do
      let word ← if quote = '\'' then some (singleQuotedWord c.rest) else doubleQuotedWord c.rest
      let c := c.advance word.length
      let c := if word.escapesBreak then c.nextLine else c
      if c.head? = some quote then return ⟨word.text, c.advance 1, false⟩
      let (g, c) ← scanGap 0 (c.rest.length + 1) c { broken := word.escapesBreak }
      let more ← scanQuoted quote fuel c
      return { more with text := word.text ++ g.fold ++ more.text }

inductive Chomping where
  | strip
  | clip
  | keep

structure BlockHeader where
  chomping : Chomping
  /-- The indentation given explicitly, relative to that of the parent. -/
  increment : Option Nat

def chomping? (c : Char) : Option Chomping :=
  if c = '+' then some .keep else if c = '-' then some .strip else none

def blockHeader (text : List Char) : Option (BlockHeader × Nat) :=
  let digit? (c : Option Char) : Option (Option Nat) :=
    match c with
    | some d =>
      if d.isDigit then if d = '0' then none else some (some (d.toNat - '0'.toNat))
      else some none
    | none => some none
  match text.head?.bind chomping? with
  | some chomping => do
    let increment ← digit? text[1]?
    return (⟨chomping, increment⟩, if increment.isSome then 2 else 1)
  | none => do
    let increment ← digit? text.head?
    if increment.isNone then return (⟨.clip, none⟩, 0)
    match text[1]?.bind chomping? with
    | some chomping => return (⟨chomping, increment⟩, 2)
    | none => return (⟨.clip, increment⟩, 1)

def finishLine (c : Cursor) : Option Cursor :=
  let c := c.advanceWhile isBlank
  let c := if c.head? = some '#' then c.advanceWhile (! isBreak ·) else c
  if c.isAtEnd || c.isAtBreak then some c.nextLine else none

def scanBlockBreaks (indent : Option Nat) :
    Nat → Cursor → (breaks : List Char) → (widest : Nat) → Option (List Char × Nat × Cursor)
  | 0, _, _, _ => none
  | fuel + 1, c, breaks, widest =>
    let isIndentation (c : Cursor) : Bool := indent.all (c.column < ·)
    let room := (indent.map (· - c.column)).getD c.rest.length
    let c := c.advance ((c.rest.take room).takeWhile (· = ' ')).length
    let widest := max widest c.column
    if isIndentation c ∧ c.head? = some '\t' then none
    else if c.isAtBreak then
      scanBlockBreaks indent fuel c.nextLine (breaks ++ c.breakText) widest
    else some (breaks, widest, c)

/--
The lines of a block scalar from one on. `gap` is the break behind the line before,
`breaks` are those of the empty lines since then.
-/
def scanBlockLines (isLiteral : Bool) (chomping : Chomping) (indent : Nat) :
    Nat → Cursor → (gap breaks : List Char) → (afterBlank : Bool) → Option (List Char × Cursor)
  | 0, _, _, _, _ => none
  | fuel + 1, c, gap, breaks, afterBlank =>
    if c.column = indent ∧ ¬ c.isAtEnd then do
      let startsBlank := c.isAtBlank
      let joint :=
        if ¬ isLiteral ∧ gap = ['\n'] ∧ ¬ afterBlank ∧ ¬ startsBlank then
          if breaks.isEmpty then [' '] else breaks
        else gap ++ breaks
      let line := c.rest.takeWhile (! isBreak ·)
      let c := c.advance line.length
      let gap := c.breakText
      let c := c.nextLine
      let (breaks, _, c) ← scanBlockBreaks (some indent) (c.rest.length + 1) c [] 0
      let (text, c) ← scanBlockLines isLiteral chomping indent fuel c gap breaks startsBlank
      return (joint ++ line ++ text, c)
    else
      match chomping with
      | .strip => some ([], c)
      | .clip => some (gap, c)
      | .keep => some (gap ++ breaks, c)

/-- A block scalar; `parent` is the indentation of the block it stands in, if any. -/
def scanBlock (isLiteral : Bool) (parent : Option Nat) (c : Cursor) : Option Scanned := do
  let c := c.advance 1
  let (header, length) ← blockHeader c.rest
  let c ← finishLine (c.advance length)
  let given := header.increment.map (· + parent.getD 0)
  let (breaks, widest, c) ← scanBlockBreaks given (c.rest.length + 1) c [] 0
  let least := max 1 ((parent.map (· + 1)).getD 0)
  let indent := given.getD (max widest least)
  let (text, c) ←
    scanBlockLines isLiteral header.chomping indent (c.rest.length + 1) c [] breaks false
  return ⟨text, c, false⟩

end BehaviorTree.Yaml
