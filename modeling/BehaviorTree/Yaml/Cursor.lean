/-!
# Places in a YAML text

Columns count characters from the start of the line. Five characters end a line, and
a carriage return takes a following line feed with it.
-/

namespace BehaviorTree.Yaml

def isBlank (c : Char) : Bool := c = ' ' || c = '\t'

def isBreak (c : Char) : Bool :=
  c = '\n' || c = '\r' || c = '\x85' || c = '\u2028' || c = '\u2029'

/-- Letters, digits, hyphen and underscore: the characters of names in properties. -/
def isWord (c : Char) : Bool := c.isAlphanum || c = '-' || c = '_'

def isAllowed (c : Char) : Bool :=
  c = '\t' || c = '\n' || c = '\r' || c = '\x85' ||
    (0x20 ≤ c.toNat && c.toNat ≤ 0x7e) || (0xa0 ≤ c.toNat && c.toNat ≤ 0xd7ff) ||
    (0xe000 ≤ c.toNat && c.toNat ≤ 0xfffd) || 0x10000 ≤ c.toNat

structure Cursor where
  rest : List Char
  index : Nat := 0
  line : Nat := 0
  column : Nat := 0

namespace Cursor

def head? (c : Cursor) : Option Char := c.rest.head?

def at? (c : Cursor) (n : Nat) : Option Char := c.rest[n]?

def startsWith (c : Cursor) (text : List Char) : Bool := text.isPrefixOf c.rest

def isAtEnd (c : Cursor) : Bool := c.rest.isEmpty

def isAtBreak (c : Cursor) : Bool := c.head?.any isBreak

def isAtBlank (c : Cursor) : Bool := c.head?.any isBlank

/-- Whether a blank, a break or the end of the text comes after `n` more characters. -/
def endsWordAt (c : Cursor) (n : Nat) : Bool := (c.at? n).all fun d => isBlank d || isBreak d

def advance (c : Cursor) (n : Nat) : Cursor :=
  { c with rest := c.rest.drop n, index := c.index + n, column := c.column + n }

def advanceWhile (c : Cursor) (p : Char → Bool) : Cursor :=
  c.advance (c.rest.takeWhile p).length

def nextLine (c : Cursor) : Cursor :=
  match c.rest with
  | '\r' :: '\n' :: rest => ⟨rest, c.index + 2, c.line + 1, 0⟩
  | d :: rest => if isBreak d then ⟨rest, c.index + 1, c.line + 1, 0⟩ else c
  | [] => c

/-- The break at the cursor as content: separators stay, other breaks are line feeds. -/
def breakText (c : Cursor) : List Char :=
  match c.head? with
  | some d => if d = '\u2028' ∨ d = '\u2029' then [d] else if isBreak d then ['\n'] else []
  | none => []

def isAtDocumentMarker (c : Cursor) : Bool :=
  c.column = 0 && (c.startsWith ['-', '-', '-'] || c.startsWith ['.', '.', '.']) && c.endsWordAt 3

end Cursor

end BehaviorTree.Yaml
