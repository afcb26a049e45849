import BehaviorTree.Text.Hexadecimal
import BehaviorTree.Yaml.Cursor
import BehaviorTree.Yaml.Token

/-!
# Presenting scalars

The style of a scalar is a wish. Plain text must not look like anything else, single
quotes keep no break next to a space, a literal block keeps no space at an end of its
lines, and none of them can hold a character that is not printable. A text that cannot
have the style wished for gets quotes, double ones if need be.
-/

namespace BehaviorTree.Yaml

def isPrintable (c : Char) : Bool :=
  isAllowed c && c ≠ '\t' && c ≠ '\r' && c ≠ '\x85' && c ≠ '\ufeff'

def hasPair (p : Char → Char → Bool) (cs : List Char) : Bool :=
  (cs.zip cs.tail).any fun (a, b) => p a b

def isGap (c : Char) : Bool := isBlank c || isBreak c

/-- Whether the text looks like a part of the structure or like a comment. -/
def looksStructural (cs : List Char) : Bool :=
  let marker := ['-', '-', '-'].isPrefixOf cs || ['.', '.', '.'].isPrefixOf cs
  let indicator := cs.head?.any "#,[]\x7b\x7d&*!|>'\"%@`".toList.contains
  let entry := match cs with
    | [c] => "?:-".toList.contains c
    | c :: d :: _ => "?:-".toList.contains c && isGap d
    | [] => false
  let key := cs.getLast? = some ':' || hasPair (fun a b => a = ':' && isGap b) cs
  let comment := hasPair (fun a b => isGap a && b = '#') cs
  marker || indicator || entry || key || comment

def admitsSingleQuotes (cs : List Char) : Bool :=
  cs.all isPrintable && ! hasPair (fun a b => a = ' ' && isBreak b || isBreak a && b = ' ') cs

def admitsPlain (cs : List Char) : Bool :=
  let isEdge (c : Char) : Bool := c = ' ' || isBreak c
  cs.all isPrintable && ! cs.any isBreak && ! cs.head?.any isEdge && ! cs.getLast?.any isEdge &&
    ! looksStructural cs

def admitsLiteral (cs : List Char) : Bool :=
  ! cs.isEmpty && cs.all isPrintable && cs.getLast? ≠ some ' ' &&
    ! hasPair (fun a b => a = ' ' && isBreak b) cs

def Style.presenting (wish : Style) (cs : List Char) : Style :=
  let quoted := if admitsSingleQuotes cs then Style.singleQuoted else .doubleQuoted
  match wish with
  | .plain => if admitsPlain cs then .plain else quoted
  | .singleQuoted => quoted
  | .literal => if admitsLiteral cs then .literal else .doubleQuoted
  | .doubleQuoted | .folded => .doubleQuoted

def blanks (n : Nat) : List Char := List.replicate n ' '

def escapes : List (Char × Char) := [
  ('\x00', '0'), ('\x07', 'a'), ('\x08', 'b'), ('\t', 't'), ('\n', 'n'), ('\x0b', 'v'),
  ('\x0c', 'f'), ('\r', 'r'), ('\x1b', 'e'), ('"', '"'), ('\\', '\\'), ('\x85', 'N'),
  ('\u2028', 'L'), ('\u2029', 'P')]

def escapeChar (c : Char) : List Char :=
  match escapes.lookup c with
  | some d => ['\\', d]
  | none =>
    if isPrintable c then [c]
    else if c.toNat ≤ 0xff then '\\' :: 'x' :: Text.paddedHex 2 c.toNat
    else if c.toNat ≤ 0xffff then '\\' :: 'u' :: Text.paddedHex 4 c.toNat
    else '\\' :: 'U' :: Text.paddedHex 8 c.toNat

/-- The lines of a text, all but the empty ones after `indent` blanks. -/
def indentLines (indent : Nat) (isStart : Bool) : List Char → List Char
  | [] => []
  | c :: cs =>
    if isBreak c then c :: indentLines indent true cs
    else (if isStart then blanks indent else []) ++ c :: indentLines indent false cs

/-- Text between single quotes, which a line feed of its own doubles. -/
def singleQuotedBody (indent : Nat) (isStart : Bool) : List Char → List Char
  | [] => if isStart then blanks indent else []
  | c :: cs =>
    if isBreak c then
      (if c = '\n' ∧ ¬ isStart then ['\n'] else []) ++ c :: singleQuotedBody indent true cs
    else
      (if isStart then blanks indent else []) ++
        (if c = '\'' then ['\'', '\''] else [c]) ++ singleQuotedBody indent false cs

/-- What stands after the bar of a literal block: its indentation if the text does not show
it, and what becomes of the breaks at the end. -/
def literalHints (cs : List Char) : List Char :=
  let indentation := if cs.head?.any fun c => c = ' ' || isBreak c then ['2'] else []
  let ending := match cs.reverse with
    | [] => ['-']
    | [c] => if isBreak c then ['+'] else ['-']
    | c :: d :: _ => if ! isBreak c then ['-'] else if isBreak d then ['+'] else []
  indentation ++ ending

def presentScalar (indent : Nat) (wish : Style) (text : String) : List Char :=
  let cs := text.toList
  match wish.presenting cs with
  | .plain => cs
  | .singleQuoted => '\'' :: singleQuotedBody indent false cs ++ ['\'']
  | .literal => '|' :: literalHints cs ++ '\n' :: indentLines indent true cs
  | .doubleQuoted | .folded => '"' :: cs.flatMap escapeChar ++ ['"']

end BehaviorTree.Yaml
