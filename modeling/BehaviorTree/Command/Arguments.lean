import BehaviorTree.Number.Literal
import BehaviorTree.Number.Layout

/-!
# Command lines

A command line names a command, the one file that it works on, and options. Options
may stand anywhere behind the command, each at most once; those about the log may
stand in front of it too. A value follows its option as the next argument or behind
an equals sign. Two dashes on their own make files of all that follows.
-/

namespace BehaviorTree

inductive Switch where
  | verbose
  | logJson
  | strict
  | ticks
  | dt
  | lenient
  | trace
  deriving DecidableEq, Repr

namespace Switch

def word : Switch → String
  | verbose => "verbose"
  | logJson => "log-json"
  | strict => "strict"
  | ticks => "ticks"
  | dt => "dt"
  | lenient => "lenient"
  | trace => "trace"

def letter? : Switch → Option Char
  | verbose => some 'v'
  | _ => none

def takesValue : Switch → Bool
  | ticks | dt => true
  | _ => false

def logging : List Switch := [verbose, logJson]

end Switch

structure RunOptions where
  ticks : UInt32 := 50
  seconds : Float32 := Number.singleOfBits 0x3dcccccd
  lenient : Bool := false
  trace : Bool := false

inductive Command where
  | check (file : String) (strict : Bool)
  | run (file : String) (options : RunOptions)

namespace Command

def file : Command → String
  | check file _ | run file _ => file

structure Given where
  switches : List (Switch × String) := []
  files : List String := []

namespace Given

def has (g : Given) (s : Switch) : Bool := (g.switches.lookup s).isSome

def value? (g : Given) (s : Switch) : Option String := g.switches.lookup s

def addSwitch (g : Given) (s : Switch) (value : String) : Option Given :=
  if g.has s then none else some { g with switches := (s, value) :: g.switches }

def addFile (g : Given) (file : String) : Given := { g with files := g.files ++ [file] }

def addLetters (known : List Switch) (g : Given) (letters : List Char) : Option Given :=
  letters.foldlM (fun (g : Given) c => do
    g.addSwitch (← known.find? fun s => s.letter? = some c) "") g

end Given

def isOption (arg : String) : Bool :=
  match arg.toList with
  | '-' :: _ :: _ => true
  | _ => false

def splitWord (cs : List Char) : String × Option String :=
  let word := String.ofList (cs.takeWhile (· ≠ '='))
  match cs.dropWhile (· ≠ '=') with
  | [] => (word, none)
  | _ :: value => (word, some (String.ofList value))

/-- Reads arguments up to the end; `none` if they do not make sense. -/
def readArguments (known : List Switch) (g : Given) : List String → Option Given
  | [] => some g
  | arg :: rest =>
    match arg.toList with
    | ['-', '-'] => some { g with files := g.files ++ rest }
    | '-' :: '-' :: cs =>
      let (word, value) := splitWord cs
      match known.find? (·.word = word), value with
      | none, _ => none
      | some s, some value =>
        if s.takesValue then (g.addSwitch s value).bind (readArguments known · rest) else none
      | some s, none =>
        if s.takesValue then
          match rest with
          | [] => none
          | value :: rest =>
            if isOption value then none
            else (g.addSwitch s value).bind (readArguments known · rest)
        else (g.addSwitch s "").bind (readArguments known · rest)
    | '-' :: c :: cs => (g.addLetters known (c :: cs)).bind (readArguments known · rest)
    | _ => readArguments known (g.addFile arg) rest

def ticks? (text : String) : Option UInt32 :=
  let (negative, digits) := Number.takeSign text.toList
  let n := Number.natValue digits
  if digits.isEmpty ∨ ¬ digits.all Char.isDigit then none
  else if n < UInt32.size ∧ (¬ negative ∨ n = 0) then some n.toUInt32
  else none

/-- A decimal literal, or one of the words for values that have none. -/
def seconds? (text : String) : Option Float32 :=
  let (negative, rest) := Number.takeSign text.toList
  let word := String.ofList (rest.map Char.toLower)
  if word = "inf" ∨ word = "infinity" then some (Number.Binary.infinite negative).toSingle
  else if word = "nan" then some Number.singleNaN
  else (Number.Literal.ofChars? text.toList).map (·.toSingle)

def Given.file? (g : Given) : Option String :=
  match g.files with
  | [file] => if file.isEmpty then none else some file
  | _ => none

def readCheck (args : List String) : Option Command := do
  let g ← readArguments (.strict :: Switch.logging) {} args
  return check (← g.file?) (g.has .strict)

def readRun (args : List String) : Option Command := do
  let g ← readArguments (.ticks :: .dt :: .lenient :: .trace :: Switch.logging) {} args
  let usual : RunOptions := {}
  let ticks ← match g.value? .ticks with
    | none => pure usual.ticks
    | some text => ticks? text
  let seconds ← match g.value? .dt with
    | none => pure usual.seconds
    | some text => seconds? text
  return run (← g.file?) ⟨ticks, seconds, g.has .lenient, g.has .trace⟩

/-- The command of a command line; `none` if there is no such command line. -/
def ofArguments? (args : List String) : Option Command := do
  let front := args.takeWhile isOption
  let _ ← if front.contains "--" then none else readArguments Switch.logging {} front
  match args.dropWhile isOption with
  | [] => none
  | "check" :: rest => readCheck rest
  | "run" :: rest => readRun rest
  | _ => none

end Command

end BehaviorTree
