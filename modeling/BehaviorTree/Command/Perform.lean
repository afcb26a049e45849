import BehaviorTree.Build
import BehaviorTree.Command.Arguments
import BehaviorTree.Guard.Game
import BehaviorTree.Json.Encode

/-!
# Performing commands

Both commands load a document and build it for the guard. `check` shows the outline
of the tree and the bindings that the guard does not provide; `run` plays a game and
ends with what is on the blackboard then. An outcome has the report of a failure, but not
the log that the program also sends to standard error.
-/

namespace BehaviorTree

structure Outcome where
  code : UInt8
  output : String
  errors : String
  deriving DecidableEq, Repr

namespace Outcome

def success (output : String) : Outcome := ⟨0, output, ""⟩

def misuse : Outcome :=
  ⟨2, "", "usage: check FILE [--strict]\n" ++
    "       run FILE [--ticks N] [--dt SECONDS] [--lenient] [--trace]\n"⟩

/-- A text whose first line follows a mark and whose other lines are set off by blanks. -/
def markLines (mark text : String) : String :=
  mark ++ ("\n" ++ "".pushn ' ' mark.length).intercalate (text.splitOn "\n")

def causeLines : List String → List String
  | [] => []
  | [cause] => [markLines "    " cause]
  | causes => causes.zipIdx.map fun (cause, i) =>
      markLines (Text.alignRight 5 (toString i) ++ ": ") cause

def failure (message : String) (causes : List String) : Outcome :=
  let origin := if causes.isEmpty then [] else "\nCaused by:" :: causeLines causes
  ⟨1, "", "\n".intercalate (("Error: " ++ message) :: origin) ++ "\n"⟩

end Outcome

namespace Command

def lines (ls : List String) : String := String.join (ls.map (· ++ "\n"))

/-- The bindings in the document that the guard lacks, conditions before actions. -/
def missingBindings (d : Document) : List String :=
  let r : Registry Unit := Guard.registry
  [LeafKind.condition, .action].flatMap fun kind =>
    (d.bindings kind).toList.filter (! r.has kind ·)

def listing (names : List String) : String :=
  if names.isEmpty then "-" else ", ".intercalate names

def outlineText (t : Tree Unit) : String :=
  lines (t.outline.map fun (depth, name, _) => "".pushn ' ' (2 * (depth + 1)) ++ name)

def checkText (d : Document) (t : Tree Unit) : String :=
  let missing := missingBindings d
  "root: " ++ d.root ++ "\n" ++ outlineText t ++ lines [
    "",
    "conditions: " ++ listing (d.bindings .condition).toList,
    "actions:    " ++ listing (d.bindings .action).toList,
    if missing.isEmpty then "all bindings provided by the guard scenario"
    else "not provided by the guard scenario: " ++ ", ".intercalate missing]

/-- The blackboard as JSON. The members of a section stand in the order of their texts, one of
the orders in which the program may print them: its tables are hashed and have none. -/
def blackboardText (b : Blackboard) : String :=
  let ordered (k : Kind) : List (String × Json) :=
    (b.sectionMembers k).mergeSort fun x y => Json.quote x.1 ≤ Json.quote y.1
  Json.pretty 0 (.record (Kind.all.map fun k => (k.sectionName, .record (ordered k))))

def runText (options : RunOptions) (t : Tree Unit) : String :=
  let t := if options.trace then { t with channel := some Guard.traceChannel } else t
  let rounds := Guard.play Guard.usualPlayer options.seconds options.ticks.toNat t
  let tally :=
    if options.trace then [(Guard.Tally.ofLog (Guard.traceLog rounds)).text] else []
  lines (rounds.map Guard.roundText ++ tally ++
    [blackboardText (Guard.outcome t rounds).blackboard])

def withTree (file : String) (mode : Mode) (contents : Except FileFault ByteArray)
    (f : Document → Tree Unit → Outcome) : Outcome :=
  match (Document.load file contents).1 with
  | .error fault => .failure ("failed to load " ++ file) (fault.message :: fault.source?.toList)
  | .ok d =>
    let B : Builder Unit := ⟨Guard.registry, mode⟩
    match (B.build d).result with
    | .error fault => .failure ("failed to build " ++ file) [fault.message]
    | .ok t => f d t

def perform (files : String → Except FileFault ByteArray) : Command → Outcome
  | check file strict =>
    withTree file (if strict then .strict else .lenient) (files file) fun d t =>
      .success (checkText d t)
  | run file options =>
    if isDuration options.seconds then
      withTree file (if options.lenient then .lenient else .strict) (files file) fun _ t =>
        .success (runText options t)
    else
      .failure ("--dt must be a non-negative number of seconds, got " ++
        Number.Layout.prose.writeSingle options.seconds) []

def performLine (files : String → Except FileFault ByteArray) (args : List String) : Outcome :=
  match ofArguments? args with
  | some command => command.perform files
  | none => .misuse

end Command

end BehaviorTree
