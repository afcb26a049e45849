import BehaviorTree.Document.Read

/-!
# Faults of documents

Why a tree cannot be had from a document: it cannot be read, it has not the form of
a document, or what it says cannot be built.
-/

namespace BehaviorTree

inductive FileFault where
  | notFound
  | notDirectory
  | isDirectory
  | notText
  | other (reason : String)
  deriving DecidableEq, Repr

def FileFault.message : FileFault → String
  | notFound => "No such file or directory (os error 2)"
  | notDirectory => "Not a directory (os error 20)"
  | isDirectory => "Is a directory (os error 21)"
  | notText => "stream did not contain valid UTF-8"
  | other reason => reason

inductive BuildFault where
  | unknownRoot (name : String)
  | unknownTree (name : String)
  /-- The names from one on that leads back to itself, which ends the list too. -/
  | subtreeCycle (path : List String)
  | unknownCondition (binding : String)
  | unknownAction (binding : String)
  | invalidDuration (name : String) (duration : Float32)

def BuildFault.message : BuildFault → String
  | unknownRoot name => "root tree `" ++ name ++ "` is not defined"
  | unknownTree name => "subtree refers to undefined tree `" ++ name ++ "`"
  | subtreeCycle path => "subtree cycle: " ++ " -> ".intercalate path
  | unknownCondition binding => "no condition registered for binding `" ++ binding ++ "`"
  | unknownAction binding => "no action registered for binding `" ++ binding ++ "`"
  | invalidDuration name duration =>
    "timer `" ++ name ++ "` has invalid duration " ++ Number.Layout.prose.writeSingle duration

inductive Fault where
  | file (path : String) (cause : FileFault)
  | document (cause : Yaml.Failure)
  | build (cause : BuildFault)

namespace Fault

def message : Fault → String
  | file path cause => "failed to read " ++ path ++ ": " ++ cause.message
  | document cause => "invalid tree document: " ++ cause.message
  | build cause => cause.message

def source? : Fault → Option String
  | file _ cause => some cause.message
  | document cause => some cause.message
  | build _ => none

end Fault

namespace Document

def parse (text : String) : Except Fault Document := (ofYaml text).mapError .document

def load (path : String) (contents : Except FileFault ByteArray) :
    Except Fault Document × List Diagnostic :=
  let text : Except FileFault String := do
    let bytes ← contents
    match String.fromUTF8? bytes with
    | some text => return text
    | none => throw .notText
  match text with
  | .error cause => (.error (.file path cause), [])
  | .ok text =>
    match parse text with
    | .error fault => (.error fault, [])
    | .ok d => (.ok d, [.documentLoaded path d.root d.trees.size])

end Document

end BehaviorTree
