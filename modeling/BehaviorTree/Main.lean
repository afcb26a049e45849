import BehaviorTree.Command.Perform

/-!
# The program

Reads the file that the command line names and prints what the command leaves.
-/

namespace BehaviorTree

/-- Why the system does not give a file. A directory opens, and the fault in reading it has no
name of a file. -/
def FileFault.ofSystem : IO.Error → FileFault
  | .noFileOrDirectory .. => notFound
  | .inappropriateType (some _) .. => notDirectory
  | .inappropriateType .. => isDirectory
  | e => other (toString e)

def readContents (file : String) : IO (Except FileFault ByteArray) := do
  try
    return .ok (← IO.FS.readBinFile file)
  catch e =>
    return .error (.ofSystem e)

def Command.execute (args : List String) : IO Outcome := do
  match Command.ofArguments? args with
  | none => return Outcome.misuse
  | some command =>
    let contents ← readContents command.file
    return command.perform fun _ => contents

end BehaviorTree

def main (args : List String) : IO UInt32 := do
  let outcome ← BehaviorTree.Command.execute args
  IO.print outcome.output
  IO.eprint outcome.errors
  return outcome.code.toUInt32
