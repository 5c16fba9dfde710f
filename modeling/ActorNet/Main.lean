import ActorNet.Command
import ActorNet.Command.Arguments

/-!
# The program

Reads the files that a command names, runs the command, and prints what it gives.
-/

namespace ActorNet.Program

/-- The number of a system error; some operations report it negated. -/
def errorNumber (code : UInt32) : UInt32 :=
  if code < 0x80000000 then code else 0 - code

def readText (file : String) : IO (Except ReadFailure String) := do
  try
    let bytes ← IO.FS.readBinFile file
    match String.fromUTF8? bytes with
    | some text => return .ok text
    | none => return .error .notText
  catch
    | .noFileOrDirectory .. => return .error .notFound
    | .inappropriateType _ code _ =>
      return .error (if errorNumber code = 20 then .notDirectory else .isDirectory)
    | .invalidArgument file code details =>
      return .error (if errorNumber code = 36 then .nameTooLong
        else .other (IO.Error.invalidArgument file code details).toString)
    | e => return .error (.other e.toString)

/-- Run the command that the arguments give. Exit code 2 stands for arguments that are no
command. -/
def runArgs (args : List String) : IO UInt32 := do
  match Command.ofArgs? args with
  | none =>
    IO.eprint Command.usageText
    return 2
  | some command =>
    let contents ← command.files.mapM fun file => return (file, ← readText file)
    match command.run fun file => (contents.lookup file).getD (.error .notFound) with
    | .ok text =>
      IO.print text
      return 0
    | .error e =>
      IO.eprintln ("dacc: " ++ e.render)
      return e.exitCode

end ActorNet.Program

def main (args : List String) : IO UInt32 :=
  ActorNet.Program.runArgs args
