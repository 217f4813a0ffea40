import Lookahead.Command.Arguments
import Lookahead.Command.Run

/-!
# The command line

Runs the command that the arguments ask for on the files of the machine.
-/

namespace Lookahead.Main

open Files (Path FaultKind)

def usage : String :=
  "usage: lookahead check FILE [--reduce] [-D] [--strict]\n" ++
  "       lookahead table FILE [--reduce] [-D] [--json] [--strict]\n" ++
  "       lookahead graph FILE --phase empty|first|follow [--reduce] [-D] [-o OUTPUT]\n" ++
  "       lookahead verify FILE DRAWING --phase empty|first|follow [--reduce] [-D]\n"

/-- The kind of a refusal by its number in the operating system, which may be given negated. -/
def faultKind? (number : UInt32) : Option FaultKind :=
  if number = 2 || number = -2 then some .notFound
  else if number = 17 || number = -17 then some .alreadyExists
  else if number = 20 || number = -20 then some .notDirectory
  else if number = 21 || number = -21 then some .isDirectory
  else if number = 36 || number = -36 then some .nameTooLong
  else none

def errorNumber? : IO.Error → Option UInt32
  | .noFileOrDirectory _ number _ => some number
  | .alreadyExists _ number _ => some number
  | .inappropriateType _ number _ => some number
  | .illegalOperation number _ => some number
  | .invalidArgument _ number _ => some number
  | .otherError number _ => some number
  | _ => none

/-- Runs an action on a path; refusals without a kind of their own are passed on. -/
def guarded {α : Type} (path : Path) (action : IO α) : IO (Except Files.Fault α) := do
  match ← action.toBaseIO with
  | .ok a => return .ok a
  | .error e => match (errorNumber? e).bind faultKind? with
    | some kind => return .error ⟨kind, path⟩
    | none => throw e

def machineFiles : Files.Access IO where
  read path := guarded path (IO.FS.readBinFile path.text)
  write path text := do
    match ← guarded path.parent (IO.FS.createDirAll path.parent.text) with
    | .error f => return .error f
    | .ok () => guarded path (IO.FS.writeFile path.text text)

/-- The exit code of a command, and what was left unanswered is told. -/
def exitCode : Command.Ending → IO UInt32
  | .exit code => return code.toUInt32
  | .failed (.fault f) => do
    IO.eprintln f.message
    return 1
  | .failed (.file f) => do
    IO.eprintln f.message
    return 1
  | .failed (.notJson source f) => do
    IO.eprintln (f.message source)
    return 1
  | .failed (.unprintable _) => do
    IO.eprintln "half of a surrogate pair cannot be printed"
    return 1
  | .failed _ => do
    IO.eprintln "an argument or a file cannot be used"
    return 1

def execute (args : List String) : IO UInt32 := do
  match Command.ofArguments args with
  | .error .help =>
    IO.print usage
    return 0
  | .error .refused =>
    IO.eprint usage
    return 2
  | .ok c => do
    let (ending, transcript) ← Command.run machineFiles c
    IO.eprint (Command.closed transcript.noted)
    IO.print (Command.closed transcript.printed)
    exitCode ending

end Lookahead.Main

def main (args : List String) : IO UInt32 := Lookahead.Main.execute args
