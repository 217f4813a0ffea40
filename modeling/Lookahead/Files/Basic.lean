import Lookahead.Files.Path
import Lookahead.Text.Quoted

/-!
# Access to files

A program that reads and writes files is given the means to do so, so that it runs on
the files of a machine as well as on a `Files.Tree` held in memory.
-/

namespace Lookahead.Files

inductive FaultKind where
  | notFound
  | alreadyExists
  | notDirectory
  | isDirectory
  | nameTooLong
  /-- The name holds a character that no name can hold. -/
  | unnameable
  deriving DecidableEq, Repr, Inhabited

/-- A refused access to a file. -/
structure Fault where
  kind : FaultKind
  path : Path
  deriving DecidableEq, Repr, Inhabited

def FaultKind.reason : FaultKind → String
  | notFound => "FileNotFoundError [Errno 2] No such file or directory"
  | alreadyExists => "FileExistsError [Errno 17] File exists"
  | notDirectory => "NotADirectoryError [Errno 20] Not a directory"
  | isDirectory => "IsADirectoryError [Errno 21] Is a directory"
  | nameTooLong => "OSError [Errno 36] File name too long"
  | unnameable => "ValueError embedded null byte"

def Fault.message (f : Fault) : String :=
  f.kind.reason ++ ": " ++ Text.quote f.path.text

/-- How files are read and written. Writing makes the directories above the file that are
not there yet; they stay when the file itself cannot be written. -/
structure Access (m : Type → Type) where
  read : Path → m (Except Fault ByteArray)
  write : Path → String → m (Except Fault Unit)

end Lookahead.Files
