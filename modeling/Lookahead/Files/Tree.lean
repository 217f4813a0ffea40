import Lookahead.Assoc
import Lookahead.Files.Basic

/-!
# Trees of files

A tree knows the files and directories below the working directory and wherever else
something was put. A path is followed name by name; each name but the last must lead to
a directory. The working directory and those above it are always there.

A change that is refused may already have made directories; the state carries them.
-/

namespace Lookahead.Files

inductive Entry where
  | directory
  | file (content : ByteArray)
  deriving Inhabited

namespace Entry

def isDirectory : Entry → Bool
  | directory => true
  | file _ => false

/-- Whether an entry is a file with the given content. -/
def holds (content : ByteArray) : Entry → Bool
  | directory => false
  | file other => other.data = content.data

end Entry

/-- The entries by place. No place has double dots except at its beginning. -/
structure Tree where
  entries : Assoc Path Entry := {}
  deriving Inhabited

namespace Tree

/-- What stands at a place. -/
def entry? (t : Tree) (place : Path) : Option Entry :=
  if place.names.all (· = "..") then some .directory else t.entries.get? place

/-- Whether something may be looked up in a place. -/
def enter (t : Tree) (place : Path) : Except FaultKind Unit :=
  match t.entry? place with
  | none => .error .notFound
  | some (.file _) => .error .notDirectory
  | some .directory => .ok ()

/-- The most bytes of a name and of a path. -/
def maxNameSize : Nat := 255

def maxPathSize : Nat := 4095

/-- The place that names lead to. -/
def walk (t : Tree) : Path → List String → Except FaultKind Path
  | place, [] => .ok place
  | place, name :: rest => do
    t.enter place
    if maxNameSize < name.utf8ByteSize then throw .nameTooLong
    t.walk (place.step name) rest

def isNameable (p : Path) : Bool := p.names.all fun name => !name.toList.contains '\x00'

/-- The place of a path. -/
def resolve (t : Tree) (p : Path) : Except FaultKind Path :=
  if !isNameable p then .error .unnameable
  else if maxPathSize < p.text.utf8ByteSize then .error .nameTooLong
  else t.walk { p with names := [] } p.names

def isDirectory (t : Tree) (p : Path) : Bool :=
  match t.resolve p with
  | .error _ => false
  | .ok place => (t.entry? place).any Entry.isDirectory

def readKind (t : Tree) (p : Path) : Except FaultKind ByteArray := do
  match t.entry? (← t.resolve p) with
  | none => throw .notFound
  | some .directory => throw .isDirectory
  | some (.file content) => return content

def read (t : Tree) (p : Path) : Except Fault ByteArray :=
  match t.readKind p with
  | .ok content => .ok content
  | .error kind => .error ⟨kind, p⟩

/-- A change of a tree. The state that a refused change leaves is the one it carries. -/
abbrev Change := EStateM Fault Tree

/-- Puts an entry at the place of a path, unless what stands there forbids it. -/
def put (t : Tree) (p : Path) (entry : Entry) (forbid : Option Entry → Option FaultKind) :
    Except FaultKind Tree := do
  let place ← t.resolve p
  match forbid (t.entry? place) with
  | some kind => throw kind
  | none => return { t with entries := t.entries.put place entry }

/-- Makes one directory. -/
def makeDirectory (t : Tree) (p : Path) : Except FaultKind Tree :=
  t.put p .directory fun old => if old.isSome then some .alreadyExists else none

/-- Puts a file where none of the directories stands. -/
def putFile (t : Tree) (p : Path) (content : ByteArray) : Except FaultKind Tree :=
  t.put p (.file content) fun old => if old.any Entry.isDirectory then some .isDirectory else none

/-- Makes a directory; one that is there already is left as it is. -/
def ensureDirectory (p : Path) : Change Unit := do
  let t ← get
  match t.makeDirectory p with
  | .ok t => set t
  | .error kind => if t.isDirectory p then return else throw ⟨kind, p⟩

/-- Makes a directory and those above it. The names are those of its path from the last to the
first. -/
def ensureDirectories (root : String) : (reversed : List String) → Change Unit
  | [] => ensureDirectory ⟨root, []⟩
  | name :: rest => do
    let path : Path := ⟨root, (name :: rest).reverse⟩
    match (← get).makeDirectory path with
    | .error .notFound =>
      ensureDirectories root rest
      ensureDirectory path
    | _ => ensureDirectory path

/-- Writes a file and makes the directories above it. -/
def write (p : Path) (content : ByteArray) : Change Unit := do
  ensureDirectories p.root p.parent.names.reverse
  match (← get).putFile p content with
  | .ok t => set t
  | .error kind => throw ⟨kind, p⟩

/-- The files below the working directory, by path. -/
def contents (t : Tree) : List (Path × ByteArray) :=
  t.entries.entries.filterMap fun e => match e with
    | (place, .file content) =>
      if place.root = "" ∧ place.names.head? ≠ some ".." then some (place, content) else none
    | (_, .directory) => none

/-- The files of `new` that `old` does not have with the same content. -/
def changes (old new : Tree) : List (Path × ByteArray) :=
  new.contents.filter fun e => !(old.entries.get? e.1).any (Entry.holds e.2)

/-- Access to a tree that is the state of a program. -/
def access {ε : Type} : Access (EStateM ε Tree) where
  read p := return (← get).read p
  write p text := do
    match Tree.write p text.toUTF8 (← get) with
    | .ok () t =>
      set t
      return .ok ()
    | .error f t =>
      set t
      return .error f

end Tree

end Lookahead.Files
