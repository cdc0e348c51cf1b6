import Stencil.CommandLine.Files
import Stencil.CommandLine.Path

/-! A disk that is a plain value. -/

set_option autoImplicit false

namespace Stencil.CommandLine

/-- Files by their places. The directories are those that files are in, the working directory, and
whatever stands above it. -/
structure Disk where
  files : List (Place × String)
  deriving DecidableEq, Repr

namespace Disk

def ofList (files : List (String × String)) : Disk := ⟨files.map fun f => ((Path.ofText f.1).place, f.2)⟩

def content? (d : Disk) (p : Place) : Option String := (d.files.find? fun f => f.1 = p).map (·.2)

def isDirectory (d : Disk) (p : Place) : Bool :=
  p.names.isEmpty || d.files.any fun f =>
    f.1.origin = p.origin && p.names.length < f.1.names.length && f.1.names.take p.names.length = p.names

def maxName : Nat := 255

def maxPath : Nat := 4095

def nameTooLong (name : String) : Bool := maxName < name.utf8ByteSize

def enter (d : Disk) (p : Place) : PathStep → Except FileError Place
  | .stay => .ok p
  | .up => .ok p.parent
  | .down name =>
    if nameTooLong name then .error .nameTooLong
    else if d.isDirectory (p.child name) then .ok (p.child name)
    else if (d.content? (p.child name)).isSome then .error .notADirectory
    else .error .notFound

/-- The directory of a path and the name that the path gives in it. There is no name if the path
ends by staying or going up, and so is a directory itself. -/
def locate (d : Disk) (path : String) : Except FileError (Place × Option String) := do
  if path.isEmpty then .error .notFound
  else if maxPath < path.utf8ByteSize then .error .nameTooLong
  else
    let p := Path.ofText path
    let directory ← p.steps.dropLast.foldlM d.enter p.start
    match p.steps.getLast? with
    | some (.down name) => return (directory, some name)
    | _ => return (directory, none)

def read (d : Disk) (path : String) : Except FileError String := do
  match ← d.locate path with
  | (_, none) => .error .isADirectory
  | (directory, some name) =>
    if nameTooLong name then .error .nameTooLong
    else if d.isDirectory (directory.child name) then .error .isADirectory
    else
      match d.content? (directory.child name) with
      | some text => if (Path.ofText path).slashed then .error .notADirectory else .ok text
      | none => .error .notFound

def put (d : Disk) (p : Place) (text : String) : Disk :=
  if (d.content? p).isSome then ⟨d.files.map fun f => if f.1 = p then (p, text) else f⟩
  else ⟨d.files ++ [(p, text)]⟩

/-- The disk after writing a file. Directories are not created, and a path with a slash at its end
names a directory before anything is looked up. -/
def write (d : Disk) (path text : String) : Except FileError Disk := do
  match ← d.locate path with
  | (_, none) => .error .isADirectory
  | (directory, some name) =>
    if (Path.ofText path).slashed then .error .isADirectory
    else if nameTooLong name then .error .nameTooLong
    else if d.isDirectory (directory.child name) then .error .isADirectory
    else .ok (d.put (directory.child name) text)

def access : Files (StateM Disk) where
  read path := do return (← get).read path
  write path text := do
    match (← get).write path text with
    | .ok d =>
      set d
      return .ok ()
    | .error e => return .error e

end Disk

end Stencil.CommandLine
