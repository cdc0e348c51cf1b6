/-! Paths as they are written, and the places that they lead to. -/

set_option autoImplicit false

namespace Stencil.CommandLine

inductive PathStep where
  | stay
  | up
  | down (name : String)
  deriving DecidableEq, Repr

def PathStep.ofText (word : String) : PathStep :=
  if word = "." then stay else if word = ".." then up else down word

structure Path where
  absolute : Bool
  steps : List PathStep
  /-- Whether it ends in a slash, which only a directory answers to. -/
  slashed : Bool
  deriving DecidableEq, Repr

namespace Path

/-- Slashes that follow each other count as one. -/
def ofText (path : String) : Path where
  absolute := path.toList.head? = some '/'
  steps := ((path.splitOn "/").filter (· ≠ "")).map PathStep.ofText
  slashed := path.toList.getLast? = some '/'

def name? (p : Path) : Option String :=
  match (p.steps.filter (· ≠ .stay)).getLast? with
  | some (.down name) => some name
  | _ => none

end Path

/-- Whether the name of the file ends in a point and that word, with something before the point. -/
def hasExtension (path word : String) : Bool :=
  match (Path.ofText path).name? with
  | none => false
  | some name =>
    let pieces := name.splitOn "."
    pieces.length ≥ 2 && pieces.getLast? = some word && !(pieces.length = 2 && pieces.head? = some "")

/-- Where the names of a place are counted from: so many levels above the working directory, or the
root. -/
inductive Origin where
  | above (levels : Nat)
  | root
  deriving DecidableEq, Repr

/-- The root has nothing above it but itself. -/
def Origin.up : Origin → Origin
  | above n => above (n + 1)
  | root => root

/-- A place among the directories: the names that lead down to it from an origin. -/
structure Place where
  origin : Origin
  names : List String
  deriving DecidableEq, Repr

namespace Place

def child (p : Place) (name : String) : Place := { p with names := p.names ++ [name] }

def parent (p : Place) : Place :=
  if p.names.isEmpty then { p with origin := p.origin.up } else { p with names := p.names.dropLast }

def step (p : Place) : PathStep → Place
  | .stay => p
  | .up => p.parent
  | .down name => p.child name

end Place

def Path.start (p : Path) : Place := ⟨if p.absolute then .root else .above 0, []⟩

/-- The place that a path leads to if every name before the last is a directory. -/
def Path.place (p : Path) : Place := p.steps.foldl Place.step p.start

end Stencil.CommandLine
