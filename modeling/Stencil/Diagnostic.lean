import Stencil.Body.Basic

/-! Diagnostics: what is reported about a program, by whom and where. -/

set_option autoImplicit false

namespace Stencil

structure Span where
  start : Nat
  stop : Nat
  deriving DecidableEq, Repr

inductive Code where
  | undefinedName
  | duplicateDefinition
  | rankMismatch
  | notAnOperand
  | malformed
  | cycle
  | outOfBounds
  | staleShapes
  | invalidStructure
  | deadRegion
  | unrollSkipped
  deriving DecidableEq, Repr

namespace Code

def text : Code → String
  | undefinedName => "E0100"
  | duplicateDefinition => "E0101"
  | rankMismatch => "E0102"
  | notAnOperand => "E0103"
  | malformed => "E0104"
  | cycle => "E0200"
  | outOfBounds => "E0201"
  | staleShapes => "E0202"
  | invalidStructure => "E0203"
  | deadRegion => "W0300"
  | unrollSkipped => "W0301"

def all : List Code :=
  [undefinedName, duplicateDefinition, rankMismatch, notAnOperand, malformed, cycle, outOfBounds,
   staleShapes, invalidStructure, deadRegion, unrollSkipped]

def ofText? (s : String) : Option Code := all.find? (·.text = s)

end Code

inductive Level where
  | error
  | warning
  deriving DecidableEq, Repr

inductive Subject where
  | function (name : String)
  | region (id : RegionId) (name : String)
  | temp (id : TempId) (name : String)
  | buffer (id : BufferId) (name : String)
  deriving DecidableEq, Repr

def Subject.text : Subject → String
  | function name => "func '" ++ name ++ "'"
  | region _ name => "apply '" ++ name ++ "'"
  | temp _ name => "temporary '%" ++ name ++ "'"
  | buffer _ name => "buffer '@" ++ name ++ "'"

structure Cause where
  message : String
  subject : Option Subject
  deriving DecidableEq, Repr

structure Diagnostic where
  code : Option Code := none
  level : Level
  subject : Option Subject := none
  span : Option Span := none
  message : String
  hint : Option String := none
  related : List Subject := []
  causes : List Cause := []
  deriving DecidableEq, Repr

namespace Diagnostic

def isError (d : Diagnostic) : Bool := d.level = .error

def heading (d : Diagnostic) : String :=
  (match d.level with
    | .error => "error"
    | .warning => "warning") ++
  (match d.code with
    | some c => "[" ++ c.text ++ "]: "
    | none => ": ") ++ d.message

def lines (d : Diagnostic) : List String :=
  [d.heading] ++ (d.subject.map fun s => "  --> " ++ s.text).toList ++
    (d.causes.map fun c => "  cause: " ++ c.message) ++ (d.hint.map fun h => "  hint: " ++ h).toList

def text (d : Diagnostic) : String := joinWith "\n" d.lines

end Diagnostic

def hasErrors (ds : List Diagnostic) : Bool := ds.any Diagnostic.isError

end Stencil
