import Stencil.Diagnostic

/-! Failures: why a pass gives up on a function. -/

set_option autoImplicit false

namespace Stencil

inductive Failure where
  /-- The regions cannot be put in order; `cycle` is empty when a producer is missing. -/
  | cyclic (region : RegionId) (cycle : List RegionId) (names : List String)
  | outOfBounds (region : RegionId) (regionName : String) (buffer : BufferId) (bufferName : String)
      (offset : Offset) (accessed declared : Box)
  | staleShapes (pass : String)
  | invalid (obligation : String) (region : Option (RegionId × String)) (detail : String)
  deriving DecidableEq, Repr

namespace Failure

def message : Failure → String
  | cyclic _ _ names => "cyclic dependency between apply regions: " ++ joinWith " -> " names
  | outOfBounds _ regionName _ bufferName offset accessed declared =>
    "apply '" ++ regionName ++ "' reads '@" ++ bufferName ++ "' at offset " ++ Offset.text offset ++
      " over " ++ accessed.text ++ ", outside its declared domain " ++ declared.text
  | staleShapes pass => "shape information is stale; run shape-inference before " ++ pass
  | invalid obligation _ detail => "invalid IR (" ++ obligation ++ "): " ++ detail

def code : Failure → Code
  | cyclic _ _ _ => .cycle
  | outOfBounds _ _ _ _ _ _ _ => .outOfBounds
  | staleShapes _ => .staleShapes
  | invalid _ _ _ => .invalidStructure

def region? : Failure → Option RegionId
  | cyclic region _ _ => some region
  | outOfBounds region _ _ _ _ _ _ => some region
  | staleShapes _ => none
  | invalid _ region _ => region.map (·.1)

/-- The subject of the diagnostic, unless the failure names no region of its cycle. -/
def subject? (function : String) : Failure → Option Subject
  | cyclic _ (r :: _) (name :: _) => some (.region r name)
  | cyclic _ _ _ => none
  | outOfBounds region regionName _ _ _ _ _ => some (.region region regionName)
  | staleShapes _ => some (.function function)
  | invalid _ (some (r, name)) _ => some (.region r name)
  | invalid _ none _ => some (.function function)

def related : Failure → List Subject
  | cyclic _ cycle names => (cycle.zip names).tail.map fun r => .region r.1 r.2
  | outOfBounds _ _ buffer bufferName _ _ _ => [.buffer buffer bufferName]
  | _ => []

def hint? : Failure → Option String
  | cyclic _ _ _ => some "apply regions must form a DAG from outputs back to external inputs"
  | outOfBounds _ _ _ _ _ _ _ =>
    some "enlarge the buffer's declared domain or shrink the output domain"
  | staleShapes _ => some "schedule shape-inference after every rewriting pass"
  | invalid _ _ _ => none

/-- The diagnostic of a failure in the named function. A cycle without members has none. -/
def diagnostic? (function : String) (e : Failure) : Option Diagnostic :=
  (e.subject? function).map fun subject =>
    { code := some e.code
      level := .error
      subject := some subject
      message := e.message
      hint := e.hint?
      related := e.related }

end Failure

end Stencil
