import Stencil.Box

/-! Shapes: what inference knows of the box of a temporary, a buffer or a region. -/

set_option autoImplicit false

namespace Stencil

/-- `unknown` is no demand at all; a known empty box is a demand for no points. -/
inductive Shape where
  | unknown
  | known (box : Box)
  deriving DecidableEq, Repr

namespace Shape

def isKnown : Shape → Bool
  | unknown => false
  | known _ => true

def box? : Shape → Option Box
  | unknown => none
  | known b => some b

/-- Enlarges the shape to cover `b`. The first box seen is taken as it is. -/
def grow : Shape → Box → Shape
  | unknown, b => known b.canonical
  | known a, b => known (a.union b)

/-- Whether enlarging the shape changes it. The first box seen always does. -/
def grows : Shape → Box → Bool
  | unknown, _ => true
  | known a, b => a.union b ≠ a

def join : Shape → Shape → Shape
  | unknown, s => s
  | s, unknown => s
  | known a, known b => known (a.union b)

/-- Whether the first shape demands at least what the second does. -/
def covers : Shape → Shape → Bool
  | _, unknown => true
  | unknown, known _ => false
  | known a, known b => a.contains b

def ofOption : Option Box → Shape
  | none => unknown
  | some b => known b

def writable : Shape → Bool
  | unknown => true
  | known b => b.writable

def text : Shape → String
  | unknown => "?"
  | known b => b.text

end Shape

end Stencil
