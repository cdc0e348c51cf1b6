import Stencil.Token.Basic

/-! Declarations: programs as they are written, with names not yet looked up and with the places of
their parts in the source. -/

set_option autoImplicit false

namespace Stencil

/-- A name without its sigil; the span covers the sigil too. -/
structure Name where
  text : String
  span : Span
  deriving DecidableEq, Repr

/-- `[l:u, ...]` or, without ranges, `empty`. -/
structure BoxDecl where
  ranges : Option (List (Int × Int))
  span : Span
  deriving DecidableEq, Repr

/-- `[o, ...]` -/
structure OffsetDecl where
  values : List Int
  span : Span
  deriving DecidableEq, Repr

/-- `%temp` or `@buffer` -/
inductive OperandDecl where
  | temp (name : Name)
  | buffer (name : Name)
  deriving DecidableEq, Repr

namespace OperandDecl

def name : OperandDecl → Name
  | temp n => n
  | buffer n => n

def text : OperandDecl → String
  | temp n => "%" ++ n.text
  | buffer n => "@" ++ n.text

end OperandDecl

/-- A number as it is written: an integer may stand for a float. -/
inductive Literal where
  | float (value : Scalar)
  | int (value : Int)
  deriving DecidableEq, Repr

def Literal.value : Literal → Scalar
  | float v => v
  | int z => Scalar.ofInt z

inductive OpDecl where
  | access (operand : OperandDecl) (offset : OffsetDecl)
  | index (dim : Int) (dimSpan : Span) (offset : OffsetDecl)
  | constant (value : Literal)
  | unary (op : UnaryOp) (arg : Name)
  | binary (op : BinaryOp) (lhs rhs : Name)
  | call (callee : Name) (args : List Name) (isPure : Bool)
  deriving DecidableEq, Repr

/-- `%value = op` -/
structure StatementDecl where
  result : Name
  op : OpDecl
  span : Span
  deriving DecidableEq, Repr

/-- `return %v, ...`, perhaps followed by `unroll AXIS by FACTOR` -/
structure ReturnDecl where
  values : List Name
  unroll : Option (Int × Int)
  span : Span
  deriving DecidableEq, Repr

structure BodyDecl where
  statements : List StatementDecl
  ret : ReturnDecl
  span : Span
  deriving DecidableEq, Repr

/-- `TYPE` or `TYPE BOX` -/
structure TypeDecl where
  elem : Name
  shape : Option BoxDecl
  deriving DecidableEq, Repr

/-- `buffer @NAME : TYPE`, perhaps followed by `domain BOX` and `required BOX` -/
structure BufferDecl where
  name : Name
  elem : Name
  domain : Option BoxDecl
  required : Option BoxDecl
  span : Span
  deriving DecidableEq, Repr

/-- `%r, ... = apply NAME(operands) -> types`, perhaps `over BOX`, a body and perhaps
`epilogue` with a second body -/
structure RegionDecl where
  results : List Name
  name : Name
  operands : List OperandDecl
  types : List TypeDecl
  /-- The box of the region itself. -/
  domain : Option BoxDecl
  body : BodyDecl
  epilogue : Option BodyDecl
  span : Span
  deriving DecidableEq, Repr

/-- `output %temp BOX` -/
structure OutputDecl where
  temp : Name
  domain : BoxDecl
  span : Span
  deriving DecidableEq, Repr

inductive ItemDecl where
  | buffer (d : BufferDecl)
  | region (d : RegionDecl)
  | output (d : OutputDecl)
  deriving DecidableEq, Repr

/-- `func NAME rank N` and items between braces -/
structure FuncDecl where
  name : Name
  rank : Int
  rankSpan : Span
  items : List ItemDecl
  span : Span
  deriving DecidableEq, Repr

structure ProgramDecl where
  functions : List FuncDecl
  span : Span
  deriving DecidableEq, Repr

end Stencil
