import Stencil.Scalar.Root

/-! Element types, scalar operators and the meanings they can be given. -/

set_option autoImplicit false

namespace Stencil

inductive ElemType where
  | f32
  | f64
  deriving DecidableEq, Repr

namespace ElemType

def name : ElemType → String
  | f32 => "f32"
  | f64 => "f64"

def tag : ElemType → String
  | f32 => "F32"
  | f64 => "F64"

def all : List ElemType := [f32, f64]

def ofName? (s : String) : Option ElemType := all.find? (·.name = s)

end ElemType

inductive UnaryOp where
  | neg
  | abs
  | sqrt
  | exp
  deriving DecidableEq, Repr

namespace UnaryOp

def mnemonic : UnaryOp → String
  | neg => "neg"
  | abs => "abs"
  | sqrt => "sqrt"
  | exp => "exp"

def tag : UnaryOp → String
  | neg => "Neg"
  | abs => "Abs"
  | sqrt => "Sqrt"
  | exp => "Exp"

def all : List UnaryOp := [neg, abs, sqrt, exp]

def ofMnemonic? (s : String) : Option UnaryOp := all.find? (·.mnemonic = s)

end UnaryOp

inductive BinaryOp where
  | add
  | sub
  | mul
  | div
  | min
  | max
  deriving DecidableEq, Repr

namespace BinaryOp

def mnemonic : BinaryOp → String
  | add => "add"
  | sub => "sub"
  | mul => "mul"
  | div => "div"
  | min => "min"
  | max => "max"

def tag : BinaryOp → String
  | add => "Add"
  | sub => "Sub"
  | mul => "Mul"
  | div => "Div"
  | min => "Min"
  | max => "Max"

def all : List BinaryOp := [add, sub, mul, div, min, max]

def ofMnemonic? (s : String) : Option BinaryOp := all.find? (·.mnemonic = s)

end BinaryOp

/-- A named scalar function that a call may apply. -/
inductive Builtin where
  | sin
  | cos
  | tanh
  | floor
  | trace
  | pow
  | hypot
  deriving DecidableEq, Repr

namespace Builtin

def name : Builtin → String
  | sin => "sin"
  | cos => "cos"
  | tanh => "tanh"
  | floor => "floor"
  | trace => "trace"
  | pow => "pow"
  | hypot => "hypot"

def arity : Builtin → Nat
  | pow => 2
  | hypot => 2
  | _ => 1

def all : List Builtin := [sin, cos, tanh, floor, trace, pow, hypot]

def find? (name : String) (arity : Nat) : Option Builtin :=
  all.find? fun b => b.name = name && b.arity = arity

end Builtin

/-- A meaning of the scalar language over values of type `α`. Passes keep the value of a function
under every such meaning. -/
structure Arithmetic (α : Type) where
  ofScalar : Scalar → α
  ofCoordinate : Int → α
  unary : UnaryOp → α → α
  binary : BinaryOp → α → α → α
  builtin : Builtin → List α → α

namespace Arithmetic

/-- The smaller operand; a number is preferred to a NaN, and of two zeros the second is taken. -/
def floatMin (a b : Float) : Float :=
  if a.isNaN then b else if b.isNaN then a else if a < b then a else b

/-- The larger operand; a number is preferred to a NaN, and of two zeros the second is taken. -/
def floatMax (a b : Float) : Float :=
  if a.isNaN then b else if b.isNaN then a else if b < a then a else b

/-- The length of the vector `(a, b)`, infinite as soon as a component is. -/
def floatHypot (a b : Float) : Float :=
  if a.isInf || b.isInf then 1.0 / 0.0
  else if a.isNaN || b.isNaN then 0.0 / 0.0
  else ((Scalar.ofFloat a).length (Scalar.ofFloat b)).toFloat

def floatUnary : UnaryOp → Float → Float
  | .neg, x => -x
  | .abs, x => x.abs
  | .sqrt, x => x.sqrt
  | .exp, x => x.exp

def floatBinary : BinaryOp → Float → Float → Float
  | .add, a, b => a + b
  | .sub, a, b => a - b
  | .mul, a, b => a * b
  | .div, a, b => a / b
  | .min, a, b => floatMin a b
  | .max, a, b => floatMax a b

def floatBuiltin : Builtin → List Float → Float
  | .sin, [x] => x.sin
  | .cos, [x] => x.cos
  | .tanh, [x] => x.tanh
  | .floor, [x] => x.floor
  | .trace, [x] => x
  | .pow, [x, y] => x.pow y
  | .hypot, [x, y] => floatHypot x y
  | _, _ => 0.0 / 0.0

def double : Arithmetic Float where
  ofScalar := Scalar.toFloat
  ofCoordinate z := (Scalar.ofInt z).toFloat
  unary := floatUnary
  binary := floatBinary
  builtin := floatBuiltin

end Arithmetic

end Stencil
