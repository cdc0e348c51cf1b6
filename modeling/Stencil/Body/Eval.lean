import Stencil.Body.Basic

/-! The meaning of a body at a point. -/

set_option autoImplicit false

namespace Stencil

/-- Why an evaluation stops. -/
inductive EvalError where
  | staleShapes
  | missingInput (buffer : String)
  | outOfBounds (region operand : String) (point : Point)
  | unknownCallee (callee : String) (arity : Nat)
  | cyclic
  /-- A body uses a value, a coordinate or a result that it does not have. -/
  | malformed
  deriving DecidableEq, Repr

def pointText (p : Point) : String := "[" ++ joinWith ", " (p.map intText) ++ "]"

def EvalError.message : EvalError → String
  | staleShapes => "shape information is stale; run shape-inference before evaluating"
  | missingInput b => "no input grid for buffer '@" ++ b ++ "'"
  | outOfBounds region operand point =>
    "apply '" ++ region ++ "' reads " ++ operand ++ " at " ++ pointText point ++
      ", outside the materialized box"
  | unknownCallee callee arity =>
    "unknown callee '" ++ callee ++ "' with " ++ natText arity ++ " arguments"
  | cyclic => "cyclic dependency between apply regions"
  | malformed => "malformed body"

namespace Body

variable {α : Type}

/-- How a body gets the value of an operand slot at a point. -/
abbrev Reader (α : Type) := Nat → Point → Except EvalError α

def need {β : Type} (x : Option β) : Except EvalError β :=
  match x with
  | some v => .ok v
  | none => .error .malformed

def evalOp (A : Arithmetic α) (read : Reader α) (point : Point) (values : Array α) :
    Op → Except EvalError α
  | .access slot o => read slot (List.zipWith (· + ·) point o)
  | .index dim o => do
    let p ← need point[dim]?
    let d ← need o[dim]?
    return A.ofCoordinate (p + d)
  | .constant c => .ok (A.ofScalar c)
  | .unary op a => do
    let x ← need values[a]?
    return A.unary op x
  | .binary op l r => do
    let x ← need values[l]?
    let y ← need values[r]?
    return A.binary op x y
  | .call callee as _ => do
    let xs ← as.mapM fun a => need values[a]?
    match Builtin.find? callee as.length with
    | some b => return A.builtin b xs
    | none => .error (.unknownCallee callee as.length)

def evalOps (A : Arithmetic α) (read : Reader α) (point : Point) :
    List Op → Array α → Except EvalError (Array α)
  | [], values => .ok values
  | op :: ops, values => do
    let v ← evalOp A read point values op
    evalOps A read point ops (values.push v)

def eval (A : Arithmetic α) (read : Reader α) (b : Body) (point : Point) :
    Except EvalError (List α) := do
  let values ← evalOps A read point b.ops #[]
  b.ret.values.mapM fun v => need values[v]?

/-- The reads a body issues at a point, in order, up to the first operation that fails. -/
def readsFrom (A : Arithmetic α) (read : Reader α) (point : Point) :
    List Op → Array α → List (Nat × Point)
  | [], _ => []
  | op :: ops, values =>
    let here :=
      match op with
      | .access slot o => [(slot, List.zipWith (· + ·) point o)]
      | _ => []
    match evalOp A read point values op with
    | .ok v => here ++ readsFrom A read point ops (values.push v)
    | .error _ => here

def reads (A : Arithmetic α) (read : Reader α) (b : Body) (point : Point) : List (Nat × Point) :=
  readsFrom A read point b.ops #[]

end Body

end Stencil
