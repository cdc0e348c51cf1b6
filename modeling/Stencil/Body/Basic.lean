import Stencil.Box
import Stencil.Scalar.Operators

/-! Bodies of regions: straight-line code over the values read around one grid point. -/

set_option autoImplicit false

namespace Stencil

/-- A region of a function, by its place among the regions. -/
abbrev RegionId := Nat

/-- A temporary of a function, by its place among the temporaries. -/
abbrev TempId := Nat

/-- A buffer of a function, by its place among the buffers. -/
abbrev BufferId := Nat

/-- A value of a body, by the place of the operation that defines it. -/
abbrev ValueId := Nat

inductive Operand where
  | temp (id : TempId)
  | buffer (id : BufferId)
  deriving DecidableEq, Repr

inductive Op where
  /-- Reads an operand at an offset from the current point. -/
  | access (slot : Nat) (offset : Offset)
  /-- The current coordinate along `dim`, displaced by the offset's component there. -/
  | index (dim : Nat) (offset : Offset)
  | constant (value : Scalar)
  | unary (op : UnaryOp) (arg : ValueId)
  | binary (op : BinaryOp) (lhs rhs : ValueId)
  /-- Applies a named function. A call that is not pure is an observable effect. -/
  | call (callee : String) (args : List ValueId) (isPure : Bool)
  deriving DecidableEq, Repr

namespace Op

def args : Op → List ValueId
  | access _ _ | index _ _ | constant _ => []
  | unary _ a => [a]
  | binary _ l r => [l, r]
  | call _ as _ => as

def mapArgs (f : ValueId → ValueId) : Op → Op
  | unary op a => unary op (f a)
  | binary op l r => binary op (f l) (f r)
  | call callee as isPure => call callee (as.map f) isPure
  | op => op

/-- Renames the values an operation uses where a new name may not be had. -/
def mapArgsM {m : Type → Type} [Monad m] (f : ValueId → m ValueId) : Op → m Op
  | unary op a => return unary op (← f a)
  | binary op l r => return binary op (← f l) (← f r)
  | call callee as isPure => return call callee (← as.mapM f) isPure
  | op => pure op

/-- The operation as seen from a point displaced by `delta`. -/
def shifted (delta : Offset) : Op → Op
  | access slot o => access slot (Offset.compose o delta)
  | index dim o => index dim (Offset.compose o delta)
  | op => op

/-- The operation as seen from a point `r` further along the axis. -/
def ahead (axis r : Nat) (op : Op) : Op :=
  match op with
  | .access _ o | .index _ o => op.shifted (Offset.shiftedAlong (Offset.zeros o.length) axis r)
  | _ => op

def hasEffect : Op → Bool
  | call _ _ isPure => !isPure
  | _ => false

def mapSlot (f : Nat → Nat) : Op → Op
  | access slot o => access (f slot) o
  | op => op

end Op

/-- How many neighbouring points along an axis one run of a body computes. -/
structure Unroll where
  axis : Nat
  factor : Nat
  deriving DecidableEq, Repr

/-- The values a body yields. An unrolled body yields `factor` values per result, result by
result: `values[result * factor + replica]`. -/
structure Return where
  values : List ValueId
  unroll : Option Unroll
  deriving DecidableEq, Repr

def Return.factor (r : Return) : Nat :=
  match r.unroll with
  | none => 1
  | some u => u.factor

structure Body where
  ops : List Op
  ret : Return
  deriving DecidableEq, Repr

/-- A read of an operand, with the value it defines. -/
structure Access where
  value : ValueId
  slot : Nat
  offset : Offset
  deriving DecidableEq, Repr

namespace Body

/-- The accesses of a list of operations whose first one defines the value `start`. -/
def accessesFrom : ValueId → List Op → List Access
  | _, [] => []
  | i, .access slot offset :: ops => ⟨i, slot, offset⟩ :: accessesFrom (i + 1) ops
  | i, _ :: ops => accessesFrom (i + 1) ops

def accesses (b : Body) : List Access := accessesFrom 0 b.ops

def hasEffect (b : Body) : Bool := b.ops.any Op.hasEffect

def effects (b : Body) : Nat := (b.ops.filter Op.hasEffect).length

def readsSlot (b : Body) (slot : Nat) : Bool := b.accesses.any fun a => a.slot = slot

def ofOps (ops : List Op) (values : List ValueId) : Body := ⟨ops, ⟨values, none⟩⟩

end Body

end Stencil
