import Stencil.Body.Basic

/-! Splicing: a read of a producer's result is replaced by the producer's own operations. -/

set_option autoImplicit false

namespace Stencil.Body

/-- The new name of a value of the outer body when the operation at `pos` gives way to `n`
operations, of which `result` defines what the access read. -/
def outerName (pos n result : Nat) (v : ValueId) : ValueId :=
  if v < pos then v else if v = pos then pos + result else v + n - 1

def innerOp (pos : Nat) (offset : Offset) (slots : List Nat) (op : Op) : Op :=
  ((op.shifted offset).mapSlot fun s => (slots[s]?).getD s).mapArgs (pos + ·)

/-- Replaces the access at `pos` by the operations of `inner`, whose value `result` the access
read. Any other operation there is left alone. -/
def splice (b : Body) (pos : ValueId) (inner : Body) (result : ValueId) (slots : List Nat) : Body :=
  match b.ops[pos]? with
  | some (.access _ offset) =>
    let rename := outerName pos inner.ops.length result
    { ops := b.ops.take pos ++ inner.ops.map (innerOp pos offset slots) ++
        (b.ops.drop (pos + 1)).map (Op.mapArgs rename)
      ret := { b.ret with values := b.ret.values.map rename } }
  | _ => b

def dropSlot (b : Body) (removed : Nat) : Body :=
  { b with ops := b.ops.map (Op.mapSlot fun s => if removed < s then s - 1 else s) }

end Stencil.Body
