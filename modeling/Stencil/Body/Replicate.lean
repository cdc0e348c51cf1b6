import Stencil.Body.Basic

/-! Replication of a body along an axis. The values of the copies are numbered in words, which may
be too small for the numbers of a large body. -/

set_option autoImplicit false

namespace Stencil

/-- How values are numbered; what becomes of a number that a word does not hold is up to `m`. -/
structure Words (m : Type → Type) where
  length : Nat → Nat
  result : Nat → m Nat

namespace Words

def exact : Words Id := ⟨id, pure⟩

def wrapping : Words Id := ⟨(· % 4294967296), fun n => pure (n % 4294967296)⟩

/-- Words of 32 bits, with a trap at every overflow. A length is cut all the same. -/
def checked : Words Option := ⟨(· % 4294967296), fun n => if n < 4294967296 then some n else none⟩

variable {m : Type → Type} [Monad m] (W : Words m)

/-- The operations in replica `r` of a body of `n` operations: each reads `r` points further along
the axis, and has its values renamed behind those of the earlier replicas. -/
def replica (ops : List Op) (axis n r : Nat) : m (List Op) := do
  let base ← W.result (r * n)
  ops.mapM fun op => (op.ahead axis r).mapArgsM fun v => W.result (base + v)

/-- A body that does the work of `b` at `factor` neighbouring points along `axis`. -/
def replicate (b : Body) (axis factor : Nat) : m Body := do
  let n := W.length b.ops.length
  let ops ← (List.range factor).mapM (W.replica b.ops axis n)
  let values ← b.ret.values.mapM fun v => (List.range factor).mapM fun r => do
    W.result ((← W.result (r * n)) + v)
  return { ops := ops.flatten, ret := { values := values.flatten, unroll := some ⟨axis, factor⟩ } }

end Words

abbrev Body.replicate (b : Body) (axis factor : Nat) : Body := Words.exact.replicate b axis factor

end Stencil
