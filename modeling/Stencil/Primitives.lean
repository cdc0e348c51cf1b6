import Stencil.Box

/-! The operations on coordinates and boxes that shape inference is made of. An operation may fail
to give a result, as where an overflow is trapped or a bound is missing; what becomes of that is up
to a monad. -/

set_option autoImplicit false

namespace Stencil

structure Primitives (m : Type → Type) where
  add : Int → Int → m Int
  sub : Int → Int → m Int
  mul : Int → Int → m Int
  div : Int → Int → m Int
  /-- One of the lower or of the upper bounds of a box. -/
  bound : List Int → Nat → m Int
  extent : Box → Nat → m Int
  withAxis : Box → Nat → Int → Int → m Box
  shifted : Box → Offset → m Box
  contains : Box → Box → m Bool

/-- Operations that always have a result, on integers without limits. -/
def Primitives.total (m : Type → Type) [Monad m] : Primitives m where
  add a b := pure (a + b)
  sub a b := pure (a - b)
  mul a b := pure (a * b)
  div a b := pure (a / b)
  bound xs axis := pure (xs.getD axis 0)
  extent b axis := pure (b.extent axis)
  withAxis b axis lb ub := pure (b.withAxis axis lb ub)
  shifted b o := pure (b.shifted o)
  contains a b := pure (a.contains b)

end Stencil
