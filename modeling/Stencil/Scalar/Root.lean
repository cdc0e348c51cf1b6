import Stencil.Scalar.Basic

/-! Square roots of naturals, and the length of a plane vector rounded correctly. -/

set_option autoImplicit false

namespace Stencil

/-- The greatest number that agrees with `root` above its `bits` lowest bits, which are zero in
`root`, and has a square of at most `n`. -/
def rootFrom (n : Nat) : Nat → Nat → Nat
  | 0, root => root
  | bits + 1, root =>
    let next := root + Nat.pow 2 bits
    rootFrom n bits (if next * next ≤ n then next else root)

def rootFloor (n : Nat) : Nat := rootFrom n (n.log2 / 2 + 1) 0

namespace Scalar

/-- The scalar nearest to the square root of `n * 2 ^ (2 * q)`. The root is taken with 60 further
bits and a last bit that says whether anything is left, so it is rounded only once. -/
def ofRoot (n : Nat) (q : Int) : Scalar :=
  let wide := n * Nat.pow 2 120
  let root := rootFloor wide
  let m := 2 * root + (if root * root = wide then 0 else 1)
  let e := q - 61
  if 0 ≤ e then ofRatio false (m * Nat.pow 2 e.toNat) 1 else ofRatio false m (Nat.pow 2 (-e).toNat)

def length (x y : Scalar) : Scalar :=
  let q := min x.exponent y.exponent
  let a := x.mantissa * Nat.pow 2 (x.exponent - q).toNat
  let b := y.mantissa * Nat.pow 2 (y.exponent - q).toNat
  ofRoot (a * a + b * b) q

end Scalar

end Stencil
