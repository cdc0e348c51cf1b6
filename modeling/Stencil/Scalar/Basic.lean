import Stencil.Text.Numeral

/-! Scalars: double precision numbers, held by their bits so that two of them can be told apart. -/

set_option autoImplicit false

namespace Stencil

structure Scalar where
  bits : UInt64
  deriving DecidableEq, Repr

/-- The integer nearest to `num / den`; a half goes to the even neighbour. -/
def roundDiv (num den : Nat) : Nat :=
  let q := num / den
  let r := num % den
  if 2 * r < den then q
  else if den < 2 * r then q + 1
  else if q % 2 = 0 then q else q + 1

namespace Scalar

def ofFloat (x : Float) : Scalar := ⟨x.toBits⟩

def toFloat (x : Scalar) : Float := Float.ofBits x.bits

def zero : Scalar := ⟨0⟩

def negative (x : Scalar) : Bool := Nat.pow 2 63 ≤ x.bits.toNat

def exponentField (x : Scalar) : Nat := x.bits.toNat / Nat.pow 2 52 % Nat.pow 2 11

def fraction (x : Scalar) : Nat := x.bits.toNat % Nat.pow 2 52

def isFinite (x : Scalar) : Bool := x.exponentField != 2047

def isNaN (x : Scalar) : Bool := x.exponentField == 2047 && x.fraction != 0

/-- The magnitude of a finite scalar is `mantissa * 2 ^ exponent`. -/
def mantissa (x : Scalar) : Nat :=
  if x.exponentField = 0 then x.fraction else x.fraction + Nat.pow 2 52

def exponent (x : Scalar) : Int := (max x.exponentField 1 : Nat) - 1075

/-- The largest magnitude field, which the infinities have. -/
def infinityField : Nat := 2047 * Nat.pow 2 52

def ofField (negative : Bool) (field : Nat) : Scalar :=
  ⟨UInt64.ofNat ((if negative then Nat.pow 2 63 else 0) + min field infinityField)⟩

/-- The greatest `e` with `2 ^ e ≤ num / den`, for positive arguments. -/
def log2Ratio (num den : Nat) : Int :=
  let e : Int := num.log2 - den.log2
  let reached := if 0 ≤ e then den * Nat.pow 2 e.toNat ≤ num else den ≤ num * Nat.pow 2 (-e).toNat
  if reached then e else e - 1

/-- The scalar nearest to `num / den`, ties to even, infinite when too large. The magnitude field
of `m * 2 ^ q` is `(q + 1074) * 2 ^ 52 + m` below and above the normal range alike. -/
def ofRatio (negative : Bool) (num den : Nat) : Scalar :=
  if num = 0 then ofField negative 0
  else
    let q := max (log2Ratio num den - 52) (-1074)
    let m :=
      if 0 ≤ q then roundDiv num (den * Nat.pow 2 q.toNat) else roundDiv (num * Nat.pow 2 (-q).toNat) den
    ofField negative ((q + 1074).toNat * Nat.pow 2 52 + m)

/-- The scalar nearest to `m * 10 ^ e`. Far outside the range of doubles the power is not formed. -/
def ofDecimal (negative : Bool) (m : Nat) (e : Int) : Scalar :=
  let size : Int := (Numeral.digits m).length + e
  if m = 0 || size < -400 then ofField negative 0
  else if 400 < size then ofField negative infinityField
  else if 0 ≤ e then ofRatio negative (m * Nat.pow 10 e.toNat) 1
  else ofRatio negative m (Nat.pow 10 (-e).toNat)

/-- The magnitude of a finite scalar as a quotient of naturals. -/
def ratio (x : Scalar) : Nat × Nat :=
  (x.mantissa * Nat.pow 2 x.exponent.toNat, Nat.pow 2 (-x.exponent).toNat)

def product (x y : Scalar) : Scalar :=
  ofRatio false (x.ratio.1 * y.ratio.1) (x.ratio.2 * y.ratio.2)

def quotient (x y : Scalar) : Scalar :=
  ofRatio false (x.ratio.1 * y.ratio.2) (x.ratio.2 * y.ratio.1)

def negated (x : Scalar) : Scalar := ⟨x.bits ^^^ 0x8000000000000000⟩

def ofInt (z : Int) : Scalar := ofRatio (z < 0) z.natAbs 1

end Scalar

end Stencil
