import Stencil.Scalar.Basic

/-! The shortest decimal of a scalar: the fewest digits that read back as the same scalar. -/

set_option autoImplicit false

namespace Stencil.Scalar

/-- Which of two equally near decimals is taken. -/
inductive Tie where
  | up
  | even
  deriving DecidableEq, Repr

/-- `coefficient * 10 ^ power`. -/
structure Decimal where
  coefficient : Nat
  power : Int
  deriving DecidableEq, Repr

/-- The reals that round to a positive finite scalar, in quarter units of its last place: `low` and
`high` enclose `centre`, and belong to them when the mantissa is even. -/
structure Interval where
  low : Nat
  centre : Nat
  high : Nat
  closed : Bool
  /-- The binary exponent of the quarter unit. -/
  scale : Int

/-- Below a power of two the neighbours stand half as far apart. -/
def interval (x : Scalar) : Interval :=
  let m := x.mantissa
  let narrow := m = Nat.pow 2 52 && 1 < x.exponentField
  { low := if narrow then 4 * m - 1 else 4 * m - 2
    centre := 4 * m
    high := 4 * m + 2
    closed := m % 2 = 0
    scale := x.exponent - 2 }

/-- `2 ^ binary / 10 ^ decimal` as a quotient of naturals. -/
def scaleRatio (binary decimal : Int) : Nat × Nat :=
  (Nat.pow 2 binary.toNat * Nat.pow 10 (-decimal).toNat,
    Nat.pow 2 (-binary).toNat * Nat.pow 10 decimal.toNat)

/-- The multiple of `10 ^ power` inside the interval that is nearest to the centre, if any. Only the
two neighbours of the centre need to be tried. -/
def Interval.pick (i : Interval) (tie : Tie) (power : Int) : Option Nat :=
  let (a, b) := scaleRatio i.scale power
  let inside (n : Nat) : Bool :=
    if i.closed then i.low * a ≤ n * b && n * b ≤ i.high * a
    else i.low * a < n * b && n * b < i.high * a
  let n := i.centre * a / b
  let below := i.centre * a - n * b
  let above := (n + 1) * b - i.centre * a
  match inside n, inside (n + 1) with
  | true, true =>
    if below < above then some n
    else if above < below then some (n + 1)
    else if tie = .even && n % 2 = 0 then some n else some (n + 1)
  | true, false => some n
  | false, true => some (n + 1)
  | false, false => none

/-- The greatest `k` with `10 ^ k` at most the interval's centre. -/
def Interval.log10 (i : Interval) : Int :=
  let (a, b) := scaleRatio i.scale (-400)
  (Numeral.digits (i.centre * a / b)).length - 401

/-- Tries `count` more grids, each ten times finer than the one before. -/
def Interval.search (i : Interval) (tie : Tie) : Nat → Int → Decimal
  | 0, power => ⟨i.centre, power⟩
  | count + 1, power =>
    match i.pick tie power with
    | some n => ⟨n, power⟩
    | none => i.search tie count (power - 1)

/-- The shortest decimal of a positive finite scalar. Seventeen digits always suffice. -/
def shortest (tie : Tie) (x : Scalar) : Decimal :=
  let i := x.interval
  i.search tie 17 i.log10

end Stencil.Scalar
