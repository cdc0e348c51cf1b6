import Stencil.Json.Basic

/-! Reading JSON numbers. Of the digits of a float only as many count as fit into 64 bits; the
mantissa is rounded to a scalar and then multiplied or divided by a rounded power of ten, so the
result may differ from the nearest scalar in the last place. -/

set_option autoImplicit false

namespace Stencil.Json

def isDigit (c : Char) : Bool := '0' ≤ c && c ≤ '9'

def maxMantissa : Nat := UInt64.size - 1

/-- Appends digits to a mantissa for as long as it fits, and returns the digits that are left. -/
def appendDigits : Nat → List Char → Nat × List Char
  | m, c :: cs =>
    let next := m * 10 + Numeral.digitValue c
    if next ≤ maxMantissa then appendDigits next cs else (m, c :: cs)
  | m, [] => (m, [])

def maxPower : Int := 308

def powerOfTen (e : Nat) : Scalar := Scalar.ofDecimal false 1 e

/-- Multiplies a magnitude by a power of ten; `none` when it becomes too large. -/
def scaled (x : Scalar) (e : Int) : Option Scalar :=
  if x.mantissa = 0 then some x
  else if e < -maxPower then scaled (x.quotient (powerOfTen maxPower.toNat)) (e + maxPower)
  else if e < 0 then some (x.quotient (powerOfTen (-e).toNat))
  else if maxPower < e then none
  else
    let y := x.product (powerOfTen e.toNat)
    if y.isFinite then some y else none
termination_by (-e).toNat
decreasing_by simp only [maxPower] at *; omega

def maxExponent : Nat := 2147483647

structure NumberText where
  negative : Bool
  whole : List Char
  fraction : List Char
  /-- The sign and the digits of the exponent. -/
  exponent : Option (Bool × List Char)
  deriving DecidableEq, Repr

namespace NumberText

def magnitude (t : NumberText) : Option Scalar :=
  let (m, dropped) := appendDigits 0 t.whole
  let (m', unused) := appendDigits m t.fraction
  let e : Int := dropped.length - (t.fraction.length - unused.length : Nat)
  let x := Scalar.ofInt m'
  match t.exponent with
  | none => scaled x e
  | some (negative, digits) =>
    let p := Numeral.value digits
    if maxExponent < p then (if negative || m' = 0 then some Scalar.zero else none)
    else scaled x (if negative then e - p else e + p)

def signed (negative : Bool) (x : Scalar) : Scalar := if negative then x.negated else x

/-- The number denoted. Zero with a sign is a float, as are integers beyond 64 bits. -/
def number (t : NumberText) : Option Number :=
  let float := t.magnitude.map fun x => Number.float (signed t.negative x)
  if t.fraction.isEmpty && t.exponent.isNone then
    let n := Numeral.value t.whole
    if t.negative then (if 0 < n && n ≤ 0x8000000000000000 then some (.int (-n)) else float)
    else if n ≤ maxMantissa then some (.int n) else float
  else float

end NumberText

/-- The digits of a whole number: a zero stands alone. -/
def wholeDigits (cs : List Char) : Option (List Char × List Char) :=
  let ds := cs.takeWhile isDigit
  match ds with
  | [] => none
  | '0' :: _ :: _ => none
  | _ => some (ds, cs.dropWhile isDigit)

def someDigits (cs : List Char) : Option (List Char × List Char) :=
  let ds := cs.takeWhile isDigit
  if ds.isEmpty then none else some (ds, cs.dropWhile isDigit)

def fractionText : List Char → Option (List Char × List Char)
  | '.' :: cs => someDigits cs
  | cs => some ([], cs)

def exponentSign : List Char → Bool × List Char
  | '-' :: cs => (true, cs)
  | '+' :: cs => (false, cs)
  | cs => (false, cs)

def exponentText : List Char → Option (Option (Bool × List Char) × List Char)
  | c :: cs =>
    if c = 'e' || c = 'E' then do
      let (negative, cs) := exponentSign cs
      let (ds, rest) ← someDigits cs
      some (some (negative, ds), rest)
    else some (none, c :: cs)
  | [] => some (none, [])

def numberText (cs : List Char) : Option (NumberText × List Char) := do
  let (negative, cs) :=
    match cs with
    | '-' :: cs => (true, cs)
    | cs => (false, cs)
  let (whole, cs) ← wholeDigits cs
  let (fraction, cs) ← fractionText cs
  let (exponent, cs) ← exponentText cs
  some (⟨negative, whole, fraction, exponent⟩, cs)

end Stencil.Json
