import Stencil.Scalar.Shortest

/-! The written forms of scalars: one choice of digits, laid out by the rules of a format. -/

set_option autoImplicit false

namespace Stencil.Scalar

structure Layout where
  /-- The least and the greatest decimal exponent written without a power of ten. -/
  least : Int
  greatest : Int
  /-- Whether a positive exponent has a plus sign. -/
  plus : Bool
  tie : Tie

/-- Program text writes `0.0001` and `1e-5`, `1e16` and never a plus sign. -/
def Layout.program : Layout := ⟨-4, 15, false, .up⟩

/-- JSON text writes `0.00001` and `9e-6`, and a plus sign as in `1e+16`. -/
def Layout.json : Layout := ⟨-5, 15, true, .even⟩

/-- The digits with the point after the one of weight `10 ^ e`. -/
def positional (ds : List Char) (e : Int) : List Char :=
  if e < 0 then ['0', '.'] ++ List.replicate ((-e).toNat - 1) '0' ++ ds
  else
    let n := e.toNat + 1
    if ds.length ≤ n then ds ++ List.replicate (n - ds.length) '0' ++ ['.', '0']
    else ds.take n ++ ['.'] ++ ds.drop n

/-- The digits with the point after the first and a power of ten. -/
def scientific (plus : Bool) (ds : List Char) (e : Int) : List Char :=
  let mark := if plus && 0 ≤ e then ['e', '+'] else ['e']
  match ds with
  | d :: r :: rest => d :: '.' :: r :: rest ++ mark ++ Numeral.ofInt e
  | _ => ds ++ mark ++ Numeral.ofInt e

def layout (l : Layout) (x : Scalar) : List Char :=
  let sign := if x.negative then ['-'] else []
  if x.mantissa = 0 then sign ++ ['0', '.', '0']
  else
    let d := x.shortest l.tie
    let all := Numeral.digits d.coefficient
    let e := d.power + all.length - 1
    let ds := (all.reverse.dropWhile (· = '0')).reverse
    sign ++ (if l.least ≤ e && e ≤ l.greatest then positional ds e else scientific l.plus ds e)

def text (x : Scalar) : String :=
  if x.isNaN then "NaN"
  else if !x.isFinite then (if x.negative then "-inf" else "inf")
  else String.ofList (layout .program x)

end Stencil.Scalar
