/-! Numerals of natural numbers and integers. -/

set_option autoImplicit false

namespace Stencil.Numeral

def digit (d : Nat) : Char := Char.ofNat (48 + d)

def digitValue (c : Char) : Nat := c.toNat - 48

def hexDigit (d : Nat) : Char := if d < 10 then digit d else Char.ofNat (87 + d)

section Base

variable (base : Nat) (symbol : Nat → Char)

/-- Writes the digits of `n` in front of `tail`; the first number bounds how many. -/
def digitsOnto : Nat → Nat → List Char → List Char
  | 0, _, tail => tail
  | fuel + 1, n, tail =>
    if n < base then symbol n :: tail else digitsOnto fuel (n / base) (symbol (n % base) :: tail)

/-- The digits of `n` in a base, most significant first, without leading zeros. -/
def inBase (n : Nat) : List Char := digitsOnto base symbol (n + 1) n []

end Base

def digits (n : Nat) : List Char := inBase 10 digit n

def value (cs : List Char) : Nat := cs.foldl (fun n c => 10 * n + digitValue c) 0

/-- The numeral of an integer, with a minus sign below zero. -/
def ofInt : Int → List Char
  | .ofNat n => digits n
  | .negSucc n => '-' :: digits (n + 1)

def hex (n : Nat) : List Char := inBase 16 hexDigit n

def hexPadded (width n : Nat) : List Char :=
  let cs := hex n
  List.replicate (width - cs.length) '0' ++ cs

end Stencil.Numeral

namespace Stencil

def natText (n : Nat) : String := String.ofList (Numeral.digits n)

def intText (z : Int) : String := String.ofList (Numeral.ofInt z)

/-- The texts one after another with `sep` between neighbours. -/
def joinWith (sep : String) : List String → String
  | [] => ""
  | [s] => s
  | s :: rest => s ++ sep ++ joinWith sep rest

end Stencil
