import Stencil.Json.Number

/-! Reading JSON text. -/

set_option autoImplicit false

namespace Stencil.Json

def isBlank (c : Char) : Bool := c = ' ' || c = '\n' || c = '\t' || c = '\r'

def skipBlank (cs : List Char) : List Char := cs.dropWhile isBlank

/-- A part of a string: a character, or half of a pair of escapes. -/
inductive StringPart where
  | char (c : Char)
  | surrogate (unit : Nat)
  deriving DecidableEq, Repr

def hexValue? (c : Char) : Option Nat :=
  if isDigit c then some (c.toNat - '0'.toNat)
  else if 'a' ≤ c && c ≤ 'f' then some (c.toNat - 'a'.toNat + 10)
  else if 'A' ≤ c && c ≤ 'F' then some (c.toNat - 'A'.toNat + 10)
  else none

def hexUnit? (a b c d : Char) : Option Nat := do
  let a ← hexValue? a
  let b ← hexValue? b
  let c ← hexValue? c
  let d ← hexValue? d
  some (((a * 16 + b) * 16 + c) * 16 + d)

def isHigh (unit : Nat) : Bool := 0xD800 ≤ unit && unit < 0xDC00

def isLow (unit : Nat) : Bool := 0xDC00 ≤ unit && unit < 0xE000

def partOfUnit (unit : Nat) : StringPart :=
  if isHigh unit || isLow unit then .surrogate unit else .char (Char.ofNat unit)

def shortEscape? : Char → Option Char
  | '"' => some '"'
  | '\\' => some '\\'
  | '/' => some '/'
  | 'b' => some '\x08'
  | 'f' => some '\x0c'
  | 'n' => some '\n'
  | 'r' => some '\r'
  | 't' => some '\t'
  | _ => none

/-- The parts of a string up to its closing quote. -/
def stringParts : List Char → Option (List StringPart × List Char)
  | [] => none
  | '"' :: cs => some ([], cs)
  | '\\' :: 'u' :: a :: b :: c :: d :: cs => do
    let unit ← hexUnit? a b c d
    let (ps, rest) ← stringParts cs
    some (partOfUnit unit :: ps, rest)
  | '\\' :: e :: cs => do
    let c ← shortEscape? e
    let (ps, rest) ← stringParts cs
    some (.char c :: ps, rest)
  | c :: cs =>
    if c.toNat < 32 || c = '\\' then none
    else do
      let (ps, rest) ← stringParts cs
      some (.char c :: ps, rest)

/-- The characters of a string, if the halves in it make up pairs. -/
def joinParts : List StringPart → Option (List Char)
  | [] => some []
  | .char c :: ps => (joinParts ps).map (c :: ·)
  | .surrogate h :: .surrogate l :: ps =>
    if isHigh h && isLow l then
      (joinParts ps).map (Char.ofNat (0x10000 + (h - 0xD800) * 0x400 + (l - 0xDC00)) :: ·)
    else none
  | .surrogate _ :: _ => none

def stringText (cs : List Char) : Option (Option String × List Char) := do
  let (ps, rest) ← stringParts cs
  some ((joinParts ps).map String.ofList, rest)

mutual

/-- The value at the front. Two units of fuel for each character are enough. -/
def readValue : Nat → List Char → Option (Json × List Char)
  | 0, _ => none
  | fuel + 1, cs =>
    match skipBlank cs with
    | 'n' :: 'u' :: 'l' :: 'l' :: rest => some (null, rest)
    | 't' :: 'r' :: 'u' :: 'e' :: rest => some (bool true, rest)
    | 'f' :: 'a' :: 'l' :: 's' :: 'e' :: rest => some (bool false, rest)
    | '"' :: rest => (stringText rest).map fun r => (str r.1, r.2)
    | '[' :: rest =>
      match skipBlank rest with
      | ']' :: rest => some (arr [], rest)
      | rest => (readItems fuel rest).map fun r => (arr r.1, r.2)
    | '{' :: rest =>
      match skipBlank rest with
      | '}' :: rest => some (obj [], rest)
      | rest => (readFields fuel rest).map fun r => (obj r.1, r.2)
    | cs => (numberText cs).map fun r => (num r.1.number, r.2)

def readItems : Nat → List Char → Option (List Json × List Char)
  | 0, _ => none
  | fuel + 1, cs => do
    let (x, rest) ← readValue fuel cs
    match skipBlank rest with
    | ',' :: rest =>
      let (xs, rest) ← readItems fuel rest
      some (x :: xs, rest)
    | ']' :: rest => some ([x], rest)
    | _ => none

def readFields : Nat → List Char → Option (List (Option String × Json) × List Char)
  | 0, _ => none
  | fuel + 1, cs =>
    match skipBlank cs with
    | '"' :: rest => do
      let (key, rest) ← stringText rest
      match skipBlank rest with
      | ':' :: rest =>
        let (x, rest) ← readValue fuel rest
        match skipBlank rest with
        | ',' :: rest =>
          let (xs, rest) ← readFields fuel rest
          some ((key, x) :: xs, rest)
        | '}' :: rest => some ([(key, x)], rest)
        | _ => none
      | _ => none
    | _ => none

end

/-- The value that a text holds, with nothing but blanks around it. -/
def read (text : String) : Option Json :=
  let cs := text.toList
  match readValue (2 * cs.length + 2) cs with
  | some (x, rest) => if (skipBlank rest).isEmpty then some x else none
  | none => none

end Stencil.Json
