import Stencil.Json.Basic
import Stencil.Scalar.Layout

/-! Writing JSON text: on one line, or one item a line. -/

set_option autoImplicit false

namespace Stencil.Json

/-- A character inside a string. Only quotes, backslashes and control characters are escaped. -/
def escapeChar (c : Char) : List Char :=
  if c = '"' then ['\\', '"']
  else if c = '\\' then ['\\', '\\']
  else if c = '\x08' then ['\\', 'b']
  else if c = '\x0c' then ['\\', 'f']
  else if c = '\n' then ['\\', 'n']
  else if c = '\r' then ['\\', 'r']
  else if c = '\t' then ['\\', 't']
  else if c.toNat < 32 then '\\' :: 'u' :: Numeral.hexPadded 4 c.toNat
  else [c]

def quoteChars (s : String) : List Char := '"' :: s.toList.flatMap escapeChar ++ ['"']

/-- What denotes nothing is written as `null`. -/
def stringChars : Option String → List Char
  | some s => quoteChars s
  | none => ['n', 'u', 'l', 'l']

def numberChars : Option Number → List Char
  | some (.int z) => Numeral.ofInt z
  | some (.float x) => if x.isFinite then x.layout .json else ['n', 'u', 'l', 'l']
  | none => ['n', 'u', 'l', 'l']

def boolChars (b : Bool) : List Char :=
  if b then ['t', 'r', 'u', 'e'] else ['f', 'a', 'l', 's', 'e']

mutual

def compactChars : Json → List Char
  | null => ['n', 'u', 'l', 'l']
  | bool b => boolChars b
  | num n => numberChars n
  | str s => stringChars s
  | arr xs => '[' :: compactItems xs ++ [']']
  | obj fs => '{' :: compactFields fs ++ ['}']

def compactItems : List Json → List Char
  | [] => []
  | [x] => compactChars x
  | x :: y :: xs => compactChars x ++ ',' :: compactItems (y :: xs)

def compactFields : List (Option String × Json) → List Char
  | [] => []
  | [(k, x)] => stringChars k ++ ':' :: compactChars x
  | (k, x) :: f :: fs => stringChars k ++ ':' :: compactChars x ++ ',' :: compactFields (f :: fs)

end

def newLine (indent : Nat) : List Char := '\n' :: List.replicate indent ' '

mutual

/-- The value over several lines; what is nested stands two blanks further in. -/
def prettyChars (indent : Nat) : Json → List Char
  | null => ['n', 'u', 'l', 'l']
  | bool b => boolChars b
  | num n => numberChars n
  | str s => stringChars s
  | arr [] => ['[', ']']
  | arr (x :: xs) => '[' :: prettyItems (indent + 2) (x :: xs) ++ newLine indent ++ [']']
  | obj [] => ['{', '}']
  | obj (f :: fs) => '{' :: prettyFields (indent + 2) (f :: fs) ++ newLine indent ++ ['}']

def prettyItems (indent : Nat) : List Json → List Char
  | [] => []
  | [x] => newLine indent ++ prettyChars indent x
  | x :: y :: xs => newLine indent ++ prettyChars indent x ++ ',' :: prettyItems indent (y :: xs)

def prettyFields (indent : Nat) : List (Option String × Json) → List Char
  | [] => []
  | [(k, x)] => newLine indent ++ stringChars k ++ ':' :: ' ' :: prettyChars indent x
  | (k, x) :: f :: fs =>
    newLine indent ++ stringChars k ++ ':' :: ' ' :: prettyChars indent x ++
      ',' :: prettyFields indent (f :: fs)

end

def compact (j : Json) : String := String.ofList j.compactChars

def pretty (j : Json) : String := String.ofList (j.prettyChars 0)

end Stencil.Json
