import Stencil.Text.Quoted
import Stencil.Token.Basic

/-! Cutting a source into pieces: blanks, tokens and characters that start no token. -/

set_option autoImplicit false

namespace Stencil

/-- A part of the source with what it stands for. -/
inductive Piece where
  | blank (text : List Char)
  | token (text : List Char) (t : Token)
  | refused (text : List Char)
  deriving DecidableEq, Repr

def Piece.text : Piece → List Char
  | blank cs => cs
  | token cs _ => cs
  | refused cs => cs

namespace Lexer

def isBlank (c : Char) : Bool := c = ' ' || c = '\t' || c = '\r' || c = '\n'

def isDigit (c : Char) : Bool := '0' ≤ c && c ≤ '9'

def isLetter (c : Char) : Bool :=
  ('a' ≤ c && c ≤ 'z') || ('A' ≤ c && c ≤ 'Z') || c = '_'

def isNameChar (c : Char) : Bool := isLetter c || isDigit c

/-- The point and digits at the front, or nothing. -/
def fractionPart : List Char → List Char
  | '.' :: cs =>
    let ds := cs.takeWhile isDigit
    if ds.isEmpty then [] else '.' :: ds
  | _ => []

/-- The digits of an exponent after its mark and sign, put behind them; nothing without digits. -/
def exponentDigits (front : List Char) (cs : List Char) : List Char :=
  let ds := cs.takeWhile isDigit
  if ds.isEmpty then [] else front ++ ds

/-- The exponent at the front, or nothing. -/
def exponentPart : List Char → List Char
  | e :: cs =>
    if e = 'e' || e = 'E' then
      match cs with
      | '+' :: rest => exponentDigits [e, '+'] rest
      | '-' :: rest => exponentDigits [e, '-'] rest
      | _ => exponentDigits [e] cs
    else []
  | [] => []

def exponentValue : List Char → Int
  | _ :: '-' :: ds => -(Numeral.value ds)
  | _ :: '+' :: ds => Numeral.value ds
  | _ :: ds => Numeral.value ds
  | [] => 0

/-- The least and the greatest integer that a program may write. -/
def intInRange (z : Int) : Bool := -9223372036854775808 ≤ z && z ≤ 9223372036854775807

/-- The number at the front of `cs`, which starts with a digit, behind `sign`. A whole number that is
too large is refused. -/
def number (sign cs : List Char) : Piece :=
  let whole := cs.takeWhile isDigit
  let rest := cs.dropWhile isDigit
  let fraction := fractionPart rest
  let exponent := exponentPart (rest.drop fraction.length)
  let text := sign ++ whole ++ fraction ++ exponent
  let negative := !sign.isEmpty
  if fraction.isEmpty && exponent.isEmpty then
    let n : Int := Numeral.value whole
    let z := if negative then -n else n
    if intInRange z then .token text (.int z) else .refused text
  else
    let places := fraction.drop 1
    .token text (.float (Scalar.ofDecimal negative (Numeral.value (whole ++ places))
      (exponentValue exponent - places.length)))

def word (cs : List Char) : Token :=
  let s := String.ofList cs
  match Keyword.ofText? s with
  | some k => .keyword k
  | none => .ident s

def symbol? : Char → Option Symbol
  | ':' => some .colon
  | ',' => some .comma
  | '=' => some .equals
  | '(' => some .lparen
  | ')' => some .rparen
  | '{' => some .lbrace
  | '}' => some .rbrace
  | '[' => some .lbracket
  | ']' => some .rbracket
  | _ => none

/-- The piece at the front of `c :: cs`. -/
def first (c : Char) (cs : List Char) : Piece :=
  if isBlank c then .blank (c :: cs.takeWhile isBlank)
  else if c = '#' then .blank (c :: cs.takeWhile (· ≠ '\n'))
  else if isLetter c then
    let text := c :: cs.takeWhile isNameChar
    .token text (word text)
  else if isDigit c then number [] (c :: cs)
  else if c = '%' then
    let name := cs.takeWhile isNameChar
    if name.isEmpty then .refused [c] else .token (c :: name) (.localName (String.ofList name))
  else if c = '@' then
    let name := cs.takeWhile isNameChar
    match name with
    | d :: _ =>
      if isLetter d then .token (c :: name) (.globalName (String.ofList name)) else .refused [c]
    | [] => .refused [c]
  else if c = '-' then
    match cs with
    | '>' :: _ => .token [c, '>'] (.symbol .arrow)
    | d :: _ => if isDigit d then number [c] cs else .refused [c]
    | [] => .refused [c]
  else
    match symbol? c with
    | some s => .token [c] (.symbol s)
    | none => .refused [c]

def pieces : List Char → List Piece
  | [] => []
  | c :: cs =>
    let p := first c cs
    p :: pieces (cs.drop (p.text.length - 1))
termination_by cs => cs.length
decreasing_by simp only [List.length_drop, List.length_cons]; omega

def byteLength (cs : List Char) : Nat := cs.foldl (fun n c => n + c.utf8Size) 0

/-- The pieces with their places, the first of which is `start`. -/
def placed : Nat → List Piece → List (Span × Piece)
  | _, [] => []
  | start, p :: rest =>
    let stop := start + byteLength p.text
    (⟨start, stop⟩, p) :: placed stop rest

end Lexer

/-- Text that starts no token. -/
structure LexError where
  span : Span
  text : List Char
  deriving DecidableEq, Repr

def LexError.message (e : LexError) : String :=
  "unexpected character: " ++ Text.quote (String.ofList e.text)

namespace Lexer

def lexeme? : Span × Piece → Option Lexeme
  | (span, .token _ t) => some ⟨t, span⟩
  | _ => none

def error? : Span × Piece → Option LexError
  | (span, .refused text) => some ⟨span, text⟩
  | _ => none

/-- The tokens and the refused parts of a source. -/
def lex (source : String) : List Lexeme × List LexError :=
  let ps := placed 0 (pieces source.toList)
  (ps.filterMap lexeme?, ps.filterMap error?)

end Lexer

end Stencil
