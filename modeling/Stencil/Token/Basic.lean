import Stencil.Diagnostic
import Stencil.Scalar.Layout

/-! Tokens of program text. -/

set_option autoImplicit false

namespace Stencil

inductive Keyword where
  | func
  | rank
  | buffer
  | domain
  | required
  | apply
  | overBox
  | returns
  | unroll
  | byFactor
  | epilogue
  | output
  | empty
  | access
  | index
  | const
  | call
  | impure
  deriving DecidableEq, Repr

namespace Keyword

def text : Keyword → String
  | func => "func"
  | rank => "rank"
  | buffer => "buffer"
  | domain => "domain"
  | required => "required"
  | apply => "apply"
  | overBox => "over"
  | returns => "return"
  | unroll => "unroll"
  | byFactor => "by"
  | epilogue => "epilogue"
  | output => "output"
  | empty => "empty"
  | access => "access"
  | index => "index"
  | const => "const"
  | call => "call"
  | impure => "impure"

def all : List Keyword :=
  [func, rank, buffer, domain, required, apply, overBox, returns, unroll, byFactor, epilogue, output,
   empty, access, index, const, call, impure]

def ofText? (s : String) : Option Keyword := all.find? (·.text = s)

end Keyword

inductive Symbol where
  | arrow
  | colon
  | comma
  | equals
  | lparen
  | rparen
  | lbrace
  | rbrace
  | lbracket
  | rbracket
  deriving DecidableEq, Repr

def Symbol.text : Symbol → String
  | arrow => "->"
  | colon => ":"
  | comma => ","
  | equals => "="
  | lparen => "("
  | rparen => ")"
  | lbrace => "\x7b"
  | rbrace => "\x7d"
  | lbracket => "["
  | rbracket => "]"

inductive Token where
  | keyword (k : Keyword)
  | symbol (s : Symbol)
  | float (value : Scalar)
  | int (value : Int)
  /-- `%name` -/
  | localName (name : String)
  /-- `@name` -/
  | globalName (name : String)
  | ident (name : String)
  deriving DecidableEq, Repr

def Token.text : Token → String
  | keyword k => k.text
  | symbol s => s.text
  | float v => v.text
  | int v => intText v
  | localName name => "%" ++ name
  | globalName name => "@" ++ name
  | ident name => name

/-- A token with its place in the source. -/
structure Lexeme where
  token : Token
  span : Span
  deriving DecidableEq, Repr

end Stencil
