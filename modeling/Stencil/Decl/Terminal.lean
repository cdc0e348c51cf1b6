import Stencil.Decl.Basic
import Stencil.Token.Basic

/-! What the tokens of a declaration stand for: names, numbers and operands, the place in the source
that a run of tokens takes up, and the operation that a mnemonic names. -/

set_option autoImplicit false

namespace Stencil

inductive Stuck where
  /-- No declaration goes on with this token, or ends where the tokens end. -/
  | unexpected (found : Option Lexeme)
  | unknownOperation (mnemonic : Name)
  | operandCount (mnemonic : Name) (expected found : Nat)
  deriving DecidableEq, Repr

namespace Stuck

def message : Stuck → String
  | unexpected (some l) => "found '" ++ l.token.text ++ "'"
  | unexpected none => "found end of input"
  | unknownOperation m => "unknown operation '" ++ m.text ++ "'"
  | operandCount m expected found =>
    "'" ++ m.text ++ "' takes " ++ natText expected ++
      (if expected = 1 then " operand" else " operands") ++ ", found " ++ natText found

def span (length : Nat) : Stuck → Span
  | unexpected (some l) => l.span
  | unexpected none => ⟨length, length⟩
  | unknownOperation m => m.span
  | operandCount m _ _ => m.span

def isWrongToken : Stuck → Bool
  | unexpected _ => true
  | _ => false

end Stuck

def Span.nowhere : Span := ⟨0, 0⟩

namespace Lexeme

/-- The place of a run of tokens, from the start of the first to the end of the last. -/
def extent : List Lexeme → Span
  | [] => .nowhere
  | l :: ls => ⟨l.span.start, (ls.getLastD l).span.stop⟩

def extentUpTo (ls rest : List Lexeme) : Span := extent (ls.take (ls.length - rest.length))

end Lexeme

def Literal.token : Literal → Token
  | .float v => .float v
  | .int z => .int z

def OperandDecl.token : OperandDecl → Token
  | .temp n => .localName n.text
  | .buffer n => .globalName n.text

/-- A class of tokens that stand for values, with the token that a value is written as. -/
structure Terminal (α : Type) where
  meaning? : Lexeme → Option α
  token : α → Token
  token_eq : ∀ {l : Lexeme} {x : α}, meaning? l = some x → l.token = token x := by
    rintro ⟨t, s⟩ x h
    cases t <;> cases h <;> rfl

namespace Terminal

def just (t : Token) : Terminal Unit where
  meaning? l := if l.token = t then some () else none
  token _ := t
  token_eq := by
    intro l x h
    split at h
    · assumption
    · cases h

def ident : Terminal Name where
  meaning?
    | ⟨.ident n, s⟩ => some ⟨n, s⟩
    | _ => none
  token n := .ident n.text

def localName : Terminal Name where
  meaning?
    | ⟨.localName n, s⟩ => some ⟨n, s⟩
    | _ => none
  token n := .localName n.text

def globalName : Terminal Name where
  meaning?
    | ⟨.globalName n, s⟩ => some ⟨n, s⟩
    | _ => none
  token n := .globalName n.text

def int : Terminal Int where
  meaning?
    | ⟨.int z, _⟩ => some z
    | _ => none
  token := .int

def literal : Terminal Literal where
  meaning?
    | ⟨.float v, _⟩ => some (.float v)
    | ⟨.int z, _⟩ => some (.int z)
    | _ => none
  token := Literal.token

def operand : Terminal OperandDecl where
  meaning?
    | ⟨.localName n, s⟩ => some (.temp ⟨n, s⟩)
    | ⟨.globalName n, s⟩ => some (.buffer ⟨n, s⟩)
    | _ => none
  token := OperandDecl.token

end Terminal

def OpDecl.applied (mnemonic : Name) (args : List Name) : Except Stuck OpDecl :=
  match UnaryOp.ofMnemonic? mnemonic.text, BinaryOp.ofMnemonic? mnemonic.text, args with
  | some op, _, [arg] => .ok (.unary op arg)
  | some _, _, _ => .error (.operandCount mnemonic 1 args.length)
  | none, some op, [lhs, rhs] => .ok (.binary op lhs rhs)
  | none, some _, _ => .error (.operandCount mnemonic 2 args.length)
  | none, none, _ => .error (.unknownOperation mnemonic)

/-- The program with these functions, read from all the tokens of a source of that length. -/
def ProgramDecl.ofFunctions (length : Nat) (ls : List Lexeme) (functions : List FuncDecl) : ProgramDecl :=
  ⟨functions, if ls.isEmpty then ⟨length, length⟩ else Lexeme.extent ls⟩

end Stencil
