import Stencil.Decl.Terminal
import Stencil.Token.Lexer

/-! Reading declarations from tokens. One token decides what comes next, so reading never goes
back, and it stops at the first token that cannot continue what has been read. -/

set_option autoImplicit false

namespace Stencil

/-- A reader takes tokens from the front. -/
abbrev Reading (α : Type) := StateT (List Lexeme) (Except Stuck) α

namespace Reading

def stuck {α : Type} : Reading α := fun ls => .error (.unexpected ls.head?)

def peek : Reading (Option Token) := fun ls => .ok (ls.head?.map (·.token), ls)

def select {α : Type} (c : Terminal α) : Reading α
  | [] => .error (.unexpected none)
  | l :: ls =>
    match c.meaning? l with
    | some x => .ok (x, ls)
    | none => .error (.unexpected (some l))

def expect (t : Token) : Reading Unit := select (.just t)

def keyword (k : Keyword) : Reading Unit := expect (.keyword k)

def symbol (s : Symbol) : Reading Unit := expect (.symbol s)

def ident : Reading Name := select .ident

def localName : Reading Name := select .localName

def globalName : Reading Name := select .globalName

def int : Reading Int := select .int

def literal : Reading Literal := select .literal

def operand : Reading OperandDecl := select .operand

def located {α : Type} (form : Reading (Span → α)) : Reading α := fun ls =>
  (form ls).map fun r => (r.1 (Lexeme.extentUpTo ls r.2), r.2)

def isLocal : Token → Bool
  | .localName _ => true
  | _ => false

def isOperand : Token → Bool
  | .localName _ => true
  | .globalName _ => true
  | _ => false

def isInt : Token → Bool
  | .int _ => true
  | _ => false

def isBoxStart (t : Token) : Bool := t = .keyword .empty || t = .symbol .lbracket

/-- Reads items for as long as the next token starts one, at most `fuel` of them. -/
def many {α : Type} (starts : Token → Bool) (item : Reading α) : Nat → Reading (List α)
  | 0 => stuck
  | fuel + 1 => do
    if (← peek).any starts then
      let x ← item
      let xs ← many starts item fuel
      pure (x :: xs)
    else pure []

def commaItems {α : Type} (item : Reading α) (fuel : Nat) : Reading (List α) :=
  many (· = .symbol .comma) (do symbol .comma; item) fuel

/-- The number of tokens that are left bounds every repetition, since each step takes one. -/
def bounded {α : Type} (reading : Nat → Reading α) : Reading α := fun ls => reading (ls.length + 1) ls

def separated {α : Type} (item : Reading α) : Reading (List α) := do
  let x ← item
  let xs ← bounded (commaItems item)
  pure (x :: xs)

def separatedOrNone {α : Type} (starts : Token → Bool) (item : Reading α) : Reading (List α) := do
  if (← peek).any starts then separated item else pure []

def behind {α : Type} (t : Token) (reading : Reading α) : Reading (Option α) := do
  if (← peek) = some t then
    expect t
    some <$> reading
  else pure none

/-- A form that is faulty as a whole: whatever fails in it, the fault is its first token. -/
def whole {α : Type} (reading : Reading α) : Reading α := fun ls =>
  match reading ls with
  | .ok r => .ok r
  | .error _ => .error (.unexpected ls.head?)

def between {α : Type} (first last : Symbol) (form : Reading α) : Reading α := do
  symbol first
  let x ← form
  symbol last
  pure x

def range : Reading (Int × Int) := do
  let l ← int
  symbol .colon
  let u ← int
  pure (l, u)

def box : Reading BoxDecl := located do
  if (← peek) = some (.keyword .empty) then
    keyword .empty
    pure fun s => ⟨none, s⟩
  else
    let ranges ← between .lbracket .rbracket (separated range)
    pure fun s => ⟨some ranges, s⟩

def boxOrNone : Reading (Option BoxDecl) := do
  if (← peek).any isBoxStart then some <$> box else pure none

def offset : Reading OffsetDecl := located do
  let values ← between .lbracket .rbracket (separatedOrNone isInt int)
  pure fun s => ⟨values, s⟩

def locatedInt : Reading (Int × Span) := located do
  let z ← int
  pure fun s => (z, s)

def access : Reading OpDecl := do
  keyword .access
  let o ← operand
  let off ← offset
  pure (.access o off)

def index : Reading OpDecl := do
  keyword .index
  let dim ← locatedInt
  let off ← offset
  pure (.index dim.1 dim.2 off)

def constant : Reading OpDecl := do
  keyword .const
  let v ← literal
  pure (.constant v)

def call : Reading OpDecl := do
  keyword .call
  let impure ← behind (.keyword .impure) (pure ())
  let callee ← ident
  let args ← between .lparen .rparen (separatedOrNone isLocal localName)
  pure (.call callee args impure.isNone)

/-- The operands that follow the first one of an operation. A comma belongs to them only if a value
comes after it. -/
def moreOperands : List Lexeme → List Name × List Lexeme
  | ⟨.symbol .comma, _⟩ :: ⟨.localName n, s⟩ :: ls =>
    let more := moreOperands ls
    (⟨n, s⟩ :: more.1, more.2)
  | ls => ([], ls)

def furtherOperands : Reading (List Name) := fun ls => .ok (moreOperands ls)

def arithmetic : Reading OpDecl := do
  let mnemonic ← ident
  let first ← localName
  let more ← furtherOperands
  OpDecl.applied mnemonic (first :: more)

def operationBy : Option Token → Reading OpDecl
  | some (.keyword .access) => whole access
  | some (.keyword .index) => whole index
  | some (.keyword .const) => whole constant
  | some (.keyword .call) => whole call
  | _ => arithmetic

def operation : Reading OpDecl := do operationBy (← peek)

def statement : Reading StatementDecl := located do
  let result ← localName
  symbol .equals
  let op ← operation
  pure fun s => ⟨result, op, s⟩

def unrolling : Reading (Int × Int) := do
  let axis ← int
  keyword .byFactor
  let factor ← int
  pure (axis, factor)

def returned : Reading ReturnDecl := located do
  keyword .returns
  let values ← separatedOrNone isLocal localName
  let unroll ← behind (.keyword .unroll) unrolling
  pure fun s => ⟨values, unroll, s⟩

def body : Reading BodyDecl := located do
  symbol .lbrace
  let statements ← bounded (many isLocal statement)
  let ret ← returned
  symbol .rbrace
  pure fun s => ⟨statements, ret, s⟩

def buffer : Reading BufferDecl := located do
  keyword .buffer
  let name ← globalName
  symbol .colon
  let elem ← ident
  let domain ← behind (.keyword .domain) box
  let required ← behind (.keyword .required) box
  pure fun s => ⟨name, elem, domain, required, s⟩

def resultType : Reading TypeDecl := do
  let elem ← ident
  let shape ← boxOrNone
  pure ⟨elem, shape⟩

def region : Reading RegionDecl := located do
  let results ← separated localName
  symbol .equals
  keyword .apply
  let name ← ident
  let operands ← between .lparen .rparen (separatedOrNone isOperand operand)
  symbol .arrow
  let types ← separated resultType
  let domain ← behind (.keyword .overBox) box
  let main ← body
  let epilogue ← behind (.keyword .epilogue) body
  pure fun s => ⟨results, name, operands, types, domain, main, epilogue, s⟩

def output : Reading OutputDecl := located do
  keyword .output
  let temp ← localName
  let domain ← box
  pure fun s => ⟨temp, domain, s⟩

def isItemStart (t : Token) : Bool :=
  t = .keyword .buffer || t = .keyword .output || isLocal t

def itemBy : Option Token → Reading ItemDecl
  | some (.keyword .buffer) => .buffer <$> buffer
  | some (.keyword .output) => .output <$> output
  | _ => .region <$> region

def item : Reading ItemDecl := do itemBy (← peek)

def func : Reading FuncDecl := located do
  keyword .func
  let name ← ident
  keyword .rank
  let rank ← locatedInt
  let items ← between .lbrace .rbrace (bounded (many isItemStart item))
  pure fun s => ⟨name, rank.1, rank.2, items, s⟩

def functions : Reading (List FuncDecl) := bounded (many (· = .keyword .func) func)

end Reading

/-- The declarations that all the tokens of a source of that length make up. -/
def ProgramDecl.ofTokens (length : Nat) (ls : List Lexeme) : Except Stuck ProgramDecl :=
  match Reading.functions ls with
  | .error e => .error e
  | .ok (_, l :: _) => .error (.unexpected (some l))
  | .ok (fs, []) => .ok (.ofFunctions length ls fs)

inductive SourceError where
  | lexical (e : LexError)
  | grammatical (length : Nat) (e : Stuck)
  deriving DecidableEq, Repr

namespace SourceError

def message : SourceError → String
  | lexical e => e.message
  | grammatical _ e => e.message

def span : SourceError → Span
  | lexical e => e.span
  | grammatical length e => e.span length

def isWrongToken : SourceError → Bool
  | lexical _ => false
  | grammatical _ e => e.isWrongToken

def diagnostic (e : SourceError) : Diagnostic :=
  { level := .error, message := e.message, span := some e.span }

end SourceError

/-- What reading a source gives: its faults, and its declarations if the tokens make any up.
Characters that start no token are faults, but are passed over. -/
structure Parsed where
  errors : List SourceError
  program : Option ProgramDecl
  deriving DecidableEq, Repr

def Parsed.ofSource (source : String) : Parsed :=
  let (tokens, errors) := Lexer.lex source
  let lexical := errors.map SourceError.lexical
  match ProgramDecl.ofTokens source.utf8ByteSize tokens with
  | .ok p => ⟨lexical, some p⟩
  | .error e => ⟨lexical ++ [.grammatical source.utf8ByteSize e], none⟩

end Stencil
