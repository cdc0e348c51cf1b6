import Stencil.Decl.Terminal

/-! The productions of declarations, written with combinators. A rule that does not apply takes
nothing, so what comes after it starts at the token where it started: a choice takes the first
alternative that applies, a repetition goes on for as long as its item applies, and neither is taken
back later. -/

set_option autoImplicit false

namespace Stencil

/-- A rule makes a value of tokens that it takes from the front and leaves the others, or does not
apply. -/
abbrev Rule (α : Type) := StateT (List Lexeme) Option α

namespace Rule

variable {α β : Type}

def select (c : Terminal α) : Rule α
  | [] => none
  | l :: ls => (c.meaning? l).map (·, ls)

def just (t : Token) : Rule Unit := select (.just t)

def choice (alternatives : List (Rule α)) : Rule α := fun ls => alternatives.findSome? (· ls)

def orNot (p : Rule α) : Rule (Option α) := fun ls =>
  match p ls with
  | some (x, rest) => some (some x, rest)
  | none => some (none, ls)

/-- Items one after another, and the tokens behind the last one. An item that takes no token is none. -/
def items (p : Rule α) (ls : List Lexeme) : List α × List Lexeme :=
  match p ls with
  | none => ([], ls)
  | some (x, rest) =>
    if rest.length < ls.length then
      let more := items p rest
      (x :: more.1, more.2)
    else ([], ls)
  termination_by ls.length

def repeated (p : Rule α) : Rule (List α) := fun ls => some (items p ls)

/-- One item or more with commas between them. A comma that no item follows is left. -/
def separated (p : Rule α) : Rule (List α) := do
  let x ← p
  let xs ← repeated do
    just (.symbol .comma)
    p
  pure (x :: xs)

def separatedOrNone (p : Rule α) : Rule (List α) := choice [separated p, pure []]

def delimited (first last : Symbol) (p : Rule α) : Rule α := do
  just (.symbol first)
  let x ← p
  just (.symbol last)
  pure x

def behind (t : Token) (p : Rule α) : Rule α := do
  just t
  p

def tryMap (f : α → Option β) (p : Rule α) : Rule β := fun ls => do
  let (x, rest) ← p ls
  let y ← f x
  pure (y, rest)

def located (p : Rule (Span → α)) : Rule α := fun ls =>
  (p ls).map fun r => (r.1 (Lexeme.extentUpTo ls r.2), r.2)

def ident : Rule Name := select .ident

def localName : Rule Name := select .localName

def globalName : Rule Name := select .globalName

def operand : Rule OperandDecl := choice [.temp <$> localName, .buffer <$> globalName]

def int : Rule Int := select .int

def number : Rule Literal := select .literal

def locatedInt : Rule (Int × Span) := located do
  let z ← int
  pure fun s => (z, s)

def values : Rule (List Name) := separatedOrNone localName

def range : Rule (Int × Int) := do
  let l ← int
  just (.symbol .colon)
  let u ← int
  pure (l, u)

def emptyBox : Rule BoxDecl := located do
  just (.keyword .empty)
  pure fun s => ⟨none, s⟩

def rangeBox : Rule BoxDecl := located do
  let ranges ← delimited .lbracket .rbracket (separated range)
  pure fun s => ⟨some ranges, s⟩

def box : Rule BoxDecl := choice [emptyBox, rangeBox]

def offset : Rule OffsetDecl := located do
  let values ← delimited .lbracket .rbracket (separatedOrNone int)
  pure fun s => ⟨values, s⟩

def access : Rule OpDecl := do
  just (.keyword .access)
  let o ← operand
  let off ← offset
  pure (.access o off)

def index : Rule OpDecl := do
  just (.keyword .index)
  let dim ← locatedInt
  let off ← offset
  pure (.index dim.1 dim.2 off)

def constant : Rule OpDecl := do
  just (.keyword .const)
  let v ← number
  pure (.constant v)

def call : Rule OpDecl := do
  just (.keyword .call)
  let impure ← orNot (just (.keyword .impure))
  let callee ← ident
  let args ← delimited .lparen .rparen values
  pure (.call callee args impure.isNone)

/-- A mnemonic and operands, as many as the operation takes. -/
def arithmetic : Rule OpDecl :=
  tryMap (fun x => (OpDecl.applied x.1 x.2).toOption) do
    let mnemonic ← ident
    let args ← separated localName
    pure (mnemonic, args)

def statement : Rule StatementDecl := located do
  let result ← localName
  just (.symbol .equals)
  let op ← choice [access, index, constant, call, arithmetic]
  pure fun s => ⟨result, op, s⟩

def unrolling : Rule (Int × Int) := do
  let axis ← int
  just (.keyword .byFactor)
  let factor ← int
  pure (axis, factor)

def returned : Rule ReturnDecl := located do
  just (.keyword .returns)
  let values ← values
  let unroll ← orNot (behind (.keyword .unroll) unrolling)
  pure fun s => ⟨values, unroll, s⟩

def body : Rule BodyDecl := located do
  just (.symbol .lbrace)
  let statements ← repeated statement
  let ret ← returned
  just (.symbol .rbrace)
  pure fun s => ⟨statements, ret, s⟩

def buffer : Rule BufferDecl := located do
  just (.keyword .buffer)
  let name ← globalName
  just (.symbol .colon)
  let elem ← ident
  let domain ← orNot (behind (.keyword .domain) box)
  let required ← orNot (behind (.keyword .required) box)
  pure fun s => ⟨name, elem, domain, required, s⟩

def resultType : Rule TypeDecl := do
  let elem ← ident
  let shape ← orNot box
  pure ⟨elem, shape⟩

def region : Rule RegionDecl := located do
  let results ← separated localName
  just (.symbol .equals)
  just (.keyword .apply)
  let name ← ident
  let operands ← delimited .lparen .rparen (separatedOrNone operand)
  just (.symbol .arrow)
  let types ← separated resultType
  let domain ← orNot (behind (.keyword .overBox) box)
  let main ← body
  let epilogue ← orNot (behind (.keyword .epilogue) body)
  pure fun s => ⟨results, name, operands, types, domain, main, epilogue, s⟩

def output : Rule OutputDecl := located do
  just (.keyword .output)
  let temp ← localName
  let domain ← box
  pure fun s => ⟨temp, domain, s⟩

def item : Rule ItemDecl := choice [.buffer <$> buffer, .region <$> region, .output <$> output]

def func : Rule FuncDecl := located do
  just (.keyword .func)
  let name ← ident
  just (.keyword .rank)
  let rank ← locatedInt
  let items ← delimited .lbrace .rbrace (repeated item)
  pure fun s => ⟨name, rank.1, rank.2, items, s⟩

end Rule

/-- The declarations that the productions make of all the tokens of a source of that length. -/
def ProgramDecl.ofProductions (length : Nat) (ls : List Lexeme) : Option ProgramDecl :=
  match Rule.repeated Rule.func ls with
  | some (fs, []) => some (.ofFunctions length ls fs)
  | _ => none

end Stencil
