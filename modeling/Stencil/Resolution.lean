import Stencil.Decl.Parser
import Stencil.Func.Basic

/-! Looking names up: from declarations to programs. Every fault is reported, and a function with a
fault is left out. -/

set_option autoImplicit false

namespace Stencil

/-- A value with what was reported on the way to it. -/
structure Reported (α : Type) where
  value : α
  diagnostics : List Diagnostic
  deriving DecidableEq, Repr

namespace Reported

instance : Monad Reported where
  pure x := ⟨x, []⟩
  bind x f := ⟨(f x.value).value, x.diagnostics ++ (f x.value).diagnostics⟩

def report (code : Code) (span : Span) (message : String) : Reported Unit :=
  ⟨(), [{ code := some code, level := .error, span := some span, message := message }]⟩

def reportHint (code : Code) (span : Span) (message hint : String) : Reported Unit :=
  ⟨(), [{ code := some code, level := .error, span := some span, message := message,
          hint := some hint }]⟩

def reportIf (b : Bool) (code : Code) (span : Span) (message : String) : Reported Unit :=
  if b then report code span message else pure ()

def each {α β : Type} (f : α → Reported β) : List α → Reported (List β)
  | [] => pure []
  | x :: xs => do
    let y ← f x
    let ys ← each f xs
    pure (y :: ys)

end Reported

namespace Resolution

open Reported

def firstDefined (s : Span) : String :=
  "first defined at " ++ natText s.start ++ ".." ++ natText s.stop

def elemType (n : Name) : Reported ElemType :=
  match ElemType.ofName? n.text with
  | some e => pure e
  | none => do
    reportHint .undefinedName n.span ("unknown element type '" ++ n.text ++ "'") "expected f32 or f64"
    pure .f64

def offset (rank : Nat) (d : OffsetDecl) : Reported Offset := do
  reportIf (d.values.length ≠ rank) .rankMismatch d.span
    ("offset has " ++ natText d.values.length ++ " components, expected " ++ natText rank)
  if Offset.inRange d.values then pure d.values
  else
    reportHint .malformed d.span ("offset " ++ Offset.text d.values ++ " is out of range")
      ("offset components must lie within ±" ++ intText maxCoord)
    pure d.values

/-- An empty box becomes the canonical one. -/
def box (rank : Nat) (d : BoxDecl) : Reported (Option Box) :=
  match d.ranges with
  | none => pure (some (Box.empty rank))
  | some ranges =>
    let b := Box.ofRanges ranges
    if ranges.length ≠ rank then do
      report .rankMismatch d.span
        ("box has " ++ natText ranges.length ++ " dimensions, expected " ++ natText rank)
      pure none
    else if b.wellFormed rank then pure (some b.canonical)
    else do
      reportHint .malformed d.span ("box " ++ b.text ++ " has an out-of-range bound")
        ("box bounds must lie within ±" ++ intText maxCoord)
      pure none

def optionalBox (rank : Nat) : Option BoxDecl → Reported (Option Box)
  | none => pure none
  | some d => box rank d

def shape (rank : Nat) (d : Option BoxDecl) : Reported Shape := do
  pure (Shape.ofOption (← optionalBox rank d))

/-- The names in scope; the place of a name is its number. -/
structure Scope where
  rank : Nat
  buffers : List String
  temps : List String
  deriving DecidableEq, Repr

def value (defined : List String) (n : Name) : Reported ValueId :=
  match defined.idxOf? n.text with
  | some v => pure v
  | none => do
    report .undefinedName n.span ("undefined value '%" ++ n.text ++ "'")
    pure 0

def slot (subject : Subject) (operands : List String) (o : OperandDecl) : Reported Nat :=
  match operands.idxOf? o.text with
  | some s => pure s
  | none => do
    reportHint .notAnOperand o.name.span
      (subject.text ++ " accesses '" ++ o.text ++ "', which is not one of its operands")
      "add it to the apply's operand list"
    pure 0

def op (rank : Nat) (subject : Subject) (operands defined : List String) : OpDecl → Reported Op
  | .access o off => do
    let s ← slot subject operands o
    let off ← offset rank off
    pure (.access s off)
  | .index dim span off => do
    reportIf (dim < 0 || rank ≤ dim) .rankMismatch span
      ("index dimension " ++ intText dim ++ " out of range for rank " ++ natText rank)
    let off ← offset rank off
    pure (.index dim.toNat off)
  | .constant c => pure (.constant c.value)
  | .unary op a => do
    let a ← value defined a
    pure (.unary op a)
  | .binary op l r => do
    let l ← value defined l
    let r ← value defined r
    pure (.binary op l r)
  | .call callee args isPure => do
    let as ← each (value defined) args
    pure (.call callee.text as isPure)

/-- The operations of statements, and the names of all values defined once they are done. -/
def statements (rank : Nat) (subject : Subject) (operands : List String) :
    List String → List StatementDecl → Reported (List Op × List String)
  | defined, [] => pure ([], defined)
  | defined, s :: rest => do
    let o ← op rank subject operands defined s.op
    reportIf (defined.contains s.result.text) .duplicateDefinition s.result.span
      ("value '%" ++ s.result.text ++ "' defined twice in " ++ subject.text)
    let (os, all) ← statements rank subject operands (defined ++ [s.result.text]) rest
    pure (o :: os, all)

def maxFactor : Int := 4294967295

def unroll (rank : Nat) (span : Span) : Option (Int × Int) → Reported (Option Unroll)
  | none => pure none
  | some (axis, factor) =>
    if axis < 0 || rank ≤ axis then do
      report .rankMismatch span
        ("unroll axis " ++ intText axis ++ " out of range for rank " ++ natText rank)
      pure none
    else if factor < 1 || maxFactor < factor then do
      report .malformed span ("invalid unroll factor " ++ intText factor)
      pure none
    else pure (some ⟨axis.toNat, factor.toNat⟩)

def body (rank : Nat) (subject : Subject) (operands : List String) (results : Nat) (d : BodyDecl) :
    Reported Body := do
  let (ops, defined) ← statements rank subject operands [] d.statements
  let values ← each (value defined) d.ret.values
  let unroll ← unroll rank d.ret.span d.ret.unroll
  let ret : Return := ⟨values, unroll⟩
  let expected := results * ret.factor
  reportIf (values.length ≠ expected) .malformed d.ret.span
    (subject.text ++ " returns " ++ natText values.length ++ " values, expected " ++ natText expected ++
      " (" ++ natText results ++ " results x factor " ++ natText ret.factor ++ ")")
  pure ⟨ops, ret⟩

/-- Looks up the operands of a region; `seen` are those written before. An undefined operand is left
out. -/
def operands (scope : Scope) (region : String) :
    List String → List OperandDecl → Reported (List Operand)
  | _, [] => pure []
  | seen, o :: rest => do
    reportIf (seen.contains o.text) .duplicateDefinition o.name.span
      ("operand listed twice in apply '" ++ region ++ "'")
    let found :=
      match o with
      | .temp n => (scope.temps.idxOf? n.text).map Operand.temp
      | .buffer n => (scope.buffers.idxOf? n.text).map Operand.buffer
    let kind :=
      match o with
      | .temp _ => "temporary"
      | .buffer _ => "buffer"
    reportIf found.isNone .undefinedName o.name.span ("undefined " ++ kind ++ " '" ++ o.text ++ "'")
    let os ← operands scope region (seen ++ [o.text]) rest
    pure (found.toList ++ os)

def epilogue (rank : Nat) (subject : Subject) (written : List String) (results : Nat) (main : Body) :
    Option BodyDecl → Reported (Option Body)
  | none => pure none
  | some d => do
    reportIf main.ret.unroll.isNone .malformed d.span
      (subject.text ++ " has an epilogue but its body is not unrolled")
    let b ← body rank subject written results d
    reportIf b.ret.unroll.isSome .malformed d.ret.span "an epilogue body cannot be unrolled"
    pure (some b)

def region (scope : Scope) (id : RegionId) (d : RegionDecl) (results : List TempId) (shape : Shape) :
    Reported Region := do
  let subject := Subject.region id d.name.text
  let written := d.operands.map OperandDecl.text
  let ops ← operands scope d.name.text [] d.operands
  let main ← body scope.rank subject written d.results.length d.body
  let rest ← epilogue scope.rank subject written d.results.length main d.epilogue
  pure ⟨d.name.text, ops, main, rest, results, shape⟩

/-- What the items read so far declare: each region comes with its results. -/
structure Declared where
  buffers : List Buffer
  temps : List Temporary
  regions : List (RegionDecl × List TempId)
  deriving DecidableEq, Repr

namespace Declared

def empty : Declared := ⟨[], [], []⟩

def scope (d : Declared) (rank : Nat) : Scope :=
  ⟨rank, d.buffers.map (·.name), d.temps.map (·.name)⟩

def addBuffer (rank : Nat) (d : Declared) (b : BufferDecl) : Reported Declared := do
  if d.buffers.any (·.name = b.name.text) then
    report .duplicateDefinition b.name.span ("duplicate buffer '@" ++ b.name.text ++ "'")
    pure d
  else
    let elem ← elemType b.elem
    let domain ← optionalBox rank b.domain
    let required ← shape rank b.required
    pure { d with buffers := d.buffers ++ [⟨b.name.text, elem, domain, required⟩] }

/-- Declares one result. Its type may be missing, and then it is `f64`. -/
def addResult (rank : Nat) (producer : RegionId) (index : Nat) (type : Option TypeDecl)
    (temps : List Temporary) (n : Name) : Reported (List Temporary) := do
  if temps.any (·.name = n.text) then
    report .duplicateDefinition n.span ("duplicate temporary '%" ++ n.text ++ "'")
    pure temps
  else
    let elem ←
      match type with
      | some t => elemType t.elem
      | none => pure .f64
    let shape ← shape rank (type.bind (·.shape))
    pure (temps ++ [⟨n.text, elem, producer, index, shape⟩])

def addResults (rank : Nat) (producer : RegionId) :
    Nat → List TypeDecl → List Temporary → List Name → Reported (List Temporary)
  | _, _, temps, [] => pure temps
  | index, types, temps, n :: rest => do
    let temps ← addResult rank producer index types.head? temps n
    addResults rank producer (index + 1) types.tail temps rest

def addRegion (rank : Nat) (d : Declared) (r : RegionDecl) : Reported Declared := do
  match d.regions.reverse.find? (·.1.name.text = r.name.text) with
  | some earlier =>
    reportHint .duplicateDefinition r.name.span ("duplicate apply '" ++ r.name.text ++ "'")
      (firstDefined earlier.1.name.span)
  | none => pure ()
  reportIf (r.types.length ≠ r.results.length) .malformed r.span
    ("apply '" ++ r.name.text ++ "' declares " ++ natText r.results.length ++ " results but " ++
      natText r.types.length ++ " result types")
  let temps ← addResults rank d.regions.length 0 r.types d.temps r.results
  let ids := (List.range (temps.length - d.temps.length)).map (d.temps.length + ·)
  pure { d with temps := temps, regions := d.regions ++ [(r, ids)] }

def addItems (rank : Nat) : Declared → List ItemDecl → Reported Declared
  | d, [] => pure d
  | d, .buffer b :: rest => do
    let d ← addBuffer rank d b
    addItems rank d rest
  | d, .region r :: rest => do
    let d ← addRegion rank d r
    addItems rank d rest
  | d, .output _ :: rest => addItems rank d rest

def joinedShape (d : Declared) (results : List TempId) : Shape :=
  (results.filterMap (d.temps[·]?)).foldl (fun s t => s.join t.shape) .unknown

/-- Resolves regions, the first of which has the number `id`. A region without a box of its own has
that of its results. -/
def resolveRegions (d : Declared) (scope : Scope) :
    RegionId → List (RegionDecl × List TempId) → Reported (List Region)
  | _, [] => pure []
  | id, (r, results) :: rest => do
    let s ←
      match r.domain with
      | some b => shape scope.rank (some b)
      | none => pure (d.joinedShape results)
    let x ← region scope id r results s
    let xs ← resolveRegions d scope (id + 1) rest
    pure (x :: xs)

end Declared

def outputs (scope : Scope) : List ItemDecl → Reported (List OutputMark)
  | [] => pure []
  | .output o :: rest => do
    match scope.temps.idxOf? o.temp.text with
    | none =>
      report .undefinedName o.temp.span ("undefined temporary '%" ++ o.temp.text ++ "'")
      outputs scope rest
    | some t =>
      let b ← box scope.rank o.domain
      let os ← outputs scope rest
      pure ((b.map fun d => ⟨t, d⟩).toList ++ os)
  | _ :: rest => outputs scope rest

def function (d : FuncDecl) : Reported (Option Func) :=
  if d.rank < 1 then do
    report .rankMismatch d.rankSpan
      ("function '" ++ d.name.text ++ "' must have rank >= 1, found " ++ intText d.rank)
    pure none
  else do
    let rank := d.rank.toNat
    let declared ← Declared.addItems rank .empty d.items
    let scope := declared.scope rank
    let regions ← declared.resolveRegions scope 0 declared.regions
    let outs ← outputs scope d.items
    pure (some ⟨d.name.text, rank, declared.buffers, declared.temps.map some, regions.map some, outs,
      none⟩)

/-- Resolves functions; `seen` are the names of those before, the latest first. A function with a
fault is left out, and so is one whose name is taken. -/
def functions : List Name → List FuncDecl → Reported (List Func)
  | _, [] => pure []
  | seen, d :: rest => do
    match seen.find? (·.text = d.name.text) with
    | some earlier =>
      reportHint .duplicateDefinition d.name.span ("duplicate function '" ++ d.name.text ++ "'")
        (firstDefined earlier.span)
      functions (d.name :: seen) rest
    | none =>
      let r := function d
      let f ← r
      let fs ← functions (d.name :: seen) rest
      pure ((if r.diagnostics.isEmpty then f.toList else []) ++ fs)

end Resolution

namespace Program

def ofDecl (d : ProgramDecl) : Reported Program := do
  let fs ← Resolution.functions [] d.functions
  pure ⟨fs⟩

/-- The program that a source describes, or everything that is wrong with it. -/
def load (source : String) : Except (List Diagnostic) Program :=
  let parsed := Parsed.ofSource source
  let faults := parsed.errors.map SourceError.diagnostic
  match parsed.program with
  | none => .error faults
  | some d =>
    let r := ofDecl d
    let all := faults ++ r.diagnostics
    if hasErrors all then .error all else .ok r.value

end Program

end Stencil
