import Stencil.Digest.Sha256
import Stencil.Func.Basic
import Stencil.Scalar.Layout
import Stencil.Text.Quoted

/-! The structure of a function: everything but its shape annotations, spelled out as a text whose
digest stamps the annotations computed for it. -/

set_option autoImplicit false

namespace Stencil

def bracketed (items : List String) : String := "[" ++ joinWith ", " items ++ "]"

def recordText (name : String) (fields : List (String × String)) : String :=
  name ++ " \x7b " ++ joinWith ", " (fields.map fun f => f.1 ++ ": " ++ f.2) ++ " \x7d"

def wrapped (name value : String) : String := name ++ "(" ++ value ++ ")"

def optionStructure {β : Type} (f : β → String) : Option β → String
  | none => "None"
  | some x => wrapped "Some" (f x)

def boolStructure (b : Bool) : String := if b then "true" else "false"

def intsStructure (zs : List Int) : String := bracketed (zs.map intText)

def Offset.structureText (o : Offset) : String := wrapped "Offset" (intsStructure o)

def Box.structureText (b : Box) : String :=
  recordText "BoundingBox" [("lb", intsStructure b.lb), ("ub", intsStructure b.ub)]

def regionIdStructure (id : RegionId) : String := wrapped "ApplyId" (natText id)

def tempIdStructure (id : TempId) : String := wrapped "TempId" (natText id)

def bufferIdStructure (id : BufferId) : String := wrapped "BufferId" (natText id)

def valueIdStructure (id : ValueId) : String := wrapped "ValueId" (natText id)

def Operand.structureText : Operand → String
  | .temp t => wrapped "Temp" (tempIdStructure t)
  | .buffer b => wrapped "Buffer" (bufferIdStructure b)

def Op.structureText : Op → String
  | .access slot o => recordText "Access" [("operand", natText slot), ("offset", Offset.structureText o)]
  | .index dim o => recordText "Index" [("dim", natText dim), ("offset", Offset.structureText o)]
  | .constant c => wrapped "Constant" c.text
  | .unary op a => recordText "Unary" [("op", op.tag), ("arg", valueIdStructure a)]
  | .binary op l r =>
    recordText "Binary"
      [("op", op.tag), ("lhs", valueIdStructure l), ("rhs", valueIdStructure r)]
  | .call callee as isPure =>
    recordText "Call"
      [("callee", Text.quote callee), ("args", bracketed (as.map valueIdStructure)),
       ("pure", boolStructure isPure)]

def Unroll.structureText (u : Unroll) : String :=
  recordText "UnrollAttr" [("axis", natText u.axis), ("factor", natText u.factor)]

def Return.structureText (r : Return) : String :=
  recordText "ReturnOp"
    [("values", bracketed (r.values.map valueIdStructure)),
     ("unroll", optionStructure Unroll.structureText r.unroll)]

def Body.structureText (b : Body) : String :=
  recordText "Body" [("ops", bracketed (b.ops.map Op.structureText)), ("ret", b.ret.structureText)]

/-- Entries are divided by the character NUL, which no name of a loaded program has. -/
def nul : String := "\x00"

def fieldsText (fields : List String) : String := joinWith nul fields

def Buffer.structureText (b : Buffer) : String :=
  fieldsText [b.name, b.elem.tag, optionStructure Box.structureText b.domain]

def Temporary.structureText (t : Temporary) : String :=
  fieldsText [t.name, t.elem.tag, regionIdStructure t.producer, natText t.resultIndex]

def Region.structureText (r : Region) : String :=
  fieldsText
    [r.name, bracketed (r.operands.map Operand.structureText), r.body.structureText,
     optionStructure Body.structureText r.epilogue, bracketed (r.results.map tempIdStructure)]

def OutputMark.structureText (o : OutputMark) : String :=
  fieldsText [tempIdStructure o.temp, o.domain.structureText]

/-- A place with its number; an empty place is a dash. -/
def placeText {β : Type} (f : β → String) (i : Nat) : Option β → String
  | some x => natText i ++ nul ++ f x
  | none => natText i ++ nul ++ "-"

def entriesText (kind : String) (entries : List String) : String :=
  String.join (entries.map fun e => nul ++ kind ++ nul ++ e)

namespace Func

/-- Names, rank, operand lists, bodies, result types, declared domains and outputs. -/
def structureText (f : Func) : String :=
  f.name ++ nul ++ natText f.rank ++
    entriesText "buffer" (f.buffers.map Buffer.structureText) ++
    entriesText "temp" (f.temps.mapIdx (placeText Temporary.structureText)) ++
    entriesText "apply" (f.regions.mapIdx (placeText Region.structureText)) ++
    entriesText "output" (f.outputs.map OutputMark.structureText)

def fingerprint (f : Func) : Sha256.State := Sha256.digest f.structureText.toUTF8.toList

def recordStamp (f : Func) : Func := { f with stamp := some f.fingerprint.words }

def fresh (f : Func) : Bool := f.stamp.any (· = f.fingerprint.words)

end Func

end Stencil
