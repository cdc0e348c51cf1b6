import Stencil.Func.Basic
import Stencil.Scalar.Layout

/-! The text of programs. Annotations are written where they are known, so that a program can be
read back with them. -/

set_option autoImplicit false

namespace Stencil

def valueText (v : ValueId) : String := "%" ++ natText v

namespace Func

/-- The operand in a slot of a region, or a mark that there is none. -/
def slotName (f : Func) (r : Region) (slot : Nat) : String :=
  match r.operands[slot]? with
  | some o => f.operandName o
  | none => "<slot " ++ natText slot ++ ">"

def opText (f : Func) (r : Region) : Op → String
  | .access slot o => "access " ++ f.slotName r slot ++ " " ++ Offset.text o
  | .index dim o => "index " ++ natText dim ++ " " ++ Offset.text o
  | .constant c => "const " ++ c.text
  | .unary op a => op.mnemonic ++ " " ++ valueText a
  | .binary op l rhs => op.mnemonic ++ " " ++ valueText l ++ ", " ++ valueText rhs
  | .call callee as isPure =>
    "call " ++ (if isPure then "" else "impure ") ++ callee ++ "(" ++
      joinWith ", " (as.map valueText) ++ ")"

def returnText (r : Return) : String :=
  "return" ++ (if r.values.isEmpty then "" else " " ++ joinWith ", " (r.values.map valueText)) ++
    match r.unroll with
    | some u => " unroll " ++ natText u.axis ++ " by " ++ natText u.factor
    | none => ""

def bodyText (f : Func) (r : Region) (b : Body) : String :=
  String.join (b.ops.mapIdx fun i op => "    " ++ valueText i ++ " = " ++ f.opText r op ++ "\n") ++
    "    " ++ returnText b.ret ++ "\n"

def tempName (f : Func) (t : TempId) : String :=
  match f.temp? t with
  | some x => "%" ++ x.name
  | none => "%?"

/-- A box behind a blank and, perhaps, a word. -/
def shapeSuffix (word : String) : Shape → String
  | .unknown => ""
  | .known b => word ++ " " ++ b.text

def resultShape (f : Func) (r : Region) : Shape :=
  (r.results.filterMap f.temp?).foldl (fun s t => s.join t.shape) .unknown

/-- The results, name and operands of a region, and the types of its results. The region's own box
is written when the results do not give it away. -/
def headText (f : Func) (r : Region) : String :=
  "  " ++ joinWith ", " (r.results.map f.tempName) ++ " = apply " ++ r.name ++ "(" ++
    joinWith ", " (r.operands.map f.operandName) ++ ") -> " ++
    joinWith ", " ((r.results.filterMap f.temp?).map fun t => t.elem.name ++ shapeSuffix "" t.shape) ++
    (if f.resultShape r = r.shape then "" else shapeSuffix " over" r.shape)

def regionText (f : Func) (r : Region) : String :=
  f.headText r ++ " \x7b\n" ++ f.bodyText r r.body ++
    (match r.epilogue with
      | some e => "  \x7d epilogue \x7b\n" ++ f.bodyText r e
      | none => "") ++ "  \x7d\n"

def bufferText (b : Buffer) : String :=
  "  buffer @" ++ b.name ++ " : " ++ b.elem.name ++ shapeSuffix " domain" (.ofOption b.domain) ++
    shapeSuffix " required" b.required ++ "\n"

def outputText (f : Func) (o : OutputMark) : String :=
  "  output " ++ f.tempName o.temp ++ " " ++ o.domain.text ++ "\n"

def text (f : Func) : String :=
  "func " ++ f.name ++ " rank " ++ natText f.rank ++ " \x7b\n" ++
    String.join (f.buffers.map bufferText) ++
    String.join (f.liveRegions.map fun r => f.regionText r.2) ++
    String.join (f.outputs.map f.outputText) ++ "\x7d\n"

end Func

def Program.text (p : Program) : String := joinWith "\n" (p.functions.map Func.text)

end Stencil
