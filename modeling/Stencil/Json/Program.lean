import Stencil.Func.Basic
import Stencil.Json.Decode
import Stencil.Json.Reader
import Stencil.Json.Writer

/-! Programs as JSON. The stamp of a function is not part of its JSON. -/

set_option autoImplicit false

namespace Stencil

namespace Offset

def toJson (o : Offset) : Json := .ofList .ofInt o

def ofJson? (j : Json) : Option Offset := j.toList? Json.toInt?

end Offset

namespace Box

def toJson (b : Box) : Json := .record [("lb", .ofList .ofInt b.lb), ("ub", .ofList .ofInt b.ub)]

def ofJson? (j : Json) : Option Box :=
  match j.members? .plain ["lb", "ub"] with
  | some [lb, ub] => do
    let lb ← Json.required? (Json.toList? Json.toInt?) lb
    let ub ← Json.required? (Json.toList? Json.toInt?) ub
    some ⟨lb, ub⟩
  | _ => none

end Box

namespace Shape

def toJson : Shape → Json
  | unknown => .ofString "Unknown"
  | known b => .tagged "Known" b.toJson

def ofJson? (j : Json) : Option Shape :=
  match j.variant? with
  | some ("Known", some b) => (Box.ofJson? b).map known
  | _ => if j.plainVariant? = some "Unknown" then some unknown else none

end Shape

def alternative? {α : Type} (name : α → String) (all : List α) (j : Json) : Option α :=
  match j.plainVariant? with
  | some s => all.find? (name · = s)
  | none => none

namespace ElemType

def toJson (e : ElemType) : Json := .ofString e.tag

def ofJson? : Json → Option ElemType := alternative? tag all

end ElemType

def UnaryOp.ofJson? : Json → Option UnaryOp := alternative? tag all

def BinaryOp.ofJson? : Json → Option BinaryOp := alternative? tag all

namespace Operand

def toJson : Operand → Json
  | temp t => .tagged "Temp" (.ofNat t)
  | buffer b => .tagged "Buffer" (.ofNat b)

def ofJson? (j : Json) : Option Operand :=
  match j.variant? with
  | some ("Temp", some id) => id.toWord?.map temp
  | some ("Buffer", some id) => id.toWord?.map buffer
  | _ => none

end Operand

namespace Op

def toJson : Op → Json
  | access slot o => .tagged "Access" (.record [("operand", .ofNat slot), ("offset", Offset.toJson o)])
  | index dim o => .tagged "Index" (.record [("dim", .ofNat dim), ("offset", Offset.toJson o)])
  | constant c => .tagged "Constant" (.ofScalar c)
  | unary op a => .tagged "Unary" (.record [("op", .ofString op.tag), ("arg", .ofNat a)])
  | binary op l r =>
    .tagged "Binary" (.record [("op", .ofString op.tag), ("lhs", .ofNat l), ("rhs", .ofNat r)])
  | call callee as isPure =>
    .tagged "Call" (.record
      [("callee", .ofString callee), ("args", .ofList .ofNat as), ("pure", .bool isPure)])

/-- The content of an operation with a number, of the name given, and an offset. -/
def placedOfJson? (name : String) (make : Nat → Offset → Op) (j : Json) : Option Op :=
  match j.members? .plain [name, "offset"] with
  | some [n, o] => do
    let n ← Json.required? Json.toSize? n
    let o ← Json.required? Offset.ofJson? o
    some (make n o)
  | _ => none

def unaryOfJson? (j : Json) : Option Op :=
  match j.members? .plain ["op", "arg"] with
  | some [op, a] => do
    let op ← Json.required? UnaryOp.ofJson? op
    let a ← Json.required? Json.toWord? a
    some (unary op a)
  | _ => none

def binaryOfJson? (j : Json) : Option Op :=
  match j.members? .plain ["op", "lhs", "rhs"] with
  | some [op, l, r] => do
    let op ← Json.required? BinaryOp.ofJson? op
    let l ← Json.required? Json.toWord? l
    let r ← Json.required? Json.toWord? r
    some (binary op l r)
  | _ => none

def callOfJson? (j : Json) : Option Op :=
  match j.members? .plain ["callee", "args", "pure"] with
  | some [callee, as, isPure] => do
    let callee ← Json.required? Json.toString? callee
    let as ← Json.required? (Json.toList? Json.toWord?) as
    let isPure ← Json.required? Json.toBool? isPure
    some (call callee as isPure)
  | _ => none

def ofJson? (j : Json) : Option Op :=
  match j.variant? with
  | some ("Access", some x) => placedOfJson? "operand" access x
  | some ("Index", some x) => placedOfJson? "dim" index x
  | some ("Constant", some x) => x.toScalar?.map constant
  | some ("Unary", some x) => unaryOfJson? x
  | some ("Binary", some x) => binaryOfJson? x
  | some ("Call", some x) => callOfJson? x
  | _ => none

end Op

namespace Unroll

def toJson (u : Unroll) : Json := .record [("axis", .ofNat u.axis), ("factor", .ofNat u.factor)]

def ofJson? (j : Json) : Option Unroll :=
  match j.members? .plain ["axis", "factor"] with
  | some [axis, factor] => do
    let axis ← Json.required? Json.toSize? axis
    let factor ← Json.required? Json.toWord? factor
    some ⟨axis, factor⟩
  | _ => none

end Unroll

namespace Return

def toJson (r : Return) : Json :=
  .record [("values", .ofList .ofNat r.values), ("unroll", .ofOption Unroll.toJson r.unroll)]

def ofJson? (j : Json) : Option Return :=
  match j.members? .plain ["values", "unroll"] with
  | some [values, unroll] => do
    let values ← Json.required? (Json.toList? Json.toWord?) values
    let unroll ← Json.optional? Unroll.ofJson? unroll
    some ⟨values, unroll⟩
  | _ => none

end Return

namespace Body

def toJson (b : Body) : Json := .record [("ops", .ofList Op.toJson b.ops), ("ret", b.ret.toJson)]

def ofJson? (j : Json) : Option Body :=
  match j.members? .plain ["ops", "ret"] with
  | some [ops, ret] => do
    let ops ← Json.required? (Json.toList? Op.ofJson?) ops
    let ret ← Json.required? Return.ofJson? ret
    some ⟨ops, ret⟩
  | _ => none

end Body

namespace Region

def toJson (r : Region) : Json :=
  .record
    [("name", .ofString r.name), ("operands", .ofList Operand.toJson r.operands),
     ("body", r.body.toJson), ("epilogue", .ofOption Body.toJson r.epilogue),
     ("results", .ofList .ofNat r.results), ("shape", r.shape.toJson)]

def ofJson? (j : Json) : Option Region :=
  match j.members? .plain ["name", "operands", "body", "epilogue", "results", "shape"] with
  | some [name, operands, body, epilogue, results, shape] => do
    let name ← Json.required? Json.toString? name
    let operands ← Json.required? (Json.toList? Operand.ofJson?) operands
    let body ← Json.required? Body.ofJson? body
    let epilogue ← Json.optional? Body.ofJson? epilogue
    let results ← Json.required? (Json.toList? Json.toWord?) results
    let shape ← Json.required? Shape.ofJson? shape
    some ⟨name, operands, body, epilogue, results, shape⟩
  | _ => none

end Region

namespace Temporary

def toJson (t : Temporary) : Json :=
  .record
    [("name", .ofString t.name), ("elem", t.elem.toJson), ("producer", .ofNat t.producer),
     ("result_index", .ofNat t.resultIndex), ("shape", t.shape.toJson)]

def ofJson? (j : Json) : Option Temporary :=
  match j.members? .plain ["name", "elem", "producer", "result_index", "shape"] with
  | some [name, elem, producer, index, shape] => do
    let name ← Json.required? Json.toString? name
    let elem ← Json.required? ElemType.ofJson? elem
    let producer ← Json.required? Json.toWord? producer
    let index ← Json.required? Json.toSize? index
    let shape ← Json.required? Shape.ofJson? shape
    some ⟨name, elem, producer, index, shape⟩
  | _ => none

end Temporary

namespace Buffer

def toJson (b : Buffer) : Json :=
  .record
    [("name", .ofString b.name), ("elem", b.elem.toJson), ("domain", .ofOption Box.toJson b.domain),
     ("required", b.required.toJson)]

def ofJson? (j : Json) : Option Buffer :=
  match j.members? .plain ["name", "elem", "domain", "required"] with
  | some [name, elem, domain, required] => do
    let name ← Json.required? Json.toString? name
    let elem ← Json.required? ElemType.ofJson? elem
    let domain ← Json.optional? Box.ofJson? domain
    let required ← Json.required? Shape.ofJson? required
    some ⟨name, elem, domain, required⟩
  | _ => none

end Buffer

namespace OutputMark

def toJson (o : OutputMark) : Json := .record [("temp", .ofNat o.temp), ("domain", o.domain.toJson)]

def ofJson? (j : Json) : Option OutputMark :=
  match j.members? .plain ["temp", "domain"] with
  | some [temp, domain] => do
    let temp ← Json.required? Json.toWord? temp
    let domain ← Json.required? Box.ofJson? domain
    some ⟨temp, domain⟩
  | _ => none

end OutputMark

namespace Func

def toJson (f : Func) : Json :=
  .record
    [("name", .ofString f.name), ("rank", .ofNat f.rank), ("buffers", .ofList Buffer.toJson f.buffers),
     ("temps", .ofList (.ofOption Temporary.toJson) f.temps),
     ("regions", .ofList (.ofOption Region.toJson) f.regions),
     ("outputs", .ofList OutputMark.toJson f.outputs)]

def ofJson? (j : Json) : Option Func :=
  match j.members? .plain ["name", "rank", "buffers", "temps", "regions", "outputs"] with
  | some [name, rank, buffers, temps, regions, outputs] => do
    let name ← Json.required? Json.toString? name
    let rank ← Json.required? Json.toSize? rank
    let buffers ← Json.required? (Json.toList? Buffer.ofJson?) buffers
    let temps ← Json.required? (Json.toList? (Json.toOption? Temporary.ofJson?)) temps
    let regions ← Json.required? (Json.toList? (Json.toOption? Region.ofJson?)) regions
    let outputs ← Json.required? (Json.toList? OutputMark.ofJson?) outputs
    some ⟨name, rank, buffers, temps, regions, outputs, none⟩
  | _ => none

end Func

namespace Program

def toJson (p : Program) : Json := .record [("functions", .ofList Func.toJson p.functions)]

def ofJson? (j : Json) : Option Program :=
  match j.members? .plain ["functions"] with
  | some [functions] => do
    let functions ← Json.required? (Json.toList? Func.ofJson?) functions
    some ⟨functions⟩
  | _ => none

def jsonText (p : Program) : String := p.toJson.pretty

def readJson? (text : String) : Option Program := (Json.read text).bind ofJson?

end Program

end Stencil
