import Stencil.Json.Program
import Stencil.Pipeline

/-! Options as JSON. What is not given has its default. -/

set_option autoImplicit false

namespace Stencil

def Pass.toJson (p : Pass) : Json := .ofString p.name

def Pass.ofJson? : Json → Option Pass := alternative? name all

namespace Unrolling

def Remainder.toJson (r : Remainder) : Json := .ofString r.name

def Remainder.ofJson? : Json → Option Remainder := alternative? name all

namespace Options

def toJson (o : Options) : Json :=
  .record
    [("axis", .ofNat o.axis), ("factor", .ofNat o.factor), ("remainder", o.remainder.toJson),
     ("regions", .ofList .ofString o.regions)]

def ofJson? (j : Json) : Option Options :=
  let d : Options := {}
  match j.members? ⟨true, true⟩ ["axis", "factor", "remainder", "regions"] with
  | some [axis, factor, remainder, regions] => do
    let axis ← Json.default? d.axis Json.toSize? axis
    let factor ← Json.default? d.factor Json.toWord? factor
    let remainder ← Json.default? d.remainder Remainder.ofJson? remainder
    let regions ← Json.default? d.regions (Json.toList? Json.toString?) regions
    some ⟨axis, factor, remainder, regions⟩
  | _ => none

end Options

end Unrolling

namespace Pipeline.Options

def toJson (o : Options) : Json :=
  .record
    [("passes", .ofList Pass.toJson o.passes), ("unroll", o.unroll.toJson),
     ("refresh_shapes_at_end", .bool o.refreshAtEnd)]

/-- Here a field of another name is refused. -/
def ofJson? (j : Json) : Option Options :=
  let d : Options := {}
  match j.members? ⟨false, true⟩ ["passes", "unroll", "refresh_shapes_at_end"] with
  | some [passes, unroll, refresh] => do
    let passes ← Json.default? d.passes (Json.toList? Pass.ofJson?) passes
    let unroll ← Json.default? d.unroll Unrolling.Options.ofJson? unroll
    let refresh ← Json.default? d.refreshAtEnd Json.toBool? refresh
    some ⟨passes, unroll, refresh⟩
  | _ => none

def readJson? (text : String) : Option Options := (Json.read text).bind ofJson?

end Pipeline.Options

end Stencil
