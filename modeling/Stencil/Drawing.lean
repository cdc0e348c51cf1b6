import Stencil.Graph
import Stencil.Text.Quoted

/-! Drawings of programs as graphs in the DOT language: buffers, regions and outputs are nodes, and
an edge says at which offsets an operand is read. -/

set_option autoImplicit false

namespace Stencil

def insertText (s : String) : List String → List String
  | [] => [s]
  | t :: rest =>
    if s < t then s :: t :: rest else if s = t then t :: rest else t :: insertText s rest

namespace Drawing

def plainName (s : String) : String :=
  s.map fun c => if c.isAlphanum || c = '_' then c else '_'

def line (indent : Nat) (s : String) : String := String.ofList (List.replicate indent ' ') ++ s ++ "\n"

def regionNode (func : String) (id : RegionId) : String := func ++ "_a" ++ natText id

def bufferNode (func : String) (id : BufferId) : String := func ++ "_b" ++ natText id

def outputNode (func : String) (i : Nat) : String := func ++ "_o" ++ natText i

def node (name shape fill label : String) : String :=
  line 8 (name ++ " [shape=" ++ shape ++ ", style=filled, fillcolor=" ++ fill ++ ", label=\"" ++ label ++
    "\"];")

def bufferLine (func : String) (i : Nat) (b : Buffer) : String :=
  let domain := (b.domain.map Box.text).getD "unbounded"
  node (bufferNode func i) "cylinder" "lightsalmon"
    ("@" ++ b.name ++ "\\n" ++ domain ++ "\\nreads " ++ b.required.text)

def regionLabel (r : Region) : String :=
  r.name ++ "\\n" ++ r.shape.text ++
    match r.unroll with
    | some u =>
      "\\nunroll " ++ natText u.axis ++ " by " ++ natText u.factor ++
        (if r.epilogue.isSome then " + epilogue" else "")
    | none => ""

def regionLine (func : String) (id : RegionId) (r : Region) : String :=
  node (regionNode func id) "box" (if r.shape.isKnown then "lightblue" else "gray90") (regionLabel r)

def outputLine (f : Func) (func : String) (i : Nat) (o : OutputMark) : String :=
  let name := ((f.temp? o.temp).map (·.name)).getD "?"
  node (outputNode func i) "doublecircle" "lightgreen" ("%" ++ name ++ "\\n" ++ o.domain.text)

/-- The edges of a cycle, the closing one included. -/
def cycleEdges : List RegionId → List (RegionId × RegionId)
  | [] => []
  | r :: rest => (r :: rest).zip (rest ++ [r])

/-- The different offsets at which a region reads a slot, in the order of their texts. -/
def slotOffsets (r : Region) (slot : Nat) : List String :=
  let accesses := r.bodies.flatMap Body.accesses
  ((accesses.filter (·.slot = slot)).map fun a => Offset.text a.offset).foldr insertText []

def edge (source target label style : String) : String :=
  line 8 (source ++ " -> " ++ target ++ " [label=\"" ++ Text.trimRight label ++ "\"" ++ style ++ "];")

def operandLine (f : Func) (func : String) (red : List (RegionId × RegionId)) (id : RegionId)
    (r : Region) (slot : Nat) (o : Operand) : String :=
  let label := f.operandName o ++ " " ++ joinWith " " (slotOffsets r slot)
  match o with
  | .buffer b => edge (bufferNode func b) (regionNode func id) label ""
  | .temp t =>
    match f.temp? t with
    | none => ""
    | some x =>
      edge (regionNode func x.producer) (regionNode func id) label
        (if red.contains (x.producer, id) then ", style=bold, color=red" else "")

def outputEdge (f : Func) (func : String) (i : Nat) (o : OutputMark) : String :=
  match f.temp? o.temp with
  | none => ""
  | some t => line 8 (regionNode func t.producer ++ " -> " ++ outputNode func i ++ ";")

def cluster (f : Func) : String :=
  let func := plainName f.name
  let red := (f.findCycle?.map cycleEdges).getD []
  line 4 ("subgraph cluster_" ++ func ++ " \x7b") ++
    line 8 ("label=\"func: " ++ f.name ++ " (rank " ++ natText f.rank ++ ")\";") ++
    line 8 "style=rounded;" ++ line 8 "color=gray50;" ++
    String.join (f.buffers.mapIdx (bufferLine func)) ++
    String.join (f.liveRegions.map fun r => regionLine func r.1 r.2) ++
    String.join (f.outputs.mapIdx (outputLine f func)) ++ "\n" ++
    String.join (f.liveRegions.map fun r =>
      String.join (r.2.operands.mapIdx (operandLine f func red r.1 r.2))) ++
    String.join (f.outputs.mapIdx (outputEdge f func)) ++ line 4 "\x7d"

end Drawing

def Program.drawing (p : Program) : String :=
  "digraph stencil \x7b\n" ++ Drawing.line 4 "rankdir=LR;" ++
    Drawing.line 4 "node [fontname=\"Helvetica\", fontsize=10];" ++
    Drawing.line 4 "edge [fontname=\"Helvetica\", fontsize=9];" ++
    String.join (p.functions.map fun f => "\n" ++ Drawing.cluster f) ++ "\x7d\n"

end Stencil
