import Stencil.Body.Splice
import Stencil.Func.Structure
import Stencil.Graph

/-! Inlining: a region whose results are used once is spliced into the region that uses them. -/

set_option autoImplicit false

namespace Stencil

def Func.ensureFresh (f : Func) (pass : String) : Except Failure Unit :=
  if f.fresh then .ok () else .error (.staleShapes pass)

namespace Inlining

/-- A splice to be made: the access that defines `value` in `consumer` is the only use of
`producer`, of which it reads the result `resultIndex`. -/
structure Candidate where
  producer : RegionId
  resultIndex : Nat
  consumer : RegionId
  value : ValueId
  inEpilogue : Bool
  deriving DecidableEq, Repr

structure Splice where
  producer : String
  consumer : String
  deriving DecidableEq, Repr

def resultUses (f : Func) (r : Region) : List (Nat × Use) :=
  (r.results.mapIdx fun i t => (f.uses t).map fun u => (i, u)).flatten

/-- A region that may be moved: needed, free of effects, and not unrolled. -/
def movable (r : Region) : Bool :=
  r.shape.isKnown && !r.hasEffect && r.unroll.isNone && r.epilogue.isNone

/-- The splice of a region into its only user, if it may be made. -/
def candidate? (f : Func) (id : RegionId) : Option Candidate :=
  match f.region? id with
  | none => none
  | some r =>
    if movable r then
      match resultUses f r with
      | [(i, .access consumer value inEpilogue)] =>
        if consumer ≠ id && (f.region? consumer).any fun c => c.shape.isKnown then
          some ⟨id, i, consumer, value, inEpilogue⟩
        else none
      | _ => none
    else none

/-- Adds operands that are not there yet; also the slot of each of the given operands. -/
def mergeOperands (operands : List Operand) (more : List Operand) : List Operand × List Nat :=
  more.foldl (fun (ops, slots) o =>
    match ops.idxOf? o with
    | some slot => (ops, slots ++ [slot])
    | none => (ops ++ [o], slots ++ [ops.length])) (operands, [])

def removeSlot (r : Region) (slot : Nat) : Region :=
  { r with
    operands := r.operands.eraseIdx slot
    body := r.body.dropSlot slot
    epilogue := r.epilogue.map (Body.dropSlot · slot) }

def slotsNaming (temps : List TempId) (operands : List Operand) : List Nat :=
  (operands.mapIdx fun i o => (i, o)).filterMap fun o =>
    match o.2 with
    | .temp t => if temps.contains t then some o.1 else none
    | .buffer _ => none

def mergeRegion (c : Candidate) (producer consumer : Region) : Region :=
  let (operands, slots) := mergeOperands consumer.operands producer.operands
  let result := producer.body.ret.values.getD c.resultIndex 0
  let splice (b : Body) := b.splice c.value producer.body result slots
  let merged :=
    { consumer with
      operands := operands
      body := if c.inEpilogue then consumer.body else splice consumer.body
      epilogue := if c.inEpilogue then consumer.epilogue.map splice else consumer.epilogue }
  (slotsNaming producer.results operands).reverse.foldl removeSlot merged

/-- Makes a splice: the consumer takes the producer in, and the producer is removed. -/
def applySplice (f : Func) (c : Candidate) : Func :=
  match f.region? c.producer, f.region? c.consumer with
  | some producer, some _ =>
    (f.modifyRegion c.consumer (mergeRegion c producer)).removeRegion c.producer
  | _, _ => f

def regionName (f : Func) (id : RegionId) : String := ((f.region? id).map (·.name)).getD ""

def next? (f : Func) : Except Failure (Option Candidate) :=
  f.order.map fun order => order.findSome? (candidate? f)

/-- Splices until there is no candidate. Each splice removes a region, so their number bounds the
number of rounds. -/
def settle : Nat → Func → List Splice → Func × Except Failure (List Splice)
  | 0, f, made => (f, .ok made)
  | fuel + 1, f, made =>
    match next? f with
    | .error e => (f, .error e)
    | .ok none => (f, .ok made)
    | .ok (some c) =>
      settle fuel (applySplice f c) (made ++ [⟨regionName f c.producer, regionName f c.consumer⟩])

/-- Inlines all that can be. A function that changes loses its stamp. -/
def run (f : Func) : Func × Except Failure (List Splice) :=
  match f.ensureFresh "inlining" with
  | .error e => (f, .error e)
  | .ok _ =>
    match settle (f.liveRegions.length + 1) f [] with
    | (g, .error e) => (g, .error e)
    | (g, .ok made) => (if made.isEmpty then g else g.invalidate, .ok made)

end Inlining

end Stencil
