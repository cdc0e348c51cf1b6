import Stencil.Func.Structure
import Stencil.Verification

/-! Shape inference: from the boxes demanded of the outputs back to the boxes that every region
computes and that every temporary and buffer must cover. -/

set_option autoImplicit false

namespace Stencil.Inference

inductive Target where
  | temp (id : TempId)
  | buffer (id : BufferId)
  | region (id : RegionId)
  deriving DecidableEq, Repr

structure Event where
  target : Target
  before : Shape
  after : Shape
  deriving DecidableEq, Repr

/-- The state of the propagation: the regions still to visit, oldest first, and what happened. -/
structure Progress where
  func : Func
  queue : List RegionId
  visits : Nat
  events : List Event
  deriving DecidableEq, Repr

namespace Progress

def enqueue (p : Progress) (id : RegionId) : Progress :=
  if p.queue.contains id then p else { p with queue := p.queue ++ [id] }

def record (p : Progress) (func : Func) (target : Target) (before after : Shape) : Progress :=
  { p with func := func, events := p.events ++ [⟨target, before, after⟩] }

def growTemp (p : Progress) (t : TempId) (b : Box) : Progress :=
  match p.func.temp? t with
  | none => p
  | some x =>
    let shape := x.shape.grow b
    if shape = x.shape then p
    else p.record (p.func.modifyTemp t fun y => { y with shape := shape }) (.temp t) x.shape shape

def growBuffer (p : Progress) (id : BufferId) (b : Box) : Progress :=
  match p.func.buffer? id with
  | none => p
  | some x =>
    let shape := x.required.grow b
    if shape = x.required then p
    else
      p.record (p.func.modifyBuffer id fun y => { y with required := shape })
        (.buffer id) x.required shape

def growRegion (p : Progress) (id : RegionId) (b : Box) : Progress :=
  match p.func.region? id with
  | none => p
  | some x =>
    let shape := x.shape.grow b
    if shape = x.shape then p
    else p.record (p.func.modifyRegion id fun y => { y with shape := shape }) (.region id) x.shape shape

/-- Demands a box of a temporary; when that is news, its producer has to be visited. -/
def demandTemp (p : Progress) (t : TempId) (b : Box) : Progress :=
  match p.func.temp? t with
  | none => p
  | some x => if x.shape.grow b = x.shape then p else (p.growTemp t b).enqueue x.producer

def demandOperand (p : Progress) (operands : List Operand) (fp : Footprint) : Progress :=
  match operands[fp.slot]? with
  | some (.temp t) => p.demandTemp t fp.read
  | some (.buffer b) => p.growBuffer b fp.read
  | none => p

end Progress

/-- What the readers of a region's results demand of it. -/
def demand (f : Func) (r : Region) : Shape :=
  (r.results.filterMap f.temp?).foldl (fun s t => s.join t.shape) .unknown

def seed (f : Func) (queue : List RegionId) : Progress :=
  f.outputs.foldl (fun p o => p.growTemp o.temp o.domain) ⟨f.clearShapes, queue, 0, []⟩

/-- The number of annotations times one more than the number of different offsets. -/
def stepBound (f : Func) : Nat :=
  let offsets := f.liveRegions.flatMap fun r => r.2.bodies.flatMap fun b => b.accesses.map (·.offset)
  (f.liveTemps.length + f.buffers.length + f.liveRegions.length) * (offsets.eraseDups.length + 1)

def deadDiagnostic (id : RegionId) (r : Region) : Diagnostic :=
  { code := some .deadRegion
    level := .warning
    subject := some (.region id r.name)
    message := "shape of apply '" ++ r.name ++ "' is unresolved; it is unreachable from any output"
    hint := some "the region is dead code and is excluded from inlining and unrolling" }

def deadRegions (f : Func) (order : List RegionId) : List (RegionId × Region) :=
  order.filterMap fun id =>
    match f.region? id with
    | some r => if r.shape.isKnown then none else some (id, r)
    | none => none

structure Report where
  certificate : Certificate
  visits : Nat
  growths : Nat
  stepBound : Nat
  dead : List RegionId
  diagnostics : List Diagnostic
  deriving DecidableEq, Repr

/-- The function after inference, every growth on the way, and the report. -/
structure Run where
  func : Func
  events : List Event
  outcome : Except Failure Report

section Primitives

variable {m : Type → Type} [Monad m] (P : Primitives m)

/-- Passes the demand on a region on to its operands. -/
def visitIn (p : Progress) (id : RegionId) : m Progress :=
  match p.func.region? id with
  | none => pure p
  | some r =>
    match demand p.func r with
    | .unknown => pure p
    | .known required => do
      let computed ← r.computedDomainIn P required
      let reads ← r.footprintsIn P computed
      return reads.foldl (fun p fp => p.demandOperand r.operands fp) (p.growRegion id computed)

/-- Visits queued regions until none is left. -/
def settleIn : Nat → Progress → m Progress
  | 0, p => pure p
  | fuel + 1, p =>
    match p.queue with
    | [] => pure p
    | id :: rest => do settleIn fuel (← visitIn P { p with queue := rest, visits := p.visits + 1 } id)

/-- The state when every demand has been passed on. Visiting the region at place `i` of the order
can queue only regions at earlier places, so `2 ^ i` counts more than all it can cause. -/
def propagateIn (f : Func) (order : List RegionId) : m Progress :=
  settleIn P (Nat.pow 2 order.length) (seed f order.reverse)

def boundsFailureIn (f : Func) (id : RegionId) (r : Region) (fp : Footprint) : m (Option Failure) :=
  match r.operands[fp.slot]? with
  | some (.buffer b) =>
    match f.buffer? b with
    | some x =>
      match x.domain with
      | some declared => do
        if ← P.contains declared fp.read then return none
        else return some (.outOfBounds id r.name b x.name fp.offset fp.read declared)
      | none => pure none
    | none => pure none
  | _ => pure none

/-- The first access, in the order of regions, that leaves a declared domain. -/
def firstOutOfBoundsIn (f : Func) (order : List RegionId) : m (Option Failure) :=
  order.findSomeM? fun id =>
    match f.region? id with
    | some r =>
      match r.shape with
      | .known domain => do (← r.footprintsIn P domain).findSomeM? (boundsFailureIn P f id r)
      | .unknown => pure none
    | none => pure none

def coversIn : Option Shape → Shape → m Bool
  | none, _ => pure false
  | some _, .unknown => pure true
  | some .unknown, .known _ => pure false
  | some (.known a), .known b => P.contains a b

def accessesSoundIn (f : Func) (r : Region) : m Bool :=
  match r.shape with
  | .unknown => pure true
  | .known domain => do
    (← r.footprintsIn P domain).allM fun fp =>
      coversIn P (r.operands[fp.slot]?.bind f.operandShape?) (.known fp.read)

def certificateIn (f : Func) : m Certificate := do
  let accesses ← f.liveRegions.allM fun r => accessesSoundIn P f r.2
  let outputs ← f.outputs.allM fun o => coversIn P ((f.temp? o.temp).map (·.shape)) (.known o.domain)
  let producers ← f.liveTemps.allM fun t =>
    if t.2.shape.isKnown then coversIn P ((f.region? t.2.producer).map (·.shape)) t.2.shape else pure true
  return ⟨[("S1_accesses_sound", accesses), ("S2_outputs_covered", outputs),
    ("S3_producers_cover", producers)]⟩

/-- Infers all shapes in the order of regions that is given. A function that is invalid or cyclic
stays as it is; one that reads out of bounds keeps its new annotations, without a stamp. -/
def runIn (order : m (Except Failure (List RegionId))) (f : Func) : m Run :=
  match f.verified with
  | .error e => pure ⟨f, [], .error e⟩
  | .ok _ => do
    match ← order with
    | .error e => return ⟨f, [], .error e⟩
    | .ok order =>
      let p ← propagateIn P f order
      match ← firstOutOfBoundsIn P p.func order with
      | some e => return ⟨p.func, p.events, .error e⟩
      | none =>
        let g := p.func.recordStamp
        let dead := deadRegions g order
        return ⟨g, p.events, .ok
          { certificate := ← certificateIn P g
            visits := p.visits
            growths := p.events.length
            stepBound := stepBound f
            dead := dead.map (·.1)
            diagnostics := dead.map fun r => deadDiagnostic r.1 r.2 }⟩

end Primitives

def visit (p : Progress) (id : RegionId) : Progress := visitIn (.total Id) p id

def settle (fuel : Nat) (p : Progress) : Progress := settleIn (.total Id) fuel p

def propagate (f : Func) (order : List RegionId) : Progress := propagateIn (.total Id) f order

def boundsFailure? (f : Func) (id : RegionId) (r : Region) (fp : Footprint) : Option Failure :=
  boundsFailureIn (.total Id) f id r fp

def firstOutOfBounds? (f : Func) (order : List RegionId) : Option Failure :=
  firstOutOfBoundsIn (.total Id) f order

def accessesSound (f : Func) (r : Region) : Bool := accessesSoundIn (.total Id) f r

def certificate (f : Func) : Certificate := certificateIn (.total Id) f

def run (f : Func) : Run := runIn (.total Id) f.order f

end Stencil.Inference
