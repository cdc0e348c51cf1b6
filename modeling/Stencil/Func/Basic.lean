import Stencil.Region

/-! Functions and programs. Regions and temporaries are named by their place; one that is removed
leaves its place empty, so a name is never used twice. -/

set_option autoImplicit false

namespace Stencil

structure Temporary where
  name : String
  elem : ElemType
  producer : RegionId
  resultIndex : Nat
  /-- The box its readers demand. -/
  shape : Shape
  deriving DecidableEq, Repr

structure Buffer where
  name : String
  elem : ElemType
  /-- The declared domain; without one the buffer has a value everywhere. -/
  domain : Option Box
  /-- The box the function reads. -/
  required : Shape
  deriving DecidableEq, Repr

/-- A temporary that the caller wants over a box. -/
structure OutputMark where
  temp : TempId
  domain : Box
  deriving DecidableEq, Repr

/-- What shape annotations were computed for. -/
abbrev Stamp := List UInt32

structure Func where
  name : String
  rank : Nat
  buffers : List Buffer
  temps : List (Option Temporary)
  regions : List (Option Region)
  outputs : List OutputMark
  stamp : Option Stamp
  deriving DecidableEq, Repr

structure Program where
  functions : List Func
  deriving DecidableEq, Repr

/-- The occupied places of a list, with their numbers counted from `start`. -/
def livePlaces {β : Type} : Nat → List (Option β) → List (Nat × β)
  | _, [] => []
  | i, some x :: rest => (i, x) :: livePlaces (i + 1) rest
  | i, none :: rest => livePlaces (i + 1) rest

namespace Func

def new (name : String) (rank : Nat) : Func := ⟨name, rank, [], [], [], [], none⟩

def region? (f : Func) (id : RegionId) : Option Region := f.regions[id]?.join

def temp? (f : Func) (id : TempId) : Option Temporary := f.temps[id]?.join

def buffer? (f : Func) (id : BufferId) : Option Buffer := f.buffers[id]?

def liveRegions (f : Func) : List (RegionId × Region) := livePlaces 0 f.regions

def regionIds (f : Func) : List RegionId := f.liveRegions.map (·.1)

def liveTemps (f : Func) : List (TempId × Temporary) := livePlaces 0 f.temps

def modifyRegion (f : Func) (id : RegionId) (g : Region → Region) : Func :=
  { f with regions := f.regions.modify id (Option.map g) }

def modifyTemp (f : Func) (id : TempId) (g : Temporary → Temporary) : Func :=
  { f with temps := f.temps.modify id (Option.map g) }

def modifyBuffer (f : Func) (id : BufferId) (g : Buffer → Buffer) : Func :=
  { f with buffers := f.buffers.modify id g }

def addBuffer (f : Func) (name : String) (elem : ElemType) (domain : Option Box) : Func :=
  { f with buffers := f.buffers ++ [⟨name, elem, domain, .unknown⟩] }

def addRegion (f : Func) (name : String) (operands : List Operand) (body : Body)
    (results : List (String × ElemType)) : Func :=
  let id := f.regions.length
  let temps := results.mapIdx fun i r => some ⟨r.1, r.2, id, i, .unknown⟩
  let ids := (List.range results.length).map (f.temps.length + ·)
  { f with
    temps := f.temps ++ temps
    regions := f.regions ++ [some ⟨name, operands, body, none, ids, .unknown⟩] }

def markOutput (f : Func) (temp : TempId) (domain : Box) : Func :=
  { f with outputs := f.outputs ++ [⟨temp, domain⟩] }

/-- Empties the place of a region and the places of its results. -/
def removeRegion (f : Func) (id : RegionId) : Func :=
  match f.region? id with
  | none => f
  | some r =>
    { f with
      regions := f.regions.set id none
      temps := r.results.foldl (fun ts t => ts.set t none) f.temps }

def findRegion? (f : Func) (name : String) : Option RegionId :=
  (f.liveRegions.find? fun r => r.2.name = name).map (·.1)

def findTemp? (f : Func) (name : String) : Option TempId :=
  (f.liveTemps.find? fun t => t.2.name = name).map (·.1)

def operandName (f : Func) : Operand → String
  | .temp t =>
    match f.temp? t with
    | some x => "%" ++ x.name
    | none => "%<deleted " ++ natText t ++ ">"
  | .buffer b =>
    match f.buffer? b with
    | some x => "@" ++ x.name
    | none => "@<invalid " ++ natText b ++ ">"

def operandShape? (f : Func) : Operand → Option Shape
  | .temp t => (f.temp? t).map (·.shape)
  | .buffer b => (f.buffer? b).map (·.required)

def clearShapes (f : Func) : Func :=
  { f with
    temps := f.temps.map (Option.map fun t => { t with shape := .unknown })
    regions := f.regions.map (Option.map fun r => { r with shape := .unknown })
    buffers := f.buffers.map fun b => { b with required := .unknown }
    stamp := none }

def invalidate (f : Func) : Func := { f with stamp := none }

def writable (f : Func) : Bool :=
  f.buffers.all (fun b => (b.domain.all Box.writable) && b.required.writable) &&
    f.liveTemps.all (fun t => t.2.shape.writable) &&
    f.liveRegions.all (fun r => r.2.shape.writable) &&
    f.outputs.all (fun o => o.domain.writable)

end Func

namespace Program

def function? (p : Program) (name : String) : Option Func := p.functions.find? (·.name = name)

def modifyFunction (p : Program) (i : Nat) (g : Func → Func) : Program :=
  ⟨p.functions.modify i g⟩

def invalidate (p : Program) : Program := ⟨p.functions.map Func.invalidate⟩

def writable (p : Program) : Bool := p.functions.all Func.writable

end Program

end Stencil
