import Stencil.Failure
import Stencil.Func.Basic

/-! The graph of regions: a region consumes what the producers of its operands compute. -/

set_option autoImplicit false

namespace Stencil

inductive Use where
  | access (region : RegionId) (value : ValueId) (inEpilogue : Bool)
  | output (index : Nat)
  deriving DecidableEq, Repr

def Use.isOutput : Use → Bool
  | output _ => true
  | access _ _ _ => false

def insertAscending (n : Nat) : List Nat → List Nat
  | [] => [n]
  | m :: rest =>
    if n < m then n :: m :: rest else if n = m then m :: rest else m :: insertAscending n rest

def ascending (ns : List Nat) : List Nat := ns.foldr insertAscending []

namespace Func

def bodyUses (t : TempId) (id : RegionId) (r : Region) (inEpilogue : Bool) (b : Body) : List Use :=
  (b.accesses.filter fun a => r.operands[a.slot]? = some (.temp t)).map fun a =>
    .access id a.value inEpilogue

def regionUses (t : TempId) (id : RegionId) (r : Region) : List Use :=
  bodyUses t id r false r.body ++ r.epilogue.toList.flatMap (bodyUses t id r true)

def outputUses (f : Func) (t : TempId) : List Use :=
  (f.outputs.mapIdx fun i o => (i, o)).filterMap fun o =>
    if o.2.temp = t then some (.output o.1) else none

/-- All uses of a temporary in program order, outputs last. -/
def uses (f : Func) (t : TempId) : List Use :=
  f.liveRegions.flatMap (fun r => regionUses t r.1 r.2) ++ f.outputUses t

def isOutput (f : Func) (t : TempId) : Bool := (f.uses t).any Use.isOutput

def producers (f : Func) (id : RegionId) : List RegionId :=
  match f.region? id with
  | none => []
  | some r =>
    ascending (r.operands.filterMap fun
      | .temp t => (f.temp? t).map (·.producer)
      | .buffer _ => none)

/-- The regions with an operand that `id` produces, ascending. -/
def consumers (f : Func) (id : RegionId) : List RegionId :=
  f.regionIds.filter fun r => (f.producers r).contains id

def enter (p : RegionId) (consumer : Option RegionId) :
    List (RegionId × List RegionId) → List (RegionId × List RegionId)
  | [] => [(p, consumer.toList)]
  | (q, ids) :: rest =>
    if p = q then (q, consumer.elim ids fun c => insertAscending c ids) :: rest
    else (q, ids) :: enter p consumer rest

/-- An entry for the region, and the region in the entries of its producers. -/
def link (f : Func) (entries : List (RegionId × List RegionId)) (id : RegionId) :
    List (RegionId × List RegionId) :=
  (f.producers id).foldl (fun entries p => enter p (some id) entries) (enter id none entries)

/-- The consumers of every region and of every producer. -/
def consumerMap (f : Func) : List (RegionId × List RegionId) := f.regionIds.foldl f.link []

/-- Walks forward from `node`: either a cycle through `path`, or all that is explored by then. -/
def searchCycle (f : Func) : Nat → List RegionId → List RegionId → RegionId →
    Except (List RegionId) (List RegionId)
  | 0, _, explored, _ => .ok explored
  | fuel + 1, path, explored, node => do
    let path := path ++ [node]
    let explored ← (f.consumers node).foldlM (fun explored next =>
      if path.contains next then .error (path.dropWhile (· ≠ next))
      else if explored.contains next then .ok explored
      else f.searchCycle fuel path explored next) explored
    return explored ++ [node]

/-- The first cycle that a walk from the lowest region on meets. A path has no region twice, so the
number of regions bounds its length. -/
def findCycle? (f : Func) : Option (List RegionId) :=
  let ids := f.regionIds
  let walk := ids.foldlM (fun explored id =>
    if explored.contains id then .ok explored
    else f.searchCycle (ids.length + 1) [] explored id) ([] : List RegionId)
  match walk with
  | .error cycle => some cycle
  | .ok _ => none

end Func

/-- Where the placing of regions stands: how many producers of each region are still to be placed,
the regions that wait for none, ascending, and those that are placed. -/
structure Placing where
  indegree : List (RegionId × Nat)
  ready : List RegionId
  placed : List RegionId

namespace Placing

/-- One producer less for a consumer, which is ready when that was the last. -/
def release (s : Placing) (c : RegionId) : Placing :=
  match s.indegree.lookup c with
  | none => s
  | some d =>
    { s with
      indegree := s.indegree.map fun e => if e.1 = c then (c, d - 1) else e
      ready := if d - 1 = 0 then insertAscending c s.ready else s.ready }

/-- Places the lowest ready region as long as there is one. -/
def run (consumers : List (RegionId × List RegionId)) : Nat → Placing → Placing
  | 0, s => s
  | fuel + 1, s =>
    match s.ready with
    | [] => s
    | id :: rest =>
      run consumers fuel
        (((consumers.lookup id).getD []).foldl release
          { s with ready := rest, placed := s.placed ++ [id] })

def stuck? (s : Placing) : Option RegionId := ((s.indegree.filter fun e => 0 < e.2).map (·.1)).min?

end Placing

namespace Func

/-- All regions that can be placed. Each is placed once, so the number of regions bounds the steps. -/
def placing (f : Func) : Placing :=
  let indegree := f.regionIds.map fun id => (id, (f.producers id).length)
  Placing.run f.consumerMap indegree.length
    ⟨indegree, ascending ((indegree.filter fun e => e.2 = 0).map (·.1)), []⟩

/-- What is reported of regions that cannot all be placed. -/
def stuckFailure (f : Func) (s : Placing) (cycle : List RegionId) : Failure :=
  .cyclic ((cycle.head?.or s.stuck?).getD 0) cycle
    (cycle.map fun r => ((f.region? r).map (·.name)).getD "")

/-- The regions with producers before consumers; of several ready ones the lowest comes first. -/
def order (f : Func) : Except Failure (List RegionId) :=
  let s := f.placing
  if s.placed.length = s.indegree.length then .ok s.placed
  else .error (f.stuckFailure s (f.findCycle?.getD []))

end Func

end Stencil
