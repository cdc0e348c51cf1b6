import Stencil.Body.Eval
import Stencil.Func.Structure
import Stencil.Graph
import Stencil.Grid

/-! The meaning of a function: grids for its outputs from grids for its buffers. -/

set_option autoImplicit false

namespace Stencil

structure Evaluation (α : Type) where
  outputs : List (String × Grid α)
  temps : List (TempId × Grid α)
  effects : Nat

def putEntry {κ β : Type} [DecidableEq κ] (entries : List (κ × β)) (key : κ) (value : β) :
    List (κ × β) :=
  entries.filter (fun e => e.1 ≠ key) ++ [(key, value)]

namespace Evaluation

variable {α : Type}

abbrev Inputs (α : Type) := String → Option (Grid α)

structure State (α : Type) where
  temps : List (TempId × Grid α)
  effects : Nat

def reader (f : Func) (inputs : Inputs α) (temps : List (TempId × Grid α)) (r : Region) :
    Body.Reader α :=
  fun slot point =>
    let outside (name : String) : Except EvalError α := .error (.outOfBounds r.name name point)
    match r.operands[slot]? with
    | none => outside ""
    | some o =>
      match o with
      | .temp t =>
        match (temps.lookup t).bind (·.get? point) with
        | some v => .ok v
        | none => outside (f.operandName o)
      | .buffer b =>
        let name := ((f.buffer? b).map (·.name)).getD ""
        match inputs name with
        | none => .error (.missingInput name)
        | some g =>
          match g.get? point with
          | some v => .ok v
          | none => outside (f.operandName o)

/-- Stores the values of one run at `base`, of `k` replicas along `axis`, into the result grids. -/
def store (axis k : Nat) (base : Point) (values : List α) (grids : List (Grid α)) :
    Except EvalError (List (Grid α)) :=
  (grids.mapIdx fun j g => (j, g)).mapM fun (j, g) =>
    (List.range k).foldlM (fun g r => do
      let v ← Body.need values[j * k + r]?
      return g.set (base.modify axis (· + (r : Int))) v) g

def runBody (A : Arithmetic α) (read : Body.Reader α) (b : Body) (axis k : Nat)
    (points : List Point) (grids : List (Grid α)) : Except EvalError (List (Grid α)) :=
  points.foldlM (fun grids p => do
    let values ← b.eval A read p
    store axis k p values grids) grids

/-- Computes the results of a region over its shape; a dead region computes nothing. -/
def runRegion (A : Arithmetic α) (f : Func) (inputs : Inputs α) (s : State α) (id : RegionId) :
    Except EvalError (State α) :=
  match f.region? id with
  | none => .ok s
  | some r =>
    match r.shape with
    | .unknown => .ok s
    | .known domain => do
      let plan := r.iterationPlan domain
      let read := reader f inputs s.temps r
      let blank := r.results.map fun _ => Grid.fill domain (A.ofScalar Scalar.zero)
      let mainPoints := (plan.main.map fun b => b.pointsWithStep plan.axis plan.step).getD []
      let grids ← runBody A read r.body plan.axis r.body.ret.factor mainPoints blank
      let mainEffects := r.body.effects * mainPoints.length
      let (grids, tailEffects) ←
        match r.epilogue, plan.tail with
        | some e, some tail => do
          let points := tail.points
          let grids ← runBody A read e 0 1 points grids
          pure (grids, e.effects * points.length)
        | _, _ => pure (grids, 0)
      let temps := (r.results.zip grids).foldl (fun ts t => putEntry ts t.1 t.2) s.temps
      return ⟨temps, s.effects + mainEffects + tailEffects⟩

/-- The grid of an output mark, or the first point at which it has no value. -/
def outputGrid (f : Func) (temps : List (TempId × Grid α)) (t : Temporary) (o : OutputMark) :
    Except EvalError (Grid α) := do
  let values ← o.domain.points.mapM fun p =>
    match (temps.lookup o.temp).bind (·.get? p) with
    | some v => .ok v
    | none =>
      .error (.outOfBounds (((f.region? t.producer).map (·.name)).getD "") ("%" ++ t.name) p)
  return Grid.ofValues o.domain values

def collectOutputs (f : Func) (temps : List (TempId × Grid α)) :
    Except EvalError (List (String × Grid α)) :=
  f.outputs.foldlM (fun outputs o =>
    match f.temp? o.temp with
    | none => .ok outputs
    | some t => do
      let g ← outputGrid f temps t o
      return putEntry outputs t.name g) []

def run (A : Arithmetic α) (f : Func) (inputs : Inputs α) : Except EvalError (Evaluation α) :=
  if f.fresh then
    match f.order with
    | .error _ => .error .cyclic
    | .ok order => do
      let s ← order.foldlM (runRegion A f inputs) ⟨[], 0⟩
      let outputs ← collectOutputs f s.temps
      return ⟨outputs, s.temps, s.effects⟩
  else .error .staleShapes

end Evaluation

end Stencil
