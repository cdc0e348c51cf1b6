import Stencil.Inference
import Stencil.Unrolling

/-! Passes over a function, and the plan that gives fresh shapes to every pass that needs them. -/

set_option autoImplicit false

namespace Stencil

inductive Pass where
  | shapeInference
  | inlining
  | unrolling
  deriving DecidableEq, Repr

namespace Pass

def all : List Pass := [shapeInference, inlining, unrolling]

def name : Pass → String
  | shapeInference => "shape-inference"
  | inlining => "inlining"
  | unrolling => "unrolling"

def needsFreshShapes : Pass → Bool
  | shapeInference => false
  | inlining => true
  | unrolling => true

def invalidatesShapes : Pass → Bool
  | shapeInference => false
  | inlining => true
  | unrolling => true

def summary : Pass → String
  | shapeInference => "compute the minimal required box of every temporary and apply region"
  | inlining => "splice single-use apply regions into their consumer"
  | unrolling => "replicate apply bodies along an axis by a static factor"

def ofName (s : String) : Except String Pass :=
  match all.find? (·.name = s) with
  | some p => .ok p
  | none =>
    .error ("unknown pass '" ++ s ++ "' (known: " ++ joinWith ", " (all.map name) ++ ")")

def freshAfter (fresh : Bool) (p : Pass) : Bool :=
  if p = shapeInference then true else if p.invalidatesShapes then false else fresh

/-- The requested passes with an inference before each that needs one, given whether shapes are
fresh at the start; at the end another one, if asked for and needed. -/
def planFrom (refreshAtEnd : Bool) : Bool → List Pass → List Pass
  | fresh, [] => if refreshAtEnd && !fresh then [shapeInference] else []
  | fresh, p :: rest =>
    (if p.needsFreshShapes && !fresh then [shapeInference, p] else [p]) ++
      planFrom refreshAtEnd (freshAfter fresh p) rest

/-- The passes to run for a request. An empty request needs none. -/
def plan (requested : List Pass) (refreshAtEnd : Bool) : List Pass :=
  if requested.isEmpty then [] else planFrom refreshAtEnd false requested

structure Outcome where
  changed : Bool
  diagnostics : List Diagnostic
  deriving DecidableEq, Repr

/-- The failure of an inference whose result does not fit the function. -/
def certificateFailure (c : Certificate) : Failure :=
  .invalid (c.failed.headD "") none
    ("shape inference postconditions failed: " ++ joinWith ", " c.failed)

def run (unroll : Unrolling.Options) : Pass → Func → Func × Except Failure Outcome
  | shapeInference, f =>
    let r := Inference.run f
    (r.func, do
      let report ← r.outcome
      if report.certificate.allPass then return ⟨false, report.diagnostics⟩
      else .error (certificateFailure report.certificate))
  | inlining, f =>
    let r := Inlining.run f
    (r.1, r.2.map fun made => ⟨!made.isEmpty, []⟩)
  | unrolling, f =>
    let r := Unrolling.run unroll f
    (r.1, r.2.map fun report => ⟨report.changed, report.diagnostics⟩)

end Pass

end Stencil
