import Stencil.Pass

/-! The pipeline: planned passes over every function of a program. -/

set_option autoImplicit false

namespace Stencil.Pipeline

structure Options where
  passes : List Pass := Pass.all
  unroll : Unrolling.Options := {}
  /-- Whether shapes are made fresh again at the end. -/
  refreshAtEnd : Bool := true
  deriving DecidableEq, Repr

structure Step where
  pass : Pass
  diagnostics : List Diagnostic
  deriving DecidableEq, Repr

/-- How a function fared. The last step is the failing one, if any. -/
structure FuncReport where
  name : String
  success : Bool
  steps : List Step
  failure : Option Failure
  deriving DecidableEq, Repr

def FuncReport.diagnostics (r : FuncReport) : List Diagnostic := r.steps.flatMap (·.diagnostics)

def runPasses (unroll : Unrolling.Options) : List Pass → Func → Func × FuncReport
  | [], f => (f, ⟨f.name, true, [], none⟩)
  | p :: rest, f =>
    match p.run unroll f with
    | (g, .error e) => (g, ⟨f.name, false, [⟨p, (e.diagnostic? g.name).toList⟩], some e⟩)
    | (g, .ok outcome) =>
      let here : Step := ⟨p, outcome.diagnostics⟩
      if hasErrors outcome.diagnostics then (g, ⟨f.name, false, [here], none⟩)
      else
        let (h, report) := runPasses unroll rest g
        (h, { report with name := f.name, steps := here :: report.steps })

/-- Runs the planned passes on every function; a failure concerns one function only. -/
def run (options : Options) (p : Program) : Program × List FuncReport :=
  let plan := Pass.plan options.passes options.refreshAtEnd
  let results := p.functions.map (runPasses options.unroll plan)
  (⟨results.map (·.1)⟩, results.map (·.2))

end Stencil.Pipeline
