import Stencil.CommandLine.Arguments
import Stencil.CommandLine.Files
import Stencil.CommandLine.Path
import Stencil.Drawing
import Stencil.Json.Options
import Stencil.Printer
import Stencil.Resolution

/-! The command line: reads a program, optimizes it and writes it. -/

set_option autoImplicit false

namespace Stencil.CommandLine

structure Outcome where
  exit : Nat
  out : String := ""
  err : String := ""
  deriving DecidableEq, Repr

def version : String := "stencil-opt 0.1.0\n"

def complaint (message : String) : String := "stencil-opt: " ++ message ++ "\n"

def fail (err message : String) : Outcome :=
  { exit := 2, err := err ++ complaint ("error: " ++ message) }

def loadComplaints (path : String) (ds : List Diagnostic) : String :=
  String.join (ds.map fun d =>
    let place := (d.span.map fun s => ":" ++ natText s.start).getD ""
    complaint (path ++ place ++ ": " ++ d.text))

/-- Reads a program from the text of a file: as JSON if the file is named so. -/
def program (path text : String) : Except Outcome Program :=
  if hasExtension path "json" then
    match Program.readJson? text with
    | some p => .ok p
    | none => .error (fail "" (path ++ ": invalid JSON module:"))
  else
    match Program.load text with
    | .ok p => .ok p
    | .error ds => .error { exit := 2, err := loadComplaints path ds }

def configuration (path text : String) : Except Outcome Pipeline.Options :=
  match Pipeline.Options.readJson? text with
  | some o => .ok o
  | none => .error (fail "" (path ++ ": invalid configuration:"))

def override (a : Arguments) (o : Pipeline.Options) : Pipeline.Options :=
  { o with
    passes := if a.passes.isEmpty then o.passes else a.passes
    unroll :=
      { o.unroll with
        axis := a.axis.getD o.unroll.axis
        factor := a.factor.getD o.unroll.factor
        remainder := a.remainder.getD o.unroll.remainder } }

def render (format : Format) (p : Program) : String :=
  match format with
  | .ir => p.text
  | .json => p.jsonText ++ "\n"
  | .dot => p.drawing

def reportText (reports : List Pipeline.FuncReport) : String :=
  String.join (reports.flatMap fun r => r.diagnostics.map fun d => complaint (r.name ++ ": " ++ d.text))

def finish (out err : String) (reports : List Pipeline.FuncReport) : Outcome :=
  let failed := reports.filter fun r => !r.success
  { exit := if failed.isEmpty then 0 else 1
    out := out
    err := err ++ String.join (failed.map fun r => complaint ("function '" ++ r.name ++ "' failed")) }

variable {m : Type → Type} [Monad m]

def readFile (files : Files m) (path : String) : m (Except Outcome String) := do
  match ← files.read path with
  | .ok text => return .ok text
  | .error e => return .error (fail "" (path ++ ": " ++ e.message))

def options (files : Files m) (a : Arguments) : m (Except Outcome Pipeline.Options) := do
  match a.config with
  | none => return .ok (override a {})
  | some path =>
    match ← readFile files path with
    | .error e => return .error e
    | .ok text => return (configuration path text).map (override a)

def optimize (files : Files m) (a : Arguments) (o : Pipeline.Options) (p : Program) : m Outcome := do
  let (q, reports) := Pipeline.run o p
  let err := reportText reports
  let text := render (a.format.getD .ir) q
  match a.output with
  | none => return finish text err reports
  | some path =>
    match ← files.write path text with
    | .ok _ => return finish "" err reports
    | .error e => return fail err (path ++ ": " ++ e.message)

def runSource (files : Files m) (a : Arguments) (source : String) : m Outcome := do
  match ← readFile files source with
  | .error e => return e
  | .ok text =>
    match program source text with
    | .error e => return e
    | .ok p =>
      match ← options files a with
      | .error e => return e
      | .ok o => optimize files a o p

/-- A run of the program. There is no outcome if the arguments are refused. -/
def run (files : Files m) (args : List String) : m (Option Outcome) := do
  match read {} args with
  | .error .refused => return none
  | .error .version => return some { exit := 0, out := version }
  | .ok a =>
    match a.source with
    | none => return none
    | some source => return some (← runSource files a source)

end Stencil.CommandLine
