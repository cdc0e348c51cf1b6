import Stencil.CommandLine.Run

/-! The program. -/

set_option autoImplicit false

namespace Stencil.CommandLine

/-- The code that the machine gave for an error. It may come negated. -/
def errorCode : IO.Error → Nat
  | .noFileOrDirectory _ code _ | .inappropriateType _ code _ | .invalidArgument _ code _ =>
    min code.toNat (-code).toNat
  | _ => 0

def FileError.ofError (e : IO.Error) : FileError := (ofCode? (errorCode e)).getD (.other (toString e))

def attempt {α : Type} (action : IO α) : IO (Except FileError α) := do
  match ← action.toBaseIO with
  | .ok x => return .ok x
  | .error e => return .error (.ofError e)

def decoded (bytes : ByteArray) : Except FileError String :=
  match String.fromUTF8? bytes with
  | some text => .ok text
  | none => .error .notText

def machineFiles : Files IO where
  read path := do return (← attempt (IO.FS.readBinFile path)).bind decoded
  write path text := attempt (IO.FS.writeFile path text)

def usage : String :=
  "usage: stencil-opt [OPTIONS] SOURCE\n" ++
  "options: -o FILE, --pass LIST, --config FILE, --unroll-axis N, --unroll-factor N,\n" ++
  "         --remainder skip|epilogue, --emit ir|json|dot, --verbose, --version\n"

end Stencil.CommandLine

def main (args : List String) : IO UInt32 := do
  match ← Stencil.CommandLine.run Stencil.CommandLine.machineFiles args with
  | none =>
    IO.eprint Stencil.CommandLine.usage
    return 2
  | some outcome =>
    IO.eprint outcome.err
    IO.print outcome.out
    return outcome.exit.toUInt32
