import Stencil.Pipeline

/-! Command line arguments. -/

set_option autoImplicit false

namespace Stencil.CommandLine

inductive Format where
  | ir
  | json
  | dot
  deriving DecidableEq, Repr

namespace Format

def name : Format → String
  | ir => "ir"
  | json => "json"
  | dot => "dot"

def all : List Format := [ir, json, dot]

def ofName? (s : String) : Option Format := all.find? (·.name = s)

end Format

structure Arguments where
  source : Option String := none
  output : Option String := none
  passes : List Pass := []
  config : Option String := none
  axis : Option Nat := none
  factor : Option Nat := none
  remainder : Option Unrolling.Remainder := none
  format : Option Format := none
  verbose : Bool := false
  deriving DecidableEq, Repr

inductive Halt where
  | refused
  | version
  deriving DecidableEq, Repr

inductive Valued where
  | output
  | pass
  | config
  | axis
  | factor
  | remainder
  | format
  deriving DecidableEq, Repr

namespace Valued

def name : Valued → String
  | output => "output"
  | pass => "pass"
  | config => "config"
  | axis => "unroll-axis"
  | factor => "unroll-factor"
  | remainder => "remainder"
  | format => "emit"

def all : List Valued := [output, pass, config, axis, factor, remainder, format]

def ofName? (s : String) : Option Valued := all.find? (·.name = s)

end Valued

/-- A number in decimal digits, perhaps behind one of the given signs. -/
def number? (signs : List Char) (s : String) : Option Nat :=
  let digits :=
    match s.toList with
    | c :: cs => if signs.contains c then cs else c :: cs
    | [] => []
  if digits.isEmpty || !digits.all Char.isDigit then none else some (Numeral.value digits)

def axis? (s : String) : Option Nat := (number? ['+'] s).filter (· < UInt64.size)

/-- The factor has 32 bits. A minus sign is allowed before zero. -/
def factor? (s : String) : Option Nat :=
  (number? ['+', '-'] s).filter fun n => n < UInt32.size && (n = 0 || s.toList.head? ≠ some '-')

def path? (s : String) : Option String := if s.isEmpty then none else some s

def passes? (s : String) : Option (List Pass) := (s.splitOn ",").mapM fun p => (Pass.ofName p).toOption

def once {α : Type} (old : Option α) (new : Option α) : Except Halt (Option α) :=
  match old, new with
  | none, some v => .ok (some v)
  | _, _ => .error .refused

namespace Arguments

/-- Gives an option its value. Only passes may be given more than once. -/
def set (a : Arguments) (o : Valued) (s : String) : Except Halt Arguments :=
  match o with
  | .output => do return { a with output := ← once a.output (path? s) }
  | .config => do return { a with config := ← once a.config (path? s) }
  | .axis => do return { a with axis := ← once a.axis (axis? s) }
  | .factor => do return { a with factor := ← once a.factor (factor? s) }
  | .remainder => do
    return { a with remainder := ← once a.remainder (Unrolling.Remainder.ofName s).toOption }
  | .format => do return { a with format := ← once a.format (Format.ofName? s) }
  | .pass =>
    match passes? s with
    | some ps => .ok { a with passes := a.passes ++ ps }
    | none => .error .refused

def setSource (a : Arguments) (s : String) : Except Halt Arguments := do
  return { a with source := ← once a.source (path? s) }

def setVerbose (a : Arguments) : Except Halt Arguments :=
  if a.verbose then .error .refused else .ok { a with verbose := true }

end Arguments

inductive Kind where
  | plain
  | endOfOptions
  | valued (o : Valued) (value : Option String)
  | verbose
  | version
  | unknown
  deriving DecidableEq, Repr

/-- `--name` or `--name=value`, without the dashes. -/
def longKind (cs : List Char) : Kind :=
  let name := String.ofList (cs.takeWhile (· ≠ '='))
  let value :=
    match cs.dropWhile (· ≠ '=') with
    | _ :: v => some (String.ofList v)
    | [] => none
  match Valued.ofName? name with
  | some o => .valued o value
  | none =>
    if value.isSome then .unknown
    else if name = "verbose" then .verbose
    else if name = "version" then .version
    else .unknown

/-- `-ofile`, `-o=file` or `-o`, without the dash and the letter. -/
def shortValue : List Char → Option String
  | [] => none
  | '=' :: cs => some (String.ofList cs)
  | cs => some (String.ofList cs)

def kind (s : String) : Kind :=
  match s.toList with
  | ['-', '-'] => .endOfOptions
  | '-' :: '-' :: cs => longKind cs
  | '-' :: 'o' :: cs => .valued .output (shortValue cs)
  | '-' :: 'V' :: _ => .version
  | '-' :: _ :: _ => .unknown
  | _ => .plain

def readPlain : Arguments → List String → Except Halt Arguments
  | a, [] => .ok a
  | a, s :: rest => do
    let a ← a.setSource s
    readPlain a rest

/-- Reads arguments from left to right and stops at the first that is wrong. A value in an argument
of its own does not look like an option. -/
def read : Arguments → List String → Except Halt Arguments
  | a, [] => .ok a
  | a, s :: rest =>
    match kind s with
    | .plain => do
      let a ← a.setSource s
      read a rest
    | .endOfOptions => readPlain a rest
    | .valued o (some v) => do
      let a ← a.set o v
      read a rest
    | .valued o none =>
      match rest with
      | v :: rest =>
        if kind v = .plain then do
          let a ← a.set o v
          read a rest
        else .error .refused
      | [] => .error .refused
    | .verbose => do
      let a ← a.setVerbose
      read a rest
    | .version => .error .version
    | .unknown => .error .refused

end Stencil.CommandLine
