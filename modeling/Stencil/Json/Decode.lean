import Stencil.Json.Basic

/-! Taking JSON values apart. -/

set_option autoImplicit false

namespace Stencil.Json

def toBool? : Json → Option Bool
  | bool b => some b
  | _ => none

def toString? : Json → Option String
  | str s => s
  | _ => none

def toIntIn? (low high : Int) : Json → Option Int
  | num (some (.int z)) => if low ≤ z && z ≤ high then some z else none
  | _ => none

def toInt? : Json → Option Int := toIntIn? (-9223372036854775808) 9223372036854775807

def toSize? (j : Json) : Option Nat := (j.toIntIn? 0 18446744073709551615).map Int.toNat

def toWord? (j : Json) : Option Nat := (j.toIntIn? 0 4294967295).map Int.toNat

/-- A scalar; an integer will do. -/
def toScalar? : Json → Option Scalar
  | num (some (.int z)) => some (Scalar.ofInt z)
  | num (some (.float x)) => some x
  | _ => none

def toList? {α : Type} (f : Json → Option α) : Json → Option (List α)
  | arr xs => xs.mapM f
  | _ => none

/-- `null` is no value. -/
def toOption? {α : Type} (f : Json → Option α) : Json → Option (Option α)
  | null => some none
  | j => (f j).map some

def field? (name : String) : List (Option String × Json) → Option Json
  | [] => none
  | (k, x) :: rest => if k = some name then some x else field? name rest

structure RecordRule where
  /-- Fields of other names are passed over. -/
  others : Bool
  /-- A list of fields may end early. -/
  short : Bool

def RecordRule.plain : RecordRule := ⟨true, false⟩

/-- The fields of a record in the order of `names`. It is an object without repeated fields, or an
array of its fields. -/
def members? (rule : RecordRule) (names : List String) : Json → Option (List (Option Json))
  | obj fs =>
    let keys := fs.map (·.1)
    if keys.any Option.isNone then none
    else if names.any fun n => 1 < keys.count (some n) then none
    else if !rule.others && fs.any fun f => !names.any fun n => f.1 = some n then none
    else some (names.map fun n => field? n fs)
  | arr xs =>
    if xs.length = names.length || (rule.short && xs.length < names.length) then
      some (xs.map some ++ List.replicate (names.length - xs.length) none)
    else none
  | _ => none

def required? {α : Type} (f : Json → Option α) : Option Json → Option α
  | some j => f j
  | none => none

/-- A field whose absence means no value. -/
def optional? {α : Type} (f : Json → Option α) : Option Json → Option (Option α)
  | some j => j.toOption? f
  | none => some none

def default? {α : Type} (d : α) (f : Json → Option α) : Option Json → Option α
  | some j => f j
  | none => some d

/-- The name of an alternative, with its content if there is one: a string, or an object of one
field. -/
def variant? : Json → Option (String × Option Json)
  | str s => s.map fun name => (name, none)
  | obj [(some name, content)] => some (name, some content)
  | _ => none

def plainVariant? (j : Json) : Option String :=
  match j.variant? with
  | some (name, none) => some name
  | some (name, some null) => some name
  | _ => none

end Stencil.Json
