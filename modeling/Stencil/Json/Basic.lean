import Stencil.Scalar.Basic

/-! JSON values. -/

set_option autoImplicit false

namespace Stencil

/-- A number is a float as soon as it is written like one, or too large for an integer. -/
inductive Number where
  | int (z : Int)
  | float (x : Scalar)
  deriving DecidableEq, Repr

/-- A JSON value. A number out of range and a string with half a surrogate pair are well formed but
denote nothing: they are `none`, and harm only those who ask for them. Fields keep their order. -/
inductive Json where
  | null
  | bool (b : Bool)
  | num (n : Option Number)
  | str (s : Option String)
  | arr (items : List Json)
  | obj (fields : List (Option String × Json))

namespace Json

def ofNat (n : Nat) : Json := num (some (.int n))

def ofInt (z : Int) : Json := num (some (.int z))

def ofString (s : String) : Json := str (some s)

/-- A scalar that is not finite has no number. -/
def ofScalar (x : Scalar) : Json := if x.isFinite then num (some (.float x)) else null

def ofList {α : Type} (f : α → Json) (xs : List α) : Json := arr (xs.map f)

def ofOption {α : Type} (f : α → Json) : Option α → Json
  | some x => f x
  | none => null

def record (fields : List (String × Json)) : Json := obj (fields.map fun f => (some f.1, f.2))

def tagged (name : String) (content : Json) : Json := record [(name, content)]

end Json

end Stencil
