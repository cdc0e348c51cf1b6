import Stencil.Box

/-! Dense grids: one value per point of a box, in row-major order. -/

set_option autoImplicit false

namespace Stencil

structure Grid (α : Type) where
  domain : Box
  data : Array α

namespace Grid

variable {α : Type}

def fill (domain : Box) (value : α) : Grid α := ⟨domain, Array.replicate domain.volume value⟩

def ofFn (domain : Box) (f : Point → α) : Grid α := ⟨domain, (domain.points.map f).toArray⟩

def ofValues (domain : Box) (values : List α) : Grid α := ⟨domain, values.toArray⟩

/-- The place of a point that is known to lie in the box, counted on from `start`. -/
def placeFrom (start : Nat) : List (Int × Int) → Point → Nat
  | (l, u) :: rest, p :: ps => placeFrom (start * (u - l).toNat + (p - l).toNat) rest ps
  | _, _ => start

/-- The place of a point in row-major order. -/
def place? (g : Grid α) (p : Point) : Option Nat :=
  if g.domain.containsPoint p then some (placeFrom 0 g.domain.ranges p) else none

def get? (g : Grid α) (p : Point) : Option α := (g.place? p).bind fun i => g.data[i]?

def stores (g : Grid α) (p : Point) : Bool := (g.place? p).isSome

/-- Stores a value; a point outside the grid changes nothing. -/
def set (g : Grid α) (p : Point) (value : α) : Grid α :=
  match g.place? p with
  | some i => { g with data := g.data.setIfInBounds i value }
  | none => g

end Grid

end Stencil
