import Stencil.Text.Numeral

/-! Offsets and boxes of grid points. A box is a half-open range per dimension; boxes join by their
hull, and an empty box adds nothing to a hull. -/

set_option autoImplicit false

namespace Stencil

/-- The largest coordinate that a declared box or an offset may have. -/
def maxCoord : Int := 2147483647

def coordInRange (v : Int) : Bool := -maxCoord ≤ v && v ≤ maxCoord

/-- Whether 64 bits hold the number. -/
def Representable (x : Int) : Prop := -9223372036854775808 ≤ x ∧ x ≤ 9223372036854775807

instance (x : Int) : Decidable (Representable x) := inferInstanceAs (Decidable (_ ∧ _))

abbrev Point := List Int

abbrev Offset := List Int

namespace Offset

def zeros (rank : Nat) : Offset := List.replicate rank 0

def rank (o : Offset) : Nat := o.length

def inRange (o : Offset) : Bool := o.all coordInRange

def compose (o p : Offset) : Offset := List.zipWith (· + ·) o p

def shiftedAlong (o : Offset) (axis : Nat) (delta : Int) : Offset := o.modify axis (· + delta)

def text (o : Offset) : String := "[" ++ joinWith ", " (o.map intText) ++ "]"

end Offset

/-- The points `p` with `lb[d] ≤ p[d] < ub[d]` in every dimension `d`. -/
structure Box where
  lb : List Int
  ub : List Int
  deriving DecidableEq, Repr

namespace Box

def ofRanges (ranges : List (Int × Int)) : Box := ⟨ranges.map (·.1), ranges.map (·.2)⟩

/-- The empty box that stands for all empty boxes of its rank. -/
def empty (rank : Nat) : Box := ⟨List.replicate rank 0, List.replicate rank 0⟩

def rank (b : Box) : Nat := b.lb.length

def wellFormed (b : Box) (rank : Nat) : Bool :=
  b.lb.length = rank && b.ub.length = rank && (b.lb ++ b.ub).all coordInRange

def ranges (b : Box) : List (Int × Int) := b.lb.zip b.ub

def isEmpty (b : Box) : Bool := b.ranges.any fun r => r.2 ≤ r.1

def extent (b : Box) (axis : Nat) : Int :=
  match b.lb[axis]?, b.ub[axis]? with
  | some l, some u => max (u - l) 0
  | _, _ => 0

def volume (b : Box) : Nat :=
  if b.isEmpty then 0 else ((List.range b.rank).map fun d => (b.extent d).toNat).foldl (· * ·) 1

def canonical (b : Box) : Box := if b.isEmpty then empty b.rank else b

def shifted (b : Box) (o : Offset) : Box :=
  if b.isEmpty then empty b.rank
  else ⟨List.zipWith (· + ·) b.lb o, List.zipWith (· + ·) b.ub o⟩

def union (a b : Box) : Box :=
  if a.isEmpty then (if b.isEmpty then empty a.rank else b)
  else if b.isEmpty then a
  else ⟨List.zipWith min a.lb b.lb, List.zipWith max a.ub b.ub⟩

def contains (a b : Box) : Bool :=
  if b.isEmpty then true
  else if a.isEmpty then false
  else (a.ranges.zip b.ranges).all fun p => p.1.1 ≤ p.2.1 && p.2.2 ≤ p.1.2

def between : List Int → List Int → Point → Bool
  | [], _, [] => true
  | l :: ls, u :: us, p :: ps => l ≤ p && p < u && between ls us ps
  | _, _, _ => false

def containsPoint (b : Box) (p : Point) : Bool := between b.lb b.ub p

def withAxis (b : Box) (axis : Nat) (lb ub : Int) : Box := ⟨b.lb.set axis lb, b.ub.set axis ub⟩

def coordinates (lb ub : Int) (step : Nat) : List Int :=
  (List.range ((ub - lb + step - 1) / step).toNat).map fun (i : Nat) => lb + step * i

/-- The points over a list of ranges, each with its step; the last dimension runs fastest. -/
def pointsOver : List (Int × Int × Nat) → List Point
  | [] => [[]]
  | (l, u, s) :: rest => (coordinates l u s).flatMap fun x => (pointsOver rest).map (x :: ·)

def points (b : Box) : List Point := pointsOver (b.ranges.map fun r => (r.1, r.2, 1))

/-- The points at every `step`-th coordinate along `axis`, counted from the lower bound. -/
def pointsWithStep (b : Box) (axis step : Nat) : List Point :=
  pointsOver (b.ranges.mapIdx fun d r => (r.1, r.2, if d = axis then max step 1 else 1))

def past (b : Box) (axis step : Nat) : Int :=
  b.lb.getD axis 0 +
  (max step 1 : Nat) * (coordinates (b.lb.getD axis 0) (b.ub.getD axis 0) (max step 1)).length

/-- The points with a step along `axis`, walked in 64-bit coordinates. A walk finds the end of a row
by forming the coordinate past it, so there is no walk where 64 bits do not hold that one. -/
def walk? (b : Box) (axis step : Nat) : Option (List Point) :=
  if b.isEmpty || Representable (b.past axis step) then some (b.pointsWithStep axis step) else none

/-- A box is written by its ranges, so an upper bound must stand beside every lower bound. -/
def writable (b : Box) : Bool := b.isEmpty || b.lb.length ≤ b.ub.length

def text (b : Box) : String :=
  if b.isEmpty then "empty"
  else "[" ++ joinWith ", " (b.ranges.map fun r => intText r.1 ++ ":" ++ intText r.2) ++ "]"

end Box

end Stencil
