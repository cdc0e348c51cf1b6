import Stencil.Body.Basic
import Stencil.Primitives
import Stencil.Shape

/-! Regions: pointwise computations over a box, and how they walk it. -/

set_option autoImplicit false

namespace Stencil

/-- Computes its results at every point of its shape from reads of its operands. -/
structure Region where
  name : String
  operands : List Operand
  body : Body
  /-- A body that is not unrolled, for the points behind the last full group. -/
  epilogue : Option Body
  results : List TempId
  shape : Shape
  deriving DecidableEq, Repr

/-- Where the bodies of a region run. -/
structure IterationPlan where
  /-- The base points of the body, taken at every `step`-th coordinate along `axis`. -/
  main : Option Box
  axis : Nat
  step : Nat
  tail : Option Box
  deriving DecidableEq, Repr

/-- The box an access reads when its body runs over its part of the plan. -/
structure Footprint where
  slot : Nat
  offset : Offset
  read : Box
  deriving DecidableEq, Repr

namespace Region

def unroll (r : Region) : Option Unroll := r.body.ret.unroll

def bodies (r : Region) : List Body := r.body :: r.epilogue.toList

def hasEffect (r : Region) : Bool := r.bodies.any Body.hasEffect

def readsSlot (r : Region) (slot : Nat) : Bool := r.bodies.any fun b => b.readsSlot slot

section Primitives

variable {m : Type → Type} [Monad m] (P : Primitives m)

/-- The number of groups of `k` points that cover `extent` points. -/
def groupsUpIn (extent : Int) (k : Nat) : m Int := do
  P.div (← P.sub (← P.add extent k) 1) k

/-- What the region computes when `required` is demanded of it: without an epilogue, an unrolled
region fills its last group. -/
def computedDomainIn (r : Region) (required : Box) : m Box :=
  match r.unroll, r.epilogue with
  | some u, none =>
    if !required.isEmpty && 1 < u.factor then do
      let lb ← P.bound required.lb u.axis
      let groups ← groupsUpIn P (← P.extent required u.axis) u.factor
      P.withAxis required u.axis lb (← P.add lb (← P.mul groups u.factor))
    else pure required
  | _, _ => pure required

def groupsIn (r : Region) (extent : Int) (k : Nat) : m Int :=
  if r.epilogue.isSome then P.div extent k else groupsUpIn P extent k

/-- The base points of that many groups from `lb` on. -/
def mainIn (domain : Box) (axis : Nat) (lb groups : Int) (k : Nat) : m (Option Box) :=
  if 0 < groups then do
    let last ← P.mul (← P.sub groups 1) k
    return some (← P.withAxis domain axis lb (← P.add (← P.add lb last) 1))
  else pure none

def tailIn (r : Region) (domain : Box) (axis : Nat) (start ub : Int) : m (Option Box) :=
  if r.epilogue.isSome && start <
    ub then do return some (← P.withAxis domain axis start ub) else pure none

/-- Splits a computed domain between the body and the epilogue. -/
def iterationPlanIn (r : Region) (domain : Box) : m IterationPlan :=
  if domain.isEmpty then pure ⟨none, 0, 1, none⟩
  else
    match r.unroll with
    | none => pure ⟨some domain, 0, 1, none⟩
    | some u => do
      let k := max u.factor 1
      let lb ← P.bound domain.lb u.axis
      let ub ← P.bound domain.ub u.axis
      let groups ← groupsIn P r (← P.extent domain u.axis) k
      let main ← mainIn P domain u.axis lb groups k
      let tail ← tailIn P r domain u.axis (← P.add lb (← P.mul groups k)) ub
      return ⟨main, u.axis, k, tail⟩

def bodyFootprintsIn (body : Body) (base : Box) : m (List Footprint) :=
  body.accesses.mapM fun a => do return ⟨a.slot, a.offset, ← P.shifted base a.offset⟩

/-- The boxes read when the region computes `domain`, body before epilogue. -/
def footprintsIn (r : Region) (domain : Box) : m (List Footprint) := do
  let plan ← iterationPlanIn P r domain
  let nothing := Box.empty domain.rank
  let main ← bodyFootprintsIn P r.body (plan.main.getD nothing)
  let tail ←
    match r.epilogue with
    | some e => bodyFootprintsIn P e (plan.tail.getD nothing)
    | none => pure []
  return main ++ tail

end Primitives

def groupsUp (extent : Int) (k : Nat) : Int := groupsUpIn (.total Id) extent k

def computedDomain (r : Region) (required : Box) : Box := r.computedDomainIn (.total Id) required

def iterationPlan (r : Region) (domain : Box) : IterationPlan := r.iterationPlanIn (.total Id) domain

def bodyFootprints (body : Body) (base : Box) : List Footprint := bodyFootprintsIn (.total Id) body base

def footprints (r : Region) (domain : Box) : List Footprint := r.footprintsIn (.total Id) domain

end Region

end Stencil
