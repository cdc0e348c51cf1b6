import Stencil.Body.Replicate
import Stencil.Inlining

/-! Unrolling: a region computes several neighbouring points along an axis at a time. -/

set_option autoImplicit false

namespace Stencil.Unrolling

/-- What happens when the factor does not divide the extent. -/
inductive Remainder where
  /-- The region stays as it is. -/
  | skip
  /-- The body is kept for the points that are left over. -/
  | epilogue
  deriving DecidableEq, Repr

namespace Remainder

def name : Remainder → String
  | skip => "skip"
  | epilogue => "epilogue"

def all : List Remainder := [skip, epilogue]

def ofName (s : String) : Except String Remainder :=
  match all.find? (·.name = s) with
  | some r => .ok r
  | none => .error ("unknown remainder policy '" ++ s ++ "' (expected skip or epilogue)")

end Remainder

structure Options where
  axis : Nat := 0
  factor : Nat := 2
  remainder : Remainder := .skip
  /-- The names of the regions to unroll; none means all. -/
  regions : List String := []
  deriving DecidableEq, Repr

inductive Rejection where
  | invalidFactor (factor : Nat)
  | axisOutOfRange (axis rank : Nat)
  | unresolvedShape
  | alreadyUnrolled
  | extentTooSmall (axis : Nat) (extent : Int) (factor : Nat)
  | notDivisible (axis : Nat) (extent : Int) (factor : Nat)
  | missing
  deriving DecidableEq, Repr

def Rejection.message : Rejection → String
  | invalidFactor factor => "unroll factor " ++ natText factor ++ " is not at least 2"
  | axisOutOfRange axis rank =>
    "axis " ++ natText axis ++ " is out of range for rank " ++ natText rank
  | unresolvedShape => "shape is unresolved; the region is unreachable from any output"
  | alreadyUnrolled => "region is already unrolled"
  | extentTooSmall axis extent factor =>
    "extent " ++ intText extent ++ " along axis " ++ natText axis ++
      " is smaller than the unroll factor " ++ natText factor
  | notDivisible axis extent factor =>
    "extent " ++ intText extent ++ " along axis " ++ natText axis ++ " is not divisible by " ++
      natText factor
  | missing => "region no longer exists"

/-- Whether the factor divides the extent of a region that can be unrolled. -/
def check (options : Options) (rank : Nat) (r : Region) : Except Rejection Bool :=
  if options.factor < 2 then .error (.invalidFactor options.factor)
  else if rank ≤ options.axis then .error (.axisOutOfRange options.axis rank)
  else if r.unroll.isSome || r.epilogue.isSome then .error .alreadyUnrolled
  else
    match r.shape with
    | .unknown => .error .unresolvedShape
    | .known domain =>
      let extent := domain.extent options.axis
      if extent < options.factor then .error (.extentTooSmall options.axis extent options.factor)
      else if extent % options.factor = 0 then .ok true
      else if options.remainder = .skip then
        .error (.notDivisible options.axis extent options.factor)
      else .ok false

def skipDiagnostic (id : RegionId) (name : String) (reason : Rejection) : Diagnostic :=
  { code := some .unrollSkipped
    level := .warning
    subject := some (.region id name)
    message := "unrolling of apply '" ++ name ++ "' skipped: " ++ reason.message }

/-- What became of the selected regions. -/
structure Report where
  unrolled : List RegionId := []
  rejected : List (RegionId × Rejection) := []
  diagnostics : List Diagnostic := []
  deriving DecidableEq, Repr

def Report.changed (r : Report) : Bool := !r.unrolled.isEmpty

/-- Whether the options name a region, or none at all. -/
def selects (options : Options) (name : String) : Bool :=
  options.regions.isEmpty || options.regions.contains name

section Words

variable {m : Type → Type} [Monad m] (W : Words m)

/-- The region unrolled. The body becomes the epilogue when points are left over. -/
def unrolledIn (options : Options) (divisible : Bool) (r : Region) : m Region := do
  return { r with
    body := ← W.replicate r.body options.axis options.factor
    epilogue := if divisible then r.epilogue else some r.body }

def unrollRegionIn (options : Options) (f : Func) (id : RegionId) : m (Except Rejection Func) :=
  match f.region? id with
  | none => pure (.error .missing)
  | some r =>
    match check options f.rank r with
    | .error reason => pure (.error reason)
    | .ok divisible => do
      let r ← unrolledIn W options divisible r
      return .ok (f.modifyRegion id fun _ => r)

def stepIn (options : Options) : Func × Report → RegionId → m (Func × Report)
  | (f, report), id =>
    let name := Inlining.regionName f id
    if selects options name then do
      match ← unrollRegionIn W options f id with
      | .ok g => return (g, { report with unrolled := report.unrolled ++ [id] })
      | .error reason =>
        return (f, { report with
          rejected := report.rejected ++ [(id, reason)]
          diagnostics := report.diagnostics ++ [skipDiagnostic id name reason] })
    else pure (f, report)

/-- Unrolls the selected regions among those listed. A function that changes loses its stamp. -/
def unrollAllIn (options : Options) (f : Func) (order : List RegionId) :
    m (Func × Except Failure Report) := do
  let (g, report) ← order.foldlM (stepIn W options) (f, {})
  return (if report.changed then g.invalidate else g, .ok report)

def runIn (options : Options) (f : Func) : m (Func × Except Failure Report) :=
  match f.ensureFresh "unrolling", f.order with
  | .error e, _ => pure (f, .error e)
  | .ok _, .error e => pure (f, .error e)
  | .ok _, .ok order => unrollAllIn W options f order

end Words

abbrev unrolled (options : Options) (divisible : Bool) (r : Region) : Region :=
  unrolledIn .exact options divisible r

abbrev unrollRegion (options : Options) (f : Func) (id : RegionId) : Except Rejection Func :=
  unrollRegionIn .exact options f id

abbrev run (options : Options) (f : Func) : Func × Except Failure Report := runIn .exact options f

end Stencil.Unrolling
