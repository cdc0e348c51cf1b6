import Stencil.Graph

/-! The invariants of functions, and the flaws that violate them. -/

set_option autoImplicit false

namespace Stencil

/-- A list of named conditions with their outcomes. -/
structure Certificate where
  obligations : List (String × Bool)
  deriving DecidableEq, Repr

namespace Certificate

def allPass (c : Certificate) : Bool := c.obligations.all (·.2)

def failed (c : Certificate) : List String := (c.obligations.filter fun o => !o.2).map (·.1)

end Certificate

inductive Obligation where
  /-- Offsets, dimensions, boxes and unroll axes fit the rank, and coordinates are in range. -/
  | accessRank
  /-- Bodies read only their operands, and operands are there. -/
  | operandsClosed
  /-- A temporary is the result of exactly its producer. -/
  | singleProducer
  /-- Values are used after their definition. -/
  | valuesDefined
  /-- A return has one value per result and replica. -/
  | returnArity
  deriving DecidableEq, Repr

namespace Obligation

def name : Obligation → String
  | accessRank => "V1_access_rank"
  | operandsClosed => "V2_operands_closed"
  | singleProducer => "V3_single_producer"
  | valuesDefined => "V4_values_defined"
  | returnArity => "V5_return_arity"

def all : List Obligation := [accessRank, operandsClosed, singleProducer, valuesDefined, returnArity]

end Obligation

inductive Part where
  | body
  | epilogue
  deriving DecidableEq, Repr

def Part.text : Part → String
  | body => "body"
  | epilogue => "epilogue"

inductive Flaw where
  | offsetRank (part : Part) (value : ValueId) (offset : Offset) (rank : Nat)
  | offsetRange (part : Part) (value : ValueId) (offset : Offset)
  | slotRange (part : Part) (value : ValueId) (slot operands : Nat)
  | indexInvalid (part : Part) (value : ValueId) (dim rank : Nat)
  | useBeforeDefinition (part : Part) (value used : ValueId)
  | returnUndefined (part : Part) (used : ValueId)
  | operandMissing (slot : Nat)
  | unrollAxis (axis rank : Nat)
  | unrollFactorZero
  | returnCount (found results factor : Nat)
  | epilogueWithoutUnroll
  | epilogueReturn (results : Nat)
  | resultNotOwned (index : Nat)
  | producerCount (temp : String) (count : Nat)
  | bufferDomain (buffer : String) (rank : Nat)
  | outputMissing (temp : TempId)
  | outputDomain (domain : Box) (rank : Nat)
  deriving DecidableEq, Repr

namespace Flaw

def obligation : Flaw → Obligation
  | offsetRank _ _ _ _ | offsetRange _ _ _ | indexInvalid _ _ _ _ | unrollAxis _ _
  | bufferDomain _ _ | outputDomain _ _ => .accessRank
  | slotRange _ _ _ _ | operandMissing _ | outputMissing _ => .operandsClosed
  | resultNotOwned _ | producerCount _ _ => .singleProducer
  | useBeforeDefinition _ _ _ | returnUndefined _ _ => .valuesDefined
  | unrollFactorZero | returnCount _ _ _ | epilogueWithoutUnroll | epilogueReturn _ => .returnArity

def message : Flaw → String
  | offsetRank part v o rank =>
    part.text ++ ": access %" ++ natText v ++ " has offset " ++ Offset.text o ++ " of rank " ++
      natText o.length ++ ", expected " ++ natText rank
  | offsetRange part v o =>
    part.text ++ ": access %" ++ natText v ++ " has out-of-range offset " ++ Offset.text o
  | slotRange part v slot operands =>
    part.text ++ ": access %" ++ natText v ++ " reads operand slot " ++ natText slot ++
      " but the region has " ++ natText operands ++ " operands"
  | indexInvalid part v dim rank =>
    part.text ++ ": index %" ++ natText v ++ " along dim " ++ natText dim ++
      " is invalid for rank " ++ natText rank
  | useBeforeDefinition part v used =>
    part.text ++ ": op %" ++ natText v ++ " uses %" ++ natText used ++ " before its definition"
  | returnUndefined part used => part.text ++ ": return uses undefined value %" ++ natText used
  | operandMissing slot =>
    "operand slot " ++ natText slot ++ " refers to a deleted or undeclared value"
  | unrollAxis axis rank =>
    "unroll axis " ++ natText axis ++ " is out of range for rank " ++ natText rank
  | unrollFactorZero => "unroll factor must be positive"
  | returnCount found results factor =>
    "return yields " ++ natText found ++ " values, expected " ++ natText (results * factor) ++
      " (" ++ natText results ++ " results x " ++ natText factor ++ " replicas)"
  | epilogueWithoutUnroll => "epilogue attached to a region that is not unrolled"
  | epilogueReturn results => "epilogue must return exactly " ++ natText results ++ " plain values"
  | resultNotOwned i => "result " ++ natText i ++ " is not owned by this region"
  | producerCount temp n =>
    "temporary '%" ++ temp ++ "' has " ++ natText n ++ " producing regions, expected exactly 1"
  | bufferDomain buffer rank =>
    "buffer '@" ++ buffer ++ "' declares a malformed domain for rank " ++ natText rank
  | outputMissing t => "output refers to deleted temporary TempId(" ++ natText t ++ ")"
  | outputDomain d rank =>
    "output domain (lb " ++ Offset.text d.lb ++ ", ub " ++ Offset.text d.ub ++
      ") is malformed for rank " ++ natText rank

end Flaw

/-- A flaw with the region it was found in. -/
structure Violation where
  region : Option (RegionId × String)
  flaw : Flaw
  deriving DecidableEq, Repr

namespace Violation

def failure (v : Violation) : Failure :=
  .invalid v.flaw.obligation.name v.region v.flaw.message

end Violation

def flawIf {β : Type} (c : Bool) (x : β) : List β := if c then [x] else []

namespace Op

/-- The flaws of the operation that defines `i` in a region with that many operands. -/
def flaws (rank operands : Nat) (part : Part) (i : ValueId) (op : Op) : List Flaw :=
  (match op with
    | .access slot o =>
      flawIf (o.length != rank) (Flaw.offsetRank part i o rank) ++
        flawIf (!Offset.inRange o) (.offsetRange part i o) ++
        flawIf (operands ≤ slot) (.slotRange part i slot operands)
    | .index dim o =>
      flawIf (rank ≤ dim || o.length != rank || !Offset.inRange o) (.indexInvalid part i dim rank)
    | _ => []) ++
  (op.args.filter (i ≤ ·)).map (Flaw.useBeforeDefinition part i)

end Op

def Body.flaws (rank operands : Nat) (part : Part) (b : Body) : List Flaw :=
  (b.ops.mapIdx fun i op => op.flaws rank operands part i).flatten ++
    (b.ret.values.filter (b.ops.length ≤ ·)).map (Flaw.returnUndefined part)

namespace Func

def operandLive (f : Func) : Operand → Bool
  | .temp t => (f.temp? t).isSome
  | .buffer b => (f.buffer? b).isSome

/-- Whether `t` names result `i` of region `id` as its own producer and index. -/
def ownsResult (f : Func) (id : RegionId) (i : Nat) (t : TempId) : Bool :=
  match f.temp? t with
  | some x => x.producer = id && x.resultIndex = i
  | none => false

def returnFlaws (f : Func) (r : Region) : List Flaw :=
  let ret := r.body.ret
  (match ret.unroll with
    | some u =>
      flawIf (f.rank ≤ u.axis) (Flaw.unrollAxis u.axis f.rank) ++ flawIf (u.factor = 0) .unrollFactorZero
    | none => []) ++
  flawIf (ret.values.length != r.results.length * ret.factor)
    (.returnCount ret.values.length r.results.length ret.factor)

def epilogueFlaws (f : Func) (r : Region) : List Flaw :=
  match r.epilogue with
  | none => []
  | some e =>
    e.flaws f.rank r.operands.length .epilogue ++
      flawIf r.unroll.isNone .epilogueWithoutUnroll ++
      flawIf (e.ret.unroll.isSome || e.ret.values.length != r.results.length)
        (.epilogueReturn r.results.length)

def regionFlaws (f : Func) (id : RegionId) (r : Region) : List Flaw :=
  (r.operands.mapIdx fun slot o => flawIf (!f.operandLive o) (Flaw.operandMissing slot)).flatten ++
    r.body.flaws f.rank r.operands.length .body ++ f.returnFlaws r ++ f.epilogueFlaws r ++
    (r.results.mapIdx fun i t => flawIf (!f.ownsResult id i t) (Flaw.resultNotOwned i)).flatten

def listings (f : Func) (t : TempId) : Nat :=
  (f.liveRegions.map fun r => r.2.results.count t).foldl (· + ·) 0

def tempFlaws (f : Func) : List Flaw :=
  f.liveTemps.flatMap fun t =>
    flawIf (f.listings t.1 != 1 || (f.region? t.2.producer).isNone)
      (.producerCount t.2.name (f.listings t.1))

def bufferFlaws (f : Func) : List Flaw :=
  f.buffers.flatMap fun b =>
    flawIf (b.domain.any fun d => !d.wellFormed f.rank) (.bufferDomain b.name f.rank)

def outputFlaws (f : Func) : List Flaw :=
  f.outputs.flatMap fun o =>
    flawIf (f.temp? o.temp).isNone (Flaw.outputMissing o.temp) ++
      flawIf (!o.domain.wellFormed f.rank) (.outputDomain o.domain f.rank)

/-- Every violation of an invariant, in the order of regions, temporaries, buffers and outputs. -/
def violations (f : Func) : List Violation :=
  f.liveRegions.flatMap (fun r => (f.regionFlaws r.1 r.2).map (⟨some (r.1, r.2.name), ·⟩)) ++
    (f.tempFlaws ++ f.bufferFlaws ++ f.outputFlaws).map (⟨none, ·⟩)

def certificate (f : Func) : Certificate :=
  let vs := f.violations
  ⟨Obligation.all.map fun o => (o.name, !vs.any fun v => v.flaw.obligation = o)⟩

/-- The first violation as a failure. -/
def verified (f : Func) : Except Failure Unit :=
  match f.violations with
  | [] => .ok ()
  | v :: _ => .error v.failure

end Func

end Stencil
