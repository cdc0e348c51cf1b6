import Stencil.Proofs.Exhaustion

/-! Operands by name. A region lists its operands in slots, and an access gives a slot; here each
operation stands beside the operand that it reads, so that regions can be compared that list their
operands in different orders. Whether a region can be spliced, and what a splice makes, is told by the
names alone. -/

set_option autoImplicit false

namespace Stencil

/-- An operation beside the operand that it reads. The slot in an access is always 0. -/
structure NamedOp where
  op : Op
  operand : Option Operand
  deriving DecidableEq, Repr

structure NamedBody where
  ops : List NamedOp
  ret : Return
  deriving DecidableEq, Repr

structure NamedRegion where
  name : String
  body : NamedBody
  epilogue : Option NamedBody
  results : List TempId
  shape : Shape
  deriving DecidableEq, Repr

/-- A function with its operands by name: all of it but slots, operands that nothing reads, and the
stamp. -/
@[ext] structure Outline where
  name : String
  rank : Nat
  buffers : List Buffer
  outputs : List OutputMark
  temp? : TempId → Option Temporary
  region? : RegionId → Option NamedRegion

def Op.named (operands : List Operand) : Op → NamedOp
  | .access slot offset => ⟨.access 0 offset, operands[slot]?⟩
  | op => ⟨op, none⟩

def Body.named (operands : List Operand) (b : Body) : NamedBody := ⟨b.ops.map (Op.named operands), b.ret⟩

def Region.named (r : Region) : NamedRegion :=
  ⟨r.name, r.body.named r.operands, r.epilogue.map (Body.named r.operands), r.results, r.shape⟩

def Func.outline (f : Func) : Outline :=
  ⟨f.name, f.rank, f.buffers, f.outputs, f.temp?, fun id => (f.region? id).map Region.named⟩

namespace NamedOp

def mapArgs (g : ValueId → ValueId) (op : NamedOp) : NamedOp := { op with op := op.op.mapArgs g }

def moved (pos : Nat) (offset : Offset) (op : NamedOp) : NamedOp :=
  { op with op := (op.op.shifted offset).mapArgs (pos + ·) }

end NamedOp

/-- Replaces the access at `pos` by the operations of `inner`, whose value `result` the access read. -/
def NamedBody.splice (b : NamedBody) (pos : ValueId) (inner : NamedBody) (result : ValueId) : NamedBody :=
  match b.ops[pos]? with
  | some ⟨.access _ offset, _⟩ =>
    let rename := Body.outerName pos inner.ops.length result
    { ops := b.ops.take pos ++ inner.ops.map (NamedOp.moved pos offset) ++
        (b.ops.drop (pos + 1)).map (NamedOp.mapArgs rename)
      ret := { b.ret with values := b.ret.values.map rename } }
  | _ => b

namespace NamedRegion

def part (r : NamedRegion) (inEpilogue : Bool) : Option NamedBody :=
  if inEpilogue then r.epilogue else some r.body

/-- The consumer of a splice with the producer taken in. -/
def absorb (C : NamedRegion) (c : Inlining.Candidate) (P : NamedRegion) : NamedRegion :=
  let splice (b : NamedBody) := b.splice c.value P.body (P.body.ret.values.getD c.resultIndex 0)
  { C with
    body := if c.inEpilogue then C.body else splice C.body
    epilogue := if c.inEpilogue then C.epilogue.map splice else C.epilogue }

theorem ext_part {r r' : NamedRegion} (hname : r.name = r'.name) (hresults : r.results = r'.results)
    (hshape : r.shape = r'.shape) (hpart : ∀ flag, r.part flag = r'.part flag) : r = r' := by
  obtain ⟨name, body, epilogue, results, shape⟩ := r
  obtain ⟨name', body', epilogue', results', shape'⟩ := r'
  have hbody := hpart false
  have hepilogue := hpart true
  simp only [part, Bool.false_eq_true, if_false, if_true, Option.some.injEq] at hbody hepilogue
  simp only at hname hresults hshape
  rw [hname, hbody, hepilogue, hresults, hshape]

theorem part_absorb (c : Inlining.Candidate) (P C : NamedRegion) (flag : Bool) :
    (C.absorb c P).part flag = (C.part flag).map fun b => if flag = c.inEpilogue then
      b.splice c.value P.body (P.body.ret.values.getD c.resultIndex 0) else b := by
  cases flag <;> cases hc : c.inEpilogue <;> simp [part, absorb, hc]

end NamedRegion

/-- What a splice makes of the region `id`. -/
def Inlining.Candidate.update (c : Inlining.Candidate) (P : NamedRegion) (id : RegionId)
    (r : NamedRegion) :
    NamedRegion :=
  if id = c.consumer then r.absorb c P else r

namespace Outline

def splice (V : Outline) (c : Inlining.Candidate) (P : NamedRegion) : Outline :=
  { V with
    temp? := fun t => if t ∈ P.results then none else V.temp? t
    region? := fun id => if id = c.producer then none else (V.region? id).map (c.update P id) }

/-- Where an operation stands. -/
structure Spot where
  region : RegionId
  inEpilogue : Bool
  value : ValueId
  deriving DecidableEq, Repr

def op? (V : Outline) (p : Spot) : Option NamedOp :=
  (V.region? p.region).bind fun r => (r.part p.inEpilogue).bind fun b => b.ops[p.value]?

theorem op?_eq_some_iff {V : Outline} {p : Spot} {op : NamedOp} :
    V.op? p = some op ↔ ∃ r b, V.region? p.region = some r ∧ r.part p.inEpilogue = some b ∧
      b.ops[p.value]? = some op := by
  simp only [op?, Option.bind_eq_some_iff]
  exact ⟨fun ⟨r, hr, b, hb, h⟩ => ⟨r, b, hr, hb, h⟩, fun ⟨r, b, hr, hb, h⟩ => ⟨r, hr, b, hb, h⟩⟩

end Outline

theorem Op.named_mapArgs (operands : List Operand) (g : ValueId → ValueId) (op : Op) :
    (op.mapArgs g).named operands = (op.named operands).mapArgs g := by
  cases op <;> rfl

theorem Op.named_mapSlot {operands operands' : List Operand} {σ : Nat → Nat} {op : Op}
    (h : ∀ s o, op = .access s o → operands'[σ s]? = operands[s]?) :
    (op.mapSlot σ).named operands' = op.named operands := by
  cases op with
  | access s o => simp only [mapSlot, named, h s o rfl]
  | index d o => rfl
  | constant c => rfl
  | unary g a => rfl
  | binary g l r => rfl
  | call c as q => rfl

theorem Op.named_innerOp {operands operands' : List Operand} {pos : Nat} {offset : Offset}
    {slots : List Nat} {op : Op}
    (h : ∀ s o, op = .access s o → operands'[(slots[s]?).getD s]? = operands[s]?) :
    (Body.innerOp pos offset slots op).named operands' = (op.named operands).moved pos offset := by
  cases op with
  | access s o => simp only [Body.innerOp, shifted, mapSlot, mapArgs, named, h s o rfl, NamedOp.moved]
  | index d o => rfl
  | constant c => rfl
  | unary g a => rfl
  | binary g l r => rfl
  | call c as q => rfl

theorem Op.named_operand_iff {operands : List Operand} {op : Op} {x : Operand} :
    (op.named operands).operand = some x ↔ ∃ s o, op = .access s o ∧ operands[s]? = some x := by
  cases op <;> simp [named]

theorem Op.named_eq_access_iff {operands : List Operand} {op : Op} {o : Offset} {x : Option Operand} :
    op.named operands = ⟨.access 0 o, x⟩ ↔ ∃ s, op = .access s o ∧ operands[s]? = x := by
  cases op <;> simp [named]

theorem Op.hasEffect_named (operands : List Operand) (op : Op) :
    (op.named operands).op.hasEffect = op.hasEffect := by
  cases op <;> rfl

theorem Body.named_mapSlots {operands operands' : List Operand} {σ : Nat → Nat} {b : Body}
    (h : ∀ s o, .access s o ∈ b.ops → operands'[σ s]? = operands[s]?) :
    (b.mapSlots σ).named operands' = b.named operands := by
  simp only [named, mapSlots, List.map_map, NamedBody.mk.injEq, and_true]
  apply List.map_congr_left
  intro op hop
  exact Op.named_mapSlot fun s o he => h s o (he ▸ hop)

theorem Body.named_congr {operands operands' : List Operand} {b : Body}
    (h : ∀ s o, .access s o ∈ b.ops → operands'[s]? = operands[s]?) :
    b.named operands' = b.named operands := by
  simp only [named, NamedBody.mk.injEq, and_true]
  apply List.map_congr_left
  intro op hop
  cases op with
  | access s o => simp only [Op.named, h s o hop]
  | index d o => rfl
  | constant c => rfl
  | unary g a => rfl
  | binary g l r => rfl
  | call c as q => rfl

theorem Body.named_splice {operands operands' innerOperands : List Operand} {b inner : Body}
    {pos slot result : Nat} {offset : Offset} {slots : List Nat}
    (hop : b.ops[pos]? = some (.access slot offset))
    (houter : ∀ s o, .access s o ∈ b.ops → operands'[s]? = operands[s]?)
    (hinner : ∀ s o, .access s o ∈ inner.ops → operands'[(slots[s]?).getD s]? = innerOperands[s]?) :
    (b.splice pos inner result slots).named operands' =
      (b.named operands).splice pos (inner.named innerOperands) result := by
  have hop' : (b.named operands).ops[pos]? = some ⟨.access 0 offset, operands[slot]?⟩ := by
    simp only [named, List.getElem?_map, hop, Option.map_some, Op.named]
  have hops : b.ops.map (Op.named operands') = b.ops.map (Op.named operands) :=
    congrArg NamedBody.ops (named_congr houter)
  have hmoved : (inner.ops.map (innerOp pos offset slots)).map (Op.named operands') =
      (inner.ops.map (Op.named innerOperands)).map (NamedOp.moved pos offset) := by
    rw [List.map_map, List.map_map]
    apply List.map_congr_left
    intro op hin
    exact Op.named_innerOp fun s o he => hinner s o (he ▸ hin)
  have hbehind : ∀ g, ((b.ops.drop (pos + 1)).map (Op.mapArgs g)).map (Op.named operands') =
      ((b.ops.map (Op.named operands)).drop (pos + 1)).map (NamedOp.mapArgs g) := by
    intro g
    rw [← hops, ← List.map_drop, List.map_map, List.map_map]
    apply List.map_congr_left
    intro op _
    exact Op.named_mapArgs operands' g op
  simp only [NamedBody.splice, hop', splice, hop]
  simp only [named, List.map_append, List.map_take, hops, hmoved, hbehind, List.length_map]

namespace Region

theorem part_named (r : Region) (flag : Bool) :
    r.named.part flag = (r.part flag).map (Body.named r.operands) := by
  cases flag <;> rfl

theorem Renumbered.named_eq {r r' : Region} {σ : Nat → Nat} (h : r.Renumbered r' σ)
    (hname : r'.name = r.name) : r'.named = r.named := by
  refine NamedRegion.ext_part hname h.results h.shape fun flag => ?_
  rw [part_named, part_named, h.part, Option.map_map]
  cases hb : r.part flag with
  | none => rfl
  | some b =>
    have hmem : b ∈ r.bodies := mem_bodies_iff.mpr ⟨flag, hb⟩
    simp only [Option.map_some, Function.comp_apply, Option.some.injEq]
    exact Body.named_mapSlots fun s o ho => h.operands b s o hmem ho

end Region

namespace Inlining

section Spliceable

variable {f : Func} {c : Candidate} {P C : Region} {B : Body} {temp : TempId} {slot : Nat}
  {offset : Offset} {dP dC : Box} (S : Spliceable f c P C B temp slot offset dP dC) (hf : f.Sound)

include S hf

theorem Spliceable.named_merged : (merged c P C).named = C.named.absorb c P.named := by
  have houter : ∀ b, b ∈ C.bodies → ∀ s o, .access s o ∈ b.ops →
      (merged c P C).operands[s]? = C.operands[s]? := by
    intro b hb s o ho
    obtain ⟨operand, hs, _⟩ := hf.reads c.consumer C b s o S.consumer hb ho
    rw [hs, merged_operands_outer c P C hs]
  have hinner : ∀ s o, .access s o ∈ P.body.ops →
      (merged c P C).operands[((mergeOperands C.operands P.operands).2[s]?).getD s]? =
        P.operands[s]? := by
    intro s o ho
    obtain ⟨operand, hs, _⟩ := hf.reads c.producer P P.body s o S.producer (by simp [Region.bodies]) ho
    rw [hs, merged_operands_inner c P C hs]
  refine NamedRegion.ext_part rfl rfl rfl fun flag => ?_
  rw [Region.part_named, NamedRegion.part_absorb, Region.part_named, merged_part, Option.map_map,
    Option.map_map]
  cases hb : C.part flag with
  | none => rfl
  | some b =>
    have hmem : b ∈ C.bodies := Region.mem_bodies_iff.mpr ⟨flag, hb⟩
    simp only [Option.map_some, Function.comp_apply, Option.some.injEq]
    by_cases hflag : flag = c.inEpilogue
    · have hB : b = B := by
        rw [hflag, S.part] at hb
        exact (Option.some.inj hb).symm
      subst hB
      rw [if_pos hflag, if_pos hflag]
      exact Body.named_splice S.access (houter b hmem) hinner
    · rw [if_neg hflag, if_neg hflag]
      exact Body.named_congr (houter b hmem)

theorem Spliceable.named_mergeRegion : (mergeRegion c P C).named = C.named.absorb c P.named := by
  obtain ⟨σ, h⟩ := S.exists_renumbered hf
  rw [h.named_eq (name_mergeRegion c P C), S.named_merged hf]

/-- What a splice makes depends on names only. -/
theorem Spliceable.outline_applySplice : (applySplice f c).outline = f.outline.splice c P.named := by
  have hframe : (applySplice f c).name = f.name ∧ (applySplice f c).rank = f.rank ∧
      (applySplice f c).buffers = f.buffers ∧ (applySplice f c).outputs = f.outputs := by
    rw [S.applySplice_eq, Func.removeRegion_eq S.region?_producer]
    exact ⟨rfl, rfl, rfl, rfl⟩
  obtain ⟨hname, hrank, hbuffers, houtputs⟩ := hframe
  refine Outline.ext hname hrank hbuffers houtputs (funext S.temp?_applySplice) (funext fun id => ?_)
  simp only [Func.outline, Outline.splice, S.region?_applySplice]
  by_cases hp : id = c.producer
  · rw [if_pos hp, if_pos hp]
    rfl
  · by_cases hc : id = c.consumer
    · subst hc
      simp [hp, S.consumer, S.named_mergeRegion hf, Candidate.update]
    · have hupdate : c.update P.named id = fun r => r := by
        funext r
        rw [Candidate.update, if_neg hc]
      rw [if_neg hp, if_neg hp, if_neg hc, hupdate, Option.map_id']

end Spliceable

/-- The place of the access that a splice replaces. -/
def Candidate.spot (c : Candidate) : Outline.Spot := ⟨c.consumer, c.inEpilogue, c.value⟩

/-- The splice `c` can be made: the operation at its place, a read of `temp` at `offset`, is the only
one that reads a result of the producer `P`. -/
structure Site (V : Outline) (c : Candidate) (P C : NamedRegion) (temp : TempId) (offset : Offset) :
    Prop where
  producer : V.region? c.producer = some P
  consumer : V.region? c.consumer = some C
  distinct : c.consumer ≠ c.producer
  result : P.results[c.resultIndex]? = some temp
  access : V.op? c.spot = some ⟨.access 0 offset, some (.temp temp)⟩
  produced : P.shape.isKnown = true
  consumed : C.shape.isKnown = true
  plain : P.body.ret.unroll = none ∧ P.epilogue = none
  quiet : ∀ op, op ∈ P.body.ops → op.op.hasEffect = false
  only : ∀ p op t, V.op? p = some op → op.operand = some (.temp t) → t ∈ P.results → p = c.spot
  unmarked : ∀ o, o ∈ V.outputs → o.temp ∉ P.results
  owned : ∀ t, t ∈ P.results → ∃ x, V.temp? t = some x ∧ x.producer = c.producer
  returned : ∃ v, P.body.ret.values[c.resultIndex]? = some v ∧ v < P.body.ops.length

theorem op?_outline_iff {f : Func} {p : Outline.Spot} {op : NamedOp} :
    f.outline.op? p = some op ↔ ∃ r b op', f.region? p.region = some r ∧ r.part p.inEpilogue = some b ∧
      b.ops[p.value]? = some op' ∧ op'.named r.operands = op := by
  rw [Outline.op?_eq_some_iff]
  constructor
  · rintro ⟨R, K, hR, hK, hop⟩
    obtain ⟨r, hr, rfl⟩ := Option.map_eq_some_iff.mp hR
    rw [Region.part_named] at hK
    obtain ⟨b, hb, rfl⟩ := Option.map_eq_some_iff.mp hK
    simp only [Body.named, List.getElem?_map, Option.map_eq_some_iff] at hop
    obtain ⟨op', hop', rfl⟩ := hop
    exact ⟨r, b, op', hr, hb, hop', rfl⟩
  · rintro ⟨r, b, op', hr, hb, hop, rfl⟩
    refine ⟨r.named,
      b.named r.operands, by simp [Func.outline, hr], by rw [Region.part_named, hb]; rfl, ?_⟩
    simp only [Body.named, List.getElem?_map, hop, Option.map_some]

theorem Spliceable.site {f : Func} {c : Candidate} {P C : Region} {B : Body} {temp : TempId} {slot : Nat}
    {offset : Offset} {dP dC : Box} (S : Spliceable f c P C B temp slot offset dP dC) (hf : f.Sound) :
    Site f.outline c P.named C.named temp offset where
  producer := by simp [Func.outline, S.producer]
  consumer := by simp [Func.outline, S.consumer]
  distinct := S.distinct
  result := S.result
  access := op?_outline_iff.mpr ⟨C, B, _, S.consumer, S.part, S.access, by rw [Op.named, S.operand]⟩
  produced := by simp [Region.named, S.produced, Shape.isKnown]
  consumed := by simp [Region.named, S.consumed, Shape.isKnown]
  plain := ⟨S.plain.1, by simp [Region.named, S.plain.2]⟩
  quiet := by
    intro op hop
    obtain ⟨op', hop', rfl⟩ := List.mem_map.mp hop
    have hquiet := S.quiet
    simp only [Region.hasEffect, Region.bodies, List.any_cons, Bool.or_eq_false_iff,
      Body.hasEffect] at hquiet
    rw [Op.hasEffect_named]
    simpa using List.any_eq_false.mp hquiet.1 op' hop'
  only := by
    intro p op t hp ht hmem
    obtain ⟨r, b, op', hr, hb, hop, rfl⟩ := op?_outline_iff.mp hp
    obtain ⟨s, o, rfl, hs⟩ := Op.named_operand_iff.mp ht
    obtain ⟨hid, hflag, hv⟩ := S.only p.region r p.inEpilogue b p.value s o t hr hb hop hs hmem
    obtain ⟨region, inEpilogue, value⟩ := p
    simp only at hid hflag hv
    rw [hid, hflag, hv]
    rfl
  unmarked := S.unmarked
  owned := by
    intro t ht
    obtain ⟨i, hi⟩ := List.mem_iff_getElem?.mp ht
    obtain ⟨x, hx, hp, _⟩ := hf.owned c.producer P i t S.producer hi
    exact ⟨x, hx, hp⟩
  returned := by
    obtain ⟨v, hv, _, hlt⟩ := S.result_lt hf
    exact ⟨v, hv, by simpa [Region.named, Body.named] using hlt⟩

theorem Site.spliceable {f : Func} {c : Candidate} {P' C' : NamedRegion} {temp : TempId} {offset : Offset}
    (S : Site f.outline c P' C' temp offset) :
    ∃ P C B slot dP dC, Spliceable f c P C B temp slot offset dP dC := by
  obtain ⟨P, hP, rfl⟩ := Option.map_eq_some_iff.mp S.producer
  obtain ⟨C, B, op, hC, hB, hop, haccess⟩ := op?_outline_iff.mp S.access
  obtain ⟨slot, rfl, hslot⟩ := Op.named_eq_access_iff.mp haccess
  obtain ⟨dP, hdP⟩ := exists_of_isKnown S.produced
  obtain ⟨dC, hdC⟩ : ∃ d, C.shape = .known d := by
    obtain ⟨C₁, hC₁, rfl⟩ := Option.map_eq_some_iff.mp S.consumer
    cases hC.symm.trans hC₁
    exact exists_of_isKnown S.consumed
  have hepilogue : P.epilogue = none := by simpa [Region.named] using S.plain.2
  refine ⟨P, C, B, slot, dP, dC, hP, hC, S.distinct, S.result, hB, hop, hslot, hdP, hdC,
    ⟨S.plain.1, hepilogue⟩, ?_, ?_, S.unmarked⟩
  · simp only [Region.hasEffect, Region.bodies, hepilogue, Body.hasEffect, Option.toList_none,
      List.any_cons, List.any_nil, Bool.or_false, List.any_eq_false]
    intro op hop
    have := S.quiet (op.named P.operands) (List.mem_map_of_mem hop)
    rw [Op.hasEffect_named] at this
    simp [this]
  · intro id r flag b v s o t hr hb hop hs ht
    have hspot := S.only ⟨id, flag, v⟩ _ t (op?_outline_iff.mpr ⟨r, b, _, hr, hb, hop, rfl⟩) hs ht
    exact ⟨congrArg Outline.Spot.region hspot, congrArg Outline.Spot.inEpilogue hspot,
      congrArg Outline.Spot.value hspot⟩

theorem candidate?_eq_some_iff {f : Func} (hf : f.Sound) {id : RegionId} {c : Candidate} :
    candidate? f id = some c ↔ c.producer = id ∧ ∃ P C temp offset, Site f.outline c P C temp offset := by
  constructor
  · intro h
    obtain ⟨P, C, B, temp, slot, offset, dP, dC, S⟩ := spliceable_of_candidate h
    obtain ⟨_, _, hid, _⟩ := candidate?_cases h
    exact ⟨hid, P.named, C.named, temp, offset, S.site hf⟩
  · rintro ⟨rfl, P, C, temp, offset, S⟩
    obtain ⟨P, C, B, slot, dP, dC, S⟩ := S.spliceable
    exact S.candidate?_eq hf

end Inlining

end Stencil
