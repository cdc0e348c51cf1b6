import Stencil.Proofs.Naming

/-! Splices commute. Two producers read at different places of one body can be taken in either order, and
so can a producer that is itself the consumer of another; what changes is where the second access is
found, and under which names the values stand. -/

set_option autoImplicit false

namespace Stencil

theorem Offset.compose_assoc (o p q : Offset) : (o.compose p).compose q = o.compose (p.compose q) := by
  induction o generalizing p q with
  | nil => rfl
  | cons x o ih =>
    cases p with
    | nil => rfl
    | cons y p =>
      cases q with
      | nil => rfl
      | cons z q =>
        have htail : List.zipWith (· + ·) (List.zipWith (· + ·) o p) q =
            List.zipWith (· + ·) o (List.zipWith (· + ·) p q) := ih p q
        simp only [compose, List.zipWith_cons_cons, htail, Int.add_assoc]

namespace Body

theorem outerName_comm {v w n p : Nat} (m q : Nat) (hlt : v < w) (hp : p < n) (y : Nat) :
    outerName (w + n - 1) m q (outerName v n p y) = outerName v n p (outerName w m q y) := by
  rcases Nat.lt_trichotomy y v with h | rfl | h
  · have hw : y < w := by omega
    have hw' : y < w + n - 1 := by omega
    rw [outerName_of_lt h, outerName_of_lt hw', outerName_of_lt hw, outerName_of_lt h]
  · have hw' : y + p < w + n - 1 := by omega
    rw [outerName_self, outerName_of_lt hw', outerName_of_lt hlt, outerName_self]
  · rw [outerName_of_gt h]
    rcases Nat.lt_trichotomy y w with hw | rfl | hw
    · have hw' : y + n - 1 < w + n - 1 := by omega
      rw [outerName_of_lt hw', outerName_of_lt hw, outerName_of_gt h]
    · have hv : v < y + q := by omega
      have he : y + n - 1 + q = y + q + n - 1 := by omega
      rw [outerName_self, outerName_self, outerName_of_gt hv, he]
    · have hw' : w + n - 1 < y + n - 1 := by omega
      have hv : v < y + m - 1 := by omega
      have he : y + n - 1 + m - 1 = y + m - 1 + n - 1 := by omega
      rw [outerName_of_gt hw', outerName_of_gt hw, outerName_of_gt hv, he]

theorem outerName_add (v w m q y : Nat) : v + outerName w m q y = outerName (v + w) m q (v + y) := by
  rcases Nat.lt_trichotomy y w with h | rfl | h
  · have hv : v + y < v + w := by omega
    rw [outerName_of_lt h, outerName_of_lt hv]
  · rw [outerName_self, outerName_self, Nat.add_assoc]
  · have hv : v + w < v + y := by omega
    rw [outerName_of_gt h, outerName_of_gt hv]
    omega

theorem outerName_outerName {w n m q : Nat} (v p : Nat) (hw : w < n) (hq : q < m) (y : Nat) :
    outerName (v + w) m q (outerName v n p y) = outerName v (n + m - 1) (outerName w m q p) y := by
  rcases Nat.lt_trichotomy y v with h | rfl | h
  · have hv : y < v + w := by omega
    rw [outerName_of_lt h, outerName_of_lt h, outerName_of_lt hv]
  · rw [outerName_self, outerName_self, outerName_add]
  · have hv : v + w < y + n - 1 := by omega
    have he : y + n - 1 + m - 1 = y + (n + m - 1) - 1 := by omega
    rw [outerName_of_gt h, outerName_of_gt h, outerName_of_gt hv, he]

end Body

/-- The second operation does what the first one does, on other values or from another point. -/
structure NamedOp.Alike (op op' : NamedOp) : Prop where
  operand : op'.operand = op.operand
  effect : op'.op.hasEffect = op.op.hasEffect
  access : ∀ s o, op.op = .access s o → ∃ o', op'.op = .access s o'

namespace NamedOp

theorem Alike.refl (op : NamedOp) : op.Alike op := ⟨rfl, rfl, fun _ o h => ⟨o, h⟩⟩

theorem alike_mapArgs (g : ValueId → ValueId) (op : NamedOp) : op.Alike (op.mapArgs g) := by
  obtain ⟨op, operand⟩ := op
  refine ⟨rfl, ?_, ?_⟩
  · cases op <;> rfl
  · rintro s o rfl
    exact ⟨o, rfl⟩

theorem alike_moved (pos : Nat) (offset : Offset) (op : NamedOp) : op.Alike (op.moved pos offset) := by
  obtain ⟨op, operand⟩ := op
  refine ⟨rfl, ?_, ?_⟩
  · cases op <;> rfl
  · rintro s o rfl
    exact ⟨o.compose offset, rfl⟩

theorem mapArgs_mapArgs (g h : ValueId → ValueId) (op : NamedOp) :
    (op.mapArgs g).mapArgs h = op.mapArgs fun v => h (g v) := by
  obtain ⟨op, operand⟩ := op
  cases op <;> simp [mapArgs, Op.mapArgs]

theorem moved_moved (v w : Nat) (p q : Offset) (op : NamedOp) :
    (op.moved w q).moved v p = op.moved (v + w) (q.compose p) := by
  obtain ⟨op, operand⟩ := op
  cases op <;> simp [moved, Op.shifted, Op.mapArgs, Offset.compose_assoc, Nat.add_assoc]

theorem mapArgs_moved {v w : Nat} {g : ValueId → ValueId} (h : ∀ x, g (w + x) = v + x) (offset : Offset)
    (op : NamedOp) : (op.moved w offset).mapArgs g = op.moved v offset := by
  obtain ⟨op, operand⟩ := op
  cases op <;> simp [moved, mapArgs, Op.shifted, Op.mapArgs, h]

theorem moved_mapArgs {v : Nat} {g h : ValueId → ValueId}
    (hgh : ∀ x, v + g x = h (v + x)) (offset : Offset)
    (op : NamedOp) : (op.mapArgs g).moved v offset = (op.moved v offset).mapArgs h := by
  obtain ⟨op, operand⟩ := op
  cases op <;> simp [moved, mapArgs, Op.shifted, Op.mapArgs, hgh]

end NamedOp

namespace NamedBody

variable {b P Q : NamedBody} {v w p q s s' : Nat} {o o' : Offset} {x x' : Option Operand}

theorem splice_append {front back : List NamedOp} {ret : Return} (hfront : front.length = v) :
    (NamedBody.mk (front ++ ⟨.access s o, x⟩ :: back) ret).splice v P p =
      ⟨front ++ P.ops.map (NamedOp.moved v o) ++
          back.map (NamedOp.mapArgs (Body.outerName v P.ops.length p)),
        { ret with values := ret.values.map (Body.outerName v P.ops.length p) }⟩ := by
  subst hfront
  simp [splice]

theorem length_splice (h : b.ops[v]? = some ⟨.access s o, x⟩) :
    (b.splice v P p).ops.length + 1 = b.ops.length + P.ops.length := by
  have hlt := (List.getElem?_eq_some_iff.mp h).1
  simp only [splice, h, List.length_append, List.length_take, List.length_map, List.length_drop]
  omega

theorem getElem?_splice (h : b.ops[v]? = some ⟨.access s o, x⟩) (i : Nat) :
    (b.splice v P p).ops[i]? =
      if i < v then b.ops[i]?
      else if i < v + P.ops.length then (P.ops[i - v]?).map (NamedOp.moved v o)
      else (b.ops[i - P.ops.length + 1]?).map (NamedOp.mapArgs (Body.outerName v P.ops.length p)) := by
  simp only [splice, h]
  rw [getElem?_take_append_drop (List.getElem?_eq_some_iff.mp h).1, List.length_map, List.getElem?_map]

theorem exists_splice_outer (h : b.ops[v]? = some ⟨.access s o, x⟩) (P : NamedBody) (p : Nat) {j : Nat}
    {op : NamedOp} (hj : b.ops[j]? = some op) (hne : j ≠ v) : ∃ op',
      (b.splice v P p).ops[Body.outerName v P.ops.length p j]? = some op' ∧ op.Alike op' := by
  rw [getElem?_splice h]
  rcases Nat.lt_or_gt_of_ne hne with hlt | hgt
  · rw [Body.outerName_of_lt hlt, if_pos hlt]
    exact ⟨op, hj, .refl op⟩
  · have hv : ¬ j + P.ops.length - 1 < v := by omega
    have hP : ¬ j + P.ops.length - 1 < v + P.ops.length := by omega
    have hidx : j + P.ops.length - 1 - P.ops.length + 1 = j := by omega
    rw [Body.outerName_of_gt hgt, if_neg hv, if_neg hP, hidx, hj]
    exact ⟨_, rfl, NamedOp.alike_mapArgs _ op⟩

theorem exists_splice_inner (h : b.ops[v]? = some ⟨.access s o, x⟩) (p : Nat) {j : Nat} {op : NamedOp}
    (hj : P.ops[j]? = some op) : ∃ op', (b.splice v P p).ops[v + j]? = some op' ∧ op.Alike op' := by
  have hlt := (List.getElem?_eq_some_iff.mp hj).1
  rw [getElem?_splice h, if_neg (by omega), if_pos (by omega), Nat.add_sub_cancel_left, hj]
  exact ⟨_, rfl, NamedOp.alike_moved v o op⟩

theorem exists_of_splice (h : b.ops[v]? = some ⟨.access s o, x⟩) {i : Nat} {op' : NamedOp}
    (hi : (b.splice v P p).ops[i]? = some op') :
    (∃ j op, b.ops[j]? = some op ∧ j ≠ v ∧ i = Body.outerName v P.ops.length p j ∧ op.Alike op') ∨
      ∃ j op, P.ops[j]? = some op ∧ i = v + j ∧ op.Alike op' := by
  rw [getElem?_splice h] at hi
  split at hi
  · next hlt => exact .inl ⟨i, op', hi, by omega, (Body.outerName_of_lt hlt).symm, .refl op'⟩
  · next hle =>
    split at hi
    · next hlt =>
      obtain ⟨op, hop, rfl⟩ := Option.map_eq_some_iff.mp hi
      exact .inr ⟨i - v, op, hop, by omega, NamedOp.alike_moved v o op⟩
    · next hlt =>
      obtain ⟨op, hop, rfl⟩ := Option.map_eq_some_iff.mp hi
      have hgt : v < i - P.ops.length + 1 := by omega
      have hidx : i = i - P.ops.length + 1 + P.ops.length - 1 := by omega
      exact .inl ⟨_, op, hop, by omega, by rw [Body.outerName_of_gt hgt, ← hidx],
        NamedOp.alike_mapArgs _ op⟩

theorem ret_splice (h : b.ops[v]? = some ⟨.access s o, x⟩) :
    (b.splice v P p).ret =
      { b.ret with values := b.ret.values.map (Body.outerName v P.ops.length p) } := by
  simp only [splice, h]

/-- Two accesses of one body can be spliced in either order. -/
theorem splice_splice_of_lt (hlt : v < w) (hv : b.ops[v]? = some ⟨.access s o, x⟩)
    (hw : b.ops[w]? = some ⟨.access s' o', x'⟩) (hp : p < P.ops.length) :
    (b.splice v P p).splice (w + P.ops.length - 1) Q q = (b.splice w Q q).splice v P p := by
  obtain ⟨ops, ret⟩ := b
  obtain ⟨front, rest, rfl, hfront⟩ := exists_append_of_getElem? hv
  have hrest : rest[w - v - 1]? = some ⟨.access s' o', x'⟩ := by
    rw [List.getElem?_append_right (by omega), hfront] at hw
    rwa [← List.getElem?_cons_succ (a := ⟨.access s o, x⟩), show w - v - 1 + 1 = w - v by omega]
  obtain ⟨middle, back, rfl, hmiddle⟩ := exists_append_of_getElem? hrest
  have hname := Body.outerName_comm Q.ops.length q hlt hp
  have hmoved : ∀ op : NamedOp, (op.moved w o').mapArgs (Body.outerName v P.ops.length p) =
      op.moved (w + P.ops.length - 1) o' := by
    refine NamedOp.mapArgs_moved (fun y => ?_) o'
    have hy : v < w + y := by omega
    have he : w + y + P.ops.length - 1 = w + P.ops.length - 1 + y := by omega
    rw [Body.outerName_of_gt hy, he]
  -- the second access, seen behind the operations of the first producer
  have hfirst : front ++ P.ops.map (NamedOp.moved v o) ++
      (middle ++ ⟨.access s' o', x'⟩ :: back).map (NamedOp.mapArgs (Body.outerName v P.ops.length p)) =
      (front ++ P.ops.map (NamedOp.moved v o) ++
        middle.map (NamedOp.mapArgs (Body.outerName v P.ops.length p))) ++
      ⟨.access s' o', x'⟩ :: back.map (NamedOp.mapArgs (Body.outerName v P.ops.length p)) := by
    simp [NamedOp.mapArgs, Op.mapArgs]
  have hsecond : front ++ ⟨.access s o, x⟩ :: (middle ++ ⟨.access s' o', x'⟩ :: back) =
      (front ++ ⟨.access s o, x⟩ :: middle) ++ ⟨.access s' o', x'⟩ :: back := by simp
  have hthird : ∀ ops ops' : List NamedOp, front ++ ⟨.access s o, x⟩ :: middle ++ ops ++ ops' =
      front ++ ⟨.access s o, x⟩ :: (middle ++ ops ++ ops') := by simp
  rw [splice_append hfront, hfirst, splice_append (by simp; omega), hsecond,
    splice_append (by simp; omega), hthird, splice_append hfront]
  simp only [List.map_append, List.map_map, List.append_assoc, Function.comp_def, NamedOp.mapArgs_mapArgs,
    hname, hmoved]

/-- A producer that takes in another can do so before or after it is spliced itself. -/
theorem splice_splice_inner (hv : b.ops[v]? = some ⟨.access s o, x⟩)
    (hw : P.ops[w]? = some ⟨.access s' o', x'⟩) (hq : q < Q.ops.length) :
    (b.splice v P p).splice (v + w) Q q =
      b.splice v (P.splice w Q q) (Body.outerName w Q.ops.length q p) := by
  have hwlt := (List.getElem?_eq_some_iff.mp hw).1
  obtain ⟨ops, ret⟩ := b
  obtain ⟨front, back, rfl, hfront⟩ := exists_append_of_getElem? hv
  obtain ⟨inner, innerRet⟩ := P
  obtain ⟨before, behind, rfl, hbefore⟩ := exists_append_of_getElem? hw
  have hadd := Body.outerName_add v w Q.ops.length q
  have hname := Body.outerName_outerName v p hwlt hq
  -- the access of the producer, where it has been moved to
  have hfirst : ∀ g : ValueId → ValueId,
      front ++ (before ++ ⟨.access s' o', x'⟩ :: behind).map (NamedOp.moved v o) ++
        back.map (NamedOp.mapArgs g) =
      (front ++ before.map (NamedOp.moved v o)) ++ ⟨.access s' (o'.compose o), x'⟩ ::
        (behind.map (NamedOp.moved v o) ++ back.map (NamedOp.mapArgs g)) := by
    intro g
    simp [NamedOp.moved, Op.shifted, Op.mapArgs]
  have hlength : ((before ++ ⟨.access s' o', x'⟩ :: behind).length + Q.ops.length - 1 =
      (before ++ Q.ops.map (NamedOp.moved w o') ++
        behind.map (NamedOp.mapArgs (Body.outerName w Q.ops.length q))).length) := by
    simp; omega
  rw [hlength] at hname
  rw [splice_append hfront, hfirst, splice_append (by simp; omega), splice_append hbefore,
    splice_append hfront]
  simp only [List.map_append, List.map_map, List.append_assoc, Function.comp_def, NamedOp.mapArgs_mapArgs,
    NamedOp.moved_moved, NamedOp.moved_mapArgs hadd]
  simp only [hname, List.append_assoc]

end NamedBody

namespace NamedRegion

open Inlining (Candidate)

variable {C P Q : NamedRegion} {c d : Candidate} {b : NamedBody} {o o' : Offset} {x x' : Option Operand}

theorem unroll_absorb (C P : NamedRegion) (c : Candidate) :
    (C.absorb c P).body.ret.unroll = C.body.ret.unroll := by
  unfold absorb NamedBody.splice
  split_ifs
  · rfl
  · simp only
    split <;> rfl

theorem epilogue_absorb (P : NamedRegion) (c : Candidate) (h : C.epilogue = none) :
    (C.absorb c P).epilogue = none := by
  simp [absorb, h]

theorem eq_body_of_part (h : C.epilogue = none) {flag : Bool} (hb : C.part flag = some b) :
    flag = false ∧ b = C.body := by
  cases flag with
  | false => exact ⟨rfl, (Option.some.inj hb).symm⟩
  | true =>
    rw [part, if_pos rfl, h] at hb
    cases hb

theorem body_absorb (P : NamedRegion) (h : c.inEpilogue = false) : (C.absorb c P).body =
    C.body.splice c.value P.body (P.body.ret.values.getD c.resultIndex 0) := by
  simp [absorb, h]

theorem absorb_comm_of_ne (C P Q : NamedRegion) (h : c.inEpilogue ≠ d.inEpilogue) :
    (C.absorb c P).absorb d Q = (C.absorb d Q).absorb c P := by
  refine ext_part rfl rfl rfl fun flag => ?_
  simp only [part_absorb, Option.map_map]
  congr 1
  funext b
  by_cases hc : flag = c.inEpilogue
  · have hd : flag ≠ d.inEpilogue := hc ▸ h
    simp [hc, h]
  · simp [hc]

theorem absorb_congr (C P : NamedRegion) (hvalue : c.value = d.value)
    (hflag : c.inEpilogue = d.inEpilogue) (hindex : c.resultIndex = d.resultIndex) :
    C.absorb c P = C.absorb d P := by
  simp only [absorb, hvalue, hflag, hindex]

theorem absorb_comm_of_lt (hflag : d.inEpilogue = c.inEpilogue) (hlt : c.value < d.value)
    (hb : C.part c.inEpilogue = some b) (hc : b.ops[c.value]? = some ⟨.access 0 o, x⟩)
    (hd : b.ops[d.value]? = some ⟨.access 0 o', x'⟩)
    (hp : P.body.ret.values.getD c.resultIndex 0 < P.body.ops.length) :
    (C.absorb c P).absorb { d with value := d.value + P.body.ops.length - 1 } Q =
      (C.absorb d Q).absorb c P := by
  refine ext_part rfl rfl rfl fun flag => ?_
  simp only [part_absorb, Option.map_map, hflag]
  by_cases h : flag = c.inEpilogue
  · subst h
    simp only [hb, Option.map_some, Function.comp_apply, ↓reduceIte, Option.some.injEq]
    exact NamedBody.splice_splice_of_lt hlt hc hd hp
  · simp [h]

theorem absorb_inner (hb : C.part c.inEpilogue = some b) (hc : b.ops[c.value]? = some ⟨.access 0 o, x⟩)
    (hflag : d.inEpilogue = false) (hd : P.body.ops[d.value]? = some ⟨.access 0 o', x'⟩)
    (hp : ∃ v, P.body.ret.values[c.resultIndex]? = some v)
    (hq : Q.body.ret.values.getD d.resultIndex 0 < Q.body.ops.length) :
    (C.absorb c P).absorb { d with inEpilogue := c.inEpilogue, value := c.value + d.value } Q =
      C.absorb c (P.absorb d Q) := by
  obtain ⟨v, hv⟩ := hp
  have hbody := body_absorb (C := P) Q hflag
  have hresult : (P.absorb d Q).body.ret.values.getD c.resultIndex 0 = Body.outerName d.value
      Q.body.ops.length (Q.body.ret.values.getD d.resultIndex 0)
        (P.body.ret.values.getD c.resultIndex 0) := by
    rw [hbody, NamedBody.ret_splice hd]
    simp [List.getD_eq_getElem?_getD, hv]
  refine ext_part rfl rfl rfl fun flag => ?_
  simp only [part_absorb, Option.map_map]
  by_cases h : flag = c.inEpilogue
  · subst h
    simp only [hb, Option.map_some, Function.comp_apply, ↓reduceIte, Option.some.injEq]
    rw [hresult, hbody]
    exact NamedBody.splice_splice_inner hc hd hq
  · cases C.part flag <;> simp [h]

end NamedRegion

namespace Inlining

/-- Where an operation is found after a splice: its value is named by its place. -/
def Candidate.carry (c : Candidate) (P : NamedRegion) (p : Outline.Spot) : Outline.Spot :=
  if p.region = c.producer then ⟨c.consumer, c.inEpilogue, c.value + p.value⟩
  else if p.region = c.consumer ∧ p.inEpilogue = c.inEpilogue then
    { p with
      value :=
        Body.outerName c.value P.body.ops.length (P.body.ret.values.getD c.resultIndex 0) p.value }
  else p

/-- The splice `d` when `c` has been made. -/
def Candidate.after (d c : Candidate) (P : NamedRegion) : Candidate :=
  ⟨d.producer, d.resultIndex, (c.carry P d.spot).region, (c.carry P d.spot).value,
    (c.carry P d.spot).inEpilogue⟩

theorem region_carry (c : Candidate) (P : NamedRegion) (p : Outline.Spot) :
    (c.carry P p).region = if p.region = c.producer then c.consumer else p.region := by
  unfold Candidate.carry
  split_ifs <;> rfl

theorem Candidate.after_of_apart (d c : Candidate) (P : NamedRegion) (hp : d.consumer ≠ c.producer)
    (hc : ¬ (d.consumer = c.consumer ∧ d.inEpilogue = c.inEpilogue)) : d.after c P = d := by
  have hcarry : c.carry P d.spot = d.spot := (if_neg hp).trans (if_neg hc)
  rw [after, hcarry]
  rfl

section Site

variable {V : Outline} {c : Candidate} {P C : NamedRegion} {temp : TempId} {offset : Offset}
  (S : Site V c P C temp offset)

include S

theorem Site.exists_part : ∃ b, C.part c.inEpilogue = some b ∧
    b.ops[c.value]? = some ⟨.access 0 offset, some (.temp temp)⟩ := by
  obtain ⟨r, b, hr, hb, hop⟩ := Outline.op?_eq_some_iff.mp S.access
  cases S.consumer.symm.trans hr
  exact ⟨b, hb, hop⟩

theorem Site.result_lt : P.body.ret.values.getD c.resultIndex 0 < P.body.ops.length := by
  obtain ⟨v, hv, hlt⟩ := S.returned
  rwa [List.getD_eq_getElem?_getD, hv, Option.getD_some]

theorem Site.op?_producer {p : Outline.Spot} {op : NamedOp} (hp : p.region = c.producer)
    (h : V.op? p = some op) : p.inEpilogue = false ∧ P.body.ops[p.value]? = some op := by
  obtain ⟨r, b, hr, hb, hop⟩ := Outline.op?_eq_some_iff.mp h
  rw [hp, S.producer] at hr
  cases hr
  obtain ⟨hflag, rfl⟩ := NamedRegion.eq_body_of_part S.plain.2 hb
  exact ⟨hflag, hop⟩

theorem Site.op?_splice_eq {b : NamedBody} (hb : C.part c.inEpilogue = some b) (p : Outline.Spot) :
    (V.splice c P).op? p = if p.region = c.producer then none
      else if p.region = c.consumer ∧ p.inEpilogue = c.inEpilogue then
        (b.splice c.value P.body (P.body.ret.values.getD c.resultIndex 0)).ops[p.value]?
      else V.op? p := by
  obtain ⟨id, flag, v⟩ := p
  simp only [Outline.op?, Outline.splice]
  by_cases hp : id = c.producer
  · simp [hp]
  · rw [if_neg hp, if_neg hp]
    by_cases hc : id = c.consumer
    · subst hc
      simp only [S.consumer, Option.map_some, Option.bind_some, Candidate.update, ↓reduceIte,
        NamedRegion.part_absorb, true_and]
      by_cases hflag : flag = c.inEpilogue
      · subst hflag
        simp [hb]
      · simp [hflag]
    · have hupdate : c.update P id = fun r => r := by
        funext r
        rw [Candidate.update, if_neg hc]
      rw [hupdate, Option.map_id', if_neg (fun h => hc h.1)]

theorem Site.exists_of_op?_splice {q : Outline.Spot} {op' : NamedOp}
    (h : (V.splice c P).op? q = some op') :
    ∃ p op, V.op? p = some op ∧ p ≠ c.spot ∧ q = c.carry P p ∧ op.Alike op' := by
  obtain ⟨b, hb, haccess⟩ := S.exists_part
  obtain ⟨id, flag, v⟩ := q
  rw [S.op?_splice_eq hb] at h
  split at h
  · cases h
  · next hp =>
    split at h
    · next hq =>
      obtain ⟨rfl, rfl⟩ := hq
      rcases NamedBody.exists_of_splice haccess h with
        ⟨j, op, hop, hne, rfl, halike⟩ | ⟨j, op, hop, rfl, halike⟩
      · refine ⟨⟨c.consumer, c.inEpilogue, j⟩, op, ?_, ?_, ?_, halike⟩
        · simp [Outline.op?, S.consumer, hb, hop]
        · exact fun he => hne (congrArg Outline.Spot.value he)
        · simp [Candidate.carry, S.distinct]
      · refine ⟨⟨c.producer, false, j⟩, op, ?_, ?_, ?_, halike⟩
        · simp [Outline.op?, S.producer, NamedRegion.part, hop]
        · exact fun he => S.distinct (congrArg Outline.Spot.region he).symm
        · simp [Candidate.carry]
    · next hq =>
      refine ⟨_, op', h, ?_, ?_, .refl op'⟩
      · exact fun he => hq ⟨congrArg Outline.Spot.region he, congrArg Outline.Spot.inEpilogue he⟩
      · rw [Candidate.carry, if_neg hp, if_neg hq]

/-- What was there before and is not the spliced access is found after the splice. -/
theorem Site.exists_op?_carry {p : Outline.Spot} {op : NamedOp} (h : V.op? p = some op)
    (hne : p ≠ c.spot) :
    ∃ op', (V.splice c P).op? (c.carry P p) = some op' ∧ op.Alike op' := by
  obtain ⟨b, hb, haccess⟩ := S.exists_part
  rw [S.op?_splice_eq hb, Candidate.carry]
  by_cases hp : p.region = c.producer
  · obtain ⟨_, hop⟩ := S.op?_producer hp h
    simp only [hp, ↓reduceIte, S.distinct, and_self]
    exact NamedBody.exists_splice_inner haccess _ hop
  · by_cases hq : p.region = c.consumer ∧ p.inEpilogue = c.inEpilogue
    · obtain ⟨id, flag, v⟩ := p
      obtain ⟨rfl, rfl⟩ := hq
      have hop : b.ops[v]? = some op := by simpa [Outline.op?, S.consumer, hb] using h
      simp only [↓reduceIte, S.distinct, and_self]
      exact NamedBody.exists_splice_outer haccess _ _ hop fun he => hne (by rw [he]; rfl)
    · simp only [if_neg hp, if_neg hq]
      exact ⟨op, h, .refl op⟩

end Site

theorem Candidate.results_update (c : Candidate) (P : NamedRegion) (id : RegionId) (r : NamedRegion) :
    (c.update P id r).results = r.results := by
  unfold update
  split <;> rfl

theorem Candidate.shape_update (c : Candidate) (P : NamedRegion) (id : RegionId) (r : NamedRegion) :
    (c.update P id r).shape = r.shape := by
  unfold update
  split <;> rfl

section Pair

variable {V : Outline} {c d : Candidate} {P C Q D : NamedRegion} {t u : TempId} {o o' : Offset}
  (S : Site V c P C t o) (T : Site V d Q D u o') (hne : d.producer ≠ c.producer)

include S T hne

theorem Site.disjoint {x : TempId} (hP : x ∈ P.results) : x ∉ Q.results := by
  intro hQ
  obtain ⟨y, hy, hc⟩ := S.owned x hP
  obtain ⟨y', hy', hd⟩ := T.owned x hQ
  cases hy.symm.trans hy'
  exact hne (hd.symm.trans hc)

theorem Site.spot_ne : d.spot ≠ c.spot := by
  intro he
  have haccess := T.access
  rw [he, S.access] at haccess
  cases haccess
  exact S.disjoint T hne (List.mem_of_getElem? S.result) (List.mem_of_getElem? T.result)

omit S in
theorem Site.region?_producer : (V.splice c P).region? d.producer = some (c.update P d.producer Q) := by
  simp only [Outline.splice, if_neg hne, T.producer, Option.map_some]

omit S hne in
theorem Site.plain_update : (c.update P d.producer Q).body.ret.unroll = none ∧
    (c.update P d.producer Q).epilogue = none := by
  unfold Candidate.update
  split
  · exact ⟨(NamedRegion.unroll_absorb Q P c).trans T.plain.1, NamedRegion.epilogue_absorb P c T.plain.2⟩
  · exact T.plain

theorem Site.quiet_update {op : NamedOp} (h : op ∈ (c.update P d.producer Q).body.ops) :
    op.op.hasEffect = false := by
  obtain ⟨v, hv⟩ := List.mem_iff_getElem?.mp h
  have hop : (V.splice c P).op? ⟨d.producer, false, v⟩ = some op :=
    Outline.op?_eq_some_iff.mpr ⟨_, _, T.region?_producer hne, rfl, hv⟩
  obtain ⟨p, op₀, hp, _, hcarry, halike⟩ := S.exists_of_op?_splice hop
  rw [halike.effect]
  have hregion := congrArg Outline.Spot.region hcarry
  rw [region_carry] at hregion
  split at hregion
  · next hpc => exact S.quiet op₀ (List.mem_of_getElem? (S.op?_producer hpc hp).2)
  · exact T.quiet op₀ (List.mem_of_getElem? (T.op?_producer hregion.symm hp).2)

omit hne in
theorem Site.returned_update : ∃ v, (c.update P d.producer Q).body.ret.values[d.resultIndex]? = some v ∧
    v < (c.update P d.producer Q).body.ops.length := by
  unfold Candidate.update
  split
  · next hd =>
    obtain ⟨b, hb, haccess⟩ := S.exists_part
    have hQ : Q = C := by
      have hproducer := T.producer
      rw [hd, S.consumer] at hproducer
      exact (Option.some.inj hproducer).symm
    subst hQ
    obtain ⟨hflag, rfl⟩ := NamedRegion.eq_body_of_part T.plain.2 hb
    obtain ⟨v, hv, hlt⟩ := T.returned
    have hlen :=
      NamedBody.length_splice (P := P.body) (p := P.body.ret.values.getD c.resultIndex 0) haccess
    rw [NamedRegion.body_absorb P hflag, NamedBody.ret_splice haccess]
    refine ⟨Body.outerName c.value P.body.ops.length (P.body.ret.values.getD c.resultIndex 0) v, ?_, ?_⟩
    · simp only [List.getElem?_map, hv, Option.map_some]
    · have hpos := (List.getElem?_eq_some_iff.mp haccess).1
      exact Nat.lt_of_lt_of_eq (Body.outerName_lt S.result_lt hlt hpos) (by omega)
  · exact T.returned

theorem Site.access_after :
    ∃ o'', (V.splice c P).op? (d.after c P).spot = some ⟨.access 0 o'', some (.temp u)⟩ := by
  obtain ⟨op', hop', halike⟩ := S.exists_op?_carry T.access (S.spot_ne T hne)
  obtain ⟨o'', ho''⟩ := halike.access 0 o' rfl
  have hoperand : op'.operand = some (.temp u) := halike.operand
  have haccess : op' = ⟨.access 0 o'', some (.temp u)⟩ := by
    rw [← ho'', ← hoperand]
  exact ⟨o'', haccess ▸ hop'⟩

omit hne in
/-- The region that makes this access: the one that took its region in, if that was spliced. -/
theorem Site.consumer_after (hacyclic : ¬ (d.consumer = c.producer ∧ c.consumer = d.producer)) :
    ∃ D', (V.splice c P).region? (d.after c P).consumer = some D' ∧ D'.shape.isKnown = true ∧
      (d.after c P).consumer ≠ d.producer := by
  have hregion := region_carry c P d.spot
  by_cases hd : d.consumer = c.producer
  · have hconsumer : (d.after c P).consumer = c.consumer := hregion.trans (if_pos hd)
    rw [hconsumer]
    refine ⟨c.update P c.consumer C, ?_, ?_, fun he => hacyclic ⟨hd, he⟩⟩
    · simp only [Outline.splice, if_neg S.distinct, S.consumer, Option.map_some]
    · rw [Candidate.shape_update]
      exact S.consumed
  · have hconsumer : (d.after c P).consumer = d.consumer := hregion.trans (if_neg hd)
    rw [hconsumer]
    refine ⟨c.update P d.consumer D, ?_, ?_, T.distinct⟩
    · simp only [Outline.splice, if_neg hd, T.consumer, Option.map_some]
    · rw [Candidate.shape_update]
      exact T.consumed

omit hne in
theorem Site.only_after {q : Outline.Spot} {op : NamedOp} {x : TempId}
    (hq : (V.splice c P).op? q = some op)
    (hx : op.operand = some (.temp x)) (hmem : x ∈ Q.results) : q = (d.after c P).spot := by
  obtain ⟨p, op₀, hp, _, rfl, halike⟩ := S.exists_of_op?_splice hq
  rw [halike.operand] at hx
  rw [T.only p op₀ x hp hx hmem]
  rfl

/-- After one splice the other can still be made. -/
theorem Site.after (hacyclic : ¬ (d.consumer = c.producer ∧ c.consumer = d.producer)) :
    ∃ D' o'', Site (V.splice c P) (d.after c P) (c.update P d.producer Q) D' u o'' := by
  obtain ⟨o'', haccess⟩ := S.access_after T hne
  obtain ⟨D', hconsumer, hknown, hdistinct⟩ := S.consumer_after T hacyclic
  have hresults := c.results_update P d.producer Q
  have hshape := c.shape_update P d.producer Q
  refine ⟨D', o'', T.region?_producer hne, hconsumer, hdistinct, hresults ▸ T.result, haccess,
    hshape ▸ T.produced, hknown, T.plain_update, fun op hop =>
    S.quiet_update T hne hop, ?_, hresults ▸ T.unmarked, ?_,
    S.returned_update T⟩
  · intro q op x hq hx hmem
    rw [hresults] at hmem
    exact S.only_after T hq hx hmem
  · intro x hx
    rw [hresults] at hx
    have hP : x ∉ P.results := fun hP => S.disjoint T hne hP hx
    simp only [Outline.splice, if_neg hP]
    exact T.owned x hx

omit S T hne in
theorem Site.absorb_after_comm_of_lt (S : Site V c P C t o) (T : Site V d Q C u o')
    (hsame : d.consumer = c.consumer)
    (hflag : d.inEpilogue = c.inEpilogue) (hlt : c.value < d.value) :
    (C.absorb c P).absorb (d.after c P) Q = (C.absorb d Q).absorb (c.after d Q) P := by
  obtain ⟨b, hb, hc⟩ := S.exists_part
  obtain ⟨b', hb', hd⟩ := T.exists_part
  rw [hflag, hb] at hb'
  cases hb'
  have hcp : c.consumer ≠ d.producer := hsame ▸ T.distinct
  have hd' : d.after c P = { d with value := d.value + P.body.ops.length - 1 } := by
    simp [Candidate.after, Candidate.carry, Candidate.spot, hsame, hflag, S.distinct,
      Body.outerName_of_gt hlt]
  have hc' : c.after d Q = c := by
    simp [Candidate.after, Candidate.carry, Candidate.spot, hcp, hsame, hflag, Body.outerName_of_lt hlt]
  rw [hd', hc']
  exact NamedRegion.absorb_comm_of_lt hflag hlt hb hc hd S.result_lt

omit S T hne in
theorem Site.absorb_after_comm (S : Site V c P C t o) (T : Site V d Q C u o')
    (hne : d.producer ≠ c.producer)
    (hsame : d.consumer = c.consumer) :
    (C.absorb c P).absorb (d.after c P) Q = (C.absorb d Q).absorb (c.after d Q) P := by
  by_cases hflag : d.inEpilogue = c.inEpilogue
  · have hvalue : d.value ≠ c.value := by
      intro he
      refine S.spot_ne T hne ?_
      rw [Candidate.spot, Candidate.spot, hsame, hflag, he]
    rcases Nat.lt_or_gt_of_ne hvalue with hlt | hlt
    · exact (T.absorb_after_comm_of_lt S hsame.symm hflag.symm hlt).symm
    · exact S.absorb_after_comm_of_lt T hsame hflag hlt
  · rw [Candidate.after_of_apart d c P (hsame ▸ S.distinct) fun h => hflag h.2,
      Candidate.after_of_apart c d Q (hsame ▸ T.distinct) fun h => hflag h.2.symm]
    exact NamedRegion.absorb_comm_of_ne C P Q fun h => hflag h.symm

omit hne in
theorem Site.absorb_after_chain (hchain : d.consumer = c.producer) :
    (C.absorb c P).absorb (d.after c P) Q = C.absorb c (P.absorb d Q) := by
  obtain ⟨b, hb, hc⟩ := S.exists_part
  obtain ⟨b', hb', hd⟩ := T.exists_part
  have hD : D = P := by
    have hconsumer := T.consumer
    rw [hchain, S.producer] at hconsumer
    exact (Option.some.inj hconsumer).symm
  subst hD
  obtain ⟨hflag, rfl⟩ := NamedRegion.eq_body_of_part S.plain.2 hb'
  have hcarry : c.carry D d.spot = ⟨c.consumer, c.inEpilogue, c.value + d.value⟩ := if_pos hchain
  obtain ⟨v, hv, _⟩ := S.returned
  rw [← NamedRegion.absorb_inner hb hc hflag hd ⟨v, hv⟩ T.result_lt]
  exact NamedRegion.absorb_congr _ _ (congrArg Outline.Spot.value hcarry)
    (congrArg Outline.Spot.inEpilogue hcarry) rfl

theorem Site.update_comm (hdp : c.consumer ≠ d.producer) :
    (d.after c P).update (c.update P d.producer Q) c.consumer (c.update P c.consumer C) =
      (c.after d Q).update (d.update Q c.producer P) c.consumer (d.update Q c.consumer C) := by
  have hQ : c.update P d.producer Q = Q := if_neg (Ne.symm hdp)
  have hC : c.update P c.consumer C = C.absorb c P := if_pos rfl
  have hregion := region_carry c P d.spot
  have hc' : c.consumer = (c.after d Q).consumer := ((region_carry d Q c.spot).trans (if_neg hdp)).symm
  rw [hQ, hC, Candidate.update, Candidate.update, if_pos hc']
  by_cases hchain : d.consumer = c.producer
  · have hd' : c.consumer = (d.after c P).consumer := (hregion.trans (if_pos hchain)).symm
    have hother : c.consumer ≠ d.consumer := hchain ▸ S.distinct
    rw [if_pos hd', Candidate.update, Candidate.update, if_neg hother, if_pos hchain.symm,
      Candidate.after_of_apart c d Q hdp fun h => hother h.1]
    exact S.absorb_after_chain T hchain
  · have hd' : (d.after c P).consumer = d.consumer := hregion.trans (if_neg hchain)
    have hP : d.update Q c.producer P = P := if_neg (Ne.symm hchain)
    rw [hd', hP]
    by_cases hsame : d.consumer = c.consumer
    · have hD : D = C := by
        have hconsumer := T.consumer
        rw [hsame, S.consumer] at hconsumer
        exact (Option.some.inj hconsumer).symm
      subst hD
      rw [if_pos hsame.symm, Candidate.update, if_pos hsame.symm]
      exact S.absorb_after_comm T hne hsame
    · rw [if_neg (Ne.symm hsame), Candidate.update, if_neg (Ne.symm hsame),
        Candidate.after_of_apart c d Q hdp fun h => hsame h.1.symm]

omit S T hne in
theorem Candidate.update_after_of_ne {id : RegionId} (hc : id ≠ c.consumer) (hd : id ≠ d.consumer)
    (r : NamedRegion) : (d.after c P).update Q id (c.update P id r) = r := by
  have hregion : id ≠ (c.carry P d.spot).region := by
    rw [region_carry]
    split
    · exact hc
    · exact hd
  rw [update, update, if_neg hc]
  exact if_neg hregion

/-- Two splices can be made in either order. -/
theorem Site.splice_comm : (V.splice c P).splice (d.after c P) (c.update P d.producer Q) =
    (V.splice d Q).splice (c.after d Q) (d.update Q c.producer P) := by
  refine Outline.ext rfl rfl rfl rfl (funext fun x => ?_) (funext fun id => ?_)
  · simp only [Outline.splice, Candidate.results_update]
    by_cases hP : x ∈ P.results
    · simp [hP]
    · simp [hP]
  · change (if id = d.producer then none else (if id = c.producer then none else
        (V.region? id).map (c.update P id)).map ((d.after c P).update (c.update P d.producer Q) id)) =
      if id = c.producer then none else (if id = d.producer then none else
        (V.region? id).map (d.update Q id)).map ((c.after d Q).update (d.update Q c.producer P) id)
    by_cases hc : id = c.producer
    · simp [hc]
    · by_cases hd : id = d.producer
      · simp [hd]
      · rw [if_neg hc, if_neg hd, if_neg hc, if_neg hd, Option.map_map, Option.map_map]
        cases hr : V.region? id with
        | none => rfl
        | some r =>
          simp only [Option.map_some, Function.comp_apply, Option.some.injEq]
          by_cases hcc : id = c.consumer
          · subst hcc
            cases S.consumer.symm.trans hr
            exact S.update_comm T hne hd
          · by_cases hdc : id = d.consumer
            · subst hdc
              cases T.consumer.symm.trans hr
              exact (T.update_comm S (Ne.symm hne) hc).symm
            · exact (Candidate.update_after_of_ne hcc hdc r).trans
                (Candidate.update_after_of_ne hdc hcc r).symm

end Pair

end Inlining

end Stencil
