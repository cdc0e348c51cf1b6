import Stencil.Proofs.Closure
import Stencil.Proofs.Unrolling

/-! Coordinates under inlining and unrolling. A splice adds the offsets of two accesses and a replica
adds its number, and neither looks at the range that the offsets of a valid function keep to. -/

set_option autoImplicit false

namespace Stencil

def Op.offset? : Op → Option Offset
  | .access _ o | .index _ o => some o
  | _ => none

theorem Op.inRange_iff {op : Op} : op.InRange ↔ ∀ o, op.offset? = some o → o.inRange = true := by
  cases op <;> simp [Op.InRange, Op.offset?]

theorem Offset.inRange_iff {o : Offset} :
    o.inRange = true ↔ ∀ d, d < o.length → -maxCoord ≤ coord o d ∧ coord o d ≤ maxCoord := by
  simp only [inRange, List.all_eq_true, coordInRange, Bool.and_eq_true, decide_eq_true_eq]
  constructor
  · intro h d hd
    rw [coord_eq_getElem hd]
    exact h _ (List.getElem_mem hd)
  · intro h x hx
    obtain ⟨d, hd, rfl⟩ := List.mem_iff_getElem.mp hx
    rw [← coord_eq_getElem hd]
    exact h d hd

namespace Func

/-- What a region reads, itself or through the regions that it reads, and at which offset: an operand
or, without one, coordinates. -/
inductive Reaches (f : Func) : RegionId → Option Operand → Offset → Prop
  | access {id : RegionId} {r : Region} {b : Body} {slot : Nat} {o : Offset} {x : Operand}
      (hr : f.region? id = some r) (hb : b ∈ r.bodies) (ho : .access slot o ∈ b.ops)
      (hs : r.operands[slot]? = some x) : Reaches f id (some x) o
  | index {id : RegionId} {r : Region} {b : Body} {dim : Nat} {o : Offset}
      (hr : f.region? id = some r) (hb : b ∈ r.bodies) (ho : .index dim o ∈ b.ops) : Reaches f id none o
  | through {id : RegionId} {t : TempId} {x : Temporary} {target : Option Operand} {o p : Offset}
      (hread : Reaches f id (some (.temp t)) o) (hx : f.temp? t = some x)
      (hnext : Reaches f x.producer target p) : Reaches f id target (p.compose o)

theorem Sound.exists_reaches {f : Func} (hf : f.Sound) {id : RegionId} {r : Region} {b : Body} {op : Op}
    {o : Offset} (hr : f.region? id = some r) (hb : b ∈ r.bodies) (hop : op ∈ b.ops)
    (ho : op.offset? = some o) : ∃ target, f.Reaches id target o := by
  cases op with
  | access s q =>
    cases ho
    obtain ⟨x, hs, _⟩ := hf.reads id r b s o hr hb hop
    exact ⟨_, .access hr hb hop hs⟩
  | index d q =>
    cases ho
    exact ⟨none, .index hr hb hop⟩
  | constant c => cases ho
  | unary g a => cases ho
  | binary g l r => cases ho
  | call c as q => cases ho

end Func

theorem Op.mapArgs_eq_index_iff {g : ValueId → ValueId} {op : Op} {dim : Nat} {o : Offset} :
    op.mapArgs g = .index dim o ↔ op = .index dim o := by
  cases op <;> simp [Op.mapArgs]

theorem Op.mapSlot_eq_index_iff {g : Nat → Nat} {op : Op} {dim : Nat} {o : Offset} :
    op.mapSlot g = .index dim o ↔ op = .index dim o := by
  cases op <;> simp [Op.mapSlot]

theorem Op.shifted_eq_index_iff {delta : Offset} {op : Op} {dim : Nat} {o : Offset} :
    op.shifted delta = .index dim o ↔ ∃ o', op = .index dim o' ∧ o = o'.compose delta := by
  cases op with
  | index d q =>
    simp only [Op.shifted, Op.index.injEq]
    constructor
    · rintro ⟨rfl, rfl⟩
      exact ⟨q, ⟨rfl, rfl⟩, rfl⟩
    · rintro ⟨o', ⟨rfl, rfl⟩, rfl⟩
      exact ⟨rfl, rfl⟩
  | access s q => simp [Op.shifted]
  | constant c => simp [Op.shifted]
  | unary g a => simp [Op.shifted]
  | binary g l r => simp [Op.shifted]
  | call c as q => simp [Op.shifted]

theorem Body.index_mem_splice_ops {b inner : Body} {pos slot result dim : Nat} {offset o : Offset}
    {slots : List Nat} (h : b.ops[pos]? = some (.access slot offset))
    (ho : .index dim o ∈ (b.splice pos inner result slots).ops) :
    .index dim o ∈ b.ops ∨ ∃ o', .index dim o' ∈ inner.ops ∧ o = o'.compose offset := by
  rw [splice_ops h, List.mem_append, List.mem_append, List.mem_map, List.mem_map] at ho
  rcases ho with (ho | ⟨op, hop, he⟩) | ⟨op, hop, he⟩
  · exact .inl (List.mem_of_mem_take ho)
  · rw [innerOp, Op.mapArgs_eq_index_iff, Op.mapSlot_eq_index_iff, Op.shifted_eq_index_iff] at he
    obtain ⟨o', rfl, rfl⟩ := he
    exact .inr ⟨o', hop, rfl⟩
  · rw [Op.mapArgs_eq_index_iff] at he
    subst he
    exact .inl (List.mem_of_mem_drop hop)

namespace Inlining

section Spliceable

variable {f : Func} {c : Candidate} {P C : Region} {B : Body} {temp : TempId} {slot : Nat}
  {offset : Offset} {dP dC : Box} (S : Spliceable f c P C B temp slot offset dP dC)

include S

theorem Spliceable.bounded_applySplice (h : f.Bounded) : (applySplice f c).Bounded := by
  have heq := S.applySplice_eq
  rw [Func.removeRegion_eq S.region?_producer] at heq
  rw [heq]
  exact ⟨h.buffer, h.output⟩

variable (hf : f.Sound)

include hf

theorem Spliceable.reaches_result :
    f.Reaches c.consumer (some (.temp temp)) offset ∧ ∃ x, f.temp? temp = some x ∧
      x.producer = c.producer := by
  obtain ⟨x, hx, hp, _⟩ := hf.owned c.producer P c.resultIndex temp S.producer S.result
  exact ⟨.access S.consumer (Region.mem_bodies_iff.mpr ⟨_, S.part⟩) (List.mem_of_getElem? S.access)
    S.operand, x, hx, hp⟩

theorem Spliceable.reaches_of_access {s : Nat} {o : Offset} {b : Body} {x : Operand}
    (hb : b ∈ (mergeRegion c P C).bodies) (ho : .access s o ∈ b.ops)
    (hs : (mergeRegion c P C).operands[s]? = some x) : f.Reaches c.consumer (some x) o := by
  obtain ⟨σ, hren⟩ := S.exists_renumbered hf
  obtain ⟨flag, hpart⟩ := Region.mem_bodies_iff.mp hb
  rw [hren.part] at hpart
  obtain ⟨b₀, hb₀, rfl⟩ := Option.map_eq_some_iff.mp hpart
  obtain ⟨s₀, ho₀, rfl⟩ := Body.access_mem_mapSlots.mp ho
  rw [hren.operands b₀ s₀ o (Region.mem_bodies_iff.mpr ⟨flag, hb₀⟩) ho₀] at hs
  rcases (S.access_merged_iff hb₀).mp ho₀ with ⟨b', v, hb', hop, _⟩ | ⟨_, s', o', hop, rfl, rfl⟩
  · have hb' := Region.mem_bodies_iff.mpr ⟨flag, hb'⟩
    have hop := List.mem_of_getElem? hop
    obtain ⟨y, hy, _⟩ := hf.reads c.consumer C b' s₀ o S.consumer hb' hop
    rw [merged_operands_outer c P C hy] at hs
    cases hs
    exact .access S.consumer hb' hop hy
  · obtain ⟨y, hy, _⟩ := hf.reads c.producer P P.body s' o' S.producer (by simp [Region.bodies]) hop
    rw [merged_operands_inner c P C hy] at hs
    cases hs
    obtain ⟨hread, z, hz, hp⟩ := S.reaches_result hf
    exact .through hread hz (hp ▸ .access S.producer (by simp [Region.bodies]) hop hy)

theorem Spliceable.reaches_of_index {dim : Nat} {o : Offset} {b : Body}
    (hb : b ∈ (mergeRegion c P C).bodies) (ho : .index dim o ∈ b.ops) : f.Reaches c.consumer none o := by
  obtain ⟨σ, hren⟩ := S.exists_renumbered hf
  obtain ⟨flag, hpart⟩ := Region.mem_bodies_iff.mp hb
  rw [hren.part, merged_part, Option.map_map] at hpart
  obtain ⟨b₀, hb₀, rfl⟩ := Option.map_eq_some_iff.mp hpart
  obtain ⟨op, ho, he⟩ := List.mem_map.mp ho
  rw [Op.mapSlot_eq_index_iff] at he
  subst he
  simp only at ho
  by_cases hflag : flag = c.inEpilogue
  · have hB : b₀ = B := by
      rw [hflag, S.part] at hb₀
      exact (Option.some.inj hb₀).symm
    subst hB
    rw [if_pos hflag] at ho
    rcases Body.index_mem_splice_ops S.access ho with ho | ⟨o', ho', rfl⟩
    · exact .index S.consumer (Region.mem_bodies_iff.mpr ⟨flag, hb₀⟩) ho
    · obtain ⟨hread, z, hz, hp⟩ := S.reaches_result hf
      exact .through hread hz (hp ▸ .index S.producer (by simp [Region.bodies]) ho')
  · rw [if_neg hflag] at ho
    exact .index S.consumer (Region.mem_bodies_iff.mpr ⟨flag, hb₀⟩) ho

theorem Spliceable.reaches_of_applySplice {id : RegionId} {target : Option Operand} {o : Offset}
    (h : (applySplice f c).Reaches id target o) : f.Reaches id target o := by
  induction h with
  | access hr hb ho hs =>
    obtain ⟨_, ⟨rfl, rfl⟩ | ⟨_, hr⟩⟩ := S.region_cases hr
    · exact S.reaches_of_access hf hb ho hs
    · exact .access hr hb ho hs
  | index hr hb ho =>
    obtain ⟨_, ⟨rfl, rfl⟩ | ⟨_, hr⟩⟩ := S.region_cases hr
    · exact S.reaches_of_index hf hb ho
    · exact .index hr hb ho
  | through _ hx _ ihread ihnext => exact .through ihread (S.temp_cases hx).2 ihnext

end Spliceable

/-- After inlining every offset is one that its region reached before, and nothing else that the
coordinates have to obey has changed. -/
theorem coordinates_run {f : Func} (hf : f.Sound) (hb : f.Bounded) :
    (run f).1.Sound ∧ (run f).1.Bounded ∧
      ∀ id target o, (run f).1.Reaches id target o → f.Reaches id target o := by
  refine run_induction (Q := fun g => g.Bounded ∧ ∀ id target o, g.Reaches id target o →
    f.Reaches id target o)
    ?_ ?_ hf ⟨hb, fun _ _ _ h => h⟩
  · rintro g c P C B temp slot offset dP dC S hg ⟨hbound, hreach⟩
    exact ⟨S.bounded_applySplice hbound, fun id target o h =>
      hreach id target o (S.reaches_of_applySplice hg h)⟩
  · rintro g ⟨hbound, hreach⟩
    refine ⟨⟨hbound.buffer, hbound.output⟩, ?_⟩
    intro id target o h
    apply hreach
    induction h with
    | access hr hb ho hs => exact .access hr hb ho hs
    | index hr hb ho => exact .index hr hb ho
    | through _ hx _ ihread ihnext => exact .through ihread hx ihnext

end Inlining

theorem Words.offset?_replicaOp (W : Words Id) (axis n k : Nat) (op : Op) :
    (W.replicaOp axis n k op).offset? =
      op.offset?.map fun o => o.compose (Offset.shiftedAlong (Offset.zeros o.length) axis k) := by
  cases op <;> rfl

theorem Offset.inRange_replicas_iff {o : Offset} {axis factor : Nat} (haxis : axis < o.length)
    (hfactor : 2 ≤ factor) (ho : o.inRange = true) :
    (∀ k, k < factor → (o.compose (shiftedAlong (zeros o.length) axis k)).inRange = true) ↔
      coord o axis + factor - 1 ≤ maxCoord := by
  have hlen : ∀ k : Nat, (o.compose (shiftedAlong (zeros o.length) axis k)).length = o.length :=
    fun k => length_compose rfl (by simp)
  rw [inRange_iff] at ho
  constructor
  · intro h
    have hlast := (inRange_iff.mp (h (factor - 1) (by omega)) axis (by rw [hlen]; exact haxis)).2
    rw [coord_compose_along rfl haxis, if_pos rfl] at hlast
    omega
  · intro h k hk
    rw [inRange_iff]
    intro d hd
    rw [hlen] at hd
    rw [coord_compose_along rfl hd]
    have hd' := ho d hd
    split
    · next heq =>
      subst heq
      omega
    · omega

namespace Unrolling

section Words

variable (W : Words Id) (options : Options)

/-- The region as a run with the options leaves it. -/
def afterRun (rank : Nat) (r : Region) : Region :=
  if selects options r.name then
    match check options rank r with
    | .ok divisible => unrolledIn W options divisible r
    | .error _ => r
  else r

theorem check_unrolled {options : Options} {rank : Nat} {r : Region} {divisible : Bool}
    (h : check options rank r = .ok divisible) (d : Bool) :
    ∃ e, check options rank (unrolledIn W options d r) = .error e := by
  unfold check at h ⊢
  split at h
  · cases h
  · split at h
    · cases h
    · next hfactor haxis => simp [hfactor, haxis, unroll_unrolledIn]

theorem afterRun_afterRun (rank : Nat) (r : Region) :
    afterRun W options rank (afterRun W options rank r) = afterRun W options rank r := by
  by_cases hsel : selects options r.name = true
  · cases hc : check options rank r with
    | error e => simp [afterRun, hsel, hc]
    | ok d =>
      obtain ⟨e, he⟩ := check_unrolled W hc d
      have hname : (unrolledIn W options d r).name = r.name := rfl
      simp [afterRun, hsel, hc, hname, he]
  · simp [afterRun, hsel]

theorem step_region? (f : Func) (report : Report) (id id' : RegionId) :
    (stepIn W options (f, report) id).1.rank = f.rank ∧
      (stepIn W options (f, report) id).1.region? id' =
        if id = id' then (f.region? id').map (afterRun W options f.rank) else f.region? id' := by
  cases hr : f.region? id with
  | none =>
    have hstep : (stepIn W options (f, report) id).1 = f := by
      simp only [stepIn, unrollRegionIn, hr]
      split <;> rfl
    rw [hstep]
    refine ⟨rfl, ?_⟩
    split
    · next he =>
      subst he
      rw [hr]
      rfl
    · rfl
  | some r =>
    have hself : ∀ g : Region → Region, g r = r →
        f.region? id' = if id = id' then (f.region? id').map g else f.region? id' := by
      intro g hg
      split
      · next he => rw [← he, hr, Option.map_some, hg]
      · rfl
    cases hsel : selects options r.name with
    | false =>
      rw [stepIn_of_not_selected hr hsel]
      exact ⟨rfl, hself _ (by simp [afterRun, hsel])⟩
    | true =>
      cases hc : check options f.rank r with
      | error e =>
        rw [stepIn_of_check_error hr hsel hc]
        exact ⟨rfl, hself _ (by simp [afterRun, hsel, hc])⟩
      | ok d =>
        rw [stepIn_of_check_ok hr hsel hc, Func.region?_modifyRegion]
        refine ⟨rfl, ?_⟩
        split
        · next he => rw [← he, hr, Option.map_some, Option.map_some, afterRun, if_pos hsel, hc]
        · rfl

theorem loop_region? (ids : List RegionId) (f : Func) (report : Report) (id : RegionId) :
    (ids.foldlM (stepIn W options) (f, report)).1.region? id =
      if id ∈ ids then (f.region? id).map (afterRun W options f.rank) else f.region? id := by
  induction ids generalizing f report with
  | nil => rfl
  | cons i ids ih =>
    obtain ⟨hrank, hregion⟩ := step_region? W options f report i id
    rw [List.foldlM_cons]
    refine (ih (stepIn W options (f, report) i).1 (stepIn W options (f, report) i).2).trans ?_
    rw [hrank, hregion]
    by_cases hi : i = id
    · subst hi
      rw [if_pos rfl, if_pos List.mem_cons_self, Option.map_map]
      split
      · congr 1
        funext r
        exact afterRun_afterRun W options f.rank r
      · rfl
    · rw [if_neg hi]
      simp only [List.mem_cons, Ne.symm hi, false_or]

end Words

theorem analysed_of_run {options : Options} {f : Func} (hf : f.Sound) (ha : f.Annotated)
    {report : Report} (h : (run options f).2 = .ok report) : ∃ order, Inference.Analysed f order := by
  unfold run runIn Func.ensureFresh at h
  by_cases hfresh : f.fresh = true
  · cases ho : f.order with
    | error e => simp [hfresh, ho] at h
    | ok order => exact ⟨order, hf, Func.ordered_of_order ho, ho, ha, hfresh⟩
  · simp [hfresh] at h

section Words

variable {W : Words Id} {f : Func} {order : List RegionId}

theorem region?_run (hf : Inference.Analysed f order) (options : Options) (id : RegionId) :
    (runIn W options f).1.region? id = (f.region? id).map (afterRun W options f.rank) := by
  have hall : (order.foldlM (stepIn W options) (f, {})).1.region? id =
      (f.region? id).map (afterRun W options f.rank) := by
    rw [loop_region?]
    split
    · rfl
    · next hid =>
      cases hr : f.region? id with
      | none => rfl
      | some r => exact absurd (hf.ordered.mem_iff.mpr ⟨r, hr⟩) hid
  rw [run_of_fresh W options hf.fresh hf.order_eq rfl]
  simp only
  split
  · exact hall
  · exact hall

theorem run_frame (options : Options) (f : Func) :
    ∃ regions stamp, (runIn W options f).1 = { f with regions := regions, stamp := stamp } := by
  refine run_induction (Q := fun g => ∃ regions stamp, g = { f with regions := regions, stamp := stamp })
    ?_ ?_ ⟨f.regions, f.stamp, rfl⟩
  · rintro _ g id hg ⟨regions, stamp, rfl⟩
    obtain ⟨_, _, _, _, rfl⟩ := unrollRegionIn_eq_ok hg
    exact ⟨_, stamp, rfl⟩
  · rintro _ ⟨regions, stamp, rfl⟩
    exact ⟨regions, none, rfl⟩

theorem operands_afterRun (W : Words Id) (options : Options) (rank : Nat) (r : Region) :
    (afterRun W options rank r).operands = r.operands := by
  unfold afterRun
  split
  · split <;> rfl
  · rfl

theorem closed_run (hf : Inference.Analysed f order) (hclosed : f.Closed) (options : Options) :
    (runIn W options f).1.Closed := by
  obtain ⟨regions, stamp, heq⟩ := run_frame (W := W) options f
  have hlive : ∀ o, (runIn W options f).1.operandLive o = f.operandLive o := by
    intro o
    rw [heq]
    rfl
  intro id r o hr ho
  rw [region?_run hf] at hr
  obtain ⟨r', hr', rfl⟩ := Option.map_eq_some_iff.mp hr
  rw [operands_afterRun] at ho
  rw [hlive]
  exact hclosed id r' o hr' ho

end Words

/-- Whether the last replica of every offset of the body stays in range. -/
def RoomFor (options : Options) (b : Body) : Prop :=
  ∀ op o, op ∈ b.ops → op.offset? = some o → coord o options.axis + options.factor - 1 ≤ maxCoord

theorem Unrollable.inRange_iff {options : Options} {n : Nat} {r : Region} {d : Box} {divisible : Bool}
    (U : Unrollable options n r d divisible) (hrange : ∀ op : Op, op ∈ r.body.ops → op.InRange) :
    (∀ b (op : Op), b ∈ (unrolled options divisible r).bodies → op ∈ b.ops → op.InRange) ↔
      RoomFor options r.body := by
  have haxis : ∀ op o, op ∈ r.body.ops → op.offset? = some o → options.axis < o.length := by
    intro op o hop ho
    have hfit := U.fits.body.ops op hop
    cases op with
    | access s q =>
      cases ho
      exact hfit.1 ▸ U.axis
    | index e q =>
      cases ho
      exact hfit.2 ▸ U.axis
    | constant c => cases ho
    | unary g a => cases ho
    | binary g l r => cases ho
    | call c as q => cases ho
  have hreplicas : (∀ op : Op, op ∈ (r.body.replicate options.axis options.factor).ops → op.InRange) ↔
      RoomFor options r.body := by
    simp only [Words.mem_replicate_ops, Op.inRange_iff] at hrange ⊢
    constructor
    · intro h op o hop ho
      rw [← Offset.inRange_replicas_iff (haxis op o hop ho) U.factor (hrange op hop o ho)]
      intro k hk
      refine h _ ⟨k, hk, op, hop, rfl⟩ _ ?_
      rw [Words.offset?_replicaOp, ho, Option.map_some]
    · rintro h _ ⟨k, hk, op, hop, rfl⟩ o' ho'
      rw [Words.offset?_replicaOp] at ho'
      obtain ⟨o, ho, rfl⟩ := Option.map_eq_some_iff.mp ho'
      exact (Offset.inRange_replicas_iff (haxis op o hop ho) U.factor (hrange op hop o ho)).mpr
        (h op o hop ho) k hk
  rw [← hreplicas]
  constructor
  · intro h op hop
    exact h _ op List.mem_cons_self hop
  · intro h b op hb hop
    simp only [Region.bodies, unrolledIn_eq, U.epilogue, List.mem_cons, Option.mem_toList,
      Option.ite_none_left_eq_some, Option.some.injEq] at hb
    rcases hb with rfl | ⟨_, rfl⟩
    · exact h op hop
    · exact hrange op hop

/-- Unrolling leaves a valid function if and only if no offset of a region that it unrolls comes to
lie outside the range. -/
theorem verified_run_iff {f : Func} {order : List RegionId} (hfa : Inference.Analysed f order)
    (hf : f.verified = .ok ()) (options : Options) :
    (run options f).1.verified = .ok () ↔
      ∀ id r divisible, f.region? id = some r → selects options r.name = true →
        check options f.rank r = .ok divisible → RoomFor options r.body := by
  obtain ⟨_, hclosed, hrange, hbound⟩ := Func.verified_iff.mp hf
  have hregion := region?_run (W := .exact) hfa options
  have hsound := (equivalent_run hfa.sound hfa.annotated options).1.sound
  have hbound' : (run options f).1.Bounded := by
    obtain ⟨regions, stamp, heq⟩ := run_frame options f
    rw [heq]
    exact ⟨hbound.buffer, hbound.output⟩
  have hunroll : ∀ id r divisible, f.region? id = some r → check options f.rank r = .ok divisible →
      ∃ d, Unrollable options f.rank r d divisible := by
    intro id r divisible hr hcheck
    exact unrollable_of_check (hfa.sound.fits id r hr) (fun d hd =>
      ⟨hfa.annotated.ranked id r d hr hd, Func.canonical_region hfa.sound hfa.annotated hr hd⟩) hcheck
  rw [Func.verified_iff]
  constructor
  · rintro ⟨_, _, hr', _⟩ id r divisible hr hsel hcheck
    obtain ⟨d, U⟩ := hunroll id r divisible hr hcheck
    rw [← U.inRange_iff fun op hop => hrange id r _ op hr List.mem_cons_self hop]
    intro b op hb hop
    refine hr' id _ b op ?_ hb hop
    rw [hregion, hr, Option.map_some, afterRun, if_pos hsel, hcheck]
  · intro h
    refine ⟨hsound, closed_run hfa hclosed options, ?_, hbound'⟩
    intro id r b op hr hb hop
    rw [hregion] at hr
    obtain ⟨r', hr', rfl⟩ := Option.map_eq_some_iff.mp hr
    unfold afterRun at hb
    split at hb
    · next hsel =>
      split at hb
      · next divisible hcheck =>
        obtain ⟨d, U⟩ := hunroll id r' divisible hr' hcheck
        exact (U.inRange_iff fun op hop => hrange id r' _ op hr' List.mem_cons_self hop).mpr
          (h id r' divisible hr' hsel hcheck) b op hb hop
      · exact hrange id r' b op hr' hb hop
    · exact hrange id r' b op hr' hb hop

end Unrolling

/-- How inlining and unrolling treat coordinates. Inlining leaves valid coordinates just when every
offset it composed is in range. Each is the sum of offsets along a chain of reads of the function, so
chains in range are enough. Unrolling leaves a valid function just when in every region that it
unrolls every offset has room for the last replica. -/
theorem rewriting_keeps_coordinates {f₀ f : Func} (hf : Inference.Infers f₀ f) :
    ((Inlining.run f).1.meets .accessRank = true ↔ (Inlining.run f).1.InRange) ∧
    (∀ id r b op o, (Inlining.run f).1.region? id = some r → b ∈ r.bodies → op ∈ b.ops →
      Op.offset? op = some o → ∃ target, f.Reaches id target o) ∧
    ((∀ id target o, f.Reaches id target o → o.inRange = true) →
      (Inlining.run f).1.meets .accessRank = true) ∧
    ∀ options : Unrolling.Options, (Unrolling.run options f).1.verified = .ok () ↔
      ∀ id r divisible, f.region? id = some r → Unrolling.selects options r.name = true →
        Unrolling.check options f.rank r = .ok divisible → Unrolling.RoomFor options r.body := by
  have hverified := hf.verified
  obtain ⟨_, order, hfa⟩ := hf.analysed
  obtain ⟨hsound, _, _, hbound⟩ := Func.verified_iff.mp hverified
  obtain ⟨hsound', hbound', hreach⟩ := Inlining.coordinates_run hsound hbound
  have hmeets : (Inlining.run f).1.meets .accessRank = true ↔ (Inlining.run f).1.InRange := by
    rw [hsound'.meets_accessRank_iff]
    exact ⟨And.left, fun h => ⟨h, hbound'⟩⟩
  have hchain : ∀ id r b op o, (Inlining.run f).1.region? id = some r → b ∈ r.bodies → op ∈ b.ops →
      Op.offset? op = some o → ∃ target, f.Reaches id target o := by
    intro id r b op o hr hb hop ho
    obtain ⟨target, h⟩ := hsound'.exists_reaches hr hb hop ho
    exact ⟨target, hreach id target o h⟩
  refine ⟨hmeets, hchain, ?_, Unrolling.verified_run_iff hfa hverified⟩
  intro h
  rw [hmeets]
  intro id r b op hr hb hop
  rw [Op.inRange_iff]
  intro o ho
  obtain ⟨target, hreached⟩ := hchain id r b op o hr hb hop ho
  exact h id target o hreached

/-- Two regions in a chain, with the offset at which each of them reads. -/
def distant (p c : Int) : Func where
  name := "distant"
  rank := 1
  buffers := [⟨"in", .f64, none, .unknown⟩]
  temps := [some ⟨"p", .f64, 0, 0, .unknown⟩, some ⟨"c", .f64, 1, 0, .unknown⟩]
  regions :=
    [some ⟨"p", [.buffer 0], .ofOps [.access 0 [p]] [0], none, [0], .unknown⟩,
     some ⟨"c", [.temp 0], .ofOps [.access 0 [c]] [0], none, [1], .unknown⟩]
  outputs := [⟨1, ⟨[0], [4]⟩⟩]
  stamp := none

theorem rewriting_keeps_coordinates_distant : ∃ f : Func, Inference.Infers (distant 2147483646 1) f ∧
    (Inlining.run f).1.regionIds = [1] ∧ (Inlining.run f).1.meets .accessRank = true ∧
    (Unrolling.run {} f).1.verified = .ok () := by
  have hf : Inference.Infers (distant 2147483646 1) (Inference.run (distant 2147483646 1)).func :=
    ⟨_, rfl, rfl⟩
  obtain ⟨_, order, hfa⟩ := hf.analysed
  obtain ⟨hmeets, _, _, hunroll⟩ := rewriting_keeps_coordinates hf
  have hrun := Inlining.run_of_fresh hfa.fresh rfl
  refine ⟨_, hf, by rw [hrun]; rfl, hmeets.mpr ?_, (hunroll {}).mpr ?_⟩
  · rw [hrun]
    exact (Func.Sound.meets_accessRank_iff (Func.sound_of_verified rfl)).mp rfl |>.1
  · intro id r divisible hr _ _ op o hop ho
    match id, hr with
    | 0, hr =>
      cases hr
      cases List.mem_singleton.mp hop
      cases ho
      decide
    | 1, hr =>
      cases hr
      cases List.mem_singleton.mp hop
      cases ho
      decide
    | n + 2, hr => cases hr

/-- Neither inlining nor unrolling keeps offsets in range. -/
theorem rewriting_leaves_range : ∃ f : Func, Inference.Infers (distant 2147483647 1) f ∧
    f.verified = .ok () ∧
    (Inlining.run f).2 = .ok [⟨"p", "c"⟩] ∧ (Inlining.run f).1.meets .accessRank = false ∧
    (Inference.run (Inlining.run f).1).outcome =
      .error (.invalid "V1_access_rank" (some (1, "c"))
        "body: access %0 has out-of-range offset [2147483648]") ∧
    (Unrolling.run {} f).1.meets .accessRank = false := by
  have hf : Inference.Infers (distant 2147483647 1) (Inference.run (distant 2147483647 1)).func :=
    ⟨_, rfl, rfl⟩
  obtain ⟨_, order, hfa⟩ := hf.analysed
  have hinline := Inlining.run_of_fresh hfa.fresh rfl
  have hunroll := Unrolling.run_of_fresh .exact {} hfa.fresh (by rfl) rfl
  refine ⟨_, hf, rfl, ?_⟩
  rw [hinline, Unrolling.run, hunroll]
  exact ⟨rfl, rfl, rfl, rfl⟩

end Stencil
