import Mathlib.Logic.Equiv.Basic
import Stencil.Proofs.Domains
import Stencil.Proofs.Freshness

/-! Inference as the solution of equations. The equations speak of least boxes only, and neither of a
queue nor of an order in which regions are visited. A function without cycles has one solution, and
inference finds it: from any annotations, and wherever the regions stand. -/

set_option autoImplicit false

namespace Stencil

namespace Shape

/-- The least shape above all boxes of a list; without a box, no demand at all. -/
def IsJoin (n : Nat) (boxes : List Box) : Shape → Prop
  | unknown => boxes = []
  | known b => boxes ≠ [] ∧ LeastAbove n boxes b

theorem isJoin_iff {n : Nat} {boxes : List Box} (hr : ∀ d, d ∈ boxes → d.Ranked n) {s : Shape} :
    s.IsJoin n boxes ↔ s = hull boxes := by
  constructor
  · intro h
    cases s with
    | unknown => exact ((hull_eq_unknown_iff boxes).mpr h).symm
    | known b =>
      cases hh : hull boxes with
      | unknown => exact absurd ((hull_eq_unknown_iff boxes).mp hh) h.1
      | known b' => rw [h.2.unique (leastAbove_of_hull hr hh)]
  · rintro rfl
    cases hh : hull boxes with
    | unknown => exact (hull_eq_unknown_iff boxes).mp hh
    | known b =>
      refine ⟨?_, leastAbove_of_hull hr hh⟩
      rintro rfl
      cases hh

end Shape

namespace Func

/-- The annotations solve the equations: a temporary covers just its marks and what is read of it by
the regions of known shape, a buffer what is read of it, and a region computes what its results need. -/
structure Solved (f : Func) : Prop where
  temp : ∀ t x, f.temp? t = some x → x.shape.IsJoin f.rank (f.marksOn t ++ f.demandsOn (.temp t))
  buffer : ∀ b x, f.buffer? b = some x → x.required.IsJoin f.rank (f.demandsOn (.buffer b))
  region : ∀ id r, f.region? id = some r → ∃ s : Shape,
    s.IsJoin f.rank ((f.resultShapes r).filterMap Shape.box?) ∧ r.shape = r.computedShape s

theorem Solved.annotated {f : Func} (hf : f.Sound) (h : f.Solved) : f.Annotated := by
  have hcanon : f.CanonicalTemps := by
    intro t x b hx hb
    have hjoin := h.temp t x hx
    rw [hb] at hjoin
    exact ⟨hjoin.2.ranked, hjoin.2.canonical⟩
  have hregion : ∀ id r, f.region? id = some r → r.shape = r.computedShape (Inference.demand f r) := by
    intro id r hr
    obtain ⟨s, hs, hshape⟩ := h.region id r hr
    rw [Shape.isJoin_iff fun _ hd => hcanon.ranked_resultShapes hd] at hs
    rw [hshape, hs, hcanon.demand_eq_hull]
  have hranked : ∀ id r d, f.region? id = some r → r.shape = .known d → d.Ranked f.rank := by
    intro id r d hr hs
    rw [hregion id r hr] at hs
    cases hdem : Inference.demand f r with
    | unknown => simp [hdem, Region.computedShape] at hs
    | known required =>
      have hl := hcanon.leastAbove_demand hdem
      rw [hdem] at hs
      cases hs
      exact (Region.computedDomain_spec (hf.fits id r hr) hl.ranked hl.canonical).1
  have hreads : ∀ o d, d ∈ f.demandsOn o → d.Ranked f.rank := by
    intro o d hd
    obtain ⟨id, r, hr, hd⟩ := mem_demandsOn.mp hd
    exact Region.ranked_readsOf (hf.fits id r hr) (fun d hs => hranked id r d hr hs) hd
  refine ⟨?_, ?_, hregion, hranked⟩
  · intro t x hx
    refine (Shape.isJoin_iff ?_).mp (h.temp t x hx)
    intro d hd
    rcases List.mem_append.mp hd with hd | hd
    · exact ranked_marksOn hf hd
    · exact hreads _ d hd
  · intro b x hx
    exact (Shape.isJoin_iff (hreads _)).mp (h.buffer b x hx)

theorem Annotated.solved {f : Func} (hf : f.Sound) (h : f.Annotated) : f.Solved where
  temp t x hx := (Shape.isJoin_iff fun _ hd => ranked_demands hf h hd).mpr (h.temp t x hx)
  buffer b x hx := (Shape.isJoin_iff fun _ hd => ranked_demandsOn hf h hd).mpr (h.buffer b x hx)
  region id r hr := by
    have hcanon := canonicalTemps hf h
    exact ⟨Inference.demand f r, (Shape.isJoin_iff fun _ hd => hcanon.ranked_resultShapes hd).mpr
      (hcanon.demand_eq_hull r), h.region id r hr⟩

theorem eq_of_join_eq {β : Type} {xs ys : List (Option β)} (hlen : xs.length = ys.length)
    (h : ∀ i : Nat, xs[i]?.join = ys[i]?.join) : xs = ys := by
  apply List.ext_getElem hlen
  intro i hx hy
  have hi := h i
  rw [List.getElem?_eq_getElem hx, List.getElem?_eq_getElem hy] at hi
  exact hi

theorem SameStructure.eq_of_lookups {f g : Func} (h : f.SameStructure g)
    (hregion : ∀ id, f.region? id = g.region? id) (htemp : ∀ t, f.temp? t = g.temp? t)
    (hbuffer : ∀ b, f.buffer? b = g.buffer? b) (hstamp : f.stamp = g.stamp) : f = g := by
  have hparts : f.clearShapes = g.clearShapes := h
  simp only [clearShapes, Func.mk.injEq] at hparts
  obtain ⟨hname, hrank, _, htemps, hregions, houtputs, _⟩ := hparts
  have htemps : f.temps = g.temps :=
    eq_of_join_eq (by simpa using congrArg List.length htemps) htemp
  have hregions : f.regions = g.regions :=
    eq_of_join_eq (by simpa using congrArg List.length hregions) hregion
  have hbuffers : f.buffers = g.buffers := List.ext_getElem? hbuffer
  cases f
  cases g
  simp only [Func.mk.injEq]
  exact ⟨hname, hrank, hbuffers, htemps, hregions, houtputs, hstamp⟩

/-- Annotations that meet all demands and no more are those of inference. -/
theorem Annotated.recordStamp_eq {f g k : Func} (hk : Inference.Infers f k) (h : k.SameStructure g)
    (ha : g.Annotated) : g.recordStamp = k := by
  obtain ⟨_, order, hfa⟩ := hk.analysed
  obtain ⟨hregion, htemp, hbuffer⟩ := hfa.annotated.unique h hfa.sound ha hfa.ordered
  symm
  apply (h.trans (sameStructure_recordStamp g)).eq_of_lookups hregion htemp hbuffer
  rw [hk.stamp_eq, h.fingerprint_eq]
  rfl

/-- The regions of `f` stand at other places of `g`, and temporaries name their producers there. -/
structure Rearranged (f g : Func) (π : Equiv.Perm RegionId) : Prop where
  name : g.name = f.name
  rank : g.rank = f.rank
  buffers : g.buffers = f.buffers
  outputs : g.outputs = f.outputs
  region : ∀ id, g.region? (π id) = f.region? id
  temp : ∀ t, g.temp? t = (f.temp? t).map fun x => { x with producer := π x.producer }

section Rearranged

variable {f g : Func} {π : Equiv.Perm RegionId} (h : f.Rearranged g π)
include h

theorem Rearranged.symm : g.Rearranged f π.symm where
  name := h.name.symm
  rank := h.rank.symm
  buffers := h.buffers.symm
  outputs := h.outputs.symm
  region id := by rw [← h.region, Equiv.apply_symm_apply]
  temp t := by
    rw [h.temp]
    cases f.temp? t <;> simp

theorem Rearranged.exists_region {id : RegionId} {r : Region} (hr : g.region? id = some r) :
    ∃ id', f.region? id' = some r ∧ π id' = id :=
  ⟨π.symm id, by rw [← h.region, Equiv.apply_symm_apply, hr], Equiv.apply_symm_apply π id⟩

theorem Rearranged.exists_temp {t : TempId} {x : Temporary} (hx : g.temp? t = some x) :
    ∃ x', f.temp? t = some x' ∧ x = { x' with producer := π x'.producer } := by
  rw [h.temp] at hx
  obtain ⟨x', hx', rfl⟩ := Option.map_eq_some_iff.mp hx
  exact ⟨x', hx', rfl⟩

theorem Rearranged.temp_eq {t : TempId} {x : Temporary} (hx : f.temp? t = some x) :
    g.temp? t = some { x with producer := π x.producer } := by
  rw [h.temp, hx, Option.map_some]

theorem Rearranged.operandLive_eq (o : Operand) : g.operandLive o = f.operandLive o := by
  cases o with
  | temp t => simp [operandLive, h.temp]
  | buffer b => simp [operandLive, buffer?, h.buffers]

theorem Rearranged.sound (hf : f.Sound) : g.Sound where
  fits id r hr := by
    obtain ⟨id', hr', _⟩ := h.exists_region hr
    exact h.rank ▸ hf.fits id' r hr'
  owned id r i t hr ht := by
    obtain ⟨id', hr', rfl⟩ := h.exists_region hr
    obtain ⟨x, hx, rfl, hi⟩ := hf.owned id' r i t hr' ht
    exact ⟨_, h.temp_eq hx, rfl, hi⟩
  produced t x hx := by
    obtain ⟨x', hx', rfl⟩ := h.exists_temp hx
    obtain ⟨r, hr, ht⟩ := hf.produced t x' hx'
    exact ⟨r, by rw [h.region, hr], ht⟩
  outputs o ho := by
    obtain ⟨⟨x, hx⟩, hranked⟩ := hf.outputs o (h.outputs ▸ ho)
    exact ⟨⟨_, h.temp_eq hx⟩, h.rank ▸ hranked⟩
  reads id r b s o hr hb hop := by
    obtain ⟨id', hr', _⟩ := h.exists_region hr
    obtain ⟨operand, ho, hlive⟩ := hf.reads id' r b s o hr' hb hop
    exact ⟨operand, ho, by rw [h.operandLive_eq, hlive]⟩

theorem Rearranged.verified (hf : f.verified = .ok ()) : g.verified = .ok () := by
  obtain ⟨hsound, hclosed, hrange, hbound⟩ := verified_iff.mp hf
  refine verified_iff.mpr ⟨h.sound hsound, ?_, ?_, ?_, ?_⟩
  · intro id r o hr ho
    obtain ⟨id', hr', _⟩ := h.exists_region hr
    rw [h.operandLive_eq]
    exact hclosed id' r o hr' ho
  · intro id r b op hr hb hop
    obtain ⟨id', hr', _⟩ := h.exists_region hr
    exact hrange id' r b op hr' hb hop
  · intro b d hb hd
    rw [h.rank]
    exact hbound.buffer b d (h.buffers ▸ hb) hd
  · intro o ho
    rw [h.rank]
    exact hbound.output o (h.outputs ▸ ho)

theorem Rearranged.mem_producers {id p : RegionId} (hp : p ∈ g.producers (π id)) :
    ∃ q, q ∈ f.producers id ∧ p = π q := by
  obtain ⟨r, t, x, hr, ht, hx, rfl⟩ := Func.mem_producers.mp hp
  obtain ⟨x', hx', rfl⟩ := h.exists_temp hx
  rw [h.region] at hr
  exact ⟨x'.producer, Func.mem_producers.mpr ⟨r, t, x', hr, ht, hx', rfl⟩, rfl⟩

theorem Rearranged.ordered {order : List RegionId} (hord : f.Ordered order) :
    g.Ordered (order.map π) := by
  have hmem : ∀ id, id ∈ order.map π ↔ id ∈ g.regionIds := by
    intro id
    rw [List.mem_map, mem_regionIds]
    constructor
    · rintro ⟨id', hid', rfl⟩
      obtain ⟨r, hr⟩ := hord.mem_iff.mp hid'
      exact ⟨r, by rw [h.region, hr]⟩
    · rintro ⟨r, hr⟩
      obtain ⟨id', hr', rfl⟩ := h.exists_region hr
      exact ⟨id', hord.mem_iff.mpr ⟨r, hr'⟩, rfl⟩
  have hnodup : (order.map π).Nodup := hord.nodup.map π.injective
  refine ⟨⟨hnodup, fun id hid => (hmem id).mp hid, ?_⟩, ?_⟩
  · intro before id after heq p hp
    obtain ⟨before', rest, rfl, rfl, hrest⟩ := List.map_eq_append_iff.mp heq
    obtain ⟨id', after', rfl, rfl, rfl⟩ := List.map_eq_cons_iff.mp hrest
    obtain ⟨q, hq, rfl⟩ := h.mem_producers hp
    exact List.mem_map_of_mem (hord.producers before' id' after' rfl q hq)
  · exact (List.perm_ext_iff_of_nodup hnodup g.nodup_regionIds).mpr hmem

theorem Rearranged.mem_demandsOn {o : Operand} {box : Box} :
    box ∈ g.demandsOn o ↔ box ∈ f.demandsOn o := by
  rw [Func.mem_demandsOn, Func.mem_demandsOn]
  constructor
  · rintro ⟨id, r, hr, hbox⟩
    obtain ⟨id', hr', _⟩ := h.exists_region hr
    exact ⟨id', r, hr', hbox⟩
  · rintro ⟨id, r, hr, hbox⟩
    exact ⟨π id, r, by rw [h.region, hr], hbox⟩

theorem Rearranged.annotated (hf : f.Sound) (ha : f.Annotated) : g.Annotated where
  temp t x hx := by
    obtain ⟨x', hx', rfl⟩ := h.exists_temp hx
    have hmarks : g.marksOn t = f.marksOn t := by rw [marksOn, marksOn, h.outputs]
    rw [hmarks]
    refine (ha.temp t x' hx').trans (Shape.hull_congr_mem (fun _ hd => ranked_demands hf ha hd) ?_)
    intro d
    rw [List.mem_append, List.mem_append, h.mem_demandsOn]
  buffer b x hx := by
    rw [buffer?, h.buffers] at hx
    exact (ha.buffer b x hx).trans
      (Shape.hull_congr_mem (fun _ hd => ranked_demandsOn hf ha hd) fun _ => h.mem_demandsOn.symm)
  region id r hr := by
    obtain ⟨id', hr', _⟩ := h.exists_region hr
    rw [ha.region id' r hr']
    congr 1
    apply demand_congr rfl
    intro t _
    rw [h.temp, Option.map_map]
    rfl
  ranked id r d hr hs := by
    obtain ⟨id', hr', _⟩ := h.exists_region hr
    exact h.rank ▸ ha.ranked id' r d hr' hs

theorem Rearranged.strays {id : RegionId} {flag : Bool} {a : Access} (hs : g.Strays (π id) flag a) :
    f.Strays id flag a := by
  obtain ⟨r, b, x, declared, q, S⟩ := hs
  refine ⟨r, b, x, declared, q, ?_, S.access, S.operand, ?_, S.domain, S.reached, S.outside⟩
  · rw [← h.region, S.region]
  · rw [← S.buffer, buffer?, buffer?, h.buffers]

end Rearranged

def annotatedBy (f : Func) (region : RegionId → Shape) (temp : TempId → Shape)
    (buffer : BufferId → Shape) : Func :=
  { f with
    regions := f.regions.mapIdx fun id => Option.map fun r => { r with shape := region id }
    temps := f.temps.mapIdx fun t => Option.map fun x => { x with shape := temp t }
    buffers := f.buffers.mapIdx fun b x => { x with required := buffer b } }

section AnnotatedBy

variable (f : Func) (region : RegionId → Shape) (temp : TempId → Shape) (buffer : BufferId → Shape)

theorem region?_annotatedBy (id : RegionId) : (f.annotatedBy region temp buffer).region? id =
    (f.region? id).map fun r => { r with shape := region id } := by
  simp only [region?, annotatedBy, List.getElem?_mapIdx]
  cases f.regions[id]? with
  | none => rfl
  | some r => rfl

theorem temp?_annotatedBy (t : TempId) : (f.annotatedBy region temp buffer).temp? t =
    (f.temp? t).map fun x => { x with shape := temp t } := by
  simp only [temp?, annotatedBy, List.getElem?_mapIdx]
  cases f.temps[t]? with
  | none => rfl
  | some x => rfl

theorem buffer?_annotatedBy (b : BufferId) : (f.annotatedBy region temp buffer).buffer? b =
    (f.buffer? b).map fun x => { x with required := buffer b } := by
  simp [buffer?, annotatedBy, List.getElem?_mapIdx]

theorem sameStructure_annotatedBy : f.SameStructure (f.annotatedBy region temp buffer) := by
  simp only [SameStructure, clearShapes, annotatedBy, Func.mk.injEq, true_and, and_true]
  refine ⟨?_, ?_, ?_⟩
  · apply List.ext_getElem?
    intro i
    simp [List.getElem?_mapIdx, Function.comp_def]
  · apply List.ext_getElem?
    intro i
    simp only [List.getElem?_map, List.getElem?_mapIdx, Option.map_map]
    congr 1
    funext x
    cases x <;> rfl
  · apply List.ext_getElem?
    intro i
    simp only [List.getElem?_map, List.getElem?_mapIdx, Option.map_map]
    congr 1
    funext r
    cases r <;> rfl

end AnnotatedBy

/-- The annotations of a rearranged function, brought back. -/
def annotatedLike (f g : Func) (π : Equiv.Perm RegionId) : Func :=
  f.annotatedBy (fun id => (g.region? (π id)).elim .unknown (·.shape))
    (fun t => (g.temp? t).elim .unknown (·.shape)) (fun b => (g.buffer? b).elim .unknown (·.required))

theorem Rearranged.annotatedLike {f g : Func} {π : Equiv.Perm RegionId}
    (h : f.clearShapes.Rearranged g.clearShapes π) : (f.annotatedLike g π).Rearranged g π where
  name := h.name
  rank := h.rank
  buffers := by
    apply List.ext_getElem?
    intro b
    have hb : g.clearShapes.buffer? b = f.clearShapes.buffer? b := by rw [buffer?, buffer?, h.buffers]
    change g.buffer? b = (f.annotatedLike g π).buffer? b
    rw [Func.annotatedLike, buffer?_annotatedBy]
    rw [buffer?_clearShapes, buffer?_clearShapes] at hb
    cases hx : f.buffer? b with
    | none => simpa [hx] using hb
    | some x =>
      rw [hx] at hb
      obtain ⟨y, hy, he⟩ := Option.map_eq_some_iff.mp hb
      cases x
      cases y
      cases he
      simp [hy]
  outputs := h.outputs
  region id := by
    have hid := h.region id
    rw [Func.annotatedLike, region?_annotatedBy]
    rw [region?_clearShapes, region?_clearShapes] at hid
    cases hr : f.region? id with
    | none => simpa [hr] using hid
    | some r =>
      rw [hr] at hid
      obtain ⟨q, hq, he⟩ := Option.map_eq_some_iff.mp hid
      cases r
      cases q
      cases he
      simp [hq]
  temp t := by
    have ht := h.temp t
    rw [Func.annotatedLike, temp?_annotatedBy]
    rw [temp?_clearShapes, temp?_clearShapes] at ht
    cases hx : f.temp? t with
    | none => simpa [hx] using ht
    | some x =>
      rw [hx] at ht
      obtain ⟨y, hy, he⟩ := Option.map_eq_some_iff.mp ht
      cases x
      cases y
      cases he
      simp [hy]

theorem Rearranged.of_annotated {f g : Func} {π : Equiv.Perm RegionId} {order : List RegionId}
    (h : f.clearShapes.Rearranged g.clearShapes π) (hf : f.Sound) (hord : f.Ordered order)
    (hfa : f.Annotated)
    (hga : g.Annotated) : f.Rearranged g π := by
  have hback := h.annotatedLike
  have hsame : f.SameStructure (f.annotatedLike g π) := sameStructure_annotatedBy f _ _ _
  have hg := hback.sound (hf.of_sameStructure hsame)
  -- brought back to `f`, the annotations of `g` solve the equations of `f`, which have one solution
  obtain ⟨hregion, htemp, hbuffer⟩ := hfa.unique hsame hf (hback.symm.annotated hg hga) hord
  exact
    { name := h.name
      rank := h.rank
      buffers := hback.buffers.trans (List.ext_getElem? hbuffer).symm
      outputs := h.outputs
      region := fun id => (hback.region id).trans (hregion id).symm
      temp := fun t => by rw [hback.temp, htemp] }

end Func

namespace Inference

theorem Infers.not_strays {f g : Func} (h : Infers f g) (id : RegionId) (flag : Bool) (a : Access) :
    ¬ g.Strays id flag a := by
  obtain ⟨hsame, order, hg⟩ := h.analysed
  obtain ⟨report, hok, hfunc⟩ := h.congr hsame
  have hfree := (accepted_iff h.verified hg.order_eq).mp ⟨report, hok⟩ id flag a
  rwa [hfunc] at hfree

theorem Infers.rearranged {f g k : Func} {π : Equiv.Perm RegionId} (h : Infers f k)
    (hplaces : f.clearShapes.Rearranged g.clearShapes π) : ∃ k', Infers g k' ∧ k.Rearranged k' π := by
  obtain ⟨hsame, order, hk⟩ := h.analysed
  have hclear : k.clearShapes.Rearranged g.clearShapes π := by
    rw [← show f.clearShapes = k.clearShapes from hsame]
    exact hplaces
  have hbare := k.sameStructure_clearShapes
  have hverified : g.verified = .ok () :=
    g.sameStructure_clearShapes.symm.verified (hclear.verified (hbare.verified h.verified))
  obtain ⟨found, hfound⟩ :=
    (hclear.ordered (Func.ordered_of_order (hbare.order_eq hk.order_eq))).exists_order
  have horder := g.sameStructure_clearShapes.symm.order_eq hfound
  obtain ⟨hsameg, hga, _⟩ := checked_run hverified horder
  rw [show g.clearShapes = (run g).func.clearShapes from hsameg] at hclear
  have hmoved := Func.Rearranged.of_annotated hclear hk.sound hk.ordered hk.annotated hga
  obtain ⟨report, hok⟩ := (accepted_iff hverified horder).mpr fun id flag a hs => by
    rw [← π.apply_symm_apply id] at hs
    exact h.not_strays _ flag a (hmoved.strays hs)
  exact ⟨_, ⟨report, hok, rfl⟩, hmoved⟩

/-- The annotations that inference leaves are the one solution of the equations of the function; they
depend neither on the annotations before nor on the order in which regions are visited or stand, and
another inference keeps them. -/
theorem annotations_unique_solution {f : Func} {report : Report} (h : (run f).outcome = .ok report) :
    f.SameStructure (run f).func ∧ (run f).func.Solved ∧
    (∀ g, f.SameStructure g → g.Solved → g.recordStamp = (run f).func) ∧
    (∀ g, f.SameStructure g → Infers g (run f).func) ∧
    (∀ order, f.Ordered order → (propagate f order).func.recordStamp = (run f).func) ∧
    (∀ g π, f.clearShapes.Rearranged g.clearShapes π → ∃ k, Infers g k ∧ (run f).func.Rearranged k π) ∧
    Infers (run f).func (run f).func := by
  have hrun : Infers f (run f).func := ⟨report, h, rfl⟩
  obtain ⟨hsame, _, hr⟩ := hrun.analysed
  have hf := hr.sound.of_sameStructure hsame.symm
  refine ⟨hsame, hr.annotated.solved hr.sound, ?_, fun g hg => hrun.congr hg, ?_,
    fun g π hplaces => hrun.rearranged hplaces, hrun.congr hsame⟩
  · intro g hg hsolved
    exact (hsolved.annotated (hf.of_sameStructure hg)).recordStamp_eq hrun (hsame.symm.trans hg)
  · intro order hord
    exact (annotated_propagate hf hord).recordStamp_eq hrun
      (hsame.symm.trans (sameStructure_propagate hf hord))

/-- Two regions read the first one, and the second of them computes two points at a time. -/
def forked : Func where
  name := "forked"
  rank := 1
  buffers := [⟨"in", .f64, none, .unknown⟩]
  temps := [some ⟨"s", .f64, 0, 0, .unknown⟩, some ⟨"l", .f64, 1, 0, .unknown⟩,
    some ⟨"r", .f64, 2, 0, .unknown⟩, some ⟨"t", .f64, 3, 0, .unknown⟩]
  regions :=
    [some ⟨"near", [.buffer 0], .ofOps [.access 0 [0]] [0], none, [0], .unknown⟩,
     some ⟨"left", [.temp 0], .ofOps [.access 0 [-1]] [0], none, [1], .unknown⟩,
     some ⟨"right", [.temp 0], ⟨[.access 0 [0], .access 0 [1]], ⟨[0, 1], some ⟨0, 2⟩⟩⟩, none, [2],
       .unknown⟩,
     some ⟨"sum", [.temp 1, .temp 2], .ofOps [.access 0 [0], .access 1 [0], .binary .add 0 1] [2],
       none, [3], .unknown⟩]
  outputs := [⟨3, ⟨[0], [5]⟩⟩]
  stamp := none

/-- The same regions, with the two that read the first one in the other order. -/
def turned : Func :=
  { forked with
    temps := [some ⟨"s", .f64, 0, 0, .unknown⟩, some ⟨"l", .f64, 2, 0, .unknown⟩,
      some ⟨"r", .f64, 1, 0, .unknown⟩, some ⟨"t", .f64, 3, 0, .unknown⟩]
    regions := [forked.region? 0, forked.region? 2, forked.region? 1, forked.region? 3] }

theorem rearranged_turned : forked.Rearranged turned (Equiv.swap 1 2) where
  name := rfl
  rank := rfl
  buffers := rfl
  outputs := rfl
  region id := by
    rcases id with _ | _ | _ | _ | id
    · rfl
    · rfl
    · rfl
    · rfl
    · rw [Equiv.swap_apply_of_ne_of_ne (by simp) (by simp)]
      rfl
  temp t := by rcases t with _ | _ | _ | _ | t <;> rfl

theorem annotations_unique_solution_forked :
    (∃ report, (run forked).outcome = .ok report) ∧ (run forked).func.Solved ∧
    (∀ g, forked.SameStructure g → g.Solved → g.recordStamp = (run forked).func) ∧
    (propagate forked [0, 2, 1, 3]).func.recordStamp = (run forked).func ∧
    (∃ k, Infers turned k ∧ (run forked).func.Rearranged k (Equiv.swap 1 2)) ∧
    Infers (run forked).func (run forked).func := by
  obtain ⟨report, hok⟩ : ∃ report, (run forked).outcome = .ok report := ⟨_, rfl⟩
  obtain ⟨_, hsolved, hunique, _, horders, hplaces, hagain⟩ := annotations_unique_solution hok
  have horder : forked.Ordered [0, 2, 1, 3] :=
    rearranged_turned.symm.ordered (Func.ordered_of_order (rfl : turned.order = .ok [0, 1, 2, 3]))
  exact ⟨⟨report, hok⟩, hsolved, hunique, horders _ horder, hplaces _ _ rearranged_turned, hagain⟩

end Inference

end Stencil
