import Stencil.Proofs.Cycles
import Stencil.Proofs.Solution

/-! What the outputs need. A region gets a shape just when a chain of accesses leads from one of its
results to an output; whether the accesses are ever made, and over how many points, plays no part.
What the other regions read is demanded of nobody, so it can be changed at will. -/

set_option autoImplicit false

namespace Stencil

theorem Shape.isKnown_hull_iff {boxes : List Box} : (hull boxes).isKnown = true ↔ ∃ b, b ∈ boxes := by
  have hknown : (hull boxes).isKnown = true ↔ boxes ≠ [] := by
    rw [Ne, ← hull_eq_unknown_iff]
    cases hull boxes <;> simp [isKnown]
  rw [hknown, Ne, List.eq_nil_iff_forall_not_mem]
  simp

theorem Region.isKnown_computedShape (r : Region) (s : Shape) :
    (r.computedShape s).isKnown = s.isKnown := by
  cases s <;> rfl

namespace Func

def Reads (f : Func) (id : RegionId) (t : TempId) : Prop :=
  ∃ r flag a, f.region? id = some r ∧ (flag, a) ∈ r.accesses ∧ r.operands[a.slot]? = some (.temp t)

/-- A chain of accesses leads from a result of the region to a temporary that is marked as output. -/
inductive Needed (f : Func) : RegionId → Prop
  | marked {id : RegionId} {r : Region} {o : OutputMark} (region : f.region? id = some r)
      (mark : o ∈ f.outputs) (result : o.temp ∈ r.results) : Needed f id
  | read {id c : RegionId} {r : Region} {t : TempId} (region : f.region? id = some r)
      (result : t ∈ r.results) (reads : f.Reads c t) (needed : Needed f c) : Needed f id

theorem SameStructure.needed {f g : Func} (h : f.SameStructure g) {id : RegionId} (hid : f.Needed id) :
    g.Needed id := by
  induction hid with
  | marked region mark result =>
    obtain ⟨r', s, hr', rfl⟩ := h.symm.exists_region region
    exact .marked hr' (h.outputs_eq ▸ mark) result
  | read region result reads _ ih =>
    obtain ⟨r', s, hr', rfl⟩ := h.symm.exists_region region
    obtain ⟨rc, flag, a, hrc, ha, ho⟩ := reads
    obtain ⟨rc', s', hrc', rfl⟩ := h.symm.exists_region hrc
    exact .read hr' result ⟨rc', flag, a, hrc', ha, ho⟩ ih

theorem SameStructure.needed_iff {f g : Func} (h : f.SameStructure g) {id : RegionId} :
    f.Needed id ↔ g.Needed id :=
  ⟨h.needed, h.symm.needed⟩

theorem Ordered.consumers_induction {f : Func} {order : List RegionId} (h : f.Ordered order)
    {motive : RegionId → Prop}
    (step : ∀ id, id ∈ order → (∀ c, c ∈ order → id ∈ f.producers c → motive c) → motive id) :
    ∀ id, id ∈ order → motive id := by
  have hsuffix : ∀ post pre, order = pre ++ post → ∀ id, id ∈ post → motive id := by
    intro post
    induction post with
    | nil => simp
    | cons x post ih =>
      intro pre heq
      have hpost := ih (pre ++ [x]) (by rw [heq, List.append_assoc]; rfl)
      intro id hid
      rcases List.mem_cons.mp hid with rfl | hid
      · apply step id (by rw [heq]; simp)
        intro c hc hprod
        exact hpost c (h.mem_after heq hc hprod)
      · exact hpost id hid
  exact hsuffix order [] rfl

section Known

variable {f : Func} (ha : f.Annotated)
include ha

theorem isKnown_temp_iff {t : TempId} {x : Temporary} (hx : f.temp? t = some x) :
    x.shape.isKnown = true ↔ (∃ o, o ∈ f.outputs ∧ o.temp = t) ∨
      ∃ c r, f.region? c = some r ∧ r.shape.isKnown = true ∧ f.Reads c t := by
  have hknown : x.shape.isKnown = true ↔ ∃ box, box ∈ f.marksOn t ++ f.demandsOn (.temp t) := by
    rw [ha.temp t x hx, Shape.isKnown_hull_iff]
  rw [hknown]
  simp only [List.mem_append, mem_marksOn, mem_demandsOn, exists_or]
  apply or_congr
  · constructor
    · rintro ⟨box, o, ho, ht, _⟩
      exact ⟨o, ho, ht⟩
    · rintro ⟨o, ho, ht⟩
      exact ⟨o.domain, o, ho, ht, rfl⟩
  · constructor
    · rintro ⟨box, c, r, hr, hbox⟩
      obtain ⟨domain, b, base, s, q, hs, hrun, hop, ho, _⟩ := Region.mem_readsOf.mp hbox
      obtain ⟨flag, hb, _⟩ := Region.mem_runs_iff.mp hrun
      obtain ⟨v, hv⟩ := List.mem_iff_getElem?.mp hop
      refine ⟨c, r, hr, by rw [hs]; rfl, r, flag, ⟨v, s, q⟩, hr, ?_, ho⟩
      exact Region.mem_accesses.mpr ⟨b, hb, Body.mem_accesses.mpr hv⟩
    · rintro ⟨c, r, hr, hknown, r', flag, a, hr', hacc, ho⟩
      cases hr.symm.trans hr'
      obtain ⟨b, hb, hab⟩ := Region.mem_accesses.mp hacc
      obtain ⟨domain, hs⟩ := Inlining.exists_of_isKnown hknown
      exact ⟨_, c, r, hr, Region.mem_readsOf.mpr ⟨domain, b, r.partBox flag domain, a.slot, a.offset, hs,
        Region.mem_runs_iff.mpr ⟨flag, hb, rfl⟩, List.mem_of_getElem? (Body.mem_accesses.mp hab),
        ho, rfl⟩⟩

variable (hf : f.Sound)
include hf

theorem isKnown_region_iff {id : RegionId} {r : Region} (hr : f.region? id = some r) :
    r.shape.isKnown = true ↔ ∃ t x, t ∈ r.results ∧ f.temp? t = some x ∧ x.shape.isKnown = true := by
  have hknown : r.shape.isKnown = true ↔ ∃ b, b ∈ (f.resultShapes r).filterMap Shape.box? := by
    rw [ha.region id r hr, Region.isKnown_computedShape, (canonicalTemps hf ha).demand_eq_hull,
      Shape.isKnown_hull_iff]
  rw [hknown]
  constructor
  · rintro ⟨b, hb⟩
    obtain ⟨s, hs, hsb⟩ := List.mem_filterMap.mp hb
    obtain ⟨t, ht, hts⟩ := List.mem_filterMap.mp hs
    obtain ⟨x, hx, rfl⟩ := Option.map_eq_some_iff.mp hts
    refine ⟨t, x, ht, hx, ?_⟩
    cases hxs : x.shape with
    | unknown => simp [hxs, Shape.box?] at hsb
    | known c => rfl
  · rintro ⟨t, x, ht, hx, hxk⟩
    obtain ⟨b, hb⟩ := Inlining.exists_of_isKnown hxk
    refine ⟨b, List.mem_filterMap.mpr ⟨.known b, List.mem_filterMap.mpr ⟨t, ht, ?_⟩, rfl⟩⟩
    rw [hx, Option.map_some, hb]

/-- A region has a shape just when the outputs need it. -/
theorem isKnown_iff_needed {order : List RegionId} (hord : f.Ordered order) {id : RegionId} {r : Region}
    (hr : f.region? id = some r) : r.shape.isKnown = true ↔ f.Needed id := by
  constructor
  · have hall : ∀ id, id ∈ order → ∀ r, f.region? id = some r → r.shape.isKnown = true → f.Needed id := by
      refine hord.consumers_induction
        (motive := fun id => ∀ r, f.region? id = some r → r.shape.isKnown = true → f.Needed id) ?_
      intro id _ ih r hr hknown
      obtain ⟨t, x, ht, hx, hxk⟩ := (isKnown_region_iff ha hf hr).mp hknown
      rcases (isKnown_temp_iff ha hx).mp hxk with ⟨o, ho, rfl⟩ | ⟨c, rc, hrc, hck, hreads⟩
      · exact .marked hr ho ht
      · have hprod : id ∈ f.producers c := by
          obtain ⟨rc', _, _, hrc', _, hop⟩ := hreads
          exact (mem_producers_iff hf).mpr ⟨r, rc', t, hr, hrc', ht, List.mem_of_getElem? hop⟩
        exact .read hr ht hreads (ih c (hord.mem_iff.mpr ⟨rc, hrc⟩) hprod rc hrc hck)
    exact hall id (hord.mem_iff.mpr ⟨r, hr⟩) r hr
  · intro hneeded
    induction hneeded generalizing r with
    | marked region mark result =>
      cases region.symm.trans hr
      obtain ⟨⟨x, hx⟩, _⟩ := hf.outputs _ mark
      exact (isKnown_region_iff ha hf hr).mpr
        ⟨_, x, result, hx, (isKnown_temp_iff ha hx).mpr (.inl ⟨_, mark, rfl⟩)⟩
    | read region result reads _ ih =>
      cases region.symm.trans hr
      obtain ⟨i, hi⟩ := List.mem_iff_getElem?.mp result
      obtain ⟨x, hx, _⟩ := hf.owned _ _ i _ hr hi
      have hreads := reads
      obtain ⟨rc, _, _, hrc, _, _⟩ := reads
      exact (isKnown_region_iff ha hf hr).mpr
        ⟨_, x, result, hx, (isKnown_temp_iff ha hx).mpr (.inr ⟨_, rc, hrc, ih hrc, hreads⟩)⟩

theorem temp_eq_unknown {order : List RegionId} (hord : f.Ordered order) {t : TempId} {x : Temporary}
    (hx : f.temp? t = some x) (hdead : ¬ f.Needed x.producer) : x.shape = .unknown := by
  cases hs : x.shape with
  | unknown => rfl
  | known b =>
    obtain ⟨r, hr, ht⟩ := hf.produced t x hx
    have hknown := (isKnown_region_iff ha hf hr).mpr ⟨t, x, List.mem_of_getElem? ht, hx, by rw [hs]; rfl⟩
    exact absurd ((isKnown_iff_needed ha hf hord hr).mp hknown) hdead

end Known

/-- In place of the regions that no output needs there are others with the same results; what they
list, read and compute is free. -/
structure Rewired (f g : Func) : Prop where
  rank : g.rank = f.rank
  buffers : g.buffers = f.buffers
  temps : g.temps = f.temps
  outputs : g.outputs = f.outputs
  needed : ∀ id, f.Needed id → g.region? id = f.region? id
  dead : ∀ id, ¬ f.Needed id → (g.region? id).map (·.results) = (f.region? id).map (·.results)

theorem Needed.exists_region {f : Func} {id : RegionId} (h : f.Needed id) :
    ∃ r, f.region? id = some r := by
  cases h with
  | marked region => exact ⟨_, region⟩
  | read region => exact ⟨_, region⟩

theorem regionIds_eq_of_mem_iff {f g : Func}
    (h : ∀ id, (∃ r, f.region? id = some r) ↔ ∃ r, g.region? id = some r) :
    f.regionIds = g.regionIds := by
  have hperm : f.regionIds.Perm g.regionIds :=
    (List.perm_ext_iff_of_nodup f.nodup_regionIds g.nodup_regionIds).mpr fun id => by
      rw [mem_regionIds, mem_regionIds, h id]
  exact hperm.eq_of_pairwise (fun a b _ _ hab hba => absurd hba (Nat.lt_asymm hab)) f.pairwise_regionIds
    g.pairwise_regionIds

/-- The first function with the annotations of the second. -/
def adopt (g k : Func) : Func := g.annotatedLike k (Equiv.refl RegionId)

theorem sameStructure_adopt (g k : Func) :
    g.SameStructure (g.adopt k) := sameStructure_annotatedBy g _ _ _

section Rewired

variable {f g k : Func} (h : f.Rewired g)
include h

theorem Rewired.regionIds_eq : f.regionIds = g.regionIds := by
  apply regionIds_eq_of_mem_iff
  intro id
  by_cases hid : f.Needed id
  · rw [h.needed id hid]
  · have hmap := h.dead id hid
    cases hf : f.region? id <;> cases hg : g.region? id <;> simp [hf, hg] at hmap ⊢

variable (hk : f.SameStructure k)
include hk

theorem Rewired.region?_adopt {id : RegionId} (hid : f.Needed id) :
    (g.adopt k).region? id = k.region? id := by
  obtain ⟨r, hr⟩ := hid.exists_region
  obtain ⟨r', s, hr', rfl⟩ := hk.symm.exists_region hr
  rw [adopt, annotatedLike, region?_annotatedBy, h.needed id hid, hr]
  simp [hr']

theorem Rewired.temp?_adopt (t : TempId) : (g.adopt k).temp? t = k.temp? t := by
  have hg : g.temp? t = f.temp? t := by rw [temp?, temp?, h.temps]
  rw [adopt, annotatedLike, temp?_annotatedBy, hg]
  cases hx : f.temp? t with
  | some x =>
    obtain ⟨y, s, hy, rfl⟩ := hk.symm.exists_temp hx
    simp [hy]
  | none =>
    cases hy : k.temp? t with
    | none => rfl
    | some y =>
      obtain ⟨x, _, hx', _⟩ := hk.exists_temp hy
      rw [hx] at hx'
      cases hx'

theorem Rewired.buffer?_adopt (b : BufferId) : (g.adopt k).buffer? b = k.buffer? b := by
  have hg : g.buffer? b = f.buffer? b := by rw [buffer?, buffer?, h.buffers]
  rw [adopt, annotatedLike, buffer?_annotatedBy, hg]
  cases hx : f.buffer? b with
  | some x =>
    obtain ⟨y, s, hy, rfl⟩ := hk.symm.exists_buffer hx
    simp [hy]
  | none =>
    cases hy : k.buffer? b with
    | none => rfl
    | some y =>
      obtain ⟨x, _, hx', _⟩ := hk.exists_buffer hy
      rw [hx] at hx'
      cases hx'

variable {order : List RegionId} (hf : k.Sound) (ha : k.Annotated) (hord : k.Ordered order)
include hf ha hord

theorem Rewired.dead_adopt {id : RegionId} (hid : ¬ f.Needed id) {r : Region}
    (hr : (g.adopt k).region? id = some r) :
    r.shape = .unknown ∧ ∃ r', k.region? id = some r' ∧ r'.shape = .unknown ∧ r'.results = r.results := by
  rw [adopt, annotatedLike, region?_annotatedBy] at hr
  obtain ⟨rg, hrg, rfl⟩ := Option.map_eq_some_iff.mp hr
  have hmap := h.dead id hid
  rw [hrg] at hmap
  obtain ⟨rf, hrf, hres⟩ := Option.map_eq_some_iff.mp hmap.symm
  obtain ⟨r', s, hr', rfl⟩ := hk.symm.exists_region hrf
  have hunknown : r'.shape = .unknown := by
    cases hs : r'.shape with
    | unknown => rfl
    | known d =>
      have hneeded := (isKnown_iff_needed ha hf hord hr').mp (by rw [hs]; rfl)
      exact absurd (hk.needed_iff.mpr hneeded) hid
  exact ⟨by simp [hr', hunknown], r', hr', hunknown, hres⟩

theorem Rewired.demandsOn_adopt (o : Operand) : (g.adopt k).demandsOn o = k.demandsOn o := by
  apply demandsOn_congr
  · rw [← (g.sameStructure_adopt k).regionIds_eq, ← h.regionIds_eq, hk.regionIds_eq]
  · intro id
    by_cases hid : f.Needed id
    · exact .inr (h.region?_adopt hk hid)
    · left
      constructor
      · rw [List.eq_nil_iff_forall_not_mem]
        intro box hbox
        obtain ⟨r, hr, hbox⟩ := mem_readsAt.mp hbox
        simp [Region.readsOf, (h.dead_adopt hk hf ha hord hid hr).1] at hbox
      · rw [List.eq_nil_iff_forall_not_mem]
        intro box hbox
        obtain ⟨r, hr, hbox⟩ := mem_readsAt.mp hbox
        obtain ⟨domain, _, _, _, _, hs, _⟩ := Region.mem_readsOf.mp hbox
        have hneeded := (isKnown_iff_needed ha hf hord hr).mp (by rw [hs]; rfl)
        exact hid (hk.needed_iff.mpr hneeded)

/-- The annotations of the original function fit the rewired one. -/
theorem Rewired.annotated_adopt : (g.adopt k).Annotated := by
  have hrank : (g.adopt k).rank = k.rank := by
    rw [← (g.sameStructure_adopt k).rank_eq, h.rank, hk.rank_eq]
  have hmarks : ∀ t, (g.adopt k).marksOn t = k.marksOn t := by
    intro t
    rw [marksOn, marksOn, ← (g.sameStructure_adopt k).outputs_eq, h.outputs, hk.outputs_eq]
  have hdemand : ∀ r r' : Region, r.results = r'.results →
      Inference.demand (g.adopt k) r = Inference.demand k r' := by
    intro r r' hres
    exact demand_congr hres fun t _ => by rw [h.temp?_adopt hk]
  refine ⟨?_, ?_, ?_, ?_⟩
  · intro t x hx
    rw [h.temp?_adopt hk] at hx
    rw [hmarks, h.demandsOn_adopt hk hf ha hord]
    exact ha.temp t x hx
  · intro b x hx
    rw [h.buffer?_adopt hk] at hx
    rw [h.demandsOn_adopt hk hf ha hord]
    exact ha.buffer b x hx
  · intro id r hr
    by_cases hid : f.Needed id
    · rw [h.region?_adopt hk hid] at hr
      rw [hdemand r r rfl]
      exact ha.region id r hr
    · obtain ⟨hs, r', hr', hs', hres⟩ := h.dead_adopt hk hf ha hord hid hr
      have hnone : Inference.demand k r' = .unknown := by
        have hshape := ha.region id r' hr'
        rw [hs'] at hshape
        cases hd : Inference.demand k r' with
        | unknown => rfl
        | known d =>
          rw [hd] at hshape
          cases hshape
      rw [hdemand r r' hres.symm, hnone, hs]
      rfl
  · intro id r d hr hs
    rw [hrank]
    by_cases hid : f.Needed id
    · rw [h.region?_adopt hk hid] at hr
      exact ha.ranked id r d hr hs
    · rw [(h.dead_adopt hk hf ha hord hid hr).1] at hs
      cases hs

end Rewired

end Func

namespace Inference

theorem deadRegions_map_fst (f : Func) (order : List RegionId) :
    (deadRegions f order).map (·.1) =
      order.filter fun id => (f.region? id).any fun r => !r.shape.isKnown := by
  rw [deadRegions, List.map_filterMap, ← List.filterMap_eq_filter]
  apply List.filterMap_congr
  intro id _
  cases hr : f.region? id with
  | none => simp [Option.guard, hr]
  | some r => cases hs : r.shape <;> simp [Option.guard, hr, hs, Shape.isKnown]

theorem mem_deadRegions {f : Func} {order : List RegionId} {id : RegionId} {r : Region}
    (h : (id, r) ∈ deadRegions f order) : f.region? id = some r := by
  obtain ⟨id', _, h⟩ := List.mem_filterMap.mp h
  cases hr : f.region? id' with
  | none => simp [hr] at h
  | some r' =>
    simp only [hr, Option.ite_none_left_eq_some, Option.some.injEq, Prod.mk.injEq] at h
    obtain ⟨_, rfl, rfl⟩ := h
    exact hr

theorem dead_of_run {f : Func} {report : Report} (h : (run f).outcome = .ok report) :
    ∃ order, f.order = .ok order ∧ report.dead = (deadRegions (run f).func order).map (·.1) ∧
      report.diagnostics = (deadRegions (run f).func order).map fun r => deadDiagnostic r.1 r.2 := by
  obtain ⟨order, hv, ho, hb, _⟩ := run_done h
  rw [run_def] at h ⊢
  simp only [hv, ho, hb] at h ⊢
  cases h
  exact ⟨order, rfl, rfl, rfl⟩

theorem run_rewired {f g : Func} {report : Report} (h : (run f).outcome = .ok report) (hg : f.Rewired g)
    (hv : g.verified = .ok ()) (hacyclic : g.Acyclic) :
    (∃ report', (run g).outcome = .ok report') ∧
    (∀ id, f.Needed id → (run g).func.region? id = (run f).func.region? id) ∧
    (∀ t, (run g).func.temp? t = (run f).func.temp? t) ∧
    ∀ b, (run g).func.buffer? b = (run f).func.buffer? b := by
  obtain ⟨hk, order, hfa⟩ := analysed_run h
  obtain ⟨found, ho⟩ := (Func.exists_order_iff (Func.sound_of_verified hv)).mpr hacyclic
  obtain ⟨hsame, hann, _⟩ := checked_run hv ho
  have hadopt := hg.annotated_adopt hk hfa.sound hfa.annotated hfa.ordered
  obtain ⟨hregion, htemp, hbuffer⟩ := hann.unique (hsame.symm.trans (g.sameStructure_adopt _))
    ((Func.sound_of_verified hv).of_sameStructure hsame) hadopt
      (Func.ordered_of_order (hsame.order_eq ho))
  have hneeded : ∀ id, f.Needed id → (run g).func.region? id = (run f).func.region? id := fun id hid =>
    (hregion id).trans (hg.region?_adopt hk hid)
  have hbuffers : ∀ b, (run g).func.buffer? b = (run f).func.buffer? b := fun b =>
    (hbuffer b).trans (hg.buffer?_adopt hk b)
  refine ⟨(accepted_iff hv ho).mpr ?_, hneeded, fun t => (htemp t).trans (hg.temp?_adopt hk t), hbuffers⟩
  -- only a region with a shape can leave a declared domain, and those are as they were
  rintro id flag a ⟨r, b, x, declared, q, S⟩
  obtain ⟨domain, p, hs, _⟩ := S.reached
  have hid : f.Needed id := by
    by_contra hdead
    have hr := S.region
    rw [hregion] at hr
    rw [(hg.dead_adopt hk hfa.sound hfa.annotated hfa.ordered hdead hr).1] at hs
    cases hs
  apply Infers.not_strays (f := f) ⟨report, h, rfl⟩ id flag a
  exact ⟨r, b, x, declared, q, (hneeded id hid) ▸ S.region, S.access, S.operand, (hbuffers b) ▸ S.buffer,
    S.domain, S.reached, S.outside⟩

/-- Dead regions are those that no output needs. After a successful inference a region has a shape
just when a chain of accesses leads from one of its results to an output. The others are listed as
dead, in the order of regions and with one warning each, and their results have no shape. Whatever
valid accesses stand in their place, as long as the function stays without cycles, inference
succeeds again, and the annotations of all other regions, of all temporaries and of all buffers are
the same. -/
theorem dead_regions_exact {f : Func} {report : Report} (h : (run f).outcome = .ok report) :
    (∀ id r, (run f).func.region? id = some r → (r.shape.isKnown = true ↔ f.Needed id)) ∧
    (∃ order, f.order = .ok order ∧ report.dead.Sublist order ∧
      ∀ id, id ∈ report.dead ↔ id ∈ f.regionIds ∧ ¬ f.Needed id) ∧
    List.Forall₂ (fun id d => ∃ r, f.region? id = some r ∧ d.code = some .deadRegion ∧
      d.level = .warning ∧
      d.subject = some (.region id r.name)) report.dead report.diagnostics ∧
    (∀ t x, (run f).func.temp? t = some x → ¬ f.Needed x.producer → x.shape = .unknown) ∧
    ∀ g, f.Rewired g → g.verified = .ok () → g.Acyclic →
      (∃ report', (run g).outcome = .ok report') ∧
      (∀ id, f.Needed id → (run g).func.region? id = (run f).func.region? id) ∧
      (∀ t, (run g).func.temp? t = (run f).func.temp? t) ∧
      ∀ b, (run g).func.buffer? b = (run f).func.buffer? b := by
  obtain ⟨hk, _, hfa⟩ := analysed_run h
  obtain ⟨order, ho, hdead, hdiags⟩ := dead_of_run h
  have hknown : ∀ id r, (run f).func.region? id = some r → (r.shape.isKnown = true ↔ f.Needed id) := by
    intro id r hr
    rw [hk.needed_iff]
    exact Func.isKnown_iff_needed hfa.annotated hfa.sound hfa.ordered hr
  refine ⟨hknown, ⟨order, ho, ?_, ?_⟩, ?_, ?_, fun g hg hv hacyclic => run_rewired h hg hv hacyclic⟩
  · rw [hdead, deadRegions_map_fst]
    exact List.filter_sublist
  · intro id
    rw [hdead, deadRegions_map_fst, List.mem_filter, (Func.ordered_of_order ho).perm.mem_iff]
    apply and_congr_right
    intro hid
    rw [hk.regionIds_eq] at hid
    obtain ⟨r, hr⟩ := Func.mem_regionIds.mp hid
    rw [← hknown id r hr]
    simp [hr]
  · rw [hdead, hdiags, List.forall₂_map_left_iff, List.forall₂_map_right_iff, List.forall₂_same]
    rintro ⟨id, r⟩ hmem
    obtain ⟨r', s, hr', rfl⟩ := hk.exists_region (mem_deadRegions hmem)
    exact ⟨r', hr', rfl, rfl, rfl⟩
  · intro t x hx hdead
    exact Func.temp_eq_unknown hfa.annotated hfa.sound hfa.ordered hx fun hn =>
      hdead (hk.needed_iff.mpr hn)

/-- `edge` is read by an epilogue that never runs and `void` wanted over no points; `spare` is
listed by `walk` but read by `lost` alone, which nothing reads. -/
def sparse : Func where
  name := "sparse"
  rank := 1
  buffers := [⟨"in", .f64, none, .unknown⟩]
  temps :=
    [some ⟨"e", .f64, 0, 0, .unknown⟩, some ⟨"s", .f64, 1, 0, .unknown⟩, some ⟨"l", .f64, 2, 0, .unknown⟩,
    some ⟨"w", .f64, 3, 0, .unknown⟩, some ⟨"v", .f64, 4, 0, .unknown⟩]
  regions :=
    [some ⟨"edge", [.buffer 0], .ofOps [.access 0 [0]] [0], none, [0], .unknown⟩,
     some ⟨"spare", [.buffer 0], .ofOps [.access 0 [9]] [0], none, [1], .unknown⟩,
     some ⟨"lost", [.temp 1], .ofOps [.access 0 [0]] [0], none, [2], .unknown⟩,
     some ⟨"walk", [.buffer 0, .temp 0, .temp 1], ⟨[.access 0 [0], .access 0 [1]], ⟨[0, 1], some ⟨0, 2⟩⟩⟩,
       some (.ofOps [.access 1 [0]] [0]), [3], .unknown⟩,
     some ⟨"void", [.buffer 0], .ofOps [.access 0 [0]] [0], none, [4], .unknown⟩]
  outputs := [⟨3, ⟨[0], [4]⟩⟩, ⟨4, ⟨[0], [0]⟩⟩]
  stamp := none

/-- The dead regions read what they did not read before, and the order of regions is another. -/
def rewoven : Func :=
  { sparse with
    regions := (sparse.regions.set 1 (some ⟨"spare", [.temp 4], .ofOps [.access 0 [3]] [0], none, [1],
      .unknown⟩)).set 2
      (some ⟨"lost", [.temp 3, .buffer 0], .ofOps [.access 0 [-5], .access 1 [7], .binary .mul 0 1] [2],
        none, [2], .unknown⟩) }

theorem dead_regions_exact_sparse : ∃ report report',
    (run sparse).outcome = .ok report ∧ report.dead = [1, 2] ∧ report.diagnostics.length = 2 ∧
    sparse.Needed 0 ∧ sparse.Needed 3 ∧ sparse.Needed 4 ∧ ¬ sparse.Needed 1 ∧ ¬ sparse.Needed 2 ∧
    sparse.Rewired rewoven ∧ rewoven.order = .ok [0, 4, 1, 3, 2] ∧ (run rewoven).outcome = .ok report' ∧
    (run rewoven).func.region? 3 = (run sparse).func.region? 3 ∧
    (∀ t, (run rewoven).func.temp? t = (run sparse).func.temp? t) ∧
    ∀ b, (run rewoven).func.buffer? b = (run sparse).func.buffer? b := by
  obtain ⟨report, hok, hdead⟩ : ∃ report, (run sparse).outcome = .ok report ∧ report.dead = [1, 2] :=
    ⟨_, rfl, rfl⟩
  obtain ⟨_, ⟨_, _, _, hlisted⟩, hwarned, _, hrewired⟩ := dead_regions_exact hok
  rw [hdead] at hlisted hwarned
  have hlive : ∀ id, id ∈ sparse.regionIds → id ∉ [1, 2] → sparse.Needed id := fun id hid hout =>
    by_contra fun hn => hout ((hlisted id).mpr ⟨hid, hn⟩)
  have hone := ((hlisted 1).mp (by decide)).2
  have htwo := ((hlisted 2).mp (by decide)).2
  have hsame : ∀ id, id ≠ 1 → id ≠ 2 → rewoven.region? id = sparse.region? id := by
    intro id h1 h2
    rw [Func.region?, Func.region?, rewoven, List.getElem?_set_ne (Ne.symm h2),
      List.getElem?_set_ne (Ne.symm h1)]
  have hre : sparse.Rewired rewoven := by
    refine ⟨rfl, rfl, rfl, rfl, ?_, ?_⟩
    · intro id hid
      exact hsame id (fun he => hone (he ▸ hid)) fun he => htwo (he ▸ hid)
    · intro id _
      by_cases h1 : id = 1
      · subst h1
        rfl
      · by_cases h2 : id = 2
        · subst h2
          rfl
        · rw [hsame id h1 h2]
  have hv : rewoven.verified = .ok () := rfl
  have ho : rewoven.order = .ok [0, 4, 1, 3, 2] := rfl
  have hacyclic := (Func.exists_order_iff (Func.sound_of_verified hv)).mp ⟨_, ho⟩
  obtain ⟨⟨report', hok'⟩, hregions, htemps, hbuffers⟩ := hrewired rewoven hre hv hacyclic
  have hthree := hlive 3 (by decide) (by decide)
  exact ⟨report, report', hok, hdead, hwarned.length_eq.symm, hlive 0 (by decide) (by decide), hthree,
    hlive 4 (by decide) (by decide), hone, htwo, hre, ho, hok', hregions 3 hthree, htemps, hbuffers⟩

end Inference

end Stencil
