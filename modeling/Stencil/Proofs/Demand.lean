import Stencil.Inference
import Stencil.Proofs.Order
import Stencil.Proofs.Plan

/-! Annotations as solutions of equations: the shape of a temporary or a buffer is the hull of all
boxes demanded of it, and a region computes what is demanded of its results. In a function without
cycles the equations have one solution. -/

set_option autoImplicit false

namespace Stencil

def Region.readsOf (r : Region) (o : Operand) : List Box :=
  match r.shape with
  | .unknown => []
  | .known domain => ((r.footprints domain).filter fun fp => r.operands[fp.slot]? = some o).map (·.read)

theorem Region.mem_readsOf {r : Region} {o : Operand} {box : Box} :
    box ∈ r.readsOf o ↔ ∃ domain b base s q, r.shape = .known domain ∧ (b, base) ∈ r.runs domain ∧
      .access s q ∈ b.ops ∧ r.operands[s]? = some o ∧ box = base.shifted q := by
  unfold readsOf
  cases hs : r.shape with
  | unknown => simp
  | known domain =>
    simp only [List.mem_map, List.mem_filter, decide_eq_true_eq, Shape.known.injEq]
    constructor
    · rintro ⟨fp, ⟨hfp, ho⟩, rfl⟩
      obtain ⟨b, base, hrun, hop, hread⟩ := mem_footprints.mp hfp
      exact ⟨domain, b, base, fp.slot, fp.offset, rfl, hrun, hop, ho, hread⟩
    · rintro ⟨domain', b, base, s, q, rfl, hrun, hop, ho, rfl⟩
      exact ⟨⟨s, q, base.shifted q⟩, ⟨mem_footprints.mpr ⟨b, base, hrun, hop, rfl⟩, ho⟩, rfl⟩

theorem Region.ranked_readsOf {r : Region} {n : Nat} (hfit : r.Fits n)
    (hd : ∀ d, r.shape = .known d → d.Ranked n) {o : Operand} {box : Box} (h : box ∈ r.readsOf o) :
    box.Ranked n := by
  obtain ⟨domain, b, base, s, q, hs, hrun, hop, _, rfl⟩ := mem_readsOf.mp h
  obtain ⟨hbase, hb⟩ := ranked_of_mem_runs hfit (hd domain hs) hrun
  exact Box.ranked_shifted hbase (hb.ops _ hop).1

def Region.computedShape (r : Region) : Shape → Shape
  | .unknown => .unknown
  | .known b => .known (r.computedDomain b)

namespace Shape

theorem join_known_eq_grow (s : Shape) {b : Box} (hb : b.Canonical) : s.join (known b) = s.grow b := by
  cases s with
  | unknown => rw [join, grow, hb.canonical_eq]
  | known a => rfl

theorem join_unknown (s : Shape) : s.join unknown = s := by cases s <;> rfl

theorem foldl_join_eq {shapes : List Shape} (h : ∀ b, known b ∈ shapes → b.Canonical) (s : Shape) :
    shapes.foldl join s = (shapes.filterMap box?).foldl grow s := by
  induction shapes generalizing s with
  | nil => rfl
  | cons x shapes ih =>
    have hrest := ih fun b hb => h b (by simp [hb])
    cases x with
    | unknown =>
      rw [List.foldl_cons, join_unknown, hrest]
      rfl
    | known b =>
      rw [List.foldl_cons, join_known_eq_grow s (h b (by simp)), hrest]
      rfl

end Shape

namespace Func

def readsAt (f : Func) (o : Operand) (id : RegionId) : List Box :=
  match f.region? id with
  | some r => r.readsOf o
  | none => []

def demandsOn (f : Func) (o : Operand) : List Box := f.regionIds.flatMap (f.readsAt o)

def marksOn (f : Func) (t : TempId) : List Box := (f.outputs.filter (·.temp = t)).map (·.domain)

def resultShapes (f : Func) (r : Region) : List Shape :=
  r.results.filterMap fun t => (f.temp? t).map (·.shape)

/-- The annotations meet all demands and no more. -/
structure Annotated (f : Func) : Prop where
  temp : ∀ t x, f.temp? t = some x → x.shape = .hull (f.marksOn t ++ f.demandsOn (.temp t))
  buffer : ∀ b x, f.buffer? b = some x → x.required = .hull (f.demandsOn (.buffer b))
  region : ∀ id r, f.region? id = some r → r.shape = r.computedShape (Inference.demand f r)
  ranked : ∀ id r d, f.region? id = some r → r.shape = .known d → d.Ranked f.rank

theorem mem_readsAt {f : Func} {o : Operand} {id : RegionId} {box : Box} :
    box ∈ f.readsAt o id ↔ ∃ r, f.region? id = some r ∧ box ∈ r.readsOf o := by
  unfold readsAt
  cases f.region? id <;> simp

theorem mem_demandsOn {f : Func} {o : Operand} {box : Box} :
    box ∈ f.demandsOn o ↔ ∃ id r, f.region? id = some r ∧ box ∈ r.readsOf o := by
  simp only [demandsOn, List.mem_flatMap, mem_readsAt]
  constructor
  · rintro ⟨id, _, r, hr, hbox⟩
    exact ⟨id, r, hr, hbox⟩
  · rintro ⟨id, r, hr, hbox⟩
    exact ⟨id, mem_regionIds.mpr ⟨r, hr⟩, r, hr, hbox⟩

theorem mem_marksOn {f : Func} {t : TempId} {box : Box} :
    box ∈ f.marksOn t ↔ ∃ o, o ∈ f.outputs ∧ o.temp = t ∧ o.domain = box := by
  simp [marksOn, and_assoc]

theorem demand_eq (f : Func) (r : Region) :
    Inference.demand f r = (f.resultShapes r).foldl Shape.join .unknown := by
  rw [Inference.demand, resultShapes, ← List.map_filterMap, List.foldl_map]

theorem demand_congr {f g : Func} {r r' : Region} (hres : r.results = r'.results)
    (h : ∀ t, t ∈ r.results → (f.temp? t).map (·.shape) = (g.temp? t).map (·.shape)) :
    Inference.demand f r = Inference.demand g r' := by
  rw [demand_eq, demand_eq, resultShapes, resultShapes, ← hres]
  congr 1
  exact List.filterMap_congr h

theorem ranked_marksOn {f : Func} (hf : f.Sound) {t : TempId} {box : Box} (h : box ∈ f.marksOn t) :
    box.Ranked f.rank := by
  obtain ⟨o, ho, _, rfl⟩ := mem_marksOn.mp h
  exact (hf.outputs o ho).2

/-- The boxes of temporaries are of the function's rank and, when empty, the empty box. -/
def CanonicalTemps (f : Func) : Prop :=
  ∀ t x b, f.temp? t = some x → x.shape = .known b → b.Ranked f.rank ∧ b.Canonical

theorem CanonicalTemps.demand_eq_hull {f : Func} (hc : f.CanonicalTemps) (r : Region) :
    Inference.demand f r = .hull ((f.resultShapes r).filterMap Shape.box?) := by
  rw [demand_eq, Shape.foldl_join_eq]
  · rfl
  · intro b hb
    obtain ⟨t, _, ht⟩ := List.mem_filterMap.mp hb
    obtain ⟨x, hx, hs⟩ := Option.map_eq_some_iff.mp ht
    exact (hc t x b hx hs).2

theorem CanonicalTemps.ranked_resultShapes {f : Func} (hc : f.CanonicalTemps) {r : Region} {b : Box}
    (h : b ∈ (f.resultShapes r).filterMap Shape.box?) : b.Ranked f.rank := by
  obtain ⟨s, hs, hb⟩ := List.mem_filterMap.mp h
  obtain ⟨t, _, ht⟩ := List.mem_filterMap.mp hs
  obtain ⟨x, hx, rfl⟩ := Option.map_eq_some_iff.mp ht
  cases hxs : x.shape with
  | unknown =>
    rw [hxs] at hb
    cases hb
  | known c =>
    rw [hxs] at hb
    cases hb
    exact (hc t x b hx hxs).1

theorem CanonicalTemps.leastAbove_demand {f : Func} (hc : f.CanonicalTemps) {r : Region} {b : Box}
    (hb : Inference.demand f r = .known b) :
    Shape.LeastAbove f.rank ((f.resultShapes r).filterMap Shape.box?) b := by
  rw [hc.demand_eq_hull] at hb
  exact Shape.leastAbove_of_hull (fun _ h => hc.ranked_resultShapes h) hb

section Solution

variable {f : Func} (hf : f.Sound) (ha : f.Annotated)
include hf ha

theorem ranked_demandsOn {o : Operand} {box : Box} (h : box ∈ f.demandsOn o) :
    box.Ranked f.rank := by
  obtain ⟨id, r, hr, hbox⟩ := mem_demandsOn.mp h
  exact Region.ranked_readsOf (hf.fits id r hr) (fun d hs => ha.ranked id r d hr hs) hbox

theorem ranked_demands {t : TempId} {box : Box} (h : box ∈ f.marksOn t ++ f.demandsOn (.temp t)) :
    box.Ranked f.rank := by
  rcases List.mem_append.mp h with h | h
  · exact ranked_marksOn hf h
  · exact ranked_demandsOn hf ha h

theorem leastAbove_temp {t : TempId} {x : Temporary} (hx : f.temp? t = some x) {b : Box}
    (hb : x.shape = .known b) :
    Shape.LeastAbove f.rank (f.marksOn t ++ f.demandsOn (.temp t)) b :=
  Shape.leastAbove_of_hull (fun _ h => ranked_demands hf ha h) ((ha.temp t x hx).symm.trans hb)

theorem canonicalTemps : f.CanonicalTemps := by
  intro t x b hx hb
  have hl := leastAbove_temp hf ha hx hb
  exact ⟨hl.ranked, hl.canonical⟩

theorem exists_region_covering {t : TempId} {x : Temporary} (hx : f.temp? t = some x) {b : Box}
    (hb : x.shape = .known b) :
    ∃ r d, f.region? x.producer = some r ∧ r.results[x.resultIndex]? = some t ∧ r.shape = .known d ∧
      d.contains b = true := by
  obtain ⟨r, hr, ht⟩ := hf.produced t x hx
  have hmem : b ∈ (f.resultShapes r).filterMap Shape.box? := by
    refine List.mem_filterMap.mpr ⟨.known b, ?_, rfl⟩
    exact List.mem_filterMap.mpr ⟨t, List.mem_of_getElem? ht, by rw [hx, Option.map_some, hb]⟩
  cases hdem : Inference.demand f r with
  | unknown =>
    rw [(canonicalTemps hf ha).demand_eq_hull] at hdem
    rw [(Shape.hull_eq_unknown_iff _).mp hdem] at hmem
    cases hmem
  | known req =>
    have hl := (canonicalTemps hf ha).leastAbove_demand hdem
    obtain ⟨hranked, _, hcont⟩ := Region.computedDomain_spec (hf.fits _ r hr) hl.ranked hl.canonical
    have hshape := ha.region _ r hr
    rw [hdem] at hshape
    have hreq : req.contains b = true :=
      (hl.contains_iff req hl.ranked).mp (Box.contains_refl hl.ranked) b hmem
    exact ⟨r, _, hr, ht, hshape,
      Box.contains_trans hranked hl.ranked (leastAbove_temp hf ha hx hb).ranked hcont hreq⟩

theorem canonical_region {id : RegionId} {r : Region} {d : Box} (hr : f.region? id = some r)
    (hs : r.shape = .known d) : d.Canonical := by
  have hshape := ha.region id r hr
  cases hdem : Inference.demand f r with
  | unknown => simp [hdem, hs, Region.computedShape] at hshape
  | known req =>
    have hl := (canonicalTemps hf ha).leastAbove_demand hdem
    rw [hdem, hs] at hshape
    cases hshape
    exact (Region.computedDomain_spec (hf.fits id r hr) hl.ranked hl.canonical).2.1

theorem exists_temp_covering {t : TempId} {x : Temporary} (hx : f.temp? t = some x) {box : Box}
    (h : box ∈ f.marksOn t ++ f.demandsOn (.temp t)) :
    ∃ b, x.shape = .known b ∧ b.contains box = true := by
  cases hs : x.shape with
  | unknown =>
    have hnil := ha.temp t x hx
    rw [hs] at hnil
    rw [(Shape.hull_eq_unknown_iff _).mp hnil.symm] at h
    cases h
  | known b =>
    have hl := leastAbove_temp hf ha hx hs
    exact ⟨b, rfl, (hl.contains_iff b hl.ranked).mp (Box.contains_refl hl.ranked) box h⟩

theorem exists_buffer_covering {b : BufferId} {x : Buffer} (hx : f.buffer? b = some x) {box : Box}
    (h : box ∈ f.demandsOn (.buffer b)) :
    ∃ c, x.required = .known c ∧ c.Ranked f.rank ∧ c.contains box = true := by
  have hhull := ha.buffer b x hx
  cases hs : x.required with
  | unknown =>
    rw [hs] at hhull
    rw [(Shape.hull_eq_unknown_iff _).mp hhull.symm] at h
    cases h
  | known c =>
    rw [hs] at hhull
    have hl := Shape.leastAbove_of_hull (fun _ hd => ranked_demandsOn hf ha hd) hhull.symm
    exact ⟨c, rfl, hl.ranked, (hl.contains_iff c hl.ranked).mp (Box.contains_refl hl.ranked) box h⟩

theorem certificate_eq : Inference.certificate f =
    ⟨[("S1_accesses_sound", true), ("S2_outputs_covered", true), ("S3_producers_cover", true)]⟩ := by
  have hreads : (f.liveRegions.all fun r => Inference.accessesSound f r.2) = true := by
    rw [List.all_eq_true]
    rintro ⟨id, r⟩ hr
    rw [mem_liveRegions] at hr
    rw [Inference.accessesSound_def]
    cases hs : r.shape with
    | unknown => rfl
    | known domain =>
      rw [List.all_eq_true]
      intro fp hfp
      obtain ⟨b, base, hrun, hop, hread⟩ := Region.mem_footprints.mp hfp
      obtain ⟨o, ho, hlive⟩ := hf.reads id r b _ _ hr (Region.mem_bodies_of_mem_runs hrun) hop
      have hbox : fp.read ∈ f.demandsOn o := mem_demandsOn.mpr ⟨id, r, hr,
        Region.mem_readsOf.mpr ⟨domain, b, base, _, _, hs, hrun, hop, ho, hread⟩⟩
      simp only [ho, Option.bind_some]
      cases o with
      | temp t =>
        obtain ⟨x, hx⟩ := Option.isSome_iff_exists.mp hlive
        obtain ⟨c, hc, hcont⟩ := exists_temp_covering hf ha hx (List.mem_append_right _ hbox)
        simp [operandShape?, hx, hc, Shape.covers, hcont]
      | buffer b =>
        obtain ⟨x, hx⟩ := Option.isSome_iff_exists.mp hlive
        obtain ⟨c, hc, _, hcont⟩ := exists_buffer_covering hf ha hx hbox
        simp [operandShape?, hx, hc, Shape.covers, hcont]
  have hmarks : (f.outputs.all fun o =>
      ((f.temp? o.temp).map (·.shape)).any fun s => s.covers (.known o.domain)) = true := by
    rw [List.all_eq_true]
    intro o ho
    obtain ⟨⟨x, hx⟩, _⟩ := hf.outputs o ho
    obtain ⟨c, hc, hcont⟩ := exists_temp_covering hf ha hx
      (List.mem_append_left _ (mem_marksOn.mpr ⟨o, ho, rfl, rfl⟩))
    simp [hx, hc, Shape.covers, hcont]
  have hproducers : (f.liveTemps.all fun t => !t.2.shape.isKnown ||
      ((f.region? t.2.producer).map (·.shape)).any fun s => s.covers t.2.shape) = true := by
    rw [List.all_eq_true]
    rintro ⟨t, x⟩ hx
    rw [mem_liveTemps] at hx
    cases hs : x.shape with
    | unknown => simp [Shape.isKnown]
    | known b =>
      obtain ⟨r, d, hr, _, hd, hcont⟩ := exists_region_covering hf ha hx hs
      simp [hr, hd, Shape.covers, hcont]
  rw [Inference.certificate_def, hreads, hmarks, hproducers]

end Solution

theorem producer_of_mem_readsOf {f : Func} {id : RegionId} {r : Region} {t : TempId}
    {x : Temporary} {box : Box} (hr : f.region? id = some r) (hx : f.temp? t = some x)
    (h : box ∈ r.readsOf (.temp t)) : x.producer ∈ f.producers id := by
  obtain ⟨_, _, _, s, _, _, _, _, hs, _⟩ := Region.mem_readsOf.mp h
  exact mem_producers.mpr ⟨r, t, x, hr, List.mem_of_getElem? hs, hx, rfl⟩

theorem demandsOn_congr {f g : Func} {o : Operand} (hids : f.regionIds = g.regionIds)
    (h : ∀ id, f.readsAt o id = [] ∧ g.readsAt o id = [] ∨ f.region? id = g.region? id) :
    f.demandsOn o = g.demandsOn o := by
  rw [demandsOn, demandsOn, ← hids]
  congr 1
  funext id
  rcases h id with ⟨h1, h2⟩ | h
  · rw [h1, h2]
  · rw [readsAt, readsAt, h]

section Unique

variable {f g : Func} {order : List RegionId}

theorem SameStructure.marksOn_eq (h : f.SameStructure g) (t : TempId) : f.marksOn t = g.marksOn t := by
  rw [marksOn, marksOn, h.outputs_eq]

/-- A temporary is read only behind its producer, so its demands agree once the regions there do. -/
theorem SameStructure.demandsOn_eq (h : f.SameStructure g) (hord : f.Ordered order) {t : TempId}
    {x : Temporary} (hx : f.temp? t = some x) {pre post : List RegionId}
    (heq : order = pre ++ x.producer :: post)
    (hpost : ∀ id, id ∈ post → f.region? id = g.region? id) :
    f.demandsOn (.temp t) = g.demandsOn (.temp t) := by
  apply demandsOn_congr h.regionIds_eq
  intro id
  by_cases hid : id ∈ post
  · exact .inr (hpost id hid)
  · left
    constructor
    · rw [List.eq_nil_iff_forall_not_mem]
      intro box hbox
      obtain ⟨r, hr, hbox⟩ := mem_readsAt.mp hbox
      exact hid (hord.mem_after heq (hord.mem_iff.mpr ⟨r, hr⟩) (producer_of_mem_readsOf hr hx hbox))
    · rw [List.eq_nil_iff_forall_not_mem]
      intro box hbox
      obtain ⟨r, hr, hbox⟩ := mem_readsAt.mp hbox
      obtain ⟨r', s, hr', _⟩ := h.exists_region hr
      obtain ⟨y, s', hy, rfl⟩ := h.symm.exists_temp hx
      have hprod := producer_of_mem_readsOf hr hy hbox
      rw [← h.producers_eq] at hprod
      exact hid (hord.mem_after heq (hord.mem_iff.mpr ⟨r', hr'⟩) hprod)

theorem Annotated.temp?_eq (h : f.SameStructure g) (ha : f.Annotated) (hb : g.Annotated) {t : TempId}
    (hd : f.demandsOn (.temp t) = g.demandsOn (.temp t)) : f.temp? t = g.temp? t := by
  cases hx : f.temp? t with
  | none =>
    cases hy : g.temp? t with
    | none => rfl
    | some y =>
      obtain ⟨x, _, hx', _⟩ := h.exists_temp hy
      rw [hx] at hx'
      cases hx'
  | some x =>
    obtain ⟨y, s, hy, rfl⟩ := h.symm.exists_temp hx
    have h1 := ha.temp t _ hx
    have h2 := hb.temp t y hy
    rw [hd, h.marksOn_eq, ← h2] at h1
    simp only at h1
    rw [hy, h1]

theorem Annotated.region?_eq (h : f.SameStructure g) (hf : f.Sound) (ha : f.Annotated)
    (hb : g.Annotated) (hord : f.Ordered order) {pre post : List RegionId} (heq : order = pre ++ post) :
    ∀ id, id ∈ post → f.region? id = g.region? id := by
  -- from the last region of the order to the first
  induction post generalizing pre with
  | nil => simp
  | cons id post ih =>
    have hpost := ih (by rw [heq, List.append_assoc]; rfl : order = (pre ++ [id]) ++ post)
    intro id' hid'
    rcases List.mem_cons.mp hid' with rfl | hid'
    · obtain ⟨r, hr⟩ := hord.mem_iff.mp (by rw [heq]; simp : id' ∈ order)
      obtain ⟨r', s, hr', rfl⟩ := h.symm.exists_region hr
      have hdemand : Inference.demand f { r' with shape := s } = Inference.demand g r' := by
        apply demand_congr rfl
        intro t ht
        obtain ⟨i, hi⟩ := List.mem_iff_getElem?.mp ht
        obtain ⟨x, hx, rfl, _⟩ := hf.owned id' _ i t hr hi
        rw [temp?_eq h ha hb (h.demandsOn_eq hord hx heq hpost)]
      have h1 := ha.region id' _ hr
      have h2 := hb.region id' r' hr'
      rw [hdemand] at h1
      have hs : s = r'.shape := by
        rw [h2]
        exact h1
      rw [hr, hr', hs]
    · exact hpost id' hid'

/-- In a function without cycles, the annotations are determined by the structure. -/
theorem Annotated.unique (h : f.SameStructure g) (hf : f.Sound) (ha : f.Annotated)
    (hb : g.Annotated) (hord : f.Ordered order) :
    (∀ id, f.region? id = g.region? id) ∧ (∀ t, f.temp? t = g.temp? t) ∧
      ∀ b, f.buffer? b = g.buffer? b := by
  have hregion : ∀ id, f.region? id = g.region? id := by
    intro id
    by_cases hid : id ∈ order
    · exact region?_eq h hf ha hb hord (List.nil_append order).symm id hid
    · have hf' : f.region? id = none := by
        cases hr : f.region? id with
        | none => rfl
        | some r => exact absurd (hord.mem_iff.mpr ⟨r, hr⟩) hid
      have hg' := h.isSome_region? id
      rw [hf'] at hg'
      rw [hf', Option.isNone_iff_eq_none.mp (Option.isSome_eq_false_iff.mp hg'.symm)]
  have hdemands : ∀ o, f.demandsOn o = g.demandsOn o := by
    intro o
    exact demandsOn_congr h.regionIds_eq fun id => .inr (hregion id)
  refine ⟨hregion, fun t => temp?_eq h ha hb (hdemands _), ?_⟩
  intro b
  cases hx : f.buffer? b with
  | none =>
    cases hy : g.buffer? b with
    | none => rfl
    | some y =>
      obtain ⟨x, _, hx', _⟩ := h.exists_buffer hy
      rw [hx] at hx'
      cases hx'
  | some x =>
    obtain ⟨y, s, hy, rfl⟩ := h.symm.exists_buffer hx
    have h1 := ha.buffer b _ hx
    have h2 := hb.buffer b y hy
    rw [hdemands, ← h2] at h1
    simp only at h1
    rw [hy, h1]

end Unique

end Func

end Stencil
