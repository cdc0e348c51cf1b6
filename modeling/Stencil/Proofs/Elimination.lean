import Stencil.Proofs.Confluence
import Stencil.Proofs.Reachability

/-! Which regions inlining removes. A splice neither makes nor unmakes a candidate: the other regions keep
their uses, one by one, each at the place to which the splice has carried it. So the regions that are gone
in the end can be read off the function as it was given. -/

set_option autoImplicit false

namespace Stencil

namespace Body

variable {pos n result v w : Nat}

theorem outerName_inj (hv : v ≠ pos) (hw : w ≠ pos)
    (h : outerName pos n result v = outerName pos n result w) : v = w := by
  rcases Nat.lt_or_gt_of_ne hv with hv | hv
  · rcases Nat.lt_or_gt_of_ne hw with hw | hw
    · rwa [outerName_of_lt hv, outerName_of_lt hw] at h
    · have he : v = w + n - 1 := by rwa [outerName_of_lt hv, outerName_of_gt hw] at h
      omega
  · rcases Nat.lt_or_gt_of_ne hw with hw | hw
    · have he : v + n - 1 = w := by rwa [outerName_of_gt hv, outerName_of_lt hw] at h
      omega
    · have he : v + n - 1 = w + n - 1 := by rwa [outerName_of_gt hv, outerName_of_gt hw] at h
      omega

theorem outerName_ne (hv : v ≠ pos) (hw : w < n) : outerName pos n result v ≠ pos + w := by
  rcases Nat.lt_or_gt_of_ne hv with hv | hv
  · have hne : v ≠ pos + w := by omega
    rwa [outerName_of_lt hv]
  · have hne : v + n - 1 ≠ pos + w := by omega
    rwa [outerName_of_gt hv]

end Body

namespace Inlining

section Site

variable {V : Outline} {c : Candidate} {P C : NamedRegion} {temp : TempId} {offset : Offset}
  (S : Site V c P C temp offset)

include S

theorem Site.carry_ne {p q : Outline.Spot} {op : NamedOp} (hop : V.op? p = some op)
    (hp : p.region = c.producer) (hq : q.region ≠ c.producer) (hne : q ≠ c.spot) :
    c.carry P p ≠ c.carry P q := by
  obtain ⟨_, hget⟩ := S.op?_producer hp hop
  have hlt := (List.getElem?_eq_some_iff.mp hget).1
  rw [Candidate.carry, if_pos hp, Candidate.carry, if_neg hq]
  obtain ⟨id, flag, v⟩ := q
  split
  · next hin =>
    obtain ⟨rfl, rfl⟩ := hin
    have hv : v ≠ c.value := fun he => hne (by rw [he]; rfl)
    exact fun he => Body.outerName_ne hv hlt (congrArg Outline.Spot.value he).symm
  · next hout =>
    exact fun he =>
      hout ⟨(congrArg Outline.Spot.region he).symm, (congrArg Outline.Spot.inEpilogue he).symm⟩

theorem Site.carry_inj {p q : Outline.Spot} {op op' : NamedOp} (hp : V.op? p = some op)
    (hq : V.op? q = some op') (hpc : p ≠ c.spot) (hqc : q ≠ c.spot) (h : c.carry P p = c.carry P q) :
    p = q := by
  -- what the producer brings stays together, and all else makes room for it
  by_cases hpp : p.region = c.producer
  · by_cases hqp : q.region = c.producer
    · have hflag := (S.op?_producer hpp hp).1.trans (S.op?_producer hqp hq).1.symm
      rw [Candidate.carry, if_pos hpp, Candidate.carry, if_pos hqp] at h
      have hvalue := congrArg Outline.Spot.value h
      obtain ⟨id, flag, v⟩ := p
      obtain ⟨id', flag', v'⟩ := q
      simp only at hpp hqp hflag hvalue
      rw [hpp, hqp, hflag, Nat.add_left_cancel hvalue]
    · exact absurd h (S.carry_ne hp hpp hqp hqc)
  · by_cases hqp : q.region = c.producer
    · exact absurd h.symm (S.carry_ne hq hqp hpp hpc)
    · rw [Candidate.carry, if_neg hpp, Candidate.carry, if_neg hqp] at h
      obtain ⟨id, flag, v⟩ := p
      obtain ⟨id', flag', v'⟩ := q
      split_ifs at h with hpin hqin hqin
      · obtain ⟨rfl, rfl⟩ := hpin
        obtain ⟨rfl, rfl⟩ := hqin
        have hv : v ≠ c.value := fun he => hpc (by rw [he]; rfl)
        have hv' : v' ≠ c.value := fun he => hqc (by rw [he]; rfl)
        rw [Body.outerName_inj hv hv' (congrArg Outline.Spot.value h)]
      · cases h
        exact absurd hpin hqin
      · cases h
        exact absurd hqin hpin
      · exact h

end Site

theorem exists_access_of_operand {f : Func} {p : Outline.Spot} {op : NamedOp} {x : Operand}
    (h : f.outline.op? p = some op) (hx : op.operand = some x) : ∃ o, op = ⟨.access 0 o, some x⟩ := by
  obtain ⟨r, b, op', _, _, _, rfl⟩ := op?_outline_iff.mp h
  obtain ⟨s, o, rfl, hs⟩ := Op.named_operand_iff.mp hx
  exact ⟨o, by rw [Op.named, hs]⟩

section Before

variable {V : Outline} {c d : Candidate} {P C Q D : NamedRegion} {t u : TempId} {o o' : Offset}
  (S : Site V c P C t o) (T : Site (V.splice c P) d Q D u o')

include T

theorem Site.exists_region_before : d.producer ≠ c.producer ∧
    ∃ Q₀, V.region? d.producer = some Q₀ ∧ c.update P d.producer Q₀ = Q := by
  have hproducer := T.producer
  simp only [Outline.splice] at hproducer
  split at hproducer
  · cases hproducer
  · next hne => exact ⟨hne, Option.map_eq_some_iff.mp hproducer⟩

theorem Site.owned_before {x : TempId} (hx : x ∈ Q.results) :
    x ∉ P.results ∧ ∃ y, V.temp? x = some y ∧ y.producer = d.producer := by
  obtain ⟨y, hy, hp⟩ := T.owned x hx
  simp only [Outline.splice] at hy
  split at hy
  · cases hy
  · next hP => exact ⟨hP, y, hy, hp⟩

omit T in
theorem plain_of_update {id : RegionId} {Q₀ : NamedRegion}
    (h : (c.update P id Q₀).body.ret.unroll = none ∧ (c.update P id Q₀).epilogue = none) :
    Q₀.body.ret.unroll = none ∧ Q₀.epilogue = none := by
  unfold Candidate.update at h
  split at h
  · rw [NamedRegion.unroll_absorb] at h
    refine ⟨h.1, ?_⟩
    have hepilogue := h.2
    unfold NamedRegion.absorb at hepilogue
    split_ifs at hepilogue
    · exact Option.map_eq_none_iff.mp hepilogue
    · exact hepilogue
  · exact h

include S

theorem Site.quiet_before {Q₀ : NamedRegion} (hQ : V.region? d.producer = some Q₀) {op : NamedOp}
    (h : op ∈ Q₀.body.ops) : op.op.hasEffect = false := by
  obtain ⟨hne, _⟩ := T.exists_region_before
  obtain ⟨v, hv⟩ := List.mem_iff_getElem?.mp h
  have hop : V.op? ⟨d.producer, false, v⟩ = some op :=
    Outline.op?_eq_some_iff.mpr ⟨Q₀, Q₀.body, hQ, rfl, hv⟩
  by_cases hspot : (⟨d.producer, false, v⟩ : Outline.Spot) = c.spot
  · rw [hspot, S.access] at hop
    cases hop
    rfl
  · obtain ⟨op', hop', halike⟩ := S.exists_op?_carry hop hspot
    have hregion : (c.carry P ⟨d.producer, false, v⟩).region = d.producer :=
      (region_carry c P _).trans (if_neg hne)
    rw [← halike.effect]
    exact T.quiet op' (List.mem_of_getElem? (T.op?_producer hregion hop').2)

theorem Site.exists_spot_before :
    ∃ p op D₀, V.op? p = some op ∧ op.operand = some (.temp u) ∧ p ≠ c.spot ∧
    d.spot = c.carry P p ∧ V.region? p.region = some D₀ ∧ D₀.shape.isKnown = true ∧
    p.region ≠ d.producer := by
  obtain ⟨hne, _⟩ := T.exists_region_before
  obtain ⟨p, op, hp, hpc, hcarry, halike⟩ := S.exists_of_op?_splice T.access
  obtain ⟨D₀, _, hD₀, _, _⟩ := Outline.op?_eq_some_iff.mp hp
  have hregion : d.consumer = if p.region = c.producer then c.consumer else p.region :=
    (congrArg Outline.Spot.region hcarry).trans (region_carry c P p)
  refine ⟨p, op, D₀, hp, halike.operand.symm, hpc, hcarry, hD₀, ?_, ?_⟩
  · -- an access that came with the producer was read by the producer, which has a shape itself
    by_cases hpp : p.region = c.producer
    · rw [hpp, S.producer] at hD₀
      cases hD₀
      exact S.produced
    · rw [if_neg hpp] at hregion
      have hconsumer := T.consumer
      simp only [Outline.splice, hregion, if_neg hpp, hD₀, Option.map_some,
        Option.some.injEq] at hconsumer
      rw [← Candidate.shape_update c P p.region D₀, hconsumer]
      exact T.consumed
  · intro he
    rw [he, if_neg hne] at hregion
    exact T.distinct hregion

end Before

/-- What can be spliced after a splice could be spliced before it. -/
theorem Site.before {f : Func} (hf : f.Sound) {c d : Candidate} {P C Q D : NamedRegion} {t u : TempId}
    {o o' : Offset} (S : Site f.outline c P C t o) (T : Site (f.outline.splice c P) d Q D u o') :
    ∃ d₀ Q₀ D₀ o₀, d₀.producer = d.producer ∧ Site f.outline d₀ Q₀ D₀ u o₀ := by
  obtain ⟨_, Q₀, hQ₀, rfl⟩ := T.exists_region_before
  obtain ⟨p, op, D₀, hop, hoperand, hpc, hcarry, hD₀, hknown, hdistinct⟩ := S.exists_spot_before T
  obtain ⟨o₀, rfl⟩ := exists_access_of_operand hop hoperand
  have hresults := c.results_update P d.producer Q₀
  have hplain := plain_of_update T.plain
  have hresult : Q₀.results[d.resultIndex]? = some u := hresults ▸ T.result
  refine ⟨⟨d.producer, d.resultIndex, p.region, p.value, p.inEpilogue⟩, Q₀, D₀, o₀, rfl, hQ₀, hD₀,
    hdistinct, hresult, hop, ?_, hknown, hplain, fun op hop => S.quiet_before T hQ₀ hop, ?_, ?_, ?_, ?_⟩
  · rw [← Candidate.shape_update c P d.producer Q₀]
    exact T.produced
  · -- two reads would be carried to two places
    intro q op' x hq hx hmem
    rw [← hresults] at hmem
    have hqc : q ≠ c.spot := by
      intro he
      rw [he, S.access] at hq
      cases hq
      cases hx
      exact (T.owned_before hmem).1 (List.mem_of_getElem? S.result)
    obtain ⟨op'', hop'', halike⟩ := S.exists_op?_carry hq hqc
    have hspot := T.only _ op'' x hop'' (halike.operand.trans hx) hmem
    exact S.carry_inj hq hop hqc hpc (hspot.trans hcarry)
  · exact hresults ▸ T.unmarked
  · intro x hx
    exact (T.owned_before (hresults.symm ▸ hx)).2
  · obtain ⟨Q₁, hQ₁, rfl⟩ := Option.map_eq_some_iff.mp hQ₀
    obtain ⟨v, hv, hlt⟩ := exists_returned hf hQ₁ hplain.1 hresult
    exact ⟨v, hv, by simpa [Region.named, Body.named] using hlt⟩

theorem Ready.exists_candidate_applySplice_iff {f : Func} (hf : Ready f) {id p : RegionId} {c : Candidate}
    (hc : candidate? f p = some c) (hne : id ≠ p) :
    (∃ d, candidate? (Inlining.applySplice f c) id = some d) ↔ ∃ d, candidate? f id = some d := by
  have hg := hf.applySplice hc
  obtain ⟨rfl, P, C, t, o, S⟩ := (candidate?_eq_some_iff hf.sound).mp hc
  have houtline := S.outline_applySplice hf.sound
  constructor
  · rintro ⟨d, hd⟩
    obtain ⟨rfl, Q, D, u, o', T⟩ := (candidate?_eq_some_iff hg.sound).mp hd
    rw [houtline] at T
    obtain ⟨d₀, Q₀, D₀, o₀, hid, T₀⟩ := S.before hf.sound T
    exact ⟨d₀, (candidate?_eq_some_iff hf.sound).mpr ⟨hid, Q₀, D₀, u, o₀, T₀⟩⟩
  · rintro ⟨d, hd⟩
    obtain ⟨rfl, Q, D, u, o', T⟩ := (candidate?_eq_some_iff hf.sound).mp hd
    obtain ⟨D', o'', T'⟩ := S.after T hne (hf.acyclic S T)
    rw [← houtline] at T'
    exact ⟨d.after c P, (candidate?_eq_some_iff hg.sound).mpr ⟨rfl, _, D', u, o'', T'⟩⟩

/-- However many splices are made, those that could be made at the start are made or can still be made. -/
theorem Splices.exists_candidate_iff {f g : Func} {ids : List RegionId} (h : Splices f ids g)
    (hf : Ready f)
    (id : RegionId) : (∃ c, candidate? f id = some c) ↔ id ∈ ids ∨ ∃ c, candidate? g id = some c := by
  induction h with
  | nil f => simp
  | @cons f g i ids c first rest ih =>
    by_cases hid : id = i
    · subst hid
      simp [first]
    · rw [← hf.exists_candidate_applySplice_iff first hid, ih (hf.applySplice first), List.mem_cons,
        or_iff_right hid]

theorem Splices.exists_region_iff {f g : Func} {ids : List RegionId} (h : Splices f ids g)
    (id : RegionId) :
    (∃ r, g.region? id = some r) ↔ (∃ r, f.region? id = some r) ∧ id ∉ ids := by
  induction h with
  | nil f => simp
  | @cons f g i ids c first rest ih =>
    obtain ⟨P, C, B, temp, slot, offset, dP, dC, S⟩ := spliceable_of_candidate first
    obtain ⟨_, _, rfl, _⟩ := candidate?_cases first
    rw [ih, List.mem_cons, not_or, ← and_assoc]
    refine and_congr_left fun _ => ?_
    rw [← Func.mem_regionIds, ← Func.mem_regionIds, S.regionIds_applySplice,
      f.nodup_regionIds.mem_erase_iff, and_comm]

def ReadAt (f : Func) (p : Outline.Spot) (t : TempId) : Prop :=
  ∃ r b s o, f.region? p.region = some r ∧ r.part p.inEpilogue = some b ∧
    b.ops[p.value]? = some (.access s o) ∧ r.operands[s]? = some (.temp t)

/-- A region with a shape that only computes, as it was written, and whose results are used once, and not
as outputs. -/
structure Eliminable (f : Func) (r : Region) : Prop where
  known : r.shape.isKnown = true
  quiet : ∀ b, b ∈ r.bodies → ∀ op, op ∈ b.ops → op.hasEffect = false
  unroll : r.unroll = none
  epilogue : r.epilogue = none
  unmarked : ∀ o, o ∈ f.outputs → o.temp ∉ r.results
  once : ∃! p, ∃ t, t ∈ r.results ∧ ReadAt f p t

theorem hasEffect_eq_false_iff {r : Region} :
    r.hasEffect = false ↔ ∀ b, b ∈ r.bodies → ∀ op, op ∈ b.ops → op.hasEffect = false := by
  simp [Region.hasEffect, Body.hasEffect]

theorem Spliceable.eliminable {f : Func} {c : Candidate} {P C : Region} {B : Body} {temp : TempId}
    {slot : Nat} {offset : Offset} {dP dC : Box} (S : Spliceable f c P C B temp slot offset dP dC) :
    Eliminable f P where
  known := by simp [S.produced, Shape.isKnown]
  quiet := hasEffect_eq_false_iff.mp S.quiet
  unroll := S.plain.1
  epilogue := S.plain.2
  unmarked := S.unmarked
  once := by
    refine ⟨c.spot, ⟨temp, List.mem_of_getElem? S.result, C, B, slot, offset, S.consumer, S.part,
      S.access, S.operand⟩, ?_⟩
    rintro ⟨id, flag, v⟩ ⟨t, ht, r, b, s, o, hr, hb, hop, hs⟩
    obtain ⟨rfl, rfl, rfl⟩ := S.only id r flag b v s o t hr hb hop hs ht
    rfl

/-- Where the shapes are those that inference finds, the one reader of a region with a shape has a
shape. -/
theorem Eliminable.isKnown_reader {f : Func} (hf : f.Sound) (ha : f.Annotated) {id : RegionId}
    {r : Region}
    (hr : f.region? id = some r) (h : Eliminable f r) {p : Outline.Spot} {t : TempId} (ht : t ∈ r.results)
    (hp : ReadAt f p t) : ∃ C, f.region? p.region = some C ∧ C.shape.isKnown = true := by
  obtain ⟨u, x, hu, hx, hxknown⟩ := (Func.isKnown_region_iff ha hf hr).mp h.known
  rcases (Func.isKnown_temp_iff ha hx).mp hxknown with ⟨o, ho, rfl⟩ | ⟨k, K, hK, hKknown, hreads⟩
  · exact absurd hu (h.unmarked o ho)
  · obtain ⟨K', flag, a, hK', hmem, hs⟩ := hreads
    obtain ⟨b, hb, hmem⟩ := Region.mem_accesses.mp hmem
    have hread : ReadAt f ⟨k, flag, a.value⟩ u :=
      ⟨K', b, a.slot, a.offset, hK', hb, Body.mem_accesses.mp hmem, hs⟩
    rw [← h.once.unique ⟨u, hu, hread⟩ ⟨t, ht, hp⟩]
    exact ⟨K, hK, hKknown⟩

theorem ReadAt.mem_producers {f : Func} (hf : f.Sound) {id : RegionId} {r : Region}
    (hr : f.region? id = some r) {p : Outline.Spot} {t : TempId} (ht : t ∈ r.results)
    (hp : ReadAt f p t) :
    id ∈ f.producers p.region := by
  obtain ⟨C, _, s, _, hC, _, _, hs⟩ := hp
  exact (Func.mem_producers_iff hf).mpr ⟨r, C, t, hr, hC, ht, List.mem_of_getElem? hs⟩

theorem Eliminable.exists_candidate {f : Func} (hf : Ready f) (ha : f.Annotated) {id : RegionId}
    {r : Region}
    (hr : f.region? id = some r) (h : Eliminable f r) : ∃ c, candidate? f id = some c := by
  obtain ⟨p, ⟨t, ht, hread⟩, huniq⟩ := h.once
  obtain ⟨i, hi⟩ := List.mem_iff_getElem?.mp ht
  obtain ⟨dP, hdP⟩ := exists_of_isKnown h.known
  obtain ⟨C, hC, hknown⟩ := h.isKnown_reader hf.sound ha hr ht hread
  obtain ⟨dC, hdC⟩ := exists_of_isKnown hknown
  obtain ⟨order, ho⟩ := hf.ordered
  have hdistinct : p.region ≠ id := by
    intro he
    have hself := hread.mem_producers hf.sound hr ht
    rw [he] at hself
    have hmem := ho.mem_iff.mpr ⟨r, hr⟩
    exact ho.not_mutual hmem hmem hself hself
  obtain ⟨C', B, s, o, hC', hB, hop, hs⟩ := hread
  cases hC.symm.trans hC'
  have S : Spliceable f ⟨id, i, p.region, p.value, p.inEpilogue⟩ r C B t s o dP dC := by
    refine ⟨hr, hC, hdistinct, hi, hB, hop, hs, hdP, hdC, ⟨h.unroll, h.epilogue⟩,
      hasEffect_eq_false_iff.mpr h.quiet, ?_, h.unmarked⟩
    intro k K flag b v s' o' t' hK hb hop' hs' ht'
    rw [← huniq ⟨k, flag, v⟩ ⟨t', ht', K, b, s', o', hK, hb, hop', hs'⟩]
    exact ⟨rfl, rfl, rfl⟩
  exact ⟨_, S.candidate?_eq hf.sound⟩

theorem exists_candidate_iff_eliminable {f : Func} (hf : Ready f) (ha : f.Annotated) (id : RegionId) :
    (∃ c, candidate? f id = some c) ↔ ∃ r, f.region? id = some r ∧ Eliminable f r := by
  constructor
  · rintro ⟨c, hc⟩
    obtain ⟨P, C, B, temp, slot, offset, dP, dC, S⟩ := spliceable_of_candidate hc
    obtain ⟨_, _, rfl, _⟩ := candidate?_cases hc
    exact ⟨P, S.producer, S.eliminable⟩
  · rintro ⟨r, hr, h⟩
    exact h.exists_candidate hf ha hr

/-- Inlining removes what can be removed, and says so. On a function with the shapes that inference
finds it comes to an end, with one splice for each region that is needed, free of effects, not
unrolled and without an epilogue, and whose results are used once, by an access; these regions are
gone, and all others are there. Where there are none, the function is left as it is, with its
stamp. -/
theorem inlining_eliminates_exactly {f₀ f : Func} (hf : Inference.Infers f₀ f) :
    ∃ g made gone, run f = (g, .ok made) ∧ gone.Nodup ∧
      (∀ id, id ∈ gone ↔ ∃ r, f.region? id = some r ∧ Eliminable f r) ∧
      made.map (·.producer) = gone.map (regionName f) ∧
      (∀ id, (∃ r, g.region? id = some r) ↔ ∃ r, f.region? id = some r ∧ ¬ Eliminable f r) ∧
      (gone = [] → g = f) := by
  obtain ⟨_, order, ha⟩ := hf.analysed
  have hready : Ready f := ⟨ha.sound, order, ha.ordered⟩
  obtain ⟨g, gone, made, hsettle, hsplices, hnames⟩ := splices_settle (f.liveRegions.length + 1) hready []
  rw [List.nil_append] at hsettle
  have hexhausted : Exhausted g := exhausted_settle ha.sound (by simp [Func.regionIds]) hsettle
  have hgone : ∀ id, id ∈ gone ↔ ∃ r, f.region? id = some r ∧ Eliminable f r := by
    intro id
    rw [← exists_candidate_iff_eliminable hready ha.annotated, hsplices.exists_candidate_iff hready]
    simp [hexhausted id]
  have hregion : ∀ id, (if made.isEmpty then g else g.invalidate).region? id = g.region? id := by
    intro id
    split <;> rfl
  refine ⟨_, made, gone, run_of_fresh ha.fresh hsettle, hsplices.live.1, hgone, hnames, ?_, ?_⟩
  · intro id
    rw [hregion, hsplices.exists_region_iff, hgone]
    cases f.region? id <;> simp
  · rintro rfl
    cases hsplices
    rw [List.map_eq_nil_iff.mp hnames]
    rfl

/-- A sum that is negated on the way to the total, with regions that stay beside it: `twice` is read
at two points, `noted` has an effect, `pairs` is unrolled, `shown` is an output too, and nothing
needs `spare`. -/
def varied : Func where
  name := "varied"
  rank := 1
  buffers := [⟨"a", .f64, none, .unknown⟩]
  temps := [some ⟨"s", .f64, 0, 0, .unknown⟩, some ⟨"n", .f64, 1, 0, .unknown⟩,
    some ⟨"w", .f64, 2, 0, .unknown⟩, some ⟨"k", .f64, 3, 0, .unknown⟩, some ⟨"p", .f64, 4, 0, .unknown⟩,
    some ⟨"m", .f64, 5, 0, .unknown⟩, some ⟨"z", .f64, 6, 0, .unknown⟩, some ⟨"d", .f64, 7, 0, .unknown⟩,
    some ⟨"e", .f64, 8, 0, .unknown⟩]
  regions :=
    [some ⟨"sum", [.buffer 0], .ofOps [.access 0 [0], .access 0 [1], .binary .add 0 1] [2], none, [0],
     .unknown⟩, some ⟨"neg", [.temp 0], .ofOps [.access 0 [1], .unary .neg 0] [1], none, [1], .unknown⟩,
     some ⟨"twice", [.buffer 0], .ofOps [.access 0 [0], .binary .add 0 0] [1], none, [2], .unknown⟩,
     some ⟨"noted", [.buffer 0], .ofOps [.access 0 [0], .call "note" [0] false] [1], none, [3], .unknown⟩,
     some ⟨"pairs", [.buffer 0], ⟨[.access 0 [0], .unary .neg 0, .access 0 [1], .unary .neg 2],
       ⟨[1, 3], some ⟨0, 2⟩⟩⟩, some (.ofOps [.access 0 [0], .unary .neg 0] [1]), [4], .unknown⟩,
     some ⟨"shown", [.buffer 0], .ofOps [.access 0 [0], .unary .neg 0] [1], none, [5], .unknown⟩,
     some ⟨"total", [.temp 1, .temp 2, .temp 3, .temp 4, .temp 5],
       .ofOps [.access 0 [0], .access 1 [0], .access 1 [1], .access 2 [0], .access 3 [0], .access 4 [0],
         .binary .add 0 1, .binary .add 6 2, .binary .add 7 3, .binary .add 8 4, .binary .add 9 5] [10],
         none, [6],
       .unknown⟩,
     some ⟨"spare", [.buffer 0], .ofOps [.access 0 [0], .unary .neg 0] [1], none, [7], .unknown⟩,
     some ⟨"unread", [.temp 7], .ofOps [.access 0 [0], .unary .neg 0] [1], none, [8], .unknown⟩]
  outputs := [⟨6, ⟨[0], [3]⟩⟩, ⟨5, ⟨[0], [3]⟩⟩]
  stamp := none

/-- Of nine regions two can be removed, one of which is read by the other. -/
theorem inlining_eliminates_exactly_varied : ∃ f g, Inference.Infers varied f ∧
    f.regionIds = [0, 1, 2, 3, 4, 5, 6, 7, 8] ∧ g.regionIds = [2, 3, 4, 5, 6, 7, 8] ∧
    run f = (g, .ok [⟨"sum", "neg"⟩, ⟨"neg", "total"⟩]) ∧
    ∀ id r, f.region? id = some r → (Eliminable f r ↔ id = 0 ∨ id = 1) := by
  have hf : Inference.Infers varied (Inference.run varied).func := ⟨_, rfl, rfl⟩
  obtain ⟨_, _, ha⟩ := hf.analysed
  -- the stamp is not computed: that it is fresh is known of every inferred function
  obtain ⟨g, hids, hrun⟩ : ∃ g, g.regionIds = [2, 3, 4, 5, 6, 7, 8] ∧
      run (Inference.run varied).func = (g, .ok [⟨"sum", "neg"⟩, ⟨"neg", "total"⟩]) :=
    ⟨_, rfl, run_of_fresh ha.fresh rfl⟩
  have hlive : (Inference.run varied).func.regionIds = [0, 1, 2, 3, 4, 5, 6, 7, 8] := rfl
  obtain ⟨g', made, gone, hrun', _, _, _, hkept, _⟩ := inlining_eliminates_exactly hf
  cases hrun.symm.trans hrun'
  refine ⟨_, g, hf, hlive, hids, hrun, fun id r hr => ?_⟩
  have hid : id ∈ (Inference.run varied).func.regionIds := Func.mem_regionIds.mpr ⟨r, hr⟩
  have hg : id ∈ g.regionIds ↔ ¬ Eliminable (Inference.run varied).func r := by
    rw [Func.mem_regionIds, hkept id, hr]
    simp
  have hsplit : ∀ i : RegionId, i ∈ [0, 1, 2, 3, 4, 5, 6, 7, 8] →
      (i ∈ [2, 3, 4, 5, 6, 7, 8] ↔ ¬ (i = 0 ∨ i = 1)) := by decide
  rw [← not_iff_not, ← hg, hids]
  exact hsplit id (hlive ▸ hid)

end Inlining

end Stencil
