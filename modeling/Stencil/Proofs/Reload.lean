import Stencil.Proofs.Compaction
import Stencil.Proofs.Coordinates
import Stencil.Proofs.Loading
import Stencil.Proofs.Planning

/-! What a pipeline makes of a program that was read can be read again, as far as its boxes stay in
range. The passes keep names, declared boxes and the order of temporaries; inference gives the boxes
their canonical form. -/

set_option autoImplicit false

namespace Stencil

namespace Body

theorem legible_splice {b inner : Body} {pos result : Nat} {slots : List Nat}
    (hb : ∀ op ∈ b.ops, op.Legible)
    (hinner : ∀ op ∈ inner.ops, op.Legible) :
    ∀ op ∈ (b.splice pos inner result slots).ops, op.Legible := by
  intro op hop
  unfold splice at hop
  split at hop
  · rcases List.mem_append.mp hop with hop | hop
    · rcases List.mem_append.mp hop with hop | hop
      · exact hb op (List.mem_of_mem_take hop)
      · obtain ⟨op', hop', rfl⟩ := List.mem_map.mp hop
        have := hinner op' hop'
        cases op' <;> exact this
    · obtain ⟨op', hop', rfl⟩ := List.mem_map.mp hop
      have := hb op' (List.mem_of_mem_drop hop')
      cases op' <;> exact this
  · exact hb op hop

theorem legible_mapSlots {b : Body} {σ : Nat → Nat} (hb : ∀ op ∈ b.ops, op.Legible) :
    ∀ op ∈ (b.mapSlots σ).ops, op.Legible := by
  intro op hop
  obtain ⟨op', hop', rfl⟩ := List.mem_map.mp hop
  have := hb op' hop'
  cases op' <;> exact this

theorem legible_replicate {b : Body} {axis factor : Nat} (hb : ∀ op ∈ b.ops, op.Legible) :
    ∀ op ∈ (b.replicate axis factor).ops, op.Legible := by
  intro op hop
  obtain ⟨k, _, op', hop', rfl⟩ := Words.mem_replicate_ops.mp hop
  have := hb op' hop'
  cases op' <;> exact this

end Body

namespace Func

/-- Names and declared boxes can be written, and temporaries stand in the order of the text. -/
structure Tidy (f : Func) : Prop where
  legible : f.Legible
  domain : ∀ b ∈ f.buffers, ∀ d, b.domain = some d → d.Declarable f.rank
  output : ∀ o ∈ f.outputs, o.domain.Declarable f.rank
  lined : f.Lined

/-- `g` has only names, places and declared boxes that `f` has. -/
structure Trims (f g : Func) : Prop where
  name : g.name = f.name
  rank : g.rank = f.rank
  buffers : g.buffers.map (fun b => (b.name, b.domain)) = f.buffers.map fun b => (b.name, b.domain)
  outputs : g.outputs = f.outputs
  temp : ∀ t x, g.temp? t = some x →
    ∃ y, f.temp? t = some y ∧ y.name = x.name ∧ y.producer = x.producer ∧ y.resultIndex = x.resultIndex
  region : ∀ id r, g.region? id = some r → ∃ s, f.region? id = some s ∧ s.name = r.name

variable {f g : Func}

theorem Trims.exists_buffer (h : f.Trims g) {b : Buffer} (hb : b ∈ g.buffers) :
    ∃ c ∈ f.buffers, c.name = b.name ∧ c.domain = b.domain := by
  have hmem : (b.name, b.domain) ∈ g.buffers.map fun b => (b.name, b.domain) := List.mem_map_of_mem hb
  rw [h.buffers] at hmem
  obtain ⟨c, hc, heq⟩ := List.mem_map.mp hmem
  exact ⟨c, hc, congrArg Prod.fst heq, congrArg Prod.snd heq⟩

theorem Tidy.of_trims (h : f.Tidy) (ht : f.Trims g)
    (hregion : ∀ id r, g.region? id = some r → r.Legible) : g.Tidy where
  legible := {
    name := by rw [ht.name]; exact h.legible.name
    rank_pos := by rw [ht.rank]; exact h.legible.rank_pos
    rank_le := by rw [ht.rank]; exact h.legible.rank_le
    buffer := by
      intro b hb
      obtain ⟨c, hc, hname, _⟩ := ht.exists_buffer hb
      rw [← hname]
      exact h.legible.buffer c hc
    temp := by
      intro t x hx
      obtain ⟨y, hy, hname, _⟩ := ht.temp t x hx
      rw [← hname]
      exact h.legible.temp t y hy
    region := hregion
    buffers_nodup := by
      have := congrArg (List.map Prod.fst) ht.buffers
      rw [List.map_map, List.map_map] at this
      exact (congrArg List.Nodup this).mpr h.legible.buffers_nodup
    temps_inj := by
      intro t u x x' hx hx' heq
      obtain ⟨y, hy, hname, _⟩ := ht.temp t x hx
      obtain ⟨y', hy', hname', _⟩ := ht.temp u x' hx'
      exact h.legible.temps_inj t u y y' hy hy' (hname.trans (heq.trans hname'.symm))
    regions_inj := by
      intro id id' r r' hr hr' heq
      obtain ⟨s, hs, hname⟩ := ht.region id r hr
      obtain ⟨s', hs', hname'⟩ := ht.region id' r' hr'
      exact h.legible.regions_inj id id' s s' hs hs' (hname.trans (heq.trans hname'.symm)) }
  domain b hb d hd := by
    obtain ⟨c, hc, _, hdomain⟩ := ht.exists_buffer hb
    rw [ht.rank]
    exact h.domain c hc d (hdomain.trans hd)
  output o ho := by
    rw [ht.rank]
    exact h.output o (ht.outputs ▸ ho)
  lined t t' x x' hx hx' hlt := by
    obtain ⟨y, hy, _, hproducer, hindex⟩ := ht.temp t x hx
    obtain ⟨y', hy', _, hproducer', hindex'⟩ := ht.temp t' x' hx'
    rw [← hproducer, ← hproducer', ← hindex, ← hindex']
    exact h.lined t t' y y' hy hy' hlt

theorem SameStructure.trims (h : f.SameStructure g) : f.Trims g where
  name := (congrArg Func.name (show f.clearShapes = g.clearShapes from h)).symm
  rank := h.rank_eq.symm
  buffers := by
    have := congrArg (fun k : Func => k.buffers.map fun b => (b.name, b.domain)) h
    simp only [clearShapes, List.map_map] at this
    exact this.symm
  outputs := h.outputs_eq.symm
  temp t x hx := by
    obtain ⟨y, s, hy, rfl⟩ := h.exists_temp hx
    exact ⟨y, hy, rfl, rfl, rfl⟩
  region id r hr := by
    obtain ⟨r', s, hr', rfl⟩ := h.exists_region hr
    exact ⟨r', hr', rfl⟩

theorem Tidy.of_sameStructure (h : f.Tidy) (hsame : f.SameStructure g) : g.Tidy := by
  refine h.of_trims hsame.trims fun id r hr => ?_
  obtain ⟨r', s, hr', rfl⟩ := hsame.exists_region hr
  have hlegible := h.legible.region id r' hr'
  exact ⟨hlegible.name, hlegible.ops, hlegible.factor, hlegible.operands, hlegible.results⟩

end Func

namespace Inlining

theorem nodup_mergeOperands {operands more : List Operand} (h : operands.Nodup) :
    (mergeOperands operands more).1.Nodup := by
  obtain ⟨rest, hrest, hnodup, hfresh, _⟩ := (mergeOperands_spec operands more).1
  rw [hrest]
  refine List.nodup_append.mpr ⟨h, hnodup, fun o ho o' ho' heq => ?_⟩
  exact (hfresh o' ho').2 (heq ▸ ho)

section Spliceable

variable {f : Func} {c : Candidate} {P C : Region} {B : Body} {temp : TempId} {slot : Nat}
  {offset : Offset} {dP dC : Box} (S : Spliceable f c P C B temp slot offset dP dC)

include S

theorem Spliceable.trims : f.Trims (applySplice f c) := by
  have heq := S.applySplice_eq
  rw [Func.removeRegion_eq S.region?_producer] at heq
  refine ⟨by rw [heq]; rfl, by rw [heq]; rfl, by rw [heq]; rfl, by rw [heq]; rfl, fun t x hx => ?_,
    fun id r hr => ?_⟩
  · exact ⟨x, (S.temp_cases hx).2, rfl, rfl, rfl⟩
  · obtain ⟨_, ⟨rfl, rfl⟩ | ⟨_, hr⟩⟩ := S.region_cases hr
    · exact ⟨C, S.consumer, (name_mergeRegion c P C).symm⟩
    · exact ⟨r, hr, rfl⟩

theorem Spliceable.legible_mergeRegion (hf : f.Sound) (hP : P.Legible) (hC : C.Legible) :
    (mergeRegion c P C).Legible := by
  obtain ⟨σ, hσ⟩ := S.exists_renumbered hf
  obtain ⟨hresults, _, hunroll, _⟩ := S.mergeRegion_frame hf
  obtain ⟨hname, hnodup⟩ :=
    removeSlots_frame (slotsNaming P.results (merged c P C).operands).reverse (merged c P C)
  refine ⟨?_, fun b hb op hop => ?_, ?_, ?_, ?_⟩
  · rw [mergeRegion_eq, hname]
    exact hC.name
  · obtain ⟨flag, hflag⟩ := Region.mem_bodies_iff.mp hb
    rw [hσ.part, merged_part] at hflag
    obtain ⟨_, hmerged, rfl⟩ := Option.map_eq_some_iff.mp hflag
    obtain ⟨b', hpart, rfl⟩ := Option.map_eq_some_iff.mp hmerged
    have hops := hC.ops b' (Region.mem_bodies_iff.mpr ⟨flag, hpart⟩)
    refine Body.legible_mapSlots ?_ op hop
    split
    · exact Body.legible_splice hops (hP.ops P.body (by simp [Region.bodies]))
    · exact hops
  · rw [hunroll]
    exact hC.factor
  · rw [mergeRegion_eq]
    exact hnodup (nodup_mergeOperands hC.operands)
  · rw [hresults]
    exact hC.results

theorem Spliceable.tidy_applySplice (hf : f.Sound) (h : f.Tidy) : (applySplice f c).Tidy := by
  refine h.of_trims S.trims fun id r hr => ?_
  obtain ⟨_, ⟨rfl, rfl⟩ | ⟨_, hr⟩⟩ := S.region_cases hr
  · exact S.legible_mergeRegion hf (h.legible.region _ P S.producer) (h.legible.region _ C S.consumer)
  · exact h.legible.region id r hr

end Spliceable

theorem tidy_run {f : Func} (hf : f.Sound) (h : f.Tidy) : (run f).1.Tidy ∧ (run f).1.name = f.name :=
  (run_induction (Q := fun g => g.Tidy ∧ g.name = f.name)
    (fun S hf h => ⟨S.tidy_applySplice hf h.1, S.trims.name.trans h.2⟩)
    (fun h => ⟨h.1.of_sameStructure (Func.sameStructure_invalidate _), h.2⟩) hf ⟨h, rfl⟩).2

end Inlining

namespace Unrolling

variable {options : Options}

theorem legible_unrolled {divisible : Bool} {r : Region} (h : r.Legible)
    (hfactor : (options.factor : Int) ≤ Resolution.maxFactor) :
    (unrolled options divisible r).Legible := by
  refine ⟨h.name, fun b hb => ?_, ?_, h.operands, h.results⟩
  · have hbody := h.ops r.body (by simp [Region.bodies])
    simp only [Region.bodies, unrolledIn_eq, List.mem_cons, Option.mem_toList] at hb
    rcases hb with rfl | hb
    · exact Body.legible_replicate hbody
    · split at hb
      · exact h.ops b (by simp [Region.bodies, hb])
      · cases hb
        exact hbody
  · rintro u ⟨⟩
    exact hfactor

theorem legible_afterRun {rank : Nat} {r : Region} (h : r.Legible)
    (hfactor : (options.factor : Int) ≤ Resolution.maxFactor) :
    (afterRun .exact options rank r).Legible := by
  unfold afterRun
  split
  · split
    · exact legible_unrolled h hfactor
    · exact h
  · exact h

theorem name_afterRun (rank : Nat) (r : Region) : (afterRun .exact options rank r).name = r.name := by
  unfold afterRun
  split
  · split <;> rfl
  · rfl

theorem tidy_run {f : Func} {order : List RegionId} (hf : Inference.Analysed f order) (h : f.Tidy)
    (hfactor : (options.factor : Int) ≤ Resolution.maxFactor) :
    (run options f).1.Tidy ∧ (run options f).1.name = f.name := by
  have hregion := region?_run (W := .exact) hf options
  obtain ⟨regions, stamp, heq⟩ := run_frame (W := .exact) options f
  refine ⟨h.of_trims ⟨by rw [heq], by rw [heq], by rw [heq], by rw [heq], fun t x hx => ?_,
    fun id r hr => ?_⟩
    fun id r hr => ?_, by rw [heq]⟩
  · rw [heq] at hx
    exact ⟨x, hx, rfl, rfl, rfl⟩
  · rw [hregion] at hr
    obtain ⟨s, hs, rfl⟩ := Option.map_eq_some_iff.mp hr
    exact ⟨s, hs, (name_afterRun f.rank s).symm⟩
  · rw [hregion] at hr
    obtain ⟨s, hs, rfl⟩ := Option.map_eq_some_iff.mp hr
    exact legible_afterRun (h.legible.region id s hs) hfactor

end Unrolling

/-- What every pass leaves behind of the function with that name. -/
structure Func.Polished (name : String) (f : Func) : Prop where
  tidy : f.Tidy
  name_eq : f.name = name
  sound : f.Sound
  annotated : f.Annotated

theorem Inference.Infers.polished {f g : Func} (h : Infers f g) (hf : f.Tidy) : g.Polished f.name := by
  obtain ⟨hsame, order, hg⟩ := h.analysed
  exact ⟨hf.of_sameStructure hsame, hsame.trims.name, hg.sound, hg.annotated⟩

namespace Pipeline

variable {unroll : Unrolling.Options} {name : String}

theorem polished_run {f : Func} (h : f.Polished name)
    (hfactor : (unroll.factor : Int) ≤ Resolution.maxFactor) (p : Pass)
    {outcome : Pass.Outcome} (hok : (p.run unroll f).2 = .ok outcome) :
    (p.run unroll f).1.Polished name := by
  have href := Pass.refines_run h.sound h.annotated p hok
  have htidy : (p.run unroll f).1.Tidy ∧ (p.run unroll f).1.name = f.name := by
    cases p with
    | shapeInference =>
      have := (Pass.infers_of_run hok).polished h.tidy
      exact ⟨this.tidy, this.name_eq⟩
    | inlining => exact Inlining.tidy_run h.sound h.tidy
    | unrolling =>
      obtain ⟨report, hreport, _⟩ := map_eq_ok_iff.mp hok
      obtain ⟨order, ho⟩ := Unrolling.analysed_of_run h.sound h.annotated hreport
      exact Unrolling.tidy_run ho h.tidy hfactor
  exact ⟨htidy.1, htidy.2.trans h.name_eq, href.sound, href.annotated⟩

theorem polished_runPasses {ps : List Pass} {f : Func} (h : f.Polished name)
    (hfactor : (unroll.factor : Int) ≤ Resolution.maxFactor)
    (hs : (runPasses unroll ps f).2.success = true) :
    (runPasses unroll ps f).1.Polished name := by
  induction ps generalizing f with
  | nil => exact h
  | cons p ps ih =>
    obtain ⟨⟨outcome, hok⟩, hrest, heq⟩ := runPasses_cons_success hs
    rw [heq]
    exact ih (polished_run h hfactor p hok) hrest

/-- A plan for a request starts with an inference, so nothing needs to be known of the boxes before. -/
theorem polished_plan {requested : List Pass} {refresh : Bool} {f : Func} (hne : requested ≠ [])
    (h : f.Tidy)
    (hfactor : (unroll.factor : Int) ≤ Resolution.maxFactor)
    (hs : (runPasses unroll (Pass.plan requested refresh) f).2.success = true) :
    (runPasses unroll (Pass.plan requested refresh) f).1.Polished f.name := by
  cases requested with
  | nil => exact absurd rfl hne
  | cons p rest =>
    have hplan : Pass.plan (p :: rest) refresh = Pass.planFrom refresh false (p :: rest) := rfl
    rw [hplan, Pass.planFrom_stale] at hs ⊢
    obtain ⟨⟨outcome, hok⟩, hrest, heq⟩ := runPasses_cons_success hs
    rw [heq]
    exact polished_runPasses ((Pass.infers_of_run hok).polished h) hfactor hrest

end Pipeline

def Box.inRange (b : Box) : Bool := (b.lb ++ b.ub).all coordInRange

namespace Func

def shapesInRange (f : Func) : Bool :=
  f.buffers.all (fun b => b.required.box?.all Box.inRange) &&
    f.liveTemps.all (fun t => t.2.shape.box?.all Box.inRange) &&
    f.liveRegions.all fun r => r.2.shape.box?.all Box.inRange

variable {f : Func} {name : String}

theorem Polished.boxed (h : f.Polished name) (hrange : f.shapesInRange = true) : f.Boxed := by
  simp only [shapesInRange, Bool.and_eq_true, List.all_eq_true, Option.all_eq_true] at hrange
  obtain ⟨⟨hbuffers, htemps⟩, hregions⟩ := hrange
  have hdeclarable : ∀ {b : Box}, b.inRange = true → b.Ranked f.rank → b.Canonical →
      b.Declarable f.rank := by
    intro b hb hranked hcanonical
    rw [Box.inRange, List.all_append, Bool.and_eq_true, List.all_eq_true, List.all_eq_true] at hb
    exact ⟨Box.wellFormed_iff.mpr ⟨hranked, hb⟩, hcanonical⟩
  refine ⟨h.tidy.domain, fun b hb box hbox => ?_, fun t x hx box hbox => ?_, fun id r hr box hbox => ?_,
    h.tidy.output, fun id r hr hnone => ?_⟩
  · obtain ⟨i, hi⟩ := List.mem_iff_getElem?.mp hb
    have hhull := (h.annotated.buffer i b hi).symm.trans hbox
    have hleast := Shape.leastAbove_of_hull (fun _ hd => ranked_demandsOn h.sound h.annotated hd) hhull
    exact hdeclarable (hbuffers b hb box (by rw [hbox]; rfl)) hleast.ranked hleast.canonical
  · obtain ⟨hranked, hcanonical⟩ := canonicalTemps h.sound h.annotated t x box hx hbox
    exact hdeclarable (htemps (t, x) (mem_liveTemps.mpr hx) box (by rw [hbox]; rfl)) hranked hcanonical
  · exact hdeclarable (hregions (id, r) (mem_liveRegions.mpr hr) box (by rw [hbox]; rfl))
      (h.annotated.ranked id r box hr hbox) (canonical_region h.sound h.annotated hr hbox)
  · -- a region without a box has results without one, since its box is their join
    have hshape := h.annotated.region id r hr
    have hdemand : Inference.demand f r = f.resultShape r := rfl
    rw [hnone, hdemand] at hshape
    cases hs : f.resultShape r with
    | unknown => rfl
    | known b =>
      rw [hs] at hshape
      cases hshape

theorem Polished.printable (h : f.Polished name) (hverified : f.verified = .ok ())
    (hrange : f.shapesInRange = true) :
    f.Printable := by
  obtain ⟨_, hclosed, hinRange, _⟩ := verified_iff.mp hverified
  exact ⟨h.tidy.legible, h.sound, hclosed, hinRange, h.boxed hrange⟩

theorem Built.tidy {d : FuncDecl} {declared : Resolution.Declared} {rs : List Region}
    (h : f.Built d declared rs)
    (hfinite : f.ConstantsFinite) : f.Tidy :=
  ⟨h.legible hfinite, h.boxed.domain, h.boxed.output, h.dense.lined h.sound⟩

end Func

namespace Pipeline

theorem printable_runPasses {options : Options} {f : Func} {d : FuncDecl} {declared : Resolution.Declared}
    {rs : List Region} (h : f.Built d declared rs) (hfinite : f.ConstantsFinite)
    (hfactor : (options.unroll.factor : Int) ≤ Resolution.maxFactor) {g : Func}
    (hg : (runPasses options.unroll (Pass.plan options.passes options.refreshAtEnd) f).1 = g)
    (hs : (runPasses options.unroll (Pass.plan options.passes options.refreshAtEnd) f).2.success = true)
    (hverified : options.refreshAtEnd = false → g.verified = .ok ()) (hrange : g.shapesInRange = true) :
    (g.Printable ∧ g.Lined) ∧ g.name = f.name := by
  by_cases hne : options.passes = []
  · -- nothing runs, so nothing is known of the boxes but that they were read
    have hplan : Pass.plan options.passes options.refreshAtEnd = [] := by rw [hne]; rfl
    rw [hplan] at hg
    subst hg
    exact ⟨⟨h.printable hfinite, h.dense.lined h.sound⟩, rfl⟩
  · have hpolished := polished_plan hne (h.tidy hfinite) hfactor hs
    have hvalid : g.verified = .ok () := by
      cases hrefresh : options.refreshAtEnd with
      | false => exact hverified hrefresh
      | true =>
        rw [hrefresh] at hs hg
        rw [← hg]
        obtain ⟨_, hinfers⟩ := exists_infers_plan hne hs
        exact hinfers.verified
    rw [hg] at hpolished
    exact ⟨⟨hpolished.printable hvalid hrange, hpolished.tidy.lined⟩, hpolished.name_eq⟩

/-- The text of an optimized program is read again: if a program with finite constants was read and the
pipeline succeeds on each of its functions, and what it leaves has inferred boxes in range and, where
shapes are not made fresh at the end, is valid, then the text of the result is accepted, gives
the result with its empty places closed up, and is the text of that. -/
theorem optimized_text_reloads (options : Options) {s : String} {p : Program}
    (hload : Program.load s = .ok p)
    (hfinite : ∀ f ∈ p.functions, f.ConstantsFinite)
    (hfactor : (options.unroll.factor : Int) ≤ Resolution.maxFactor)
    (hsuccess : ∀ report ∈ (run options p).2, report.success = true)
    (hverified : options.refreshAtEnd = false → ∀ g ∈ (run options p).1.functions, g.verified = .ok ())
    (hrange : ∀ g ∈ (run options p).1.functions, g.shapesInRange = true) :
    Program.load (run options p).1.text = .ok ⟨(run options p).1.functions.map Func.compact⟩ ∧
      Program.text ⟨(run options p).1.functions.map Func.compact⟩ = (run options p).1.text := by
  obtain ⟨hbuilt, hnodup⟩ := Program.built_of_load hload
  have hfunctions : ∀ f ∈ p.functions,
      (runPasses options.unroll (Pass.plan options.passes options.refreshAtEnd) f).1 ∈
        (run options p).1.functions := by
    intro f hf
    simp only [run, List.map_map]
    exact List.mem_map.mpr ⟨f, hf, rfl⟩
  have hstep : ∀ f ∈ p.functions, ∀ g,
      (runPasses options.unroll (Pass.plan options.passes options.refreshAtEnd) f).1 = g →
      (g.Printable ∧ g.Lined) ∧ g.name = f.name := by
    intro f hf g hg
    obtain ⟨d, declared, rs, hbuilt⟩ := hbuilt f hf
    have hmem := hg ▸ hfunctions f hf
    refine printable_runPasses hbuilt (hfinite f hf) hfactor hg ?_ (fun h => hverified h g hmem)
      (hrange g hmem)
    refine hsuccess _ ?_
    simp only [run, List.map_map]
    exact List.mem_map.mpr ⟨f, hf, rfl⟩
  refine Program.load_text_compact (fun g hg => ?_) ?_
  · simp only [run, List.map_map] at hg
    obtain ⟨f, hf, hfg⟩ := List.mem_map.mp hg
    exact (hstep f hf g hfg).1
  · have hnames : (run options p).1.functions.map (·.name) = p.functions.map (·.name) := by
      simp only [run, List.map_map]
      exact List.map_congr_left fun f hf => (hstep f hf _ rfl).2
    rw [hnames]
    exact hnodup

/-- A region and its only reader. -/
def pairSource : String :=
  "func f rank 1 \x7b buffer @a : f64 %p = apply p(@a) -> f64 \x7b%0 = access @a [1] return %0\x7d
  %c = apply c(%p) -> f64 \x7b%0 = access %p [1] return %0\x7d output %c [0:3]\x7d"

def pair : Func where
  name := "f"
  rank := 1
  buffers := [⟨"a", .f64, none, .unknown⟩]
  temps := [some ⟨"p", .f64, 0, 0, .unknown⟩, some ⟨"c", .f64, 1, 0, .unknown⟩]
  regions := [
    some ⟨"p", [.buffer 0], .ofOps [.access 0 [1]] [0], none, [0], .unknown⟩,
    some ⟨"c", [.temp 0], .ofOps [.access 0 [1]] [0], none, [1], .unknown⟩]
  outputs := [⟨1, ⟨[0], [3]⟩⟩]
  stamp := none

/-- The reader with the region taken in, and empty places where the region and its result were. -/
def pairInlined : Func where
  name := "f"
  rank := 1
  buffers := [⟨"a", .f64, none, .known ⟨[2], [5]⟩⟩]
  temps := [none, some ⟨"c", .f64, 1, 0, .known ⟨[0], [3]⟩⟩]
  regions := [none, some ⟨"c", [.buffer 0], .ofOps [.access 0 [2]] [0], none, [1], .known ⟨[0], [3]⟩⟩]
  outputs := [⟨1, ⟨[0], [3]⟩⟩]
  stamp := none

theorem runPasses_pair :
    (runPasses {} (Pass.plan [.inlining] true) pair).1 = (Inference.run pairInlined).func ∧
      (runPasses {} (Pass.plan [.inlining] true) pair).2.success = true := by
  have hk : Inference.Infers pair (Inference.run pair).func := ⟨_, rfl, rfl⟩
  obtain ⟨_, _, hka⟩ := hk.analysed
  -- the stamps are not computed: that they are fresh is known of every inferred function
  have hinline : Inlining.run (Inference.run pair).func = (pairInlined, .ok [⟨"p", "c"⟩]) := by
    have hsettle : Inlining.settle 3 (Inference.run pair).func [] =
        ({ pairInlined with stamp := (Inference.run pair).func.stamp }, .ok [⟨"p", "c"⟩]) := rfl
    exact Inlining.run_of_fresh hka.fresh hsettle
  have hpass : Pass.inlining.run {} (Inference.run pair).func = (pairInlined, .ok ⟨true, []⟩) := by
    simp only [Pass.run, hinline]
    rfl
  have hplan : Pass.plan [.inlining] true = [.shapeInference, .inlining, .shapeInference] := rfl
  obtain ⟨hfirst, hfirst'⟩ :=
    runPasses_cons (p := .shapeInference) (f := pair) (g := (Inference.run pair).func)
    [.inlining, .shapeInference] rfl rfl
  obtain ⟨hnext, hnext'⟩ := runPasses_cons [.shapeInference] hpass rfl
  obtain ⟨hlast, hlast'⟩ := runPasses_cons (p := .shapeInference) (f := pairInlined)
    (g := (Inference.run pairInlined).func) [] rfl rfl
  rw [hplan]
  exact ⟨hfirst.trans (hnext.trans hlast), hfirst'.trans (hnext'.trans hlast')⟩

theorem optimized_text_reloads_pair :
    (Program.load pairSource = .ok ⟨[pair]⟩ ∧ (∀ f ∈ [pair], f.ConstantsFinite) ∧
      (∀ report ∈ (run ⟨[.inlining], {}, true⟩ ⟨[pair]⟩).2, report.success = true) ∧
      ∀ g ∈ (run ⟨[.inlining], {}, true⟩ ⟨[pair]⟩).1.functions, g.shapesInRange = true) ∧
    ∃ q, Program.load (run ⟨[.inlining], {}, true⟩ ⟨[pair]⟩).1.text = .ok q ∧
      q.text = (run ⟨[.inlining], {}, true⟩ ⟨[pair]⟩).1.text := by
  have hload : Program.load pairSource = .ok ⟨[pair]⟩ := by decide +kernel
  have hfinite : ∀ f ∈ [pair], f.ConstantsFinite := by decide
  obtain ⟨hresult, hsuccess⟩ := runPasses_pair
  have hreports : ∀ report ∈ (run ⟨[.inlining], {}, true⟩ ⟨[pair]⟩).2, report.success = true := by
    simp only [run, List.map_cons, List.map_nil, List.forall_mem_singleton]
    exact hsuccess
  have hrange : ∀ g ∈ (run ⟨[.inlining], {}, true⟩ ⟨[pair]⟩).1.functions, g.shapesInRange = true := by
    simp only [run, List.map_cons, List.map_nil, List.forall_mem_singleton]
    rw [hresult]
    rfl
  exact ⟨⟨hload, hfinite, hreports, hrange⟩, _,
    optimized_text_reloads _ hload hfinite (by decide) hreports
    (fun h => by cases h) hrange⟩

/-- One read behind each point, and an output up to the largest coordinate. -/
def edgeSource : String :=
  "func f rank 1 \x7b buffer @a : f64 %p = apply p(@a) -> f64 \x7b%0 = access @a [1] return %0\x7d
  output %p [0:2147483647]\x7d"

def edge : Func where
  name := "f"
  rank := 1
  buffers := [⟨"a", .f64, none, .unknown⟩]
  temps := [some ⟨"p", .f64, 0, 0, .unknown⟩]
  regions := [some ⟨"p", [.buffer 0], .ofOps [.access 0 [1]] [0], none, [0], .unknown⟩]
  outputs := [⟨0, ⟨[0], [2147483647]⟩⟩]
  stamp := none

def edgeText : String :=
  "func f rank 1 \x7b
  buffer @a : f64 required [1:2147483648]
  %p = apply p(@a) -> f64 [0:2147483647] \x7b
    %0 = access @a [1]
    return %0
  \x7d
  output %p [0:2147483647]
\x7d
"

/-- Inference succeeds, and the box it gives the buffer ends one point behind the largest coordinate:
the text of the result is refused. -/
theorem optimized_text_refused :
    Program.load edgeSource = .ok ⟨[edge]⟩ ∧ (∀ f ∈ [edge], f.ConstantsFinite) ∧
      (∀ report ∈ (run ⟨[.shapeInference], {}, true⟩ ⟨[edge]⟩).2, report.success = true) ∧
      ∀ q, Program.load (run ⟨[.shapeInference], {}, true⟩ ⟨[edge]⟩).1.text ≠ .ok q := by
  have hload : Program.load edgeSource = .ok ⟨[edge]⟩ := by decide +kernel
  have hfinite : ∀ f ∈ [edge], f.ConstantsFinite := by decide
  have hreports : ∀ report ∈ (run ⟨[.shapeInference], {}, true⟩ ⟨[edge]⟩).2, report.success = true := by
    intro report hreport
    rw [List.mem_singleton.mp hreport]
    rfl
  have htext : (run ⟨[.shapeInference], {}, true⟩ ⟨[edge]⟩).1.text = edgeText := by decide +kernel
  have hrefused : (Program.load edgeText).isOk = false := by decide +kernel
  refine ⟨hload, hfinite, hreports, fun q hq => ?_⟩
  rw [← htext, hq] at hrefused
  cases hrefused

end Pipeline

end Stencil
