import Stencil.Proofs.Merge
import Stencil.Proofs.Refinement
import Stencil.Proofs.Soundness

/-! Inlining refines: a splice removes one region and its results and leaves every other annotation and
grid as it was, and so does any number of splices. -/

set_option autoImplicit false

namespace Stencil

namespace Func

theorem getElem?_foldl_set_none {β : Type} (places : List Nat) (xs : List (Option β)) (i : Nat) :
    (places.foldl (fun ys t => ys.set t none) xs)[i]?.join = if i ∈
      places then none else xs[i]?.join := by
  induction places generalizing xs with
  | nil => simp
  | cons t places ih =>
    rw [List.foldl_cons, ih, List.getElem?_set]
    by_cases hi : i ∈ places
    · simp [hi]
    · by_cases ht : t = i
      · subst ht
        by_cases hlen : t < xs.length
        · simp [hi, hlen]
        · simp [hi, hlen]
      · simp [hi, ht, Ne.symm ht]

section Remove

variable {f : Func} {id : RegionId} {r : Region} (h : f.region? id = some r)

include h

theorem removeRegion_eq : f.removeRegion id =
    { f with
      regions := f.regions.set id none
      temps := r.results.foldl (fun ts t => ts.set t none) f.temps } := by
  simp only [removeRegion, h]

theorem region?_removeRegion (id' : RegionId) :
    (f.removeRegion id).region? id' = if id' = id then none else f.region? id' := by
  have hset := getElem?_foldl_set_none [id] f.regions id'
  simp only [List.mem_singleton] at hset
  rw [removeRegion_eq h]
  exact hset

theorem temp?_removeRegion (t : TempId) :
    (f.removeRegion id).temp? t = if t ∈ r.results then none else f.temp? t := by
  rw [removeRegion_eq h]
  exact getElem?_foldl_set_none r.results f.temps t

end Remove

end Func

namespace Inlining

section Spliceable

variable {f : Func} {c : Candidate} {P C : Region} {B : Body} {temp : TempId} {slot : Nat}
  {offset : Offset} {dP dC : Box} (S : Spliceable f c P C B temp slot offset dP dC)

include S

theorem Spliceable.applySplice_eq :
    applySplice f c = (f.modifyRegion c.consumer (mergeRegion c P)).removeRegion c.producer := by
  simp only [applySplice, S.producer, S.consumer]

theorem Spliceable.region?_producer :
    (f.modifyRegion c.consumer (mergeRegion c P)).region? c.producer = some P := by
  rw [Func.region?_modifyRegion, if_neg S.distinct, S.producer]

theorem Spliceable.region?_applySplice (id : RegionId) :
    (applySplice f c).region? id = if id = c.producer then none
      else if id = c.consumer then some (mergeRegion c P C) else f.region? id := by
  rw [S.applySplice_eq, Func.region?_removeRegion S.region?_producer, Func.region?_modifyRegion]
  by_cases hc : c.consumer = id
  · subst hc
    simp [S.consumer]
  · simp [hc, Ne.symm hc]

theorem Spliceable.temp?_applySplice (t : TempId) :
    (applySplice f c).temp? t = if t ∈ P.results then none else f.temp? t := by
  rw [S.applySplice_eq, Func.temp?_removeRegion S.region?_producer]
  rfl

theorem Spliceable.applySplice_frame :
    (applySplice f c).rank = f.rank ∧ (applySplice f c).outputs = f.outputs ∧
      (∀ b, (applySplice f c).buffer? b = f.buffer? b) ∧
      (applySplice f c).regions.length = f.regions.length := by
  rw [S.applySplice_eq, Func.removeRegion_eq S.region?_producer]
  simp [Func.modifyRegion, Func.buffer?]

theorem Spliceable.region_cases {id : RegionId} {r : Region}
    (h : (applySplice f c).region? id = some r) :
    id ≠ c.producer ∧ ((id = c.consumer ∧ r = mergeRegion c P C) ∨
      (id ≠ c.consumer ∧ f.region? id = some r)) := by
  rw [S.region?_applySplice] at h
  split at h
  · cases h
  · next hp =>
    refine ⟨hp, ?_⟩
    split at h
    · next hc => exact .inl ⟨hc, (Option.some.inj h).symm⟩
    · next hc => exact .inr ⟨hc, h⟩

theorem Spliceable.temp_cases {t : TempId} {x : Temporary}
    (h : (applySplice f c).temp? t = some x) : t ∉ P.results ∧ f.temp? t = some x := by
  rw [S.temp?_applySplice] at h
  split at h
  · cases h
  · next ht => exact ⟨ht, h⟩

variable (hf : f.Sound)

include hf

theorem Spliceable.mergeRegion_frame :
    (mergeRegion c P C).results = C.results ∧ (mergeRegion c P C).shape = C.shape ∧
      (mergeRegion c P C).unroll = C.unroll ∧
      (mergeRegion c P C).epilogue.isSome = C.epilogue.isSome := by
  obtain ⟨σ, h⟩ := S.exists_renumbered hf
  refine ⟨h.results, h.shape, h.unroll.trans (merged_unroll c P C), ?_⟩
  rw [h.epilogue, Option.isSome_map, merged_isSome_epilogue]

theorem Spliceable.exists_region {id : RegionId} {r : Region}
    (h : (applySplice f c).region? id = some r) :
    ∃ r', f.region? id = some r' ∧ r.results = r'.results ∧ r.shape = r'.shape ∧
      ∀ s : Shape, r.computedShape s = r'.computedShape s := by
  obtain ⟨_, ⟨rfl, rfl⟩ | ⟨_, hr⟩⟩ := S.region_cases h
  · obtain ⟨hres, hshape, hunroll, hepi⟩ := S.mergeRegion_frame hf
    refine ⟨C, S.consumer, hres, hshape, ?_⟩
    intro s
    cases s with
    | unknown => rfl
    | known b => rw [Region.computedShape, Region.computedShape, Region.computedDomain_congr hunroll hepi]
  · exact ⟨r, hr, rfl, rfl, fun _ => rfl⟩

theorem Spliceable.region_kept {id : RegionId} {r : Region} (hr : f.region? id = some r)
    (hne : id ≠ c.producer) :
    ∃ r', (applySplice f c).region? id = some r' ∧ r'.results = r.results ∧ r'.shape = r.shape := by
  rw [S.region?_applySplice, if_neg hne]
  by_cases hc : id = c.consumer
  · subst hc
    rw [S.consumer] at hr
    cases hr
    obtain ⟨hres, hshape, _⟩ := S.mergeRegion_frame hf
    exact ⟨_, if_pos rfl, hres, hshape⟩
  · rw [if_neg hc]
    exact ⟨r, hr, rfl, rfl⟩

theorem Spliceable.not_mem_results {id : RegionId} {r : Region} (hr : f.region? id = some r)
    (hne : id ≠ c.producer) {t : TempId} (ht : t ∈ r.results) : t ∉ P.results :=
  fun hP => hne (hf.owner_unique hr S.producer ht hP)

theorem Spliceable.reads_applySplice {id : RegionId} {r : Region} {b : Body} {s : Nat} {o : Offset}
    (hr : (applySplice f c).region? id = some r) (hb : b ∈ r.bodies) (ho : .access s o ∈ b.ops) :
    ∃ operand, r.operands[s]? = some operand ∧ f.operandLive operand = true ∧
      ∀ t, operand = .temp t → t ∉ P.results := by
  obtain ⟨flag, hpart⟩ := Region.mem_bodies_iff.mp hb
  obtain ⟨_, ⟨rfl, rfl⟩ | ⟨hc, hr⟩⟩ := S.region_cases hr
  · obtain ⟨σ, hren⟩ := S.exists_renumbered hf
    rw [hren.part] at hpart
    obtain ⟨b₀, hb₀, rfl⟩ := Option.map_eq_some_iff.mp hpart
    obtain ⟨s₀, ho₀, rfl⟩ := Body.access_mem_mapSlots.mp ho
    rw [hren.operands b₀ s₀ o (Region.mem_bodies_iff.mpr ⟨flag, hb₀⟩) ho₀]
    exact S.merged_operand hf hb₀ ho₀
  · obtain ⟨operand, hs, hlive⟩ := hf.reads id r b s o hr hb ho
    refine ⟨operand, hs, hlive, ?_⟩
    rintro t rfl ht
    obtain ⟨v, hv⟩ := List.mem_iff_getElem?.mp ho
    exact hc (S.only id r flag b v s o t hr hpart hv hs ht).1

theorem Spliceable.sound_applySplice : (applySplice f c).Sound := by
  obtain ⟨hrank, houts, hbuffer, _⟩ := S.applySplice_frame
  refine ⟨?_, ?_, ?_, ?_, ?_⟩
  · intro id r hr
    rw [hrank]
    obtain ⟨_, ⟨rfl, rfl⟩ | ⟨_, hr⟩⟩ := S.region_cases hr
    · obtain ⟨σ, hren⟩ := S.exists_renumbered hf
      exact hren.fits (S.fits_merged hf)
    · exact hf.fits id r hr
  · intro id r i t hr ht
    obtain ⟨r', hr', hres, _⟩ := S.exists_region hf hr
    rw [hres] at ht
    have hnot := S.not_mem_results hf hr' (S.region_cases hr).1 (List.mem_of_getElem? ht)
    rw [S.temp?_applySplice, if_neg hnot]
    exact hf.owned id r' i t hr' ht
  · intro t x hx
    obtain ⟨hnot, hx⟩ := S.temp_cases hx
    obtain ⟨r, hr, ht⟩ := hf.produced t x hx
    have hne : x.producer ≠ c.producer := by
      intro he
      rw [he, S.producer] at hr
      cases hr
      exact hnot (List.mem_of_getElem? ht)
    obtain ⟨r', hr', hres, _⟩ := S.region_kept hf hr hne
    exact ⟨r', hr', by rw [hres]; exact ht⟩
  · intro o ho
    rw [houts] at ho
    rw [hrank, S.temp?_applySplice, if_neg (S.unmarked o ho)]
    exact hf.outputs o ho
  · intro id r b s o hr hb ho
    obtain ⟨operand, hs, hlive, hnot⟩ := S.reads_applySplice hf hr hb ho
    refine ⟨operand, hs, ?_⟩
    cases operand with
    | temp t =>
      rw [Func.operandLive, S.temp?_applySplice, if_neg (hnot t rfl)]
      exact hlive
    | buffer b =>
      rw [Func.operandLive, hbuffer]
      exact hlive

variable (ha : f.Annotated)

include ha

theorem Spliceable.mem_demandsOn_iff {o : Operand} (ho : ∀ t, t ∈ P.results → o ≠ .temp t) {box : Box} :
    box ∈ (applySplice f c).demandsOn o ↔ box ∈ f.demandsOn o := by
  obtain ⟨σ, hren⟩ := S.exists_renumbered hf
  have hmerged : box ∈ (mergeRegion c P C).readsOf o ↔ box ∈ C.readsOf o ∨ box ∈ P.readsOf o :=
    hren.mem_readsOf.trans (S.mem_readsOf_merged hf ha ho)
  have hconsumer : (applySplice f c).region? c.consumer = some (mergeRegion c P C) := by
    rw [S.region?_applySplice, if_neg S.distinct, if_pos rfl]
  simp only [Func.mem_demandsOn]
  constructor
  · rintro ⟨id, r, hr, hbox⟩
    obtain ⟨_, ⟨rfl, rfl⟩ | ⟨_, hr⟩⟩ := S.region_cases hr
    · rcases hmerged.mp hbox with hbox | hbox
      · exact ⟨c.consumer, C, S.consumer, hbox⟩
      · exact ⟨c.producer, P, S.producer, hbox⟩
    · exact ⟨id, r, hr, hbox⟩
  · rintro ⟨id, r, hr, hbox⟩
    by_cases hp : id = c.producer
    · subst hp
      rw [S.producer] at hr
      cases hr
      exact ⟨c.consumer, _, hconsumer, hmerged.mpr (.inr hbox)⟩
    · by_cases hc : id = c.consumer
      · subst hc
        rw [S.consumer] at hr
        cases hr
        exact ⟨c.consumer, _, hconsumer, hmerged.mpr (.inl hbox)⟩
      · refine ⟨id, r, ?_, hbox⟩
        rw [S.region?_applySplice, if_neg hp, if_neg hc, hr]

omit ha in
theorem Spliceable.demand_eq {id : RegionId} {r r' : Region}
    (hr : (applySplice f c).region? id = some r) (hr' : f.region? id = some r')
    (hres : r.results = r'.results) :
    Inference.demand (applySplice f c) r = Inference.demand f r' := by
  apply Func.demand_congr hres
  intro t ht
  rw [hres] at ht
  rw [S.temp?_applySplice, if_neg (S.not_mem_results hf hr' (S.region_cases hr).1 ht)]

theorem Spliceable.annotated_applySplice : (applySplice f c).Annotated := by
  obtain ⟨hrank, houts, hbuffer, _⟩ := S.applySplice_frame
  refine ⟨?_, ?_, ?_, ?_⟩
  · intro t x hx
    obtain ⟨hnot, hx⟩ := S.temp_cases hx
    have hmarks : (applySplice f c).marksOn t = f.marksOn t := by rw [Func.marksOn, Func.marksOn, houts]
    rw [ha.temp t x hx, hmarks]
    apply Shape.hull_congr_mem (fun d hd => Func.ranked_demands hf ha hd)
    intro d
    have ho : ∀ t', t' ∈ P.results → Operand.temp t ≠ .temp t' := by
      rintro t' ht' he
      cases he
      exact hnot ht'
    rw [List.mem_append, List.mem_append, S.mem_demandsOn_iff hf ha ho]
  · intro b x hx
    rw [hbuffer] at hx
    rw [ha.buffer b x hx]
    apply Shape.hull_congr_mem (fun d hd => Func.ranked_demandsOn hf ha hd)
    intro d
    rw [S.mem_demandsOn_iff hf ha]
    intro t _ he
    cases he
  · intro id r hr
    obtain ⟨r', hr', hres, hshape, hcomputed⟩ := S.exists_region hf hr
    rw [hshape, ha.region id r' hr', hcomputed, S.demand_eq hf hr hr' hres]
  · intro id r d hr hd
    obtain ⟨r', hr', _, hshape, _⟩ := S.exists_region hf hr
    rw [hrank]
    rw [hshape] at hd
    exact ha.ranked id r' d hr' hd

omit ha in
theorem Spliceable.effectsAt_applySplice (id : RegionId) :
    Evaluation.effectsAt (applySplice f c) id = Evaluation.effectsAt f id := by
  unfold Evaluation.effectsAt
  rw [S.region?_applySplice]
  by_cases hp : id = c.producer
  · subst hp
    have hquiet : Evaluation.regionEffects P dP = 0 := by
      simp [Evaluation.regionEffects, S.effects_body, S.plain.2]
    simp only [if_true, S.producer, S.produced, hquiet]
  · by_cases hc : id = c.consumer
    · subst hc
      obtain ⟨σ, hren⟩ := S.exists_renumbered hf
      have hmerged : (merged c P C).shape = C.shape := rfl
      simp only [if_neg hp, if_true, S.consumer, hren.shape, hmerged, S.consumed, hren.effects,
        S.effects_merged]
    · rw [if_neg hp, if_neg hc]

theorem Spliceable.refines : Evaluation.Refines f (applySplice f c) := by
  have hg := S.sound_applySplice hf
  obtain ⟨_, houts, hbuffer, hlen⟩ := S.applySplice_frame
  refine ⟨hg, S.annotated_applySplice hf ha, houts, fun t x hx => (S.temp_cases hx).2, ?_,
    hbuffer, ?_, ?_⟩
  · intro id r hr
    obtain ⟨r', hr', _, hshape, _⟩ := S.exists_region hf hr
    exact ⟨r', hr', hshape⟩
  · have heff : Evaluation.effectsAt (applySplice f c) = Evaluation.effectsAt f :=
      funext (S.effectsAt_applySplice hf)
    rw [Evaluation.totalEffects, Evaluation.totalEffects, hlen, heff]
  · intro α A inputs T hT
    apply Evaluation.solves_restrict hg hbuffer
    · intro id r d hr hd
      obtain ⟨_, ⟨rfl, rfl⟩ | ⟨_, hr⟩⟩ := S.region_cases hr
      · obtain ⟨σ, hren⟩ := S.exists_renumbered hf
        have hd' : C.shape = .known d := hren.shape.symm.trans hd
        rw [S.consumed] at hd'
        cases hd'
        obtain ⟨gs, hgs, hvals⟩ := hT.region c.consumer C dC (Func.mem_regionIds.mpr ⟨C, S.consumer⟩)
          S.consumer S.consumed
        refine ⟨gs, hren.grids (S.grids_merged hf ha hT hgs), ?_⟩
        intro i t ht
        rw [hren.results] at ht
        exact hvals i t ht
      · exact hT.region id r d (Func.mem_regionIds.mpr ⟨r, hr⟩) hr hd
    · intro t x grid hx hgrid
      obtain ⟨hnot, hx⟩ := S.temp_cases hx
      obtain ⟨id, r, d, _, hr, hd, ht⟩ := hT.support t grid hgrid
      obtain ⟨i, hi⟩ := List.mem_iff_getElem?.mp ht
      obtain ⟨y, hy, hp, _⟩ := hf.owned id r i t hr hi
      rw [hx] at hy
      cases hy
      have hne : id ≠ c.producer := by
        rintro rfl
        rw [S.producer] at hr
        cases hr
        exact hnot ht
      obtain ⟨r', hr', hres, hshape⟩ := S.region_kept hf hr hne
      exact ⟨r', d, by rw [hp]; exact hr', hshape.trans hd, by rw [hres]; exact ht⟩

end Spliceable

theorem refines_settle {f : Func} (hf : f.Sound) (ha : f.Annotated) (fuel : Nat) (made : List Splice) :
    Evaluation.Refines f (settle fuel f made).1 := by
  induction fuel generalizing f made with
  | zero => exact Evaluation.Refines.refl hf ha
  | succ fuel ih =>
    unfold settle
    cases hnext : next? f with
    | error e => exact Evaluation.Refines.refl hf ha
    | ok found =>
      cases found with
      | none => exact Evaluation.Refines.refl hf ha
      | some c =>
        -- one splice refines, and its result can be spliced again
        obtain ⟨order, _, hfind⟩ := map_eq_ok_iff.mp hnext
        obtain ⟨id, _, hc⟩ := List.exists_of_findSome?_eq_some hfind
        obtain ⟨P, C, B, temp, slot, offset, dP, dC, S⟩ := spliceable_of_candidate hc
        have hstep := S.refines hf ha
        exact hstep.trans (ih hstep.sound hstep.annotated _)

theorem refines_run {f : Func} (hf : f.Sound) (ha : f.Annotated) : Evaluation.Refines f (run f).1 := by
  unfold run
  cases f.ensureFresh "inlining" with
  | error e => exact Evaluation.Refines.refl hf ha
  | ok u =>
    have hsettle := refines_settle hf ha (f.liveRegions.length + 1) []
    simp only
    generalize settle (f.liveRegions.length + 1) f [] = res at hsettle ⊢
    obtain ⟨g, made | made⟩ := res
    · exact hsettle
    · by_cases hmade : made.isEmpty = true
      · simpa [hmade] using hsettle
      · simpa [hmade] using
          hsettle.trans (Evaluation.equivalent_invalidate hsettle.sound hsettle.annotated).1

/-- Inlining keeps what a function computes: each temporary, region and buffer that is left has the
annotation it had, and where the function has a value the inlined one has the same grids, outputs and
effects. -/
theorem inlining_preserves_evaluation {f₀ f g : Func} (hf : Inference.Infers f₀ f)
    (hg : Inference.Infers (run f).1 g) :
    (∀ t x, g.temp? t = some x → ∃ y, f.temp? t = some y ∧ x.shape = y.shape) ∧
    (∀ id r, g.region? id = some r → ∃ r', f.region? id = some r' ∧ r.shape = r'.shape) ∧
    (∀ b, (g.buffer? b).map (·.required) = (f.buffer? b).map (·.required)) ∧
    ∀ (α : Type) (A : Arithmetic α) (inputs : Evaluation.Inputs α) (e : Evaluation α),
      Evaluation.run A f inputs = .ok e →
      ∃ e' : Evaluation α, Evaluation.run A g inputs = .ok e' ∧
        (∀ t x, g.temp? t = some x → Evaluation.gridOf e'.temps t = Evaluation.gridOf e.temps t) ∧
        e'.outputs = e.outputs ∧ e'.effects = e.effects := by
  obtain ⟨_, _, hfa⟩ := hf.analysed
  obtain ⟨_, _, hga⟩ := hg.analysed
  have hrun := refines_run hfa.sound hfa.annotated
  have href := hrun.trans (Evaluation.equivalent_of_infers hrun.sound hrun.annotated hg).1
  refine ⟨fun t x hx => ⟨x, href.temp t x hx, rfl⟩, href.region, fun b => by rw [href.buffer], ?_⟩
  intro α A inputs e he
  obtain ⟨e', he', hgrid, hrest⟩ := href.run hfa hga he
  refine ⟨e', he', ?_, hrest⟩
  intro t x hx
  rw [hgrid, Evaluation.restrict_of_some hx]

theorem run_of_fresh {f : Func} (h : f.fresh = true) {g : Func} {made : List Splice}
    (hs : settle (f.liveRegions.length + 1) f [] = (g, .ok made)) :
    run f = (if made.isEmpty then g else g.invalidate, .ok made) := by
  simp only [run, Func.ensureFresh, h, if_true, hs]

/-- A sum that only the epilogue of an unrolled region reads. -/
def tailed : Func where
  name := "tailed"
  rank := 1
  buffers := [⟨"a", .f64, none, .unknown⟩]
  temps := [some ⟨"s", .f64, 0, 0, .unknown⟩, some ⟨"t", .f64, 1, 0, .unknown⟩]
  regions :=
    [some ⟨"sum", [.buffer 0], .ofOps [.access 0 [-1], .access 0 [1], .binary .add 0 1] [2], none, [0],
     .unknown⟩, some ⟨"mix", [.temp 0, .buffer 0],
       ⟨[.access 1 [0], .unary .neg 0, .access 1 [1], .unary .neg 2], ⟨[1, 3], some ⟨0, 2⟩⟩⟩,
       some (.ofOps [.access 0 [1], .access 1 [0], .binary .add 0 1] [2]), [1], .unknown⟩]
  outputs := [⟨1, ⟨[0], [3]⟩⟩]
  stamp := none

theorem inlining_preserves_evaluation_tailed : ∃ f g : Func,
    Inference.Infers tailed f ∧ Inference.Infers (run f).1 g ∧ f.regionIds = [0, 1] ∧ g.regionIds = [1] ∧
    ∃ e e', Evaluation.run .double f (fun _ => some (Grid.fill ⟨[0], [5]⟩ 0)) = .ok e ∧
      Evaluation.run .double g (fun _ => some (Grid.fill ⟨[0], [5]⟩ 0)) = .ok e' ∧
      Evaluation.gridOf e'.temps 1 = Evaluation.gridOf e.temps 1 ∧ e'.outputs = e.outputs := by
  have hf : Inference.Infers tailed (Inference.run tailed).func := ⟨_, rfl, rfl⟩
  obtain ⟨hsame, order, hfa⟩ := hf.analysed
  have hin : Evaluation.Covers (fun _ => some (Grid.fill ⟨[0], [5]⟩ (0 : Float)))
      (Inference.run tailed).func := Evaluation.covers_fill rfl 0
  have hcalls : Evaluation.CallsKnown tailed := by decide
  obtain ⟨e, he, _⟩ := Evaluation.run_exists (A := .double) hfa hin (hcalls.of_sameStructure hsame)
  -- the stamp is not computed: that it is fresh is known of every inferred function
  have hrun := run_of_fresh hfa.fresh rfl
  obtain ⟨g, hg, hids, x, hx⟩ : ∃ g, Inference.Infers (run (Inference.run tailed).func).1 g ∧
      g.regionIds = [1] ∧ ∃ x, g.temp? 1 = some x := by
    rw [hrun]
    exact ⟨_, ⟨_, rfl, rfl⟩, rfl, _, rfl⟩
  obtain ⟨_, _, _, heval⟩ := inlining_preserves_evaluation hf hg
  obtain ⟨e', he', hgrid, houts, _⟩ := heval Float .double _ e he
  exact ⟨_, g, hf, hg, rfl, hids, e, e', he, he', hgrid 1 x hx, houts⟩

end Inlining

end Stencil
