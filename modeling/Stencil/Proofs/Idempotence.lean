import Stencil.Proofs.Coordinates
import Stencil.Proofs.Exhaustion
import Stencil.Proofs.Freshness
import Stencil.Proofs.Planning

/-! One run is enough. After inlining no region can be spliced and after unrolling no selected region can
be unrolled, and neither pass nor an inference brings such a region back: unrolling multiplies the reads
of a region and so leaves no new single use, and inlining keeps what decides whether a region is unrolled.
At the end of a run all its passes therefore find nothing to do. -/

set_option autoImplicit false

namespace Stencil

namespace Unrolling

def Exhausted (options : Options) (f : Func) : Prop :=
  ∀ id r, f.region? id = some r → selects options r.name = true → ∃ e, check options f.rank r = .error e

theorem check_congr {options : Options} {rank : Nat} {r r' : Region} (hunroll : r'.unroll = r.unroll)
    (hepi : r'.epilogue.isSome = r.epilogue.isSome) (hshape : r'.shape = r.shape) :
    check options rank r' = check options rank r := by
  rw [check, check, hunroll, hepi, hshape]

theorem exhausted_run {f : Func} {order : List RegionId} (hf : Inference.Analysed f order)
    (options : Options) : Exhausted options (run options f).1 := by
  intro id r' hr' hsel
  obtain ⟨_, _, hframe⟩ := run_frame (W := .exact) options f
  have hrank : (run options f).1.rank = f.rank := by rw [hframe]
  rw [region?_run hf] at hr'
  obtain ⟨r, _, rfl⟩ := Option.map_eq_some_iff.mp hr'
  rw [hrank]
  unfold afterRun at hsel ⊢
  split at hsel
  · next hselected =>
    cases hcheck : check options f.rank r with
    | error e => exact ⟨e, by simp [hselected, hcheck]⟩
    | ok divisible => simpa [hselected, hcheck] using check_unrolled .exact hcheck divisible
  · next hnot => exact absurd hsel hnot

theorem Exhausted.unrollRegion_error {options : Options} {f : Func} (h : Exhausted options f)
    {id : RegionId}
    (hsel : selects options (Inlining.regionName f id) = true) :
    ∃ e, unrollRegion options f id = .error e := by
  unfold unrollRegion unrollRegionIn
  cases hr : f.region? id with
  | none => exact ⟨.missing, rfl⟩
  | some r =>
    obtain ⟨e, he⟩ := h id r hr (regionName_of_region? hr ▸ hsel)
    simp only [he]
    exact ⟨e, rfl⟩

def Report.Skips (r : Report) : Prop := r.unrolled = [] ∧ hasErrors r.diagnostics = false

theorem Exhausted.step_eq {options : Options} {f : Func} (h : Exhausted options f) {report : Report}
    (hreport : report.Skips) (id : RegionId) :
    ∃ report' : Report, stepIn .exact options (f, report) id = (f, report') ∧ report'.Skips := by
  unfold stepIn
  simp only
  split
  · next hsel =>
    obtain ⟨e, he⟩ := h.unrollRegion_error hsel
    rw [unrollRegion] at he
    rw [he]
    refine ⟨_, rfl, hreport.1, ?_⟩
    have herrors := hreport.2
    simp only [hasErrors, List.any_append, Bool.or_eq_false_iff] at herrors ⊢
    exact ⟨herrors, rfl⟩
  · exact ⟨report, rfl, hreport⟩

theorem Exhausted.loop_eq {options : Options} {f : Func} (h : Exhausted options f) (ids : List RegionId)
    {report : Report} (hreport : report.Skips) :
    ∃ report' :
    Report, ids.foldlM (stepIn .exact options) (f, report) = (f, report') ∧ report'.Skips := by
  induction ids generalizing report with
  | nil => exact ⟨report, rfl, hreport⟩
  | cons id ids ih =>
    obtain ⟨next, hnext, hskips⟩ := h.step_eq hreport id
    rw [List.foldlM_cons, hnext]
    exact ih hskips

theorem Exhausted.run_eq {options : Options} {f : Func} (h : Exhausted options f)
    (hfresh : f.fresh = true)
    {order : List RegionId} (ho : f.order = .ok order) :
    ∃ report, run options f = (f, .ok report) ∧ hasErrors report.diagnostics = false := by
  obtain ⟨report, hfold, hskips⟩ := h.loop_eq order (⟨rfl, rfl⟩ : Report.Skips {})
  refine ⟨report, ?_, hskips.2⟩
  rw [run, run_of_fresh .exact options hfresh ho hfold]
  simp [Report.changed, hskips.1]

theorem Exhausted.of_same_lookups {options : Options} {f g : Func} (h : Exhausted options f)
    (hrank : g.rank = f.rank) (hregion : ∀ id, g.region? id = f.region? id) : Exhausted options g := by
  intro id r hr
  rw [hrank]
  exact h id r (hregion id ▸ hr)

theorem Exhausted.applySplice {options : Options} {f : Func} (h : Exhausted options f) (hf : f.Sound)
    {c : Inlining.Candidate} {P C : Region} {B : Body} {temp : TempId} {slot : Nat} {offset : Offset}
    {dP dC : Box} (S : Inlining.Spliceable f c P C B temp slot offset dP dC) :
    Exhausted options (Inlining.applySplice f c) := by
  intro id r hr hsel
  rw [S.applySplice_frame.1]
  obtain ⟨_, ⟨rfl, rfl⟩ | ⟨_, hr⟩⟩ := S.region_cases hr
  · obtain ⟨_, hshape, hunroll, hepi⟩ := S.mergeRegion_frame hf
    rw [Inlining.name_mergeRegion] at hsel
    rw [check_congr hunroll hepi hshape]
    exact h _ C S.consumer hsel
  · exact h id r hr hsel

theorem Exhausted.inlining {options : Options} {f : Func} (h : Exhausted options f) (hf : f.Sound) :
    Exhausted options (Inlining.run f).1 :=
  (Inlining.run_induction (fun S hg h => Exhausted.applySplice h hg S) (fun h => h) hf h).2

end Unrolling

namespace Inlining

theorem Spliceable.of_same_lookups {f g : Func} {c : Candidate} {P C : Region} {B : Body} {temp : TempId}
    {slot : Nat} {offset : Offset} {dP dC : Box} (S : Spliceable g c P C B temp slot offset dP dC)
    (hregion : ∀ id, g.region? id = f.region? id) (houts : g.outputs = f.outputs) :
    Spliceable f c P C B temp slot offset dP dC where
  producer := hregion _ ▸ S.producer
  consumer := hregion _ ▸ S.consumer
  distinct := S.distinct
  result := S.result
  part := S.part
  access := S.access
  operand := S.operand
  produced := S.produced
  consumed := S.consumed
  plain := S.plain
  quiet := S.quiet
  only id r flag b v s o t hr := S.only id r flag b v s o t ((hregion id).trans hr)
  unmarked o ho := S.unmarked o (houts ▸ ho)

theorem Exhausted.of_same_lookups {f g : Func} (h : Exhausted f) (hf : f.Sound)
    (hregion : ∀ id, g.region? id = f.region? id) (houts : g.outputs = f.outputs) : Exhausted g := by
  intro id
  cases hc : candidate? g id with
  | none => rfl
  | some c =>
    obtain ⟨P, C, B, temp, slot, offset, dP, dC, S⟩ := spliceable_of_candidate hc
    exact absurd (S.of_same_lookups hregion houts) (h.not_spliceable hf)

section Unrolled

variable {f : Func} {id : RegionId} {r : Region} {options : Unrolling.Options} {d : Box}
    {divisible : Bool}
  (hr : f.region? id = some r) (U : Unrolling.Unrollable options f.rank r d divisible)

include hr U

/-- An unrolled region reads whatever it reads at least twice, so nothing can be spliced into it. -/
theorem Spliceable.consumer_ne {c : Candidate} {P C : Region} {B : Body} {temp : TempId} {slot : Nat}
    {offset : Offset} {dP dC : Box}
    (S : Spliceable (f.modifyRegion id (Unrolling.unrolled options divisible)) c P C B temp slot
      offset dP dC) :
    c.consumer ≠ id := by
  intro hid
  have hC : C = Unrolling.unrolled options divisible r := by
    have hcons := S.consumer
    rw [hid, Func.region?_modifyRegion_self hr] at hcons
    exact (Option.some.inj hcons).symm
  subst hC
  obtain ⟨o, hmem⟩ :=
    U.exists_access (Region.mem_bodies_iff.mpr ⟨_, S.part⟩) (List.mem_of_getElem? S.access)
  obtain ⟨v, hv⟩ := List.mem_iff_getElem?.mp hmem
  have hlt := (List.getElem?_eq_some_iff.mp hv).1
  have hvalue : ∀ j, j < options.factor → j * r.body.ops.length + v = c.value := by
    intro j hj
    have hop := Body.getElem?_replicate_ops r.body options.axis hj hlt
    rw [hv, Option.map_some] at hop
    exact (S.only _ _ false _ _ slot _ temp S.consumer rfl hop S.operand
      (List.mem_of_getElem? S.result)).2.2
  have hfactor := U.factor
  have hfirst := hvalue 0 (by omega)
  have hsecond := hvalue 1 (by omega)
  omega

theorem Spliceable.of_unrolled {c : Candidate} {P C : Region} {B : Body} {temp : TempId} {slot : Nat}
    {offset : Offset} {dP dC : Box}
    (S : Spliceable (f.modifyRegion id (Unrolling.unrolled options divisible)) c P C B temp slot
      offset dP dC) :
    Spliceable f c P C B temp slot offset dP dC := by
  have hcons := S.consumer_ne hr U
  have hprod : c.producer ≠ id := by
    intro hid
    have hP := S.producer
    rw [hid, Func.region?_modifyRegion_self hr] at hP
    cases hP
    exact absurd S.plain.1 (by simp [Unrolling.unroll_unrolledIn])
  exact
    { producer := by rw [← Func.region?_modifyRegion_of_ne f hprod, S.producer]
      consumer := by rw [← Func.region?_modifyRegion_of_ne f hcons, S.consumer]
      distinct := S.distinct
      result := S.result
      part := S.part
      access := S.access
      operand := S.operand
      produced := S.produced
      consumed := S.consumed
      plain := S.plain
      quiet := S.quiet
      only := by
        intro id' r' flag b v s o t hr' hb hop hs ht
        by_cases hid : id' = id
        · -- the first replica of the access would be a use of the producer, too
          subst hid
          rw [hr] at hr'
          cases hr'
          have hbody : b = r.body := by
            cases flag with
            | false => exact (Option.some.inj hb).symm
            | true => simp [Region.part, U.epilogue] at hb
          subst hbody
          have hfactor := U.factor
          have hop' := Body.getElem?_replicate_ops r.body options.axis (show 0 < options.factor by omega)
            (List.getElem?_eq_some_iff.mp hop).1
          rw [hop, Option.map_some] at hop'
          exact absurd (S.only _ _ false _ _ s _ t (Func.region?_modifyRegion_self hr _) rfl hop' hs ht).1
            (Ne.symm hcons)
        · exact S.only id' r' flag b v s o t (by rw [Func.region?_modifyRegion_of_ne f hid,
            hr']) hb hop hs ht
      unmarked := S.unmarked }

end Unrolled

theorem Exhausted.unrolling {f : Func} (h : Exhausted f) (hf : f.Sound) (ha : f.Annotated)
    (options : Unrolling.Options) : Exhausted (Unrolling.run options f).1 := by
  refine (Unrolling.run_induction (Q := fun g => Evaluation.Equivalent f g ∧ Exhausted g) ?_ ?_
    ⟨Evaluation.Equivalent.refl hf ha, h⟩).2
  · rintro g k id hk ⟨heq, hex⟩
    obtain ⟨r, divisible, hr, hcheck, rfl⟩ := Unrolling.unrollRegionIn_eq_ok hk
    obtain ⟨d, U⟩ := Unrolling.unrollable_of_check (heq.1.sound.fits id r hr)
      (fun d hd => ⟨heq.1.annotated.ranked id r d hr hd,
        Func.canonical_region heq.1.sound heq.1.annotated hr hd⟩) hcheck
    refine ⟨heq.trans (U.equivalent_modify hr heq.1.sound heq.1.annotated), ?_⟩
    intro id'
    cases hc : candidate? (g.modifyRegion id (Unrolling.unrolled options divisible)) id' with
    | none => rfl
    | some c =>
      obtain ⟨P, C, B, temp, slot, offset, dP, dC, S⟩ := spliceable_of_candidate hc
      exact absurd (S.of_unrolled hr U) (hex.not_spliceable heq.1.sound)
  · rintro g ⟨heq, hex⟩
    exact ⟨heq.trans (Evaluation.equivalent_invalidate heq.1.sound heq.1.annotated), hex⟩

end Inlining

theorem Inference.hasErrors_run {f : Func} {report : Report} (h : (run f).outcome = .ok report) :
    hasErrors report.diagnostics = false := by
  rw [run_def] at h
  cases hv : f.verified with
  | error e => simp [hv] at h
  | ok u =>
    cases ho : f.order with
    | error e => simp [hv, ho] at h
    | ok order =>
      cases hb : firstOutOfBounds? (propagate f order).func order with
      | some e => simp [hv, ho, hb] at h
      | none =>
        simp only [hv, ho, hb, Except.ok.injEq] at h
        subst h
        simp [hasErrors, Diagnostic.isError, deadDiagnostic]

namespace Pass

variable {unroll : Unrolling.Options}

def Done (unroll : Unrolling.Options) : Pass → Func → Prop
  | shapeInference, _ => True
  | inlining, f => Inlining.Exhausted f
  | unrolling, f => Unrolling.Exhausted unroll f

section Run

variable {p : Pass} {f : Func} {outcome : Outcome} (hf : f.Sound) (ha : f.Annotated)
  (h : (p.run unroll f).2 = .ok outcome)

include hf ha h

theorem done_run : p.Done unroll (p.run unroll f).1 := by
  cases p with
  | shapeInference => trivial
  | inlining =>
    obtain ⟨made, hmade, _⟩ := map_eq_ok_iff.mp h
    exact Inlining.exhausted_run hf hmade
  | unrolling =>
    obtain ⟨report, hreport, _⟩ := map_eq_ok_iff.mp h
    obtain ⟨order, hfa⟩ := Unrolling.analysed_of_run hf ha hreport
    exact Unrolling.exhausted_run hfa unroll

theorem Done.run {q : Pass} (hq : q.Done unroll f) : q.Done unroll (p.run unroll f).1 := by
  cases q with
  | shapeInference => trivial
  | inlining =>
    cases p with
    | shapeInference =>
      obtain ⟨hregion, _⟩ := Evaluation.same_lookups_of_infers ha (infers_of_run h)
      exact Inlining.Exhausted.of_same_lookups hq hf hregion (infers_of_run h).analysed.1.outputs_eq.symm
    | inlining => exact done_run hf ha h
    | unrolling => exact Inlining.Exhausted.unrolling hq hf ha unroll
  | unrolling =>
    cases p with
    | shapeInference =>
      obtain ⟨hregion, _⟩ := Evaluation.same_lookups_of_infers ha (infers_of_run h)
      exact Unrolling.Exhausted.of_same_lookups hq (infers_of_run h).analysed.1.rank_eq.symm hregion
    | inlining => exact Unrolling.Exhausted.inlining hq hf
    | unrolling => exact done_run hf ha h

end Run

theorem Done.run_eq {p : Pass} {f : Func} (h : p.Done unroll f) (hf : Inference.Infers f f) :
    ∃ outcome, p.run unroll f = (f, .ok outcome) ∧ hasErrors outcome.diagnostics = false := by
  obtain ⟨_, order, hfa⟩ := hf.analysed
  cases p with
  | shapeInference =>
    obtain ⟨report, hok, hfunc⟩ := hf
    obtain ⟨_, _, _, _, hcert⟩ := Inference.run_ok hok
    have hpass : report.certificate.allPass = true := by
      rw [hcert, hfunc, Func.certificate_eq hfa.sound hfa.annotated]
      rfl
    refine ⟨⟨false, report.diagnostics⟩, ?_, Inference.hasErrors_run hok⟩
    simp only [Pass.run, hok, hfunc, ok_bind, hpass, if_true]
    rfl
  | inlining =>
    refine ⟨⟨false, []⟩, ?_, rfl⟩
    simp only [Pass.run, Inlining.Exhausted.run_eq h hfa.fresh hfa.order_eq]
    rfl
  | unrolling =>
    obtain ⟨report, hrun, herrors⟩ := Unrolling.Exhausted.run_eq h hfa.fresh hfa.order_eq
    refine ⟨⟨report.changed, report.diagnostics⟩, ?_, herrors⟩
    simp only [Pass.run, hrun]
    rfl

end Pass

namespace Pipeline

variable {unroll : Unrolling.Options}

theorem done_runPasses {ps : List Pass} {f : Func} (hf : f.Sound) (ha : f.Annotated)
    (h : (runPasses unroll ps f).2.success = true) :
    (∀ q : Pass, q.Done unroll f → q.Done unroll (runPasses unroll ps f).1) ∧
      ∀ p, p ∈ ps → p.Done unroll (runPasses unroll ps f).1 := by
  induction ps generalizing f with
  | nil => exact ⟨fun _ hq => hq, by simp⟩
  | cons p ps ih =>
    obtain ⟨⟨outcome, hok⟩, hrest, hresult⟩ := runPasses_cons_success h
    have href := Pass.refines_run hf ha p hok
    obtain ⟨hkeep, hall⟩ := ih href.sound href.annotated hrest
    rw [hresult]
    refine ⟨fun q hq => hkeep q (hq.run hf ha hok), ?_⟩
    intro q hq
    rcases List.mem_cons.mp hq with rfl | hq
    · exact hkeep q (Pass.done_run hf ha hok)
    · exact hall q hq

/-- A planned run that succeeds leaves an analysed function, on which all its passes are done. -/
theorem done_plan {requested : List Pass} {f : Func} (hne : requested ≠ [])
    (h : (runPasses unroll (Pass.plan requested true) f).2.success = true) :
    Inference.Infers (runPasses unroll (Pass.plan requested true) f).1
        (runPasses unroll (Pass.plan requested true) f).1 ∧
      ∀ p, p ∈ Pass.plan requested true →
        p.Done unroll (runPasses unroll (Pass.plan requested true) f).1 := by
  obtain ⟨g, hinfers⟩ := exists_infers_plan hne h
  refine ⟨hinfers.congr hinfers.analysed.1, ?_⟩
  cases requested with
  | nil => exact absurd rfl hne
  | cons p rest =>
    have hplan : Pass.plan (p :: rest) true = Pass.planFrom true false (p :: rest) := rfl
    rw [hplan, Pass.planFrom_stale] at h ⊢
    obtain ⟨⟨_, hok⟩, hrest, hresult⟩ := runPasses_cons_success h
    obtain ⟨_, _, hfa⟩ := (Pass.infers_of_run hok).analysed
    rw [hresult]
    intro q hq
    rcases List.mem_cons.mp hq with rfl | hq
    · trivial
    · exact (done_runPasses hfa.sound hfa.annotated hrest).2 q hq

theorem runPasses_of_done {ps : List Pass} {f : Func} (hf : Inference.Infers f f)
    (h : ∀ p, p ∈ ps → p.Done unroll f) :
    (runPasses unroll ps f).1 = f ∧ (runPasses unroll ps f).2.success = true := by
  induction ps with
  | nil => exact ⟨rfl, rfl⟩
  | cons p ps ih =>
    obtain ⟨outcome, hrun, herrors⟩ := (h p (by simp)).run_eq hf
    obtain ⟨hfunc, hsuccess⟩ := runPasses_cons ps hrun herrors
    rw [hfunc, hsuccess]
    exact ih fun q hq => h q (by simp [hq])

/-- What a run makes of a function, another run with the same options leaves as it is, and reports
success again. -/
theorem optimized_functions_stable (options : Options) (program : Program)
    (hrefresh : options.refreshAtEnd = true) {i : Nat} {report : FuncReport}
    (hreport : (run options program).2[i]? = some report) (hsuccess : report.success = true) :
    ∃ g again, (run options program).1.functions[i]? = some g ∧
      (run options (run options program).1).1.functions[i]? = some g ∧
      (run options (run options program).1).2[i]? = some again ∧ again.success = true := by
  simp only [run, List.getElem?_map, hrefresh] at hreport ⊢
  cases hf : program.functions[i]? with
  | none => simp [hf] at hreport
  | some f =>
    simp only [hf, Option.map_some, Option.some.injEq] at hreport ⊢
    subst hreport
    have hagain : (runPasses options.unroll (Pass.plan options.passes true)
        (runPasses options.unroll (Pass.plan options.passes true) f).1).1 =
          (runPasses options.unroll (Pass.plan options.passes true) f).1 ∧
        (runPasses options.unroll (Pass.plan options.passes true)
          (runPasses options.unroll (Pass.plan options.passes true) f).1).2.success = true := by
      by_cases hne : options.passes = []
      · rw [hne]
        exact ⟨rfl, rfl⟩
      · obtain ⟨hinfers, hdone⟩ := done_plan hne hsuccess
        exact runPasses_of_done hinfers hdone
    exact ⟨_, _, rfl, by rw [hagain.1], rfl, hagain.2⟩

/-- Inlining, then unrolling by two with an epilogue. -/
def thorough : Options := ⟨[.inlining, .unrolling], { remainder := .epilogue }, true⟩

/-- The chain becomes one region, which is unrolled, and then stays as it is. -/
theorem optimized_functions_stable_chained : ∃ (g : Func) (report again : FuncReport),
    (run thorough ⟨[Unrolling.chained]⟩).2[0]? = some report ∧ report.success = true ∧
    (run thorough ⟨[Unrolling.chained]⟩).1.functions[0]? = some g ∧
    g.region? 0 = none ∧ (g.region? 1).map (·.unroll) = some (some ⟨0, 2⟩) ∧
    (run thorough (run thorough ⟨[Unrolling.chained]⟩).1).1.functions[0]? = some g ∧
    (run thorough (run thorough ⟨[Unrolling.chained]⟩).1).2[0]? = some again ∧ again.success = true := by
  have hk : Inference.Infers Unrolling.chained (Inference.run Unrolling.chained).func := ⟨_, rfl, rfl⟩
  obtain ⟨_, _, hka⟩ := hk.analysed
  have hinline : Inlining.run (Inference.run Unrolling.chained).func = (fused, .ok [⟨"sum", "neg"⟩]) := by
    have hsettle : Inlining.settle 3 (Inference.run Unrolling.chained).func [] =
        ({ fused with stamp := (Inference.run Unrolling.chained).func.stamp }, .ok [⟨"sum", "neg"⟩]) :=
      rfl
    exact Inlining.run_of_fresh hka.fresh hsettle
  have hfused : Inference.Infers fused (Inference.run fused).func := ⟨_, rfl, rfl⟩
  obtain ⟨_, _, hfa⟩ := hfused.analysed
  have hunroll := Unrolling.run_of_fresh .exact { remainder := .epilogue } hfa.fresh rfl rfl
  have hplan : Pass.plan thorough.passes true =
      [.shapeInference, .inlining, .shapeInference, .unrolling, .shapeInference] := rfl
  obtain ⟨hsuccess, hgone, hregion⟩ :
      (runPasses thorough.unroll (Pass.plan thorough.passes true) Unrolling.chained).2.success = true ∧
      (runPasses thorough.unroll (Pass.plan thorough.passes true) Unrolling.chained).1.region? 0 = none ∧
      ((runPasses thorough.unroll (Pass.plan thorough.passes true) Unrolling.chained).1.region? 1).map
        (·.unroll) = some (some ⟨0, 2⟩) := by
    have hpass₂ : Pass.run thorough.unroll .inlining (Inference.run Unrolling.chained).func =
        (fused, .ok ⟨true, []⟩) := by
      simp only [Pass.run, hinline]
      rfl
    obtain ⟨h, hpass₄, hend⟩ : ∃ h, Pass.run thorough.unroll .unrolling (Inference.run fused).func =
        (h, .ok ⟨true, []⟩) ∧ (runPasses thorough.unroll [.shapeInference] h).2.success = true ∧
        (runPasses thorough.unroll [.shapeInference] h).1.region? 0 = none ∧
        ((runPasses thorough.unroll [.shapeInference] h).1.region? 1).map (·.unroll) =
          some (some ⟨0, 2⟩) := by
      exact ⟨_, by simp only [Pass.run, thorough, hunroll]; rfl, by exact ⟨rfl, rfl, rfl⟩⟩
    rw [hplan, (runPasses_cons _ rfl rfl).1, (runPasses_cons _ rfl rfl).2,
      (runPasses_cons _ hpass₂ rfl).1, (runPasses_cons _ hpass₂ rfl).2,
      (runPasses_cons _ rfl rfl).1, (runPasses_cons _ rfl rfl).2,
      (runPasses_cons _ hpass₄ rfl).1, (runPasses_cons _ hpass₄ rfl).2]
    exact hend
  have hreport : (run thorough ⟨[Unrolling.chained]⟩).2[0]? =
      some (runPasses thorough.unroll (Pass.plan thorough.passes true) Unrolling.chained).2 := by
    simp only [run, List.map_cons, List.map_nil, List.getElem?_cons_zero, thorough]
  have hfunc : (run thorough ⟨[Unrolling.chained]⟩).1.functions[0]? =
      some (runPasses thorough.unroll (Pass.plan thorough.passes true) Unrolling.chained).1 := by
    simp only [run, List.map_cons, List.map_nil, List.getElem?_cons_zero, thorough]
  obtain ⟨g, again, hg, hagain⟩ :=
    optimized_functions_stable thorough ⟨[Unrolling.chained]⟩ rfl hreport hsuccess
  rw [hfunc, Option.some.injEq] at hg
  subst hg
  exact ⟨_, _, again, hreport, hsuccess, hfunc, hgone, hregion, hagain⟩

end Pipeline

end Stencil
