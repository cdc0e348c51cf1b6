import Stencil.Proofs.Pipeline

/-! A planned run never meets stale shapes. The plan keeps one bit for the freshness of shapes; it is
right about every run that gets so far, since an inference that succeeds leaves fresh shapes and the
plan has one right before each pass that needs them. -/

set_option autoImplicit false

namespace Stencil

namespace Pass

/-- Every pass that needs fresh shapes comes right behind an inference, given whether the shapes are
fresh at the start. -/
def Guarded : Bool → List Pass → Prop
  | _, [] => True
  | fresh, p :: rest => (p = shapeInference ∨ fresh = true) ∧ Guarded (p = shapeInference) rest

theorem guarded_planFrom (refresh fresh : Bool) (requested : List Pass) :
    Guarded fresh (planFrom refresh fresh requested) := by
  induction requested generalizing fresh with
  | nil =>
    unfold planFrom
    split
    · exact ⟨.inl rfl, trivial⟩
    · exact trivial
  | cons p rest ih =>
    have hfresh : Guarded true (planFrom refresh true (p :: rest)) := by
      rw [planFrom_fresh]
      exact ⟨.inr rfl, ih _⟩
    cases fresh with
    | true => exact hfresh
    | false =>
      rw [planFrom_stale]
      refine ⟨.inl rfl, ?_⟩
      split
      · exact ih true
      · exact hfresh

theorem guarded_plan (requested : List Pass) (refresh : Bool) :
    Guarded false (plan requested refresh) := by
  unfold plan
  split
  · exact trivial
  · exact guarded_planFrom refresh false requested

theorem Guarded.exists_inference {fresh : Bool} {before after : List Pass} {p : Pass}
    (h : Guarded fresh (before ++ p :: after)) (hp : p ≠ shapeInference) :
    (before = [] ∧ fresh = true) ∨ ∃ init, before = init ++ [shapeInference] := by
  induction before generalizing fresh with
  | nil => exact .inl ⟨rfl, h.1.resolve_left hp⟩
  | cons q before ih =>
    right
    rcases ih h.2 with ⟨rfl, hq⟩ | ⟨init, rfl⟩
    · exact ⟨[], by rw [of_decide_eq_true hq]; rfl⟩
    · exact ⟨q :: init, rfl⟩

theorem sublist_planFrom (refresh fresh : Bool) (requested : List Pass) :
    requested.Sublist (planFrom refresh fresh requested) := by
  induction requested generalizing fresh with
  | nil => exact List.nil_sublist _
  | cons p rest ih =>
    rw [planFrom]
    split
    · exact ((ih _).cons_cons p).cons shapeInference
    · exact (ih _).cons_cons p

theorem filter_planFrom (refresh fresh : Bool) (requested : List Pass) :
    (planFrom refresh fresh requested).filter (· ≠ shapeInference) =
      requested.filter (· ≠ shapeInference) := by
  induction requested generalizing fresh with
  | nil =>
    unfold planFrom
    split <;> rfl
  | cons p rest ih =>
    rw [planFrom, List.filter_append, ih]
    cases p <;> cases fresh <;> rfl

theorem planFrom_last (requested : List Pass) {fresh : Bool} (h : fresh = false ∨ requested ≠ []) :
    ∃ init, planFrom true fresh requested = init ++ [shapeInference] := by
  induction requested generalizing fresh with
  | nil =>
    rcases h with rfl | h
    · exact ⟨[], rfl⟩
    · exact absurd rfl h
  | cons p rest ih =>
    by_cases hrest : freshAfter fresh p = false ∨ rest ≠ []
    · obtain ⟨init, hinit⟩ := ih hrest
      rw [planFrom, hinit, ← List.append_assoc]
      exact ⟨_, rfl⟩
    · rw [not_or, not_not] at hrest
      obtain ⟨hfresh, rfl⟩ := hrest
      cases p with
      | shapeInference => exact ⟨[], rfl⟩
      | inlining => exact absurd rfl hfresh
      | unrolling => exact absurd rfl hfresh

end Pass

theorem Failure.code_of_diagnostic {e : Failure} {function : String} {d : Diagnostic}
    (h : e.diagnostic? function = some d) : d.code = some e.code := by
  obtain ⟨_, _, rfl⟩ := Option.map_eq_some_iff.mp h
  rfl

theorem Func.code_of_order {f : Func} {e : Failure} (h : f.order = .error e) : e.code = .cycle := by
  simp only [order] at h
  split at h
  · cases h
  · cases h
    rfl

theorem Func.code_of_verified {f : Func} {e : Failure} (h : f.verified = .error e) :
    e.code = .invalidStructure := by
  unfold verified at h
  split at h
  · cases h
  · cases h
    rfl

namespace Inference

theorem code_of_firstOutOfBounds {f : Func} {order : List RegionId} {e : Failure}
    (h : firstOutOfBounds? f order = some e) : e.code = .outOfBounds := by
  obtain ⟨_, _, _, _, _, _, _, _, _, _, _, _, rfl⟩ := exists_of_firstOutOfBounds h
  rfl

theorem code_of_run {f : Func} {e : Failure} (h : (run f).outcome = .error e) :
    e.code ≠ .staleShapes := by
  have hran := ran_run f
  generalize run f = r at h hran
  cases hran with
  | invalid hv =>
    cases h
    simp [Func.code_of_verified hv]
  | cyclic hv ho =>
    cases h
    simp [Func.code_of_order ho]
  | outOfBounds hv ho hb =>
    cases h
    simp [code_of_firstOutOfBounds hb]
  | done hv ho hb hcert hcodes => cases h

end Inference

namespace Inlining

theorem code_of_settle {fuel : Nat} {f : Func} {made : List Splice} {e : Failure}
    (h : (settle fuel f made).2 = .error e) : e.code = .cycle := by
  induction fuel generalizing f made with
  | zero => cases h
  | succ fuel ih =>
    unfold settle at h
    cases hnext : next? f with
    | error e' =>
      simp only [hnext] at h
      cases h
      exact Func.code_of_order (map_eq_error_iff.mp hnext)
    | ok found =>
      cases found with
      | none => simp [hnext] at h
      | some c =>
        simp only [hnext] at h
        exact ih h

theorem code_of_run {f : Func} (hf : f.fresh = true) {e : Failure} (h : (run f).2 = .error e) :
    e.code = .cycle := by
  simp only [run, Func.ensureFresh, hf, if_true] at h
  split at h
  · next hsettle =>
    cases h
    exact code_of_settle (congrArg Prod.snd hsettle)
  · cases h

end Inlining

namespace Unrolling

theorem code_of_step {options : Options} {state : Func × Report} {id : RegionId}
    (h : ∀ d, d ∈ state.2.diagnostics → d.code = some .unrollSkipped) :
    ∀ d, d ∈ (stepIn .exact options state id).2.diagnostics → d.code = some .unrollSkipped := by
  obtain ⟨f, report⟩ := state
  unfold stepIn
  simp only
  split
  · cases unrollRegionIn .exact options f id with
    | ok g => exact h
    | error reason =>
      intro d hd
      rcases List.mem_append.mp hd with hd | hd
      · exact h d hd
      · cases List.mem_singleton.mp hd
        rfl
  · exact h

theorem code_of_run (options : Options) {f : Func} (hf : f.fresh = true) :
    (∀ e, (run options f).2 = .error e → e.code = .cycle) ∧
      ∀ report, (run options f).2 = .ok report → ∀ d, d ∈ report.diagnostics →
        d.code = some .unrollSkipped := by
  cases ho : f.order with
  | error e =>
    have hrun : (run options f).2 = .error e := by
      simp [runIn, Func.ensureFresh, hf, ho]
      rfl
    rw [hrun]
    refine ⟨?_, fun report h => (by cases h)⟩
    intro e' h
    cases h
    exact Func.code_of_order ho
  | ok order =>
    have hreport : ∀ d, d ∈ (order.foldlM (stepIn .exact options) (f, {})).2.diagnostics →
        d.code = some .unrollSkipped := by
      rw [loop_eq]
      refine List.foldlRecOn (motive := fun state : Func × Report =>
        ∀ d, d ∈ state.2.diagnostics → d.code = some .unrollSkipped) order (stepIn .exact options) ?_ ?_
      · intro d hd
        cases hd
      · intro state h id _
        exact code_of_step h
    rw [run, run_of_fresh .exact options hf ho rfl]
    refine ⟨fun e h => (by cases h), ?_⟩
    intro report h
    cases h
    exact hreport

end Unrolling

namespace Pass

theorem code_of_run (unroll : Unrolling.Options) {p : Pass} {f : Func}
    (h : p = shapeInference ∨ f.fresh = true) :
    (∀ e, (p.run unroll f).2 = .error e → e.code ≠ .staleShapes) ∧
      ∀ outcome, (p.run unroll f).2 = .ok outcome → ∀ d, d ∈ outcome.diagnostics →
        d.code ≠ some .staleShapes := by
  cases p with
  | shapeInference =>
    simp only [run]
    cases hrun : (Inference.run f).outcome with
    | error e =>
      refine ⟨?_, fun outcome h => (by cases h)⟩
      intro e' h
      cases h
      exact Inference.code_of_run hrun
    | ok report =>
      simp only [bind, Except.bind]
      split
      · refine ⟨fun e h => (by cases h), ?_⟩
        intro outcome h
        cases h
        intro d hd
        obtain ⟨_, _, _, _, _, _, hcodes⟩ := Inference.run_done hrun
        simp [hcodes d hd]
      · refine ⟨?_, fun outcome h => (by cases h)⟩
        intro e h
        cases h
        simp [certificateFailure, Failure.code]
  | inlining =>
    have hf := h.resolve_left (by simp)
    constructor
    · intro e he
      simp [Inlining.code_of_run hf (map_eq_error_iff.mp he)]
    · intro outcome ho
      obtain ⟨_, _, rfl⟩ := map_eq_ok_iff.mp ho
      intro d hd
      cases hd
  | unrolling =>
    have hf := h.resolve_left (by simp)
    obtain ⟨herror, hok⟩ := Unrolling.code_of_run unroll hf
    constructor
    · intro e he
      simp [herror e (map_eq_error_iff.mp he)]
    · intro outcome ho
      obtain ⟨report, hrun, rfl⟩ := map_eq_ok_iff.mp ho
      intro d hd
      simp [hok report hrun d hd]

end Pass

namespace Pipeline

/-- How a run takes its first pass: it stops there, or goes on with what the pass makes. -/
theorem runPasses_cons_cases (unroll : Unrolling.Options) (p : Pass) (rest : List Pass) (f : Func) :
    (∃ e, (p.run unroll f).2 = .error e ∧ (runPasses unroll (p :: rest) f).2 =
      ⟨f.name, false, [⟨p, (e.diagnostic? (p.run unroll f).1.name).toList⟩], some e⟩) ∨
    (∃ outcome, (p.run unroll f).2 = .ok outcome ∧ (runPasses unroll (p :: rest) f).2 =
      ⟨f.name, false, [⟨p, outcome.diagnostics⟩], none⟩) ∨
    (∃ outcome, (p.run unroll f).2 = .ok outcome ∧ (runPasses unroll (p :: rest) f).2 =
      { (runPasses unroll rest (p.run unroll f).1).2 with
        name := f.name
        steps := ⟨p, outcome.diagnostics⟩ :: (runPasses unroll rest (p.run unroll f).1).2.steps }) := by
  rw [runPasses]
  generalize p.run unroll f = result
  obtain ⟨g, e | outcome⟩ := result
  · exact .inl ⟨e, rfl, rfl⟩
  · simp only
    split
    · exact .inr (.inl ⟨outcome, rfl, rfl⟩)
    · exact .inr (.inr ⟨outcome, rfl, rfl⟩)

theorem steps_runPasses (unroll : Unrolling.Options) (ps : List Pass) (f : Func) :
    (runPasses unroll ps f).2.steps.map (·.pass) <+: ps ∧
      ((runPasses unroll ps f).2.success = true → (runPasses unroll ps f).2.steps.map (·.pass) = ps) := by
  induction ps generalizing f with
  | nil => exact ⟨List.prefix_refl [], fun _ => rfl⟩
  | cons p rest ih =>
    obtain ⟨hpre, hall⟩ := ih (p.run unroll f).1
    rcases runPasses_cons_cases unroll p rest f with ⟨e, _, heq⟩ | ⟨outcome, _, heq⟩ | ⟨outcome, _, heq⟩
    · rw [heq]
      exact ⟨⟨rest, rfl⟩, fun h => (by cases h)⟩
    · rw [heq]
      exact ⟨⟨rest, rfl⟩, fun h => (by cases h)⟩
    · rw [heq]
      refine ⟨(List.prefix_cons_inj p).mpr hpre, fun h => ?_⟩
      rw [List.map_cons, hall h]

variable {unroll : Unrolling.Options}

/-- A report that nowhere speaks of stale shapes. -/
def FuncReport.Timely (r : FuncReport) : Prop :=
  (∀ e, r.failure = some e → e.code ≠ .staleShapes) ∧ ∀ d, d ∈ r.diagnostics → d.code ≠ some .staleShapes

theorem timely_runPasses {fresh : Bool} {ps : List Pass} (h : Pass.Guarded fresh ps) {f : Func}
    (hf : fresh = true → f.fresh = true) : (runPasses unroll ps f).2.Timely := by
  induction ps generalizing fresh f with
  | nil => exact ⟨fun e h => (by cases h), fun d h => (by cases h)⟩
  | cons p rest ih =>
    obtain ⟨herror, hok⟩ := Pass.code_of_run unroll (h.1.imp_right hf)
    rcases runPasses_cons_cases unroll p rest f with
      ⟨e, he, heq⟩ | ⟨outcome, ho, heq⟩ | ⟨outcome, ho, heq⟩
    · rw [heq]
      refine ⟨fun e' h => ?_, fun d hd => ?_⟩
      · cases h
        exact herror e he
      · simp only [FuncReport.diagnostics, List.flatMap_singleton, Option.mem_toList] at hd
        rw [Failure.code_of_diagnostic hd]
        simpa using herror e he
    · rw [heq]
      refine ⟨fun e' h => (by cases h), fun d hd => ?_⟩
      simp only [FuncReport.diagnostics, List.flatMap_singleton] at hd
      exact hok outcome ho d hd
    · -- an inference that got here has stamped the function
      have hnext : decide (p = .shapeInference) = true → (p.run unroll f).1.fresh = true := by
        intro hp
        cases of_decide_eq_true hp
        obtain ⟨_, _, hg⟩ := (Pass.infers_of_run ho).analysed
        exact hg.fresh
      obtain ⟨hfailure, hdiagnostics⟩ := ih h.2 hnext
      rw [heq]
      refine ⟨hfailure, fun d hd => ?_⟩
      simp only [FuncReport.diagnostics, List.flatMap_cons, List.mem_append] at hd
      rcases hd with hd | hd
      · exact hok outcome ho d hd
      · exact hdiagnostics d hd

theorem runPasses_append_success {init rest : List Pass} {f : Func}
    (h : (runPasses unroll (init ++ rest) f).2.success = true) :
    ∃ g, (runPasses unroll rest g).2.success = true ∧
      (runPasses unroll (init ++ rest) f).1 = (runPasses unroll rest g).1 := by
  induction init generalizing f with
  | nil => exact ⟨f, h, rfl⟩
  | cons p init ih =>
    obtain ⟨_, hrest, heq⟩ := runPasses_cons_success h
    obtain ⟨g, hg, hg'⟩ := ih hrest
    exact ⟨g, hg, heq.trans hg'⟩

theorem exists_infers_plan {requested : List Pass} {f : Func} (hne : requested ≠ [])
    (hs : (runPasses unroll (Pass.plan requested true) f).2.success = true) :
    ∃ g, Inference.Infers g (runPasses unroll (Pass.plan requested true) f).1 := by
  have hplan : Pass.plan requested true = Pass.planFrom true false requested := by
    cases requested with
    | nil => exact absurd rfl hne
    | cons p rest => rfl
  obtain ⟨init, hinit⟩ := Pass.planFrom_last requested (.inl rfl)
  rw [hplan, hinit] at hs ⊢
  obtain ⟨g, hg, heq⟩ := runPasses_append_success hs
  obtain ⟨⟨outcome, hok⟩, _, hlast⟩ := runPasses_cons_success hg
  rw [heq, hlast]
  exact ⟨g, Pass.infers_of_run hok⟩

def Options.plan (o : Options) : List Pass := Pass.plan o.passes o.refreshAtEnd

/-- A plan is the request with inferences put in, one right before each pass that needs it; so no run
reports stale shapes, each function takes the first passes of the plan, or all of them when it succeeds,
and then its shapes are fresh if that was asked for. -/
theorem planned_passes_never_stale (options : Options) (program : Program) :
    (options.passes.Sublist options.plan ∧
      options.plan.filter (· ≠ .shapeInference) = options.passes.filter (· ≠ .shapeInference)) ∧
    (∀ before p after, options.plan = before ++ p :: after → p ≠ .shapeInference →
      ∃ init, before = init ++ [.shapeInference]) ∧
    ∀ (i : Nat) (f : Func), program.functions[i]? = some f → ∃ (g : Func) (report : FuncReport),
      (run options program).1.functions[i]? = some g ∧ (run options program).2[i]? = some report ∧
      report.Timely ∧ report.steps.map (·.pass) <+: options.plan ∧
      (report.success = true → report.steps.map (·.pass) = options.plan ∧
        (options.refreshAtEnd = true → options.passes ≠ [] → g.fresh = true)) := by
  have hguarded : Pass.Guarded false options.plan := Pass.guarded_plan _ _
  refine ⟨?_, ?_, ?_⟩
  · unfold Options.plan Pass.plan
    split
    · next hempty => simp [List.isEmpty_iff.mp hempty]
    · exact ⟨Pass.sublist_planFrom _ _ _, Pass.filter_planFrom _ _ _⟩
  · intro before p after heq hp
    rw [heq] at hguarded
    rcases hguarded.exists_inference hp with ⟨_, h⟩ | h
    · cases h
    · exact h
  · intro i f hf
    obtain ⟨hpre, hall⟩ := steps_runPasses options.unroll options.plan f
    refine ⟨(runPasses options.unroll options.plan f).1,
      (runPasses options.unroll options.plan f).2, ?_, ?_,
      timely_runPasses hguarded (fun h => by cases h), hpre, fun hs => ⟨hall hs, ?_⟩⟩
    · simp [run, hf, Options.plan]
    · simp [run, hf, Options.plan]
    · intro hrefresh hne
      rw [Options.plan, hrefresh] at hs ⊢
      obtain ⟨_, hinfers⟩ := exists_infers_plan hne hs
      obtain ⟨_, _, hg⟩ := hinfers.analysed
      exact hg.fresh

/-- A run that succeeds, and takes an inference before and after the pass that was asked for. -/
theorem planned_passes_never_stale_chained : ∃ (g : Func) (report : FuncReport),
    (run ⟨[.unrolling], { remainder := .epilogue }, true⟩ ⟨[Unrolling.chained]⟩).1.functions[0]? =
      some g ∧
    (run ⟨[.unrolling], { remainder := .epilogue }, true⟩ ⟨[Unrolling.chained]⟩).2[0]? = some report ∧
    report.success = true ∧ report.Timely ∧
    report.steps.map (·.pass) = [.shapeInference, .unrolling, .shapeInference] ∧ g.fresh = true := by
  have hk : Inference.Infers Unrolling.chained (Inference.run Unrolling.chained).func := ⟨_, rfl, rfl⟩
  obtain ⟨_, _, hka⟩ := hk.analysed
  have hunroll := Unrolling.run_of_fresh .exact { remainder := .epilogue } hka.fresh rfl rfl
  have hplan : Pass.plan [.unrolling] true = [.shapeInference, .unrolling, .shapeInference] := rfl
  have hsuccess : (runPasses { remainder := .epilogue } (Pass.plan [.unrolling] true)
      Unrolling.chained).2.success = true := by
    rw [hplan]
    refine success_cons (g := (Inference.run Unrolling.chained).func) rfl rfl ?_
    exact success_cons (by simp only [Pass.run, hunroll]; rfl) rfl rfl
  obtain ⟨_, _, hruns⟩ := planned_passes_never_stale ⟨[.unrolling], { remainder := .epilogue }, true⟩
    ⟨[Unrolling.chained]⟩
  obtain ⟨g, report, hg, hreport, htimely, _, hdone⟩ := hruns 0 Unrolling.chained rfl
  have hsuccess' : report.success = true := by
    simp only [run, List.map_cons, List.map_nil, List.getElem?_cons_zero, Option.some.injEq] at hreport
    rw [← hreport]
    exact hsuccess
  obtain ⟨hsteps, hfresh⟩ := hdone hsuccess'
  exact ⟨g, report, hg, hreport, hsuccess', htimely, hsteps.trans hplan, hfresh rfl (by simp)⟩

example : Pass.plan [.inlining, .shapeInference, .unrolling] true =
    [.shapeInference, .inlining, .shapeInference, .unrolling, .shapeInference] := rfl

end Pipeline

end Stencil
