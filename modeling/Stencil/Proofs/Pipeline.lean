import Stencil.Pipeline
import Stencil.Proofs.Inlining
import Stencil.Proofs.Unrolling

/-! The pipeline refines: its first pass infers shapes, each later pass refines what it is given, and
the last shapes are fresh. -/

set_option autoImplicit false

namespace Stencil

namespace Pass

theorem planFrom_stale (refresh : Bool) (p : Pass) (rest : List Pass) :
    planFrom refresh false (p :: rest) =
      shapeInference :: planFrom refresh true (if p = shapeInference then rest else p :: rest) := by
  cases p <;> rfl

theorem planFrom_fresh (refresh : Bool) (p : Pass) (rest : List Pass) :
    planFrom refresh true (p :: rest) = p :: planFrom refresh (p = shapeInference) rest := by
  cases p <;> rfl

theorem infers_of_run {unroll : Unrolling.Options} {f : Func} {outcome : Outcome}
    (h : (run unroll shapeInference f).2 = .ok outcome) :
    Inference.Infers f (run unroll shapeInference f).1 := by
  obtain ⟨report, hok, _⟩ := bind_eq_ok_iff.mp h
  exact ⟨report, hok, rfl⟩

theorem refines_run {f : Func} (hf : f.Sound) (ha : f.Annotated) {unroll : Unrolling.Options} (p : Pass)
    {outcome : Outcome} (h : (p.run unroll f).2 = .ok outcome) :
    Evaluation.Refines f (p.run unroll f).1 := by
  cases p with
  | shapeInference => exact (Evaluation.equivalent_of_infers hf ha (infers_of_run h)).1
  | inlining => exact Inlining.refines_run hf ha
  | unrolling => exact (Unrolling.equivalent_run hf ha unroll).1

end Pass

namespace Pipeline

variable {unroll : Unrolling.Options}

theorem runPasses_cons {p : Pass} {f g : Func} {outcome : Pass.Outcome}
    (rest : List Pass) (h : p.run unroll f = (g, .ok outcome))
    (hd : hasErrors outcome.diagnostics = false) :
    (runPasses unroll (p :: rest) f).1 = (runPasses unroll rest g).1 ∧
      (runPasses unroll (p :: rest) f).2.success = (runPasses unroll rest g).2.success := by
  simp only [runPasses, h, hd]
  exact ⟨rfl, rfl⟩

theorem runPasses_cons_success {p : Pass} {rest : List Pass} {f : Func}
    (h : (runPasses unroll (p :: rest) f).2.success = true) :
    (∃ outcome, (p.run unroll f).2 = .ok outcome) ∧
      (runPasses unroll rest (p.run unroll f).1).2.success = true ∧
      (runPasses unroll (p :: rest) f).1 = (runPasses unroll rest (p.run unroll f).1).1 := by
  rw [runPasses] at h ⊢
  generalize p.run unroll f = result at h ⊢
  obtain ⟨g, e | outcome⟩ := result
  · cases h
  · simp only at h ⊢
    split at h
    · cases h
    · next herr =>
      rw [if_neg herr]
      exact ⟨⟨outcome, rfl⟩, h, rfl⟩

def Settled (f g : Func) : Prop := Evaluation.Refines f g ∧ ∃ order, Inference.Analysed g order

theorem settled_of_infers {f g k : Func} (h : Evaluation.Refines f g) (hk : Inference.Infers g k) :
    Settled f k :=
  ⟨h.trans (Evaluation.equivalent_of_infers h.sound h.annotated hk).1, hk.analysed.2⟩

/-- A planned run that succeeds refines what it is given and leaves fresh shapes. -/
theorem settled_planned {f g : Func} (href : Evaluation.Refines f g) {fresh : Bool}
    (hfresh : fresh = true → ∃ order, Inference.Analysed g order) {requested : List Pass}
    (h : (runPasses unroll (Pass.planFrom true fresh requested) g).2.success = true) :
    Settled f (runPasses unroll (Pass.planFrom true fresh requested) g).1 := by
  induction requested generalizing g fresh with
  | nil =>
    cases fresh with
    | true => exact ⟨href, hfresh rfl⟩
    | false =>
      have hplan : Pass.planFrom true false [] = [.shapeInference] := rfl
      rw [hplan] at h ⊢
      obtain ⟨⟨outcome, hok⟩, _, hresult⟩ := runPasses_cons_success h
      rw [hresult]
      exact settled_of_infers href (Pass.infers_of_run hok)
  | cons p rest ih =>
    have hnext : ∀ {g : Func}, Settled f g →
        (runPasses unroll (Pass.planFrom true true (p :: rest)) g).2.success = true →
        Settled f (runPasses unroll (Pass.planFrom true true (p :: rest)) g).1 := by
      intro g hg hs
      rw [Pass.planFrom_fresh] at hs ⊢
      obtain ⟨⟨outcome, hok⟩, hrest, hresult⟩ := runPasses_cons_success hs
      rw [hresult]
      refine ih (hg.1.trans (Pass.refines_run hg.1.sound hg.1.annotated p hok)) ?_ hrest
      intro hp
      rw [decide_eq_true_eq] at hp
      subst hp
      exact (Pass.infers_of_run hok).analysed.2
    cases fresh with
    | true => exact hnext ⟨href, hfresh rfl⟩ h
    | false =>
      -- the shapes are made fresh first, and then the request is met from there
      rw [Pass.planFrom_stale] at h ⊢
      obtain ⟨⟨outcome, hok⟩, hrest, hresult⟩ := runPasses_cons_success h
      have hset := settled_of_infers href (Pass.infers_of_run hok)
      rw [hresult]
      by_cases hp : p = .shapeInference
      · rw [if_pos hp] at hrest ⊢
        exact ih hset.1 (fun _ => hset.2) hrest
      · rw [if_neg hp] at hrest ⊢
        exact hnext hset hrest

theorem settled_plan {f k : Func} (hk : Inference.Infers f k) {requested : List Pass}
    (hne : requested ≠ [])
    (h : (runPasses unroll (Pass.plan requested true) f).2.success = true) :
    Settled k (runPasses unroll (Pass.plan requested true) f).1 := by
  cases requested with
  | nil => exact absurd rfl hne
  | cons p rest =>
    have hplan : Pass.plan (p :: rest) true = Pass.planFrom true false (p :: rest) := rfl
    rw [hplan, Pass.planFrom_stale] at h ⊢
    obtain ⟨_, hrest, hresult⟩ := runPasses_cons_success h
    obtain ⟨report, hok, rfl⟩ := hk
    obtain ⟨_, order, han⟩ := Inference.analysed_run hok
    rw [hresult]
    exact settled_planned (Evaluation.Refines.refl han.sound han.annotated) (fun _ => ⟨order, han⟩) hrest

/-- The pipeline keeps what a function computes: if inference succeeds on a function, giving `k`, and
the run over a non-empty request reports success for it, then wherever `k` has a value the optimized
function has one, with the same outputs and effects. -/
theorem pipeline_preserves_evaluation (options : Options) (program : Program) {i : Nat} {f k : Func}
    {report : FuncReport} (hpasses : options.passes ≠ []) (hrefresh : options.refreshAtEnd = true)
    (hf : program.functions[i]? = some f) (hk : Inference.Infers f k)
    (hreport : (run options program).2[i]? = some report) (hsuccess : report.success = true) :
    ∃ g, (run options program).1.functions[i]? = some g ∧
      ∀ (α : Type) (A : Arithmetic α) (inputs : Evaluation.Inputs α) (e : Evaluation α),
        Evaluation.run A k inputs = .ok e →
        ∃ e' : Evaluation α, Evaluation.run A g inputs = .ok e' ∧
          e'.outputs = e.outputs ∧ e'.effects = e.effects := by
  simp only [run, List.getElem?_map, hf, Option.map_some, Option.some.injEq, hrefresh] at hreport
  subst hreport
  obtain ⟨href, order, hg⟩ := settled_plan hk hpasses hsuccess
  refine ⟨(runPasses options.unroll (Pass.plan options.passes true) f).1, ?_, ?_⟩
  · simp only [run, List.getElem?_map, hf, Option.map_some, hrefresh]
  · intro α A inputs e he
    obtain ⟨_, order', hka⟩ := hk.analysed
    obtain ⟨e', he', _, hrest⟩ := href.run hka hg he
    exact ⟨e', he', hrest⟩

theorem success_cons {p : Pass} {rest : List Pass} {f g : Func} {outcome : Pass.Outcome}
    (h : p.run unroll f = (g, .ok outcome)) (hd : hasErrors outcome.diagnostics = false)
    (hs : (runPasses unroll rest g).2.success = true) :
    (runPasses unroll (p :: rest) f).2.success = true :=
  (runPasses_cons rest h hd).2.trans hs

/-- The chain as one region. -/
def fused : Func where
  name := "chained"
  rank := 1
  buffers := [⟨"a", .f64, none, .known ⟨[0], [5]⟩⟩]
  temps := [none, some ⟨"t", .f64, 1, 0, .known ⟨[0], [3]⟩⟩]
  regions :=
    [none, some ⟨"neg", [.buffer 0], .ofOps [.access 0 [0], .access 0 [2], .binary .add 0 1,
      .unary .neg 2] [3], none, [1], .known ⟨[0], [3]⟩⟩]
  outputs := [⟨1, ⟨[0], [3]⟩⟩]
  stamp := none

/-- The chain is inlined, and the region it becomes is unrolled with an epilogue. -/
theorem pipeline_preserves_evaluation_chained :
    ∃ (k g : Func) (report : FuncReport) (e e' : Evaluation Float),
    Inference.Infers Unrolling.chained k ∧
    (run ⟨[.inlining, .unrolling], { remainder := .epilogue }, true⟩ ⟨[Unrolling.chained]⟩).2[0]? =
      some report ∧ report.success = true ∧
    (run ⟨[.inlining, .unrolling], { remainder := .epilogue },
      true⟩ ⟨[Unrolling.chained]⟩).1.functions[0]? =
      some g ∧
    Evaluation.run .double k (fun _ => some (Grid.fill ⟨[0], [5]⟩ 0)) = .ok e ∧
    Evaluation.run .double g (fun _ => some (Grid.fill ⟨[0], [5]⟩ 0)) = .ok e' ∧
      e'.outputs = e.outputs := by
  have hk : Inference.Infers Unrolling.chained (Inference.run Unrolling.chained).func := ⟨_, rfl, rfl⟩
  obtain ⟨hsame, _, hka⟩ := hk.analysed
  have hin : Evaluation.Covers (fun _ => some (Grid.fill ⟨[0], [5]⟩ (0 : Float)))
      (Inference.run Unrolling.chained).func := Evaluation.covers_fill rfl 0
  have hcalls : Evaluation.CallsKnown Unrolling.chained := by decide
  obtain ⟨e, he, _⟩ := Evaluation.run_exists (A := .double) hka hin (hcalls.of_sameStructure hsame)
  -- the stamps are not computed: that they are fresh is known of every inferred function
  have hinline : Inlining.run (Inference.run Unrolling.chained).func = (fused, .ok [⟨"sum", "neg"⟩]) := by
    have hsettle : Inlining.settle 3 (Inference.run Unrolling.chained).func [] =
        ({ fused with stamp := (Inference.run Unrolling.chained).func.stamp }, .ok [⟨"sum", "neg"⟩]) :=
      rfl
    exact Inlining.run_of_fresh hka.fresh hsettle
  have hfused : Inference.Infers fused (Inference.run fused).func := ⟨_, rfl, rfl⟩
  obtain ⟨_, _, hfa⟩ := hfused.analysed
  have hunroll := Unrolling.run_of_fresh .exact { remainder := .epilogue } hfa.fresh rfl rfl
  have hplan : Pass.plan [.inlining, .unrolling] true =
      [.shapeInference, .inlining, .shapeInference, .unrolling, .shapeInference] := rfl
  have hsuccess : (runPasses { remainder := .epilogue } (Pass.plan [.inlining, .unrolling] true)
      Unrolling.chained).2.success = true := by
    rw [hplan]
    refine success_cons (g := (Inference.run Unrolling.chained).func) rfl rfl ?_
    refine success_cons (g := fused) (by simp only [Pass.run, hinline]; rfl) rfl ?_
    refine success_cons (g := (Inference.run fused).func) rfl rfl ?_
    exact success_cons (by simp only [Pass.run, hunroll]; rfl) rfl rfl
  have hreport : (run ⟨[.inlining, .unrolling], { remainder := .epilogue }, true⟩
      ⟨[Unrolling.chained]⟩).2[0]? = some (runPasses { remainder := .epilogue }
        (Pass.plan [.inlining, .unrolling] true) Unrolling.chained).2 := by
    simp only [run, List.map_cons, List.map_nil, List.getElem?_cons_zero]
  obtain ⟨g, hg, heval⟩ := pipeline_preserves_evaluation _ _ (by simp) rfl rfl hk hreport hsuccess
  obtain ⟨e', he', houts, _⟩ := heval Float .double _ e he
  exact ⟨_, g, _, e, e', hk, hreport, hsuccess, hg, he, he', houts⟩

end Pipeline

end Stencil
