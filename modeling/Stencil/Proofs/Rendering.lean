import Stencil.Drawing
import Stencil.Printer
import Stencil.Json.Program
import Stencil.Proofs.Indexing

/-! Rendering with its lookups checked. Texts and drawings write a box by looking up its bounds,
dimension by dimension of the lower one. A function that inference has taken shows boxes of one
rank, and a function that was left as it came shows the boxes it came with, which may lack an upper
bound. -/

set_option autoImplicit false

namespace Stencil

namespace Checked

def shapeSuffix (word : String) : Shape → Option String
  | .unknown => some ""
  | .known b => do return word ++ " " ++ (← boxText b)

def headText (f : Func) (r : Region) : Option String := do
  let types ← (r.results.filterMap f.temp?).mapM fun t =>
    do return t.elem.name ++ (← shapeSuffix "" t.shape)
  let own ← (if f.resultShape r = r.shape then some "" else shapeSuffix " over" r.shape)
  return "  " ++ joinWith ", " (r.results.map f.tempName) ++ " = apply " ++ r.name ++ "(" ++
    joinWith ", " (r.operands.map f.operandName) ++ ") -> " ++ joinWith ", " types ++ own

def regionText (f : Func) (r : Region) : Option String := do
  return (← headText f r) ++ " \x7b\n" ++ f.bodyText r r.body ++
    (match r.epilogue with
      | some e => "  \x7d epilogue \x7b\n" ++ f.bodyText r e
      | none => "") ++ "  \x7d\n"

def bufferText (b : Buffer) : Option String := do
  return "  buffer @" ++ b.name ++ " : " ++ b.elem.name ++
    (← shapeSuffix " domain" (.ofOption b.domain)) ++
    (← shapeSuffix " required" b.required) ++ "\n"

def outputText (f : Func) (o : OutputMark) : Option String := do
  return "  output " ++ f.tempName o.temp ++ " " ++ (← boxText o.domain) ++ "\n"

def funcText (f : Func) : Option String := do
  let buffers ← f.buffers.mapM bufferText
  let regions ← f.liveRegions.mapM fun r => regionText f r.2
  let outputs ← f.outputs.mapM (outputText f)
  return "func " ++ f.name ++ " rank " ++ natText f.rank ++ " \x7b\n" ++ String.join buffers ++
    String.join regions ++ String.join outputs ++ "\x7d\n"

def text (p : Program) : Option String := do return joinWith "\n" (← p.functions.mapM funcText)

def shapeText : Shape → Option String
  | .unknown => some "?"
  | .known b => boxText b

def bufferLine (func : String) (i : Nat) (b : Buffer) : Option String := do
  let domain ← (b.domain.map boxText).getD (some "unbounded")
  return Drawing.node (Drawing.bufferNode func i) "cylinder" "lightsalmon"
    ("@" ++ b.name ++ "\\n" ++ domain ++ "\\nreads " ++ (← shapeText b.required))

def regionLabel (r : Region) : Option String := do
  return r.name ++ "\\n" ++ (← shapeText r.shape) ++
    match r.unroll with
    | some u =>
      "\\nunroll " ++ natText u.axis ++ " by " ++ natText u.factor ++
        (if r.epilogue.isSome then " + epilogue" else "")
    | none => ""

def regionLine (func : String) (id : RegionId) (r : Region) : Option String := do
  return Drawing.node (Drawing.regionNode func id) "box"
    (if r.shape.isKnown then "lightblue" else "gray90")
    (← regionLabel r)

def outputLine (f : Func) (func : String) (i : Nat) (o : OutputMark) : Option String := do
  let name := ((f.temp? o.temp).map (·.name)).getD "?"
  return Drawing.node (Drawing.outputNode func i) "doublecircle" "lightgreen"
    ("%" ++ name ++ "\\n" ++ (← boxText o.domain))

def cluster (f : Func) : Option String := do
  let func := Drawing.plainName f.name
  let buffers ← f.buffers.zipIdx.mapM fun b => bufferLine func b.2 b.1
  let regions ← f.liveRegions.mapM fun r => regionLine func r.1 r.2
  let outputs ← f.outputs.zipIdx.mapM fun o => outputLine f func o.2 o.1
  let red := ((← findCycle f).map Drawing.cycleEdges).getD []
  return Drawing.line 4 ("subgraph cluster_" ++ func ++ " \x7b") ++
    Drawing.line 8 ("label=\"func: " ++ f.name ++ " (rank " ++ natText f.rank ++ ")\";") ++
    Drawing.line 8 "style=rounded;" ++ Drawing.line 8 "color=gray50;" ++
    String.join buffers ++ String.join regions ++ String.join outputs ++ "\n" ++
    String.join (f.liveRegions.map fun r =>
      String.join (r.2.operands.mapIdx (Drawing.operandLine f func red r.1 r.2))) ++
    String.join (f.outputs.mapIdx (Drawing.outputEdge f func)) ++ Drawing.line 4 "\x7d"

def drawing (p : Program) : Option String := do
  let clusters ← p.functions.mapM fun f => do return "\n" ++ (← cluster f)
  return "digraph stencil \x7b\n" ++ Drawing.line 4 "rankdir=LR;" ++
    Drawing.line 4 "node [fontname=\"Helvetica\", fontsize=10];" ++
    Drawing.line 4 "edge [fontname=\"Helvetica\", fontsize=9];" ++ String.join clusters ++ "\x7d\n"

section Provided

variable {β γ : Type}

theorem some_eq_provided (x : β) : some x = provided true x := rfl

theorem provided_bind_pure (c : Bool) (x : β) (G : β → γ) :
    (provided c x >>= fun y => pure (G y)) = provided c (G x) := by
  cases c <;> rfl

theorem provided_bind (c : Bool) (x : β) (d : β → Bool) (G : β → γ) :
    (provided c x >>= fun y => provided (d y) (G y)) = provided (c && d x) (G x) := by
  cases c <;> rfl

theorem mapM_provided {F : β → Option γ} {c : β → Bool} {G : β → γ} (h : ∀ x, F x = provided (c x) (G x))
    (xs : List β) : xs.mapM F = provided (xs.all c) (xs.map G) := by
  induction xs with
  | nil => rfl
  | cons x xs ih =>
    rw [List.mapM_cons, h, ih]
    simp only [provided_bind_pure, provided_bind]
    rfl

theorem mapM_zipIdx_provided {F : Nat → β → Option γ} {c : β → Bool} {G : Nat → β → γ}
    (h : ∀ i x, F i x = provided (c x) (G i x)) (xs : List β) :
    xs.zipIdx.mapM (fun x => F x.2 x.1) = provided (xs.all c) (xs.mapIdx G) := by
  have hall : xs.zipIdx.all (fun x => c x.1) = xs.all c :=
    List.all_map.symm.trans (congrArg (List.all · c) (List.zipIdx_map_fst 0 xs))
  have hmap := mapM_provided (fun x : β × Nat => h x.2 x.1) xs.zipIdx
  rw [hmap, hall, List.mapIdx_eq_zipIdx_map]

theorem provided_eq_some_iff {c : Bool} {x y : β} : provided c x = some y ↔ y = x ∧ c = true := by
  cases c <;> simp [provided, eq_comm]

theorem provided_eq_none_iff {c : Bool} {x : β} : provided c x = none ↔ ¬ c = true := by
  cases c <;> simp [provided]

end Provided

theorem shapeSuffix_eq (word : String) (s : Shape) :
    shapeSuffix word s = provided s.writable (Func.shapeSuffix word s) := by
  cases s with
  | unknown => rfl
  | known b =>
    rw [shapeSuffix, boxText_eq, provided_bind_pure]
    rfl

theorem shapeText_eq (s : Shape) : shapeText s = provided s.writable s.text := by
  cases s with
  | unknown => rfl
  | known b => exact boxText_eq b

end Checked

/-- Whether the boxes in the text of a region can be written; its own is shown if the results do not
give it away. -/
def Func.regionInText (f : Func) (r : Region) : Bool :=
  (r.results.filterMap f.temp?).all (·.shape.writable) && (f.resultShape r = r.shape || r.shape.writable)

def Buffer.writable (b : Buffer) : Bool := b.domain.all Box.writable && b.required.writable

def Func.writableInText (f : Func) : Bool :=
  f.buffers.all Buffer.writable && f.liveRegions.all (fun r => f.regionInText r.2) &&
    f.outputs.all fun o => o.domain.writable

def Func.writableInDrawing (f : Func) : Bool :=
  f.buffers.all Buffer.writable && f.liveRegions.all (fun r => r.2.shape.writable) &&
    f.outputs.all fun o => o.domain.writable

namespace Checked

theorem bufferText_eq (b : Buffer) : bufferText b = provided b.writable (Func.bufferText b) := by
  rw [bufferText, shapeSuffix_eq, shapeSuffix_eq]
  simp only [provided_bind_pure, provided_bind]
  obtain ⟨name, elem, domain, required⟩ := b
  cases domain <;> rfl

theorem headText_eq (f : Func) (r : Region) :
    headText f r = provided (f.regionInText r) (f.headText r) := by
  have htypes :
      (r.results.filterMap f.temp?).mapM (fun t => do return t.elem.name ++ (← shapeSuffix "" t.shape)) =
      provided ((r.results.filterMap f.temp?).all (·.shape.writable))
        ((r.results.filterMap f.temp?).map fun t => t.elem.name ++ Func.shapeSuffix "" t.shape) :=
    mapM_provided (fun t => by rw [shapeSuffix_eq, provided_bind_pure]) _
  have hown : (if f.resultShape r = r.shape then some "" else shapeSuffix " over" r.shape) =
      provided (f.resultShape r = r.shape || r.shape.writable)
        (if f.resultShape r = r.shape then "" else Func.shapeSuffix " over" r.shape) := by
    split <;> simp [shapeSuffix_eq, provided, *]
  rw [headText, htypes, hown]
  simp only [provided_bind_pure, provided_bind]
  rfl

theorem regionText_eq (f : Func) (r : Region) :
    regionText f r = provided (f.regionInText r) (f.regionText r) := by
  rw [regionText, headText_eq, provided_bind_pure]
  rfl

theorem outputText_eq (f : Func) (o : OutputMark) :
    outputText f o = provided o.domain.writable (f.outputText o) := by
  rw [outputText, boxText_eq, provided_bind_pure]
  rfl

theorem funcText_eq (f : Func) : funcText f = provided f.writableInText f.text := by
  have hregions := mapM_provided (fun r : RegionId × Region => regionText_eq f r.2) f.liveRegions
  rw [funcText, mapM_provided bufferText_eq, hregions, mapM_provided (outputText_eq f)]
  simp only [provided_bind_pure, provided_bind, ← Bool.and_assoc]
  rfl

theorem text_eq (p : Program) : text p = provided (p.functions.all Func.writableInText) p.text := by
  rw [text, mapM_provided funcText_eq, provided_bind_pure]
  rfl

theorem bufferLine_eq (func : String) (i : Nat) (b : Buffer) :
    bufferLine func i b = provided b.writable (Drawing.bufferLine func i b) := by
  have hdomain : (b.domain.map boxText).getD (some "unbounded") =
      provided (b.domain.all Box.writable) ((b.domain.map Box.text).getD "unbounded") := by
    cases b.domain with
    | none => rfl
    | some d => exact boxText_eq d
  rw [bufferLine, hdomain, shapeText_eq]
  simp only [provided_bind_pure, provided_bind]
  rfl

theorem regionLabel_eq (r : Region) :
    regionLabel r = provided r.shape.writable (Drawing.regionLabel r) := by
  rw [regionLabel, shapeText_eq, provided_bind_pure]
  rfl

theorem regionLine_eq (func : String) (id : RegionId) (r : Region) :
    regionLine func id r = provided r.shape.writable (Drawing.regionLine func id r) := by
  rw [regionLine, regionLabel_eq, provided_bind_pure]
  rfl

theorem outputLine_eq (f : Func) (func : String) (i : Nat) (o : OutputMark) :
    outputLine f func i o = provided o.domain.writable (Drawing.outputLine f func i o) := by
  simp only [outputLine, boxText_eq, provided_bind_pure]
  rfl

theorem cluster_eq (f : Func) : cluster f = provided f.writableInDrawing (Drawing.cluster f) := by
  have hregions := mapM_provided
    (fun r : RegionId × Region => regionLine_eq (Drawing.plainName f.name) r.1 r.2) f.liveRegions
  simp only [cluster, mapM_zipIdx_provided (bufferLine_eq _), mapM_zipIdx_provided (outputLine_eq f _),
    hregions, findCycle_eq, some_eq_provided, provided_bind_pure, provided_bind, ← Bool.and_assoc,
    Bool.and_true]
  rfl

theorem drawing_eq (p : Program) :
    drawing p = provided (p.functions.all Func.writableInDrawing) p.drawing := by
  have hclusters : p.functions.mapM (fun f => do return "\n" ++ (← cluster f)) =
      provided (p.functions.all Func.writableInDrawing) (p.functions.map fun f =>
        "\n" ++ Drawing.cluster f) :=
    mapM_provided (fun f => by rw [cluster_eq, provided_bind_pure]) _
  rw [drawing, hclusters, provided_bind_pure]
  rfl

end Checked

theorem Shape.Ranked.writable {s : Shape} {n : Nat} (h : s.Ranked n) : s.writable = true := by
  cases s with
  | unknown => rfl
  | known b => exact (h b rfl).writable

namespace Func

variable {f : Func} (hu : f.Uniform)

include hu

theorem Uniform.writable_buffers : f.buffers.all Buffer.writable = true := by
  apply List.all_eq_true.mpr
  intro b hb
  rw [Buffer.writable, Bool.and_eq_true, Option.all_eq_true]
  exact ⟨fun d hd => (hu.domain b hb d hd).writable, (hu.required b hb).writable⟩

theorem Uniform.writable_outputs : (f.outputs.all fun o => o.domain.writable) = true :=
  List.all_eq_true.mpr fun o ho => (hu.output o ho).writable

theorem Uniform.writableInText : f.writableInText = true := by
  have hregions : f.liveRegions.all (fun r => f.regionInText r.2) = true := by
    apply List.all_eq_true.mpr
    rintro ⟨id, r⟩ hr
    rw [regionInText, Bool.and_eq_true, Bool.or_eq_true]
    refine ⟨List.all_eq_true.mpr fun x hx => ?_, .inr (hu.region id r (mem_liveRegions.mp hr)).writable⟩
    obtain ⟨t, _, ht⟩ := List.mem_filterMap.mp hx
    exact (hu.temp t x ht).writable
  rw [Func.writableInText, hu.writable_buffers, hregions, hu.writable_outputs]
  rfl

theorem Uniform.writableInDrawing : f.writableInDrawing = true := by
  have hregions : (f.liveRegions.all fun r => r.2.shape.writable) = true :=
    List.all_eq_true.mpr fun r hr => (hu.region r.1 r.2 (mem_liveRegions.mp hr)).writable
  rw [Func.writableInDrawing, hu.writable_buffers, hregions, hu.writable_outputs]
  rfl

theorem Uniform.invalidate :
    f.invalidate.Uniform := ⟨hu.domain, hu.required, hu.temp, hu.region, hu.output⟩

end Func

open Func

theorem Inlining.Spliceable.uniform_applySplice {f : Func} {c : Candidate} {P C : Region} {B : Body}
    {temp : TempId}
    {slot : Nat} {offset : Offset} {dP dC : Box} (S : Spliceable f c P C B temp slot offset dP dC)
    (hf : f.Sound)
    (hu : f.Uniform) : (applySplice f c).Uniform := by
  obtain ⟨hrank, houtputs, hbuffer, _⟩ := S.applySplice_frame
  have hbuffers : (applySplice f c).buffers = f.buffers := List.ext_getElem? hbuffer
  refine ⟨?_, ?_, ?_, ?_, ?_⟩ <;> rw [hrank]
  · rw [hbuffers]
    exact hu.domain
  · rw [hbuffers]
    exact hu.required
  · intro t x hx
    exact hu.temp t x (S.temp_cases hx).2
  · intro id r hr
    obtain ⟨r', hr', _, hshape, _⟩ := S.exists_region hf hr
    rw [hshape]
    exact hu.region id r' hr'
  · rw [houtputs]
    exact hu.output

theorem Unrolling.uniform_unrollRegion {options : Options} {f g : Func} {id : RegionId}
    (h : unrollRegion options f id = .ok g) (hu : f.Uniform) : g.Uniform := by
  obtain ⟨r, divisible, hr, _, rfl⟩ := unrollRegionIn_eq_ok h
  refine ⟨hu.domain, hu.required, hu.temp, ?_, hu.output⟩
  intro id' r' hr'
  obtain ⟨rfl, rfl⟩ | ⟨_, hr'⟩ := region_cases_modifyRegion hr hr'
  · exact hu.region id' r hr
  · exact hu.region id' r' hr'

/-- Whether inference takes the function, if only to find that it reads out of bounds. -/
def Func.Admitted (f : Func) : Prop := f.verified = .ok () ∧ f.Acyclic

theorem Func.admitted_iff {f : Func} : f.Admitted ↔ f.verified = .ok () ∧ ∃ ids, f.order = .ok ids :=
  and_congr_right fun hv => (exists_order_iff (sound_of_verified hv)).symm

theorem Inference.uniform_run (f : Func) :
    (f.Admitted → (run f).func.Uniform) ∧
      (¬ f.Admitted → (run f).func = f ∧ ∃ e, (run f).outcome = .error e) := by
  rw [admitted_iff]
  have hran := ran_run f
  generalize run f = r at hran
  cases hran with
  | invalid hv => exact ⟨fun h => by simp [hv] at h, fun _ => ⟨rfl, _, rfl⟩⟩
  | cyclic hv ho => exact ⟨fun h => by simp [ho] at h, fun _ => ⟨rfl, _, rfl⟩⟩
  | outOfBounds hv ho hb => exact ⟨fun _ => uniform_propagate hv ho, fun h => absurd ⟨hv, _, ho⟩ h⟩
  | done hv ho hb hcert hcodes =>
    exact ⟨fun _ => (uniform_propagate hv ho).recordStamp, fun h => absurd ⟨hv, _, ho⟩ h⟩

theorem Pass.uniform_run (options : Unrolling.Options) {p : Pass} {f : Func}
    (h : p = shapeInference ∨ f.Sound)
    (hu : f.Uniform ∨ p = shapeInference ∧ f.Admitted) : (p.run options f).1.Uniform := by
  cases p with
  | shapeInference =>
    obtain ⟨htaken, hrefused⟩ := Inference.uniform_run f
    by_cases ha : f.Admitted
    · exact htaken ha
    · rw [run, (hrefused ha).1]
      exact hu.resolve_right fun h => ha h.2
  | inlining =>
    exact (Inlining.run_induction (fun S hf hu => S.uniform_applySplice hf hu) Uniform.invalidate
      (h.resolve_left (by simp)) (hu.resolve_right (by simp))).2
  | unrolling =>
    exact Unrolling.run_induction Unrolling.uniform_unrollRegion Uniform.invalidate
      (hu.resolve_right (by simp))

namespace Pipeline

/-- Guarded passes leave boxes of one rank, be it that they find them or that they start with an
inference. -/
theorem uniform_runPasses (unroll : Unrolling.Options) {fresh : Bool} {ps : List Pass}
    (h : Pass.Guarded fresh ps)
    {f : Func} (hf : fresh = true → Inlining.Ready f)
    (hu : f.Uniform ∨ ps.head? = some .shapeInference ∧ f.Admitted) :
    (runPasses unroll ps f).1.Uniform := by
  induction ps generalizing fresh f with
  | nil => exact hu.resolve_right (by simp)
  | cons p rest ih =>
    have hnext : (p.run unroll f).1.Uniform :=
      Pass.uniform_run unroll (h.1.imp_right fun hfresh => (hf hfresh).sound)
        (hu.imp_right fun ⟨hp, ha⟩ => ⟨Option.some.inj hp, ha⟩)
    -- a rewriting pass stands right behind an inference, and only one that succeeded lets it run
    have hready : ∀ outcome, p = .shapeInference → (p.run unroll f).2 = .ok outcome →
        Inlining.Ready (p.run unroll f).1 := fun _ => Pass.ready_run unroll
    rw [runPasses]
    generalize p.run unroll f = result at hnext hready ⊢
    obtain ⟨g, e | outcome⟩ := result
    · exact hnext
    · simp only
      split
      · exact hnext
      · exact ih h.2 (fun hp => hready outcome (of_decide_eq_true hp) rfl) (.inl hnext)

theorem runPasses_of_refused (unroll : Unrolling.Options) (rest : List Pass) {f : Func}
    (h : ¬ f.Admitted) :
    (runPasses unroll (.shapeInference :: rest) f).1 = f := by
  obtain ⟨hfunc, e, he⟩ := (Inference.uniform_run f).2 h
  have hrun : Pass.run unroll .shapeInference f = (f, .error e) := by
    simp only [Pass.run, hfunc, he]
    rfl
  simp only [runPasses, hrun]

/-- Whether some pass takes the function; the first one of a plan is an inference. -/
def Options.Takes (options : Options) (f : Func) : Prop := options.passes ≠ [] ∧ f.Admitted

theorem Options.head?_plan {options : Options} (h : options.passes ≠ []) :
    options.plan.head? = some .shapeInference := by
  cases hp : options.passes with
  | nil => exact absurd hp h
  | cons p rest => simp [plan, Pass.plan, hp, Pass.planFrom_stale]

theorem uniform_or_kept (options : Options) (f : Func) :
    (options.Takes f → (runPasses options.unroll options.plan f).1.Uniform) ∧
      (¬ options.Takes f → (runPasses options.unroll options.plan f).1 = f) := by
  constructor
  · rintro ⟨hpasses, ha⟩
    exact uniform_runPasses _ (Pass.guarded_plan _ _) nofun (.inr ⟨options.head?_plan hpasses, ha⟩)
  · intro hn
    by_cases hpasses : options.passes = []
    · simp [Options.plan, Pass.plan, hpasses, runPasses]
    · obtain ⟨rest, hplan⟩ := List.head?_eq_some_iff.mp (Options.head?_plan hpasses)
      rw [hplan]
      exact runPasses_of_refused _ rest fun ha => hn ⟨hpasses, ha⟩

theorem all_run_iff (options : Options) (program : Program) {c : Func → Bool}
    (hc : ∀ f : Func, f.Uniform → c f = true) :
    (run options program).1.functions.all c = true ↔
      ∀ f ∈ program.functions, options.Takes f ∨ c f = true := by
  have hfunctions : (run options program).1.functions =
      program.functions.map fun f => (runPasses options.unroll options.plan f).1 := List.map_map
  rw [hfunctions, List.all_map, List.all_eq_true]
  refine forall₂_congr fun f _ => ?_
  obtain ⟨htaken, hkept⟩ := uniform_or_kept options f
  by_cases ht : options.Takes f
  · simp [ht, hc _ (htaken ht)]
  · simp [ht, hkept ht]

/-- The pipeline asks for no place that is not there, whatever program it is given. Rendering its result
succeeds if each function was taken by an inference or came with boxes that can be written where it shows
them: a box that is not empty is written only if it has an upper bound for each lower one. -/
theorem only_rendering_misses_bounds (options : Options) (program : Program) :
    Checked.pipeline options program = some (run options program) ∧
    (∀ s, Checked.text (run options program).1 = some s ↔ s = (run options program).1.text ∧
      ∀ f ∈ program.functions, options.Takes f ∨ f.writableInText = true) ∧
    (∀ s, Checked.drawing (run options program).1 = some s ↔ s = (run options program).1.drawing ∧
      ∀ f ∈ program.functions, options.Takes f ∨ f.writableInDrawing = true) ∧
    ∀ b : Box, Checked.boxText b = none ↔ b.isEmpty = false ∧ b.ub.length < b.lb.length := by
  refine ⟨Checked.pipeline_eq options program, ?_, ?_, ?_⟩
  · intro s
    rw [Checked.text_eq, Checked.provided_eq_some_iff,
      all_run_iff options program fun _ => Uniform.writableInText]
  · intro s
    rw [Checked.drawing_eq, Checked.provided_eq_some_iff,
      all_run_iff options program fun _ => Uniform.writableInDrawing]
  · intro b
    rw [Checked.boxText_eq, Checked.provided_eq_none_iff]
    simp [Box.writable]

/-- A buffer whose domain has no upper bound. -/
def truncated : Program :=
  ⟨[{ name := "f"
      rank := 1
      buffers := [⟨"a", .f64, some ⟨[0], []⟩, .unknown⟩]
      temps := []
      regions := []
      outputs := []
      stamp := none }]⟩

/-- A JSON text may give a box that rendering cannot write, be it that no pass looks at it or that
inference refuses it. -/
theorem rendering_misses_bound :
    Program.readJson? "[[[\"f\",1,[[\"a\",\"F64\",[[0],[]],\"Unknown\"]],[],[],[]]]]" = some truncated ∧
    (Checked.text (run { passes := [] } truncated).1 = none ∧
      Checked.drawing (run { passes := [] } truncated).1 = none) ∧
    Checked.text (run {} truncated).1 = none ∧ Checked.drawing (run {} truncated).1 = none := by
  refine ⟨?_, ⟨?_, ?_⟩, ?_, ?_⟩ <;> decide +kernel

end Pipeline

end Stencil
