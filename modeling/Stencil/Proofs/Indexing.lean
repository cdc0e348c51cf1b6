import Stencil.Proofs.Confluence
import Stencil.Proofs.Domains
import Stencil.Proofs.Lookups
import Stencil.Proofs.Planning

/-! The pipeline with its lookups checked. A plan verifies a function before it rewrites it, and
what a splice looks up is there in every sound function, so that the pipeline never asks for a place
that is not there; nor do the texts of the failures it reports. -/

set_option autoImplicit false

namespace Stencil

namespace Checked

section Places

variable {β : Type}

def remove (xs : List β) (i : Nat) : Option (List β) :=
  if i < xs.length then some (xs.eraseIdx i) else none

def placesBefore (xs : List β) (n : Nat) : Option (List β) :=
  if n ≤ xs.length then some (xs.take n) else none

theorem remove_eq {xs : List β} {i : Nat} (h : i < xs.length) :
    remove xs i = some (xs.eraseIdx i) := if_pos h

theorem placesBefore_eq {xs : List β} {n : Nat} (h : n ≤ xs.length) :
    placesBefore xs n = some (xs.take n) :=
  if_pos h

end Places

open Inlining (Candidate Splice resultUses movable mergeOperands slotsNaming regionName)

/-- The splice of a region into its only user, the first of the one use there is. -/
def candidate (f : Func) (id : RegionId) : Option (Option Candidate) :=
  match f.region? id with
  | none => some none
  | some r =>
    if movable r && (resultUses f r).length == 1 then do
      match ← (resultUses f r)[0]? with
      | (i, .access consumer value inEpilogue) =>
        if consumer ≠ id && (f.region? consumer).any fun c => c.shape.isKnown then
          return some ⟨id, i, consumer, value, inEpilogue⟩
        else return none
      | _ => return none
    else some none

def splice (b : Body) (pos : ValueId) (inner : Body) (result : ValueId) (slots : List Nat) :
    Option Body := do
  match ← b.ops[pos]? with
  | .access _ offset =>
    let rename := Body.outerName pos inner.ops.length result
    return {
      ops := (← placesBefore b.ops pos) ++ inner.ops.map (Body.innerOp pos offset slots) ++
        (← placesFrom b.ops (pos + 1)).map (Op.mapArgs rename)
      ret := { b.ret with values := b.ret.values.map rename } }
  | _ => return b

def removeSlot (r : Region) (slot : Nat) : Option Region := do
  return { r with
    operands := ← remove r.operands slot
    body := r.body.dropSlot slot
    epilogue := r.epilogue.map (Body.dropSlot · slot) }

def mergeRegion (c : Candidate) (producer consumer : Region) : Option Region := do
  let (operands, slots) := mergeOperands consumer.operands producer.operands
  let inline (b : Body) : Option Body := do
    splice b c.value producer.body (← producer.body.ret.values[c.resultIndex]?) slots
  let body ← if c.inEpilogue then some consumer.body else inline consumer.body
  let epilogue ← if c.inEpilogue then consumer.epilogue.mapM inline else some consumer.epilogue
  (slotsNaming producer.results operands).reverse.foldlM removeSlot
    { consumer with operands := operands, body := body, epilogue := epilogue }

def applySplice (f : Func) (c : Candidate) : Option Func :=
  match f.region? c.producer, f.region? c.consumer with
  | some producer, some consumer => do
    let merged ← mergeRegion c producer consumer
    return (f.modifyRegion c.consumer fun _ => merged).removeRegion c.producer
  | _, _ => some f

def next (f : Func) : Option (Except Failure (Option Candidate)) := do
  match ← order f with
  | .error e => return .error e
  | .ok ids => return .ok (← ids.findSomeM? (candidate f))

def splices : Nat → Func → List Splice → Option (Func × Except Failure (List Splice))
  | 0, f, made => some (f, .ok made)
  | fuel + 1, f, made => do
    match ← next f with
    | .error e => return (f, .error e)
    | .ok none => return (f, .ok made)
    | .ok (some c) =>
      splices fuel (← applySplice f c) (made ++ [⟨regionName f c.producer, regionName f c.consumer⟩])

def inline (f : Func) : Option (Func × Except Failure (List Splice)) :=
  match f.ensureFresh "inlining" with
  | .error e => some (f, .error e)
  | .ok _ => do
    match ← splices (f.liveRegions.length + 1) f [] with
    | (g, .error e) => return (g, .error e)
    | (g, .ok made) => return (if made.isEmpty then g else g.invalidate, .ok made)

def rangeTexts (b : Box) : Option (List String) :=
  (List.range b.rank).mapM fun d => do return intText (← b.lb[d]?) ++ ":" ++ intText (← b.ub[d]?)

def boxText (b : Box) : Option String :=
  if b.isEmpty then some "empty" else do return "[" ++ joinWith ", " (← rangeTexts b) ++ "]"

def message : Failure → Option String
  | .outOfBounds _ regionName _ bufferName offset accessed declared => do
    return "apply '" ++ regionName ++ "' reads '@" ++ bufferName ++ "' at offset " ++
      Offset.text offset ++
      " over " ++ (← boxText accessed) ++ ", outside its declared domain " ++ (← boxText declared)
  | e => some e.message

/-- The subject of a failure; a cycle is named by its first region. -/
def subject (function : String) : Failure → Option Subject
  | .cyclic _ cycle names => do return .region (← cycle[0]?) (← names[0]?)
  | e => e.subject? function

def diagnostic (function : String) (e : Failure) : Option Diagnostic := do
  return {
    code := some e.code
    level := .error
    subject := some (← subject function e)
    message := ← message e
    hint := e.hint?
    related := e.related }

/-- The failure of an inference, named for the first condition that does not hold. -/
def certificateFailure (c : Certificate) : Option Failure := do
  return .invalid (← c.failed[0]?) none
    ("shape inference postconditions failed: " ++ joinWith ", " c.failed)

def unroll (options : Unrolling.Options) (f : Func) : Option (Func × Except Failure Unrolling.Report) :=
  match f.ensureFresh "unrolling" with
  | .error e => some (f, .error e)
  | .ok _ => do
    match ← order f with
    | .error e => return (f, .error e)
    | .ok ids => return (Unrolling.unrollAllIn .exact options f ids).run

def runPass (options : Unrolling.Options) : Pass → Func → Option (Func × Except Failure Pass.Outcome)
  | .shapeInference, f => do
    let r ← infer f
    match r.outcome with
    | .error e => return (r.func, .error e)
    | .ok report =>
      if report.certificate.allPass then return (r.func, .ok ⟨false, report.diagnostics⟩)
      else return (r.func, .error (← certificateFailure report.certificate))
  | .inlining, f => do
    let r ← inline f
    return (r.1, r.2.map fun made => ⟨!made.isEmpty, []⟩)
  | .unrolling, f => do
    let r ← unroll options f
    return (r.1, r.2.map fun report => ⟨report.changed, report.diagnostics⟩)

open Pipeline (Step FuncReport)

def runPasses (options : Unrolling.Options) : List Pass → Func → Option (Func × FuncReport)
  | [], f => some (f, ⟨f.name, true, [], none⟩)
  | p :: rest, f => do
    match ← runPass options p f with
    | (g, .error e) => return (g, ⟨f.name, false, [⟨p, [← diagnostic g.name e]⟩], some e⟩)
    | (g, .ok outcome) =>
      let here : Step := ⟨p, outcome.diagnostics⟩
      if hasErrors outcome.diagnostics then return (g, ⟨f.name, false, [here], none⟩)
      else
        let (h, report) ← runPasses options rest g
        return (h, { report with name := f.name, steps := here :: report.steps })

def pipeline (options : Pipeline.Options) (p : Program) : Option (Program × List FuncReport) := do
  let results ← p.functions.mapM (runPasses options.unroll options.plan)
  return (⟨results.map (·.1)⟩, results.map (·.2))

theorem candidate_eq (f : Func) (id : RegionId) : candidate f id = some (Inlining.candidate? f id) := by
  unfold candidate Inlining.candidate?
  cases f.region? id with
  | none => rfl
  | some r =>
    simp only
    cases movable r with
    | false => rfl
    | true =>
      rcases resultUses f r with _ | ⟨⟨i, use⟩, _ | ⟨second, rest⟩⟩
      · rfl
      · cases use with
        | output index => rfl
        | access consumer value inEpilogue =>
          simp only [Bool.true_and, List.length_singleton, beq_self_eq_true, if_true,
            List.getElem?_cons_zero, Option.bind_eq_bind, Option.bind_some]
          split <;> rfl
      · simp

theorem next_eq (f : Func) : next f = some (Inlining.next? f) := by
  simp only [next, Inlining.next?, order_eq, Option.bind_eq_bind, Option.bind_some]
  cases f.order with
  | error e => rfl
  | ok ids =>
    have hfirst : ids.findSomeM? (candidate f) = some (ids.findSome? (Inlining.candidate? f)) :=
      (Agreement.returns Option).findSomeM? fun id _ => candidate_eq f id
    simp only [hfirst, Option.bind_some]
    rfl

theorem splice_eq {b : Body} {pos : ValueId} (h : pos < b.ops.length) (inner : Body) (result : ValueId)
    (slots : List Nat) : splice b pos inner result slots = some (b.splice pos inner result slots) := by
  unfold splice Body.splice
  simp only [List.getElem?_eq_getElem h, placesBefore_eq (Nat.le_of_lt h),
    placesFrom_eq (Nat.succ_le_of_lt h), Option.bind_eq_bind, Option.bind_some]
  cases b.ops[pos] <;> rfl

theorem removeSlots_eq {slots : List Nat} {r : Region} (hdesc : slots.Pairwise (· > ·))
    (h : ∀ slot ∈ slots, slot < r.operands.length) :
    slots.foldlM removeSlot r = some (slots.foldl Inlining.removeSlot r) := by
  induction slots generalizing r with
  | nil => rfl
  | cons slot slots ih =>
    rw [List.pairwise_cons] at hdesc
    have hslot := h slot List.mem_cons_self
    have hone : removeSlot r slot = some (Inlining.removeSlot r slot) := by
      rw [removeSlot, remove_eq hslot]
      rfl
    rw [List.foldlM_cons, hone, List.foldl_cons]
    refine ih hdesc.2 fun k hk => ?_
    have hlt : k < slot := hdesc.1 k hk
    rw [Inlining.removeSlot, List.length_eraseIdx_of_lt hslot]
    omega

section Spliceable

variable {f : Func} {c : Candidate} {P C : Region} {B : Body} {temp : TempId} {slot : Nat}
    {offset : Offset}
  {dP dC : Box} (S : Inlining.Spliceable f c P C B temp slot offset dP dC) (hf : f.Sound)

include S hf

theorem mergeRegion_eq : mergeRegion c P C = some (Inlining.mergeRegion c P C) := by
  obtain ⟨v, hv, _⟩ := S.result_lt hf
  have hpos := (List.getElem?_eq_some_iff.mp S.access).1
  -- the slots to remove are places of the merged operands, highest first
  have hremove : ∀ m : Region, m.operands = (mergeOperands C.operands P.operands).1 →
      (slotsNaming P.results (mergeOperands C.operands P.operands).1).reverse.foldlM removeSlot m =
        some ((slotsNaming P.results (mergeOperands C.operands P.operands).1).reverse.foldl
          Inlining.removeSlot m) := by
    intro m hm
    refine removeSlots_eq (List.pairwise_reverse.mpr (Inlining.pairwise_slotsNaming _ _)) fun k hk => ?_
    obtain ⟨t, ht, _⟩ := Inlining.mem_slotsNaming.mp (List.mem_reverse.mp hk)
    rw [hm]
    exact (List.getElem?_eq_some_iff.mp ht).1
  have hpart := S.part
  unfold mergeRegion Inlining.mergeRegion
  cases hflag : c.inEpilogue with
  | false =>
    simp only [hflag, Region.part, Bool.false_eq_true, if_false, Option.some.injEq] at hpart
    subst hpart
    simp [hv, splice_eq hpos, hremove]
  | true =>
    simp only [hflag, Region.part, if_true] at hpart
    simp [hv, hpart, splice_eq hpos, hremove]

theorem applySplice_eq : applySplice f c = some (Inlining.applySplice f c) := by
  simp only [applySplice, S.producer, S.consumer, mergeRegion_eq S hf, Option.bind_eq_bind,
    Option.bind_some, S.applySplice_eq, Func.modifyRegion_const S.consumer]
  rfl

end Spliceable

theorem splices_eq (fuel : Nat) {f : Func} (hf : f.Sound) (made : List Splice) :
    splices fuel f made = some (Inlining.settle fuel f made) := by
  induction fuel generalizing f made with
  | zero => rfl
  | succ fuel ih =>
    unfold splices Inlining.settle
    simp only [next_eq, Option.bind_eq_bind, Option.bind_some]
    cases hnext : Inlining.next? f with
    | error e => rfl
    | ok found =>
      cases found with
      | none => rfl
      | some c =>
        obtain ⟨ids, _, hfind⟩ := map_eq_ok_iff.mp hnext
        obtain ⟨id, _, hc⟩ := List.exists_of_findSome?_eq_some hfind
        obtain ⟨P, C, B, temp, slot, offset, dP, dC, S⟩ := Inlining.spliceable_of_candidate hc
        simp only [applySplice_eq S hf, Option.bind_some]
        exact ih (S.sound_applySplice hf) _

/-- Inlining never asks a sound function for a place that is not there. -/
theorem inline_eq {f : Func} (hf : f.Sound) : inline f = some (Inlining.run f) := by
  unfold inline Inlining.run
  cases f.ensureFresh "inlining" with
  | error e => rfl
  | ok u =>
    simp only [splices_eq _ hf, Option.bind_eq_bind, Option.bind_some]
    generalize Inlining.settle (f.liveRegions.length + 1) f [] = result
    obtain ⟨g, e | made⟩ := result <;> rfl

theorem unroll_eq (options : Unrolling.Options) (f : Func) :
    unroll options f = some (Unrolling.run options f) := by
  unfold unroll Unrolling.run Unrolling.runIn
  cases f.ensureFresh "unrolling" with
  | error e => rfl
  | ok u =>
    simp only [order_eq, Option.bind_eq_bind, Option.bind_some]
    cases f.order <;> rfl

/-- A value that is there on a condition. -/
def provided {β : Type} (c : Bool) (x : β) : Option β := if c then some x else none

theorem mapM_eq_none {β γ : Type} {F : β → Option γ} {xs : List β} {x : β} (hx : x ∈ xs)
    (h : F x = none) :
    xs.mapM F = none := by
  induction xs with
  | nil => cases hx
  | cons y ys ih =>
    rw [List.mapM_cons]
    rcases List.mem_cons.mp hx with rfl | hx
    · rw [h]
      rfl
    · rw [ih hx]
      cases F y <;> rfl

theorem rangeTexts_eq {b : Box} (h : b.lb.length ≤ b.ub.length) :
    rangeTexts b = some (b.ranges.map fun r => intText r.1 ++ ":" ++ intText r.2) := by
  have hranges :
      (List.range b.rank).map (fun d => intText (coord b.lb d) ++ ":" ++ intText (coord b.ub d)) =
      b.ranges.map fun r => intText r.1 ++ ":" ++ intText r.2 := by
    apply List.ext_getElem
    · simp [Box.rank, Box.ranges, h]
    · intro d hd _
      have hd : d < b.lb.length := by simpa [Box.rank] using hd
      simp [Box.ranges, coord_eq_getElem hd, coord_eq_getElem (Nat.lt_of_lt_of_le hd h)]
  rw [rangeTexts, ← hranges]
  refine (Agreement.returns Option).mapM ?_
  intro d hd
  have hd : d < b.lb.length := by simpa [Box.rank] using hd
  rw [getElem?_coord hd, getElem?_coord (Nat.lt_of_lt_of_le hd h)]
  rfl

theorem rangeTexts_eq_none {b : Box} (h : b.ub.length < b.lb.length) : rangeTexts b = none := by
  refine mapM_eq_none (x := b.ub.length) (List.mem_range.mpr h) ?_
  rw [List.getElem?_eq_none (Nat.le_refl b.ub.length)]
  cases b.lb[b.ub.length]? <;> rfl

/-- A box has a text if an upper bound stands beside every lower bound, or if it is empty by those
that do. -/
theorem boxText_eq (b : Box) : boxText b = provided b.writable b.text := by
  unfold boxText Box.text Box.writable provided
  cases b.isEmpty with
  | true => rfl
  | false =>
    by_cases h : b.lb.length ≤ b.ub.length
    · simp [rangeTexts_eq h, h]
    · simp [rangeTexts_eq_none (Nat.lt_of_not_le h), h]

end Checked

theorem Box.Ranked.writable {b : Box} {n : Nat} (h : b.Ranked n) : b.writable = true := by
  simp [Box.writable, h.lb, h.ub]

/-- A cycle has a first region, and the boxes of the failure can be written. -/
def Failure.Presentable : Failure → Prop
  | .cyclic _ cycle names => cycle ≠ [] ∧ names ≠ []
  | .outOfBounds _ _ _ _ _ accessed declared => accessed.writable = true ∧ declared.writable = true
  | _ => True

theorem Func.presentable_of_verified {f : Func} {e : Failure} (h : f.verified = .error e) :
    e.Presentable := by
  unfold verified at h
  split at h
  · cases h
  · cases h
    trivial

theorem Func.presentable_of_order {f : Func} (hf : f.Sound) {e : Failure} (h : f.order = .error e) :
    e.Presentable := by
  obtain ⟨first, rest, _, rfl⟩ := ring_of_order_error hf h
  exact ⟨List.cons_ne_nil _ _, by simp⟩

theorem Func.presentable_of_ensureFresh {f : Func} {pass : String} {e : Failure}
    (h : f.ensureFresh pass = .error e) : e.Presentable := by
  unfold ensureFresh at h
  split at h
  · cases h
  · cases h
    trivial

theorem Inference.presentable_of_firstOutOfBounds {f : Func} (hf : f.Sound) (hu : f.Uniform)
    {ids : List RegionId}
    {e : Failure} (h : firstOutOfBounds? f ids = some e) : e.Presentable := by
  obtain ⟨id, r, d, fp, b, x, declared, hr, hs, hfp, hx, hd, rfl⟩ := exists_of_firstOutOfBounds h
  have hread := Region.ranked_footprints (hf.fits id r hr) (hu.region id r hr d hs) hfp
  exact ⟨hread.writable, (hu.domain x (List.mem_of_getElem? hx) declared hd).writable⟩

theorem Inference.presentable_run {f : Func} {e : Failure} (h : (run f).outcome = .error e) :
    e.Presentable := by
  have hran := ran_run f
  generalize run f = r at h hran
  cases hran with
  | invalid hv =>
    cases h
    exact Func.presentable_of_verified hv
  | cyclic hv ho =>
    cases h
    exact Func.presentable_of_order (Func.sound_of_verified hv) ho
  | outOfBounds hv ho hb =>
    cases h
    have hf := Func.sound_of_verified hv
    have hsame := sameStructure_propagate hf (Func.ordered_of_order ho)
    exact presentable_of_firstOutOfBounds (hf.of_sameStructure hsame) (Func.uniform_propagate hv ho) hb
  | done hv ho hb hcert hcodes => cases h

theorem Inlining.presentable_run {f : Func} (hf : Ready f) {e : Failure} (h : (run f).2 = .error e) :
    e.Presentable := by
  unfold run at h
  cases hfresh : f.ensureFresh "inlining" with
  | error e' =>
    simp only [hfresh] at h
    cases h
    exact Func.presentable_of_ensureFresh hfresh
  | ok u =>
    obtain ⟨g, ids, made, hsettle, _⟩ := splices_settle (f.liveRegions.length + 1) hf []
    simp [hfresh, hsettle] at h

theorem Unrolling.presentable_run (options : Options) {f : Func} (hf : f.Sound) {e : Failure}
    (h : (run options f).2 = .error e) : e.Presentable := by
  unfold run runIn at h
  cases hfresh : f.ensureFresh "unrolling" with
  | error e' =>
    simp only [hfresh] at h
    cases h
    exact Func.presentable_of_ensureFresh hfresh
  | ok u =>
    cases ho : f.order with
    | error e' =>
      simp only [hfresh, ho] at h
      cases h
      exact Func.presentable_of_order hf ho
    | ok ids =>
      simp only [hfresh, ho] at h
      cases h

theorem Pass.presentable_run (options : Unrolling.Options) {p : Pass} {f : Func}
    (h : p = shapeInference ∨ Inlining.Ready f) {e : Failure} (he : (p.run options f).2 = .error e) :
    e.Presentable := by
  cases p with
  | shapeInference =>
    simp only [run] at he
    cases hrun : (Inference.run f).outcome with
    | error e' =>
      simp only [hrun] at he
      cases he
      exact Inference.presentable_run hrun
    | ok report =>
      simp only [hrun, bind, Except.bind] at he
      split at he
      · cases he
      · cases he
        trivial
  | inlining => exact Inlining.presentable_run (h.resolve_left (by simp)) (map_eq_error_iff.mp he)
  | unrolling =>
    exact Unrolling.presentable_run options (h.resolve_left (by simp)).sound (map_eq_error_iff.mp he)

theorem Pass.ready_run (options : Unrolling.Options) {p : Pass} {f : Func} {outcome : Outcome}
    (hp : p = shapeInference) (h : (p.run options f).2 = .ok outcome) :
    Inlining.Ready (p.run options f).1 := by
  subst hp
  obtain ⟨_, ids, ha⟩ := (infers_of_run h).analysed
  exact ⟨ha.sound, ids, ha.ordered⟩

namespace Checked

theorem subject_eq (function : String) (e : Failure) : subject function e = e.subject? function := by
  cases e with
  | cyclic region cycle names => cases cycle <;> cases names <;> rfl
  | _ => rfl

theorem message_eq {e : Failure} (h : e.Presentable) : message e = some e.message := by
  cases e with
  | outOfBounds region regionName buffer bufferName offset accessed declared =>
    rw [message, boxText_eq, boxText_eq, provided, provided, if_pos h.1, if_pos h.2]
    rfl
  | _ => rfl

theorem diagnostic_eq (function : String) {e : Failure} (h : e.Presentable) :
    ∃ d, diagnostic function e = some d ∧ e.diagnostic? function = some d := by
  obtain ⟨subject, hsubject⟩ : ∃ x, e.subject? function = some x := by
    cases e with
    | cyclic region cycle names =>
      cases cycle with
      | nil => exact absurd rfl h.1
      | cons first rest =>
        cases names with
        | nil => exact absurd rfl h.2
        | cons name names => exact ⟨_, rfl⟩
    | outOfBounds => exact ⟨_, rfl⟩
    | staleShapes => exact ⟨_, rfl⟩
    | invalid obligation region detail => cases region <;> exact ⟨_, rfl⟩
  refine ⟨_, ?_, by rw [Failure.diagnostic?, hsubject]; rfl⟩
  simp only [diagnostic, subject_eq, hsubject, message_eq h, Option.bind_eq_bind, Option.bind_some]
  rfl

theorem certificateFailure_eq {c : Certificate} (h : c.allPass = false) :
    certificateFailure c = some (Pass.certificateFailure c) := by
  cases hfailed : c.failed with
  | nil =>
    have hall : c.allPass = true := by simpa [Certificate.failed, Certificate.allPass] using hfailed
    rw [h] at hall
    cases hall
  | cons name rest => simp [certificateFailure, Pass.certificateFailure, hfailed]

theorem runPass_eq (options : Unrolling.Options) {p : Pass} {f : Func}
    (h : p = .shapeInference ∨ f.Sound) :
    runPass options p f = some (p.run options f) := by
  cases p with
  | shapeInference =>
    simp only [runPass, Pass.run, infer_eq, Option.bind_eq_bind, Option.bind_some]
    cases (Inference.run f).outcome with
    | error e => rfl
    | ok report =>
      simp only [bind, Except.bind]
      cases hpass : report.certificate.allPass with
      | true => rfl
      | false => simp [certificateFailure_eq hpass]
  | inlining =>
    rw [runPass, inline_eq (h.resolve_left (by simp))]
    rfl
  | unrolling =>
    rw [runPass, unroll_eq]
    rfl

theorem runPasses_eq (options : Unrolling.Options) {fresh : Bool} {ps : List Pass}
    (h : Pass.Guarded fresh ps)
    {f : Func} (hf : fresh = true → Inlining.Ready f) :
    runPasses options ps f = some (Pipeline.runPasses options ps f) := by
  induction ps generalizing fresh f with
  | nil => rfl
  | cons p rest ih =>
    have hready : p = .shapeInference ∨ Inlining.Ready f := h.1.imp_right hf
    unfold runPasses Pipeline.runPasses
    simp only [runPass_eq options (hready.imp_right Inlining.Ready.sound), Option.bind_eq_bind,
      Option.bind_some]
    have hfail := fun e => Pass.presentable_run options hready (e := e)
    have hnext : ∀ outcome, p = .shapeInference → (p.run options f).2 = .ok outcome →
        Inlining.Ready (p.run options f).1 := fun _ => Pass.ready_run options
    generalize p.run options f = result at hfail hnext ⊢
    obtain ⟨g, e | outcome⟩ := result
    · obtain ⟨d, hd, hd'⟩ := diagnostic_eq g.name (hfail e rfl)
      simp [hd, hd']
    · simp only
      split
      · rfl
      · rw [ih h.2 fun hp => hnext outcome (of_decide_eq_true hp) rfl]
        rfl

theorem pipeline_eq (options : Pipeline.Options) (p : Program) :
    pipeline options p = some (Pipeline.run options p) := by
  have hall : p.functions.mapM (runPasses options.unroll options.plan) =
      some (p.functions.map (Pipeline.runPasses options.unroll options.plan)) :=
    (Agreement.returns Option).mapM fun f _ =>
      runPasses_eq options.unroll (Pass.guarded_plan _ _) fun h => (by cases h)
  rw [pipeline, hall]
  rfl

end Checked

end Stencil
