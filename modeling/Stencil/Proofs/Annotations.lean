import Stencil.Proofs.Planning
import Stencil.Proofs.Solution

/-! Inference touches annotations only. Nothing that it reads or reports depends on the annotations
and the stamp that it finds, and all that it changes are annotations and the stamp; when it gives up
before it has cleared them, it changes nothing. -/

set_option autoImplicit false

namespace Stencil

theorem livePlaces_map {β : Type} (g : β → β) (n : Nat) (xs : List (Option β)) :
    livePlaces n (xs.map (Option.map g)) = (livePlaces n xs).map fun p => (p.1, g p.2) := by
  induction xs generalizing n with
  | nil => rfl
  | cons x xs ih =>
    cases x with
    | none => exact ih (n + 1)
    | some x => simp only [List.map_cons, Option.map_some, livePlaces, ih]

namespace Func

theorem liveRegions_clearShapes (f : Func) :
    f.clearShapes.liveRegions = f.liveRegions.map fun r => (r.1, { r.2 with shape := .unknown }) :=
  livePlaces_map _ 0 f.regions

theorem liveTemps_clearShapes (f : Func) :
    f.clearShapes.liveTemps = f.liveTemps.map fun t => (t.1, { t.2 with shape := .unknown }) :=
  livePlaces_map _ 0 f.temps

theorem ownsResult_clearShapes (f : Func) (id : RegionId) (i : Nat) (t : TempId) :
    f.clearShapes.ownsResult id i t = f.ownsResult id i t := by
  unfold ownsResult
  rw [temp?_clearShapes]
  cases f.temp? t <;> rfl

theorem regionFlaws_clearShapes (f : Func) (id : RegionId) (r : Region) :
    f.clearShapes.regionFlaws id { r with shape := .unknown } = f.regionFlaws id r := by
  have hlive : ∀ o, f.clearShapes.operandLive o = f.operandLive o := fun o =>
    ((sameStructure_clearShapes f).operandLive_eq o).symm
  simp only [regionFlaws, hlive, ownsResult_clearShapes]
  rfl

theorem tempFlaws_clearShapes (f : Func) : f.clearShapes.tempFlaws = f.tempFlaws := by
  have hlistings : ∀ t, f.clearShapes.listings t = f.listings t := by
    intro t
    simp only [listings, liveRegions_clearShapes, List.map_map]
    rfl
  have hregion : ∀ id, (f.clearShapes.region? id).isNone = (f.region? id).isNone := by
    intro id
    rw [region?_clearShapes, Option.isNone_map]
  simp only [tempFlaws, liveTemps_clearShapes, List.flatMap_map, hlistings, hregion]

theorem violations_clearShapes (f : Func) : f.clearShapes.violations = f.violations := by
  have hbuffers : f.clearShapes.bufferFlaws = f.bufferFlaws := by
    simp only [bufferFlaws, clearShapes, List.flatMap_map]
  have houtputs : f.clearShapes.outputFlaws = f.outputFlaws := by
    have htemp : ∀ t, (f.clearShapes.temp? t).isNone = (f.temp? t).isNone := by
      intro t
      rw [temp?_clearShapes, Option.isNone_map]
    simp only [outputFlaws, htemp]
    rfl
  simp only [violations, liveRegions_clearShapes, List.flatMap_map, regionFlaws_clearShapes,
    tempFlaws_clearShapes, hbuffers, houtputs]

theorem SameStructure.verified_eq {f g : Func} (h : f.SameStructure g) : f.verified = g.verified := by
  have hviolations : f.violations = g.violations := by
    rw [← violations_clearShapes f, ← violations_clearShapes g]
    exact congrArg violations h
  unfold Func.verified
  rw [hviolations]

theorem searchCycle_congr {f g : Func} (hcons : ∀ id, f.consumers id = g.consumers id) (fuel : Nat)
    (path explored : List RegionId) (node : RegionId) :
    f.searchCycle fuel path explored node = g.searchCycle fuel path explored node := by
  induction fuel generalizing path explored node with
  | zero => rfl
  | succ fuel ih => simp only [searchCycle, hcons, ih]

theorem SameStructure.order_congr {f g : Func} (h : f.SameStructure g) : f.order = g.order := by
  have hcons : ∀ id, f.consumers id = g.consumers id := by
    intro id
    simp only [consumers, h.regionIds_eq, h.producers_eq]
  have hcycle : f.findCycle? = g.findCycle? := by
    simp only [findCycle?, h.regionIds_eq, searchCycle_congr hcons]
  have hname : ∀ id, (f.region? id).map (·.name) = (g.region? id).map (·.name) := by
    have hclear :
        ∀ (k : Func) id, (k.clearShapes.region? id).map (·.name) = (k.region? id).map (·.name) := by
      intro k id
      rw [region?_clearShapes, Option.map_map]
      rfl
    intro id
    rw [← hclear f, ← hclear g]
    exact congrArg (fun k : Func => (k.region? id).map (·.name)) h
  simp only [order_eq_placeReady, stuckFailure, standing, waits, isReady_congr h.producers_eq,
    h.regionIds_eq, h.producers_eq, placeReady_congr h.regionIds_eq h.producers_eq, hcycle, hname]

end Func

namespace Inference

theorem stepBound_clearShapes (f : Func) : stepBound f.clearShapes = stepBound f := by
  have hbuffers : f.clearShapes.buffers.length = f.buffers.length := List.length_map _
  simp only [stepBound, Func.liveRegions_clearShapes, Func.liveTemps_clearShapes, List.flatMap_map,
    List.length_map, hbuffers]
  rfl

end Inference

namespace Func

/-- The second function is the first with other annotations and another stamp. -/
def Reannotated (f g : Func) : Prop :=
  ∃ region temp buffer stamp, g = { f.annotatedBy region temp buffer with stamp := stamp }

theorem reannotated_iff {f g : Func} : f.Reannotated g ↔ f.SameStructure g := by
  constructor
  · rintro ⟨region, temp, buffer, stamp, rfl⟩
    exact sameStructure_annotatedBy f region temp buffer
  · intro h
    have hplaces : f.clearShapes.Rearranged g.clearShapes (Equiv.refl RegionId) := by
      rw [show f.clearShapes = g.clearShapes from h]
      exact ⟨rfl, rfl, rfl, rfl, fun _ => rfl, fun t => by simp⟩
    have hlike := hplaces.annotatedLike
    have hsame : g.SameStructure { f.annotatedLike g (Equiv.refl RegionId) with stamp := g.stamp } :=
      h.symm.trans (sameStructure_annotatedBy f _ _ _)
    refine ⟨_, _, _, g.stamp, hsame.eq_of_lookups hlike.region ?_ ?_ rfl⟩
    · intro t
      have htemp : g.temp? t = (f.annotatedLike g (Equiv.refl RegionId)).temp? t := by
        simpa using hlike.temp t
      exact htemp
    · intro b
      rw [buffer?, hlike.buffers]
      rfl

end Func

namespace Inference

/-- What inference reports is the same for functions that differ in annotations only; so is what it
makes of them, unless it refuses them as they are. -/
theorem run_congr {f g : Func} (h : f.SameStructure g) :
    (run g).outcome = (run f).outcome ∧ (run g).events = (run f).events ∧
      ((run g).func = (run f).func ∨
        ∃ e, (run f).outcome = .error e ∧ (e.code = .invalidStructure ∨ e.code = .cycle)) := by
  have hbound : stepBound f = stepBound g := by
    rw [← stepBound_clearShapes f, ← stepBound_clearShapes g]
    exact congrArg stepBound h
  rw [run_def f, run_def g]
  rw [h.verified_eq, h.order_congr]
  cases hv : g.verified with
  | error e => exact ⟨rfl, rfl, .inr ⟨e, rfl, .inl (Func.code_of_verified hv)⟩⟩
  | ok u =>
    cases ho : g.order with
    | error e => exact ⟨rfl, rfl, .inr ⟨e, rfl, .inr (Func.code_of_order ho)⟩⟩
    | ok order =>
      simp only [propagate_congr h, hbound]
      exact ⟨trivial, trivial, .inl trivial⟩

/-- Inference touches annotations only, and fails cleanly. Whatever function it is given, the result
differs from it in annotations and stamp only; an invalid or cyclic function is returned as it is,
one that reads out of bounds without a stamp, and there is no other failure. What it finds out,
growth by growth, does not depend on the annotations and the stamp that were there before, and
neither does the result, unless it gave up first. -/
theorem inference_only_annotates (f : Func) :
    f.Reannotated (run f).func ∧
    (∀ e, (run f).outcome = .error e →
      ((e.code = .invalidStructure ∨ e.code = .cycle) ∧ (run f).func = f) ∨
        (e.code = .outOfBounds ∧ (run f).func.stamp = none)) ∧
    ∀ g, f.Reannotated g → (run g).outcome = (run f).outcome ∧ (run g).events = (run f).events ∧
      ((run g).func = (run f).func ∨
        ∃ e, (run f).outcome = .error e ∧ (e.code = .invalidStructure ∨ e.code = .cycle)) := by
  refine ⟨?_, ?_, ?_⟩
  · rw [Func.reannotated_iff]
    have hran := ran_run f
    generalize run f = r at hran ⊢
    cases hran with
    | invalid _ => exact .refl f
    | cyclic _ _ => exact .refl f
    | outOfBounds hv ho _ =>
      exact sameStructure_propagate (Func.sound_of_verified hv) (Func.ordered_of_order ho)
    | done hv ho _ _ _ =>
      exact (sameStructure_propagate (Func.sound_of_verified hv) (Func.ordered_of_order ho)).trans
        (Func.sameStructure_recordStamp _)
  · intro e he
    have hran := ran_run f
    generalize run f = r at he hran ⊢
    cases hran with
    | invalid hv =>
      cases he
      exact .inl ⟨.inl (Func.code_of_verified hv), rfl⟩
    | cyclic _ ho =>
      cases he
      exact .inl ⟨.inr (Func.code_of_order ho), rfl⟩
    | outOfBounds _ _ hb =>
      cases he
      exact .inr ⟨code_of_firstOutOfBounds hb, stamp_propagate f _⟩
    | done _ _ _ _ _ => cases he
  · exact fun g hg => run_congr (Func.reannotated_iff.mp hg)

/-- The function that leaves its declared domain, with boxes of another time and a stamp that says
nothing. -/
def stained : Func :=
  { overrun.annotatedBy (fun _ => .known ⟨[0], [4]⟩) (fun _ => .unknown) (fun _ => .known ⟨[2], [6]⟩) with
    stamp := some [1, 2, 3] }

theorem inference_only_annotates_stained :
    overrun.Reannotated stained ∧ stained ≠ overrun ∧
    (run stained).outcome = .error (.outOfBounds 1 "walk" 0 "in" [1] ⟨[7], [8]⟩ ⟨[0], [7]⟩) ∧
    (run stained).outcome = (run overrun).outcome ∧ (run stained).events = (run overrun).events ∧
    (run stained).func = (run overrun).func ∧ (run stained).func.stamp = none ∧
    stained.Reannotated (run stained).func := by
  have hfail : (run overrun).outcome =
      .error (.outOfBounds 1 "walk" 0 "in" [1] ⟨[7], [8]⟩ ⟨[0], [7]⟩) := rfl
  have hre : overrun.Reannotated stained := ⟨_, _, _, _, rfl⟩
  obtain ⟨_, _, hcongr⟩ := inference_only_annotates overrun
  obtain ⟨houtcome, hevents, hfunc⟩ := hcongr stained hre
  have hsame : (run stained).func = (run overrun).func := by
    rcases hfunc with hfunc | ⟨e, he, hcode⟩
    · exact hfunc
    · rw [hfail] at he
      cases he
      rcases hcode with hcode | hcode <;> cases hcode
  obtain ⟨hstained, hclean, _⟩ := inference_only_annotates stained
  refine ⟨hre, by decide, houtcome.trans hfail, houtcome, hevents, hsame, ?_, hstained⟩
  rcases hclean _ (houtcome.trans hfail) with ⟨hcode, _⟩ | ⟨_, hstamp⟩
  · rcases hcode with hcode | hcode <;> cases hcode
  · exact hstamp

end Inference

end Stencil
