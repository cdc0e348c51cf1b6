import Mathlib.Algebra.GroupWithZero.Nat
import Mathlib.Algebra.Order.BigOperators.Group.List
import Mathlib.Algebra.Order.Ring.Nat
import Mathlib.Data.List.Dedup
import Stencil.Proofs.Events

/-! How often annotations grow. A temporary can grow with each of its output marks, and a value with each
offset at which a body reads it, but a second body may read at the same offset over another box. So the
number of growths is bounded by what is asked of each target, and not by the published bound, which counts
an offset once for all bodies that use it and leaves one growth to all output marks of a temporary. -/

set_option autoImplicit false

namespace Stencil

namespace Region

def offsetsIn (r : Region) (o : Operand) (b : Body) : List Offset :=
  ((b.accesses.filter fun a => r.operands[a.slot]? = some o).map (·.offset)).dedup

theorem map_fst_runs (r : Region) (domain : Box) : (r.runs domain).map (·.1) = r.bodies := by
  cases he : r.epilogue <;> simp [runs, bodies, he]

theorem footprints_eq_flatMap_runs (r : Region) (domain : Box) :
    r.footprints domain = (r.runs domain).flatMap fun run => bodyFootprints run.1 run.2 := by
  cases he : r.epilogue <;> simp [footprints_def, runs, mainBox, tailBox, he]

theorem readsOf_eq {r : Region} {domain : Box} (hs : r.shape = .known domain) (o : Operand) :
    r.readsOf o = (r.runs domain).flatMap fun run =>
      ((run.1.accesses.filter fun a => r.operands[a.slot]? = some o).map (·.offset)).map
        run.2.shifted := by
  simp only [readsOf, hs, footprints_eq_flatMap_runs, List.filter_flatMap, List.map_flatMap]
  congr 1
  funext run
  simp [bodyFootprints_def, List.filter_map, Function.comp_def]

end Region

namespace Func

open Inference (Target)

def offsets (f : Func) : List Offset :=
  (f.liveRegions.flatMap fun r => r.2.bodies.flatMap fun b => b.accesses.map (·.offset)).eraseDups

def parts (f : Func) : List (Region × Body) :=
  f.liveRegions.flatMap fun r => r.2.bodies.map fun b => (r.2, b)

/-- The offsets at which an operand is read, counted for each body. -/
def offsetsOf (f : Func) (o : Operand) : List Offset :=
  f.parts.flatMap fun part => part.1.offsetsIn o part.2

def readersOf (f : Func) (o : Operand) : List (Region × Body) :=
  f.parts.filter fun part => part.1.offsetsIn o part.2 ≠ []

/-- All that carries an annotation. -/
def targets (f : Func) : List Target :=
  f.liveTemps.map (.temp ·.1) ++ (List.range f.buffers.length).map .buffer ++
    f.liveRegions.map (.region ·.1)

/-- How often the annotation of a target can grow. -/
def allowance (f : Func) : Target → Nat
  | .temp t => (f.marksOn t).length + (f.offsetsOf (.temp t)).length
  | .buffer b => (f.offsetsOf (.buffer b)).length
  | .region _ => 1

theorem stepBound_eq (f : Func) : Inference.stepBound f = f.targets.length * (f.offsets.length + 1) := by
  simp [Inference.stepBound, targets, offsets, Nat.add_assoc]

theorem mem_targets {f : Func} {x : Target} : x ∈ f.targets ↔ (f.shapeOf? x).isSome = true := by
  cases x with
  | temp t =>
    simp only [targets, shapeOf?, List.mem_append, List.mem_map, Target.temp.injEq, reduceCtorEq,
      and_false, exists_false, or_false, Option.isSome_map, Option.isSome_iff_exists]
    constructor
    · rintro ⟨⟨t', x⟩, hx, rfl⟩
      exact ⟨x, mem_liveTemps.mp hx⟩
    · rintro ⟨x, hx⟩
      exact ⟨(t, x), mem_liveTemps.mpr hx, rfl⟩
  | buffer b => simp [targets, shapeOf?, buffer?]
  | region id =>
    simp only [targets, shapeOf?, List.mem_append, List.mem_map, Target.region.injEq, reduceCtorEq,
      and_false, exists_false, false_or, Option.isSome_map, Option.isSome_iff_exists]
    constructor
    · rintro ⟨⟨id', r⟩, hr, rfl⟩
      exact ⟨r, mem_liveRegions.mp hr⟩
    · rintro ⟨r, hr⟩
      exact ⟨(id, r), mem_liveRegions.mpr hr, rfl⟩

theorem SameStructure.isSome_shapeOf? {f g : Func} (h : f.SameStructure g) (x : Target) :
    (f.shapeOf? x).isSome = (g.shapeOf? x).isSome := by
  have hx := congrArg (fun k : Func => (k.shapeOf? x).isSome) h
  simpa [shapeOf?_clearShapes] using hx

theorem length_offsetsIn_le {f : Func} {part : Region × Body} (hpart : part ∈ f.parts) (o : Operand) :
    (part.1.offsetsIn o part.2).length ≤ f.offsets.length := by
  obtain ⟨r, hr, hmem⟩ := List.mem_flatMap.mp hpart
  obtain ⟨b, hb, rfl⟩ := List.mem_map.mp hmem
  apply ((List.nodup_dedup _).subperm _).length_le
  intro q hq
  obtain ⟨a, ha, rfl⟩ := List.mem_map.mp (List.mem_dedup.mp hq)
  have ha := List.mem_of_mem_filter ha
  rw [offsets, List.mem_eraseDups]
  exact List.mem_flatMap.mpr ⟨r, hr, List.mem_flatMap.mpr ⟨b, hb, List.mem_map.mpr ⟨a, ha, rfl⟩⟩⟩

theorem length_offsetsOf_le (f : Func) (o : Operand) :
    (f.offsetsOf o).length ≤ (f.readersOf o).length * f.offsets.length := by
  have hparts : ∀ parts : List (Region × Body), (∀ part, part ∈ parts → part ∈ f.parts) →
      (parts.flatMap fun part => part.1.offsetsIn o part.2).length ≤
        (parts.filter fun part => part.1.offsetsIn o part.2 ≠ []).length * f.offsets.length := by
    intro parts hmem
    induction parts with
    | nil => simp
    | cons part parts ih =>
      have hrest := ih fun part' h => hmem part' (by simp [h])
      have hhead := length_offsetsIn_le (hmem part (by simp)) o
      rw [List.flatMap_cons, List.length_append, List.filter_cons]
      split
      · rw [List.length_cons, Nat.succ_mul]
        omega
      · next hnil =>
        have hzero : part.1.offsetsIn o part.2 = [] := by simpa using hnil
        simpa [hzero] using hrest
  exact hparts f.parts fun _ h => h

/-- Where no temporary has two marks and no value two readers, a target can grow once more than there are
offsets. -/
theorem allowance_le {f : Func} (hmarks : ∀ t, (f.marksOn t).length ≤ 1)
    (hreaders : ∀ o, (f.readersOf o).length ≤ 1) (x : Target) : f.allowance x ≤ f.offsets.length + 1 := by
  have hread : ∀ o, (f.offsetsOf o).length ≤ f.offsets.length := by
    intro o
    calc (f.offsetsOf o).length
        ≤ (f.readersOf o).length * f.offsets.length := f.length_offsetsOf_le o
      _ ≤ 1 * f.offsets.length := Nat.mul_le_mul_right _ (hreaders o)
      _ = f.offsets.length := Nat.one_mul _
  cases x with
  | temp t =>
    have := hmarks t
    have := hread (.temp t)
    simp only [allowance]
    omega
  | buffer b => exact Nat.le_succ_of_le (hread (.buffer b))
  | region id => simp [allowance]

end Func

namespace Inference

theorem length_history_le {x : Target} {s : Shape} {n : Nat} (hs : s.Fits n) {bs ds : List Box}
    (hbs : ∀ b, b ∈ bs → b.Ranked n)
    (hds : ∀ b, b ∈ bs → s.covers (.known b) = true ∨ b ∈ ds) : (history x s bs).length ≤ ds.length := by
  induction bs generalizing s ds with
  | nil => simp
  | cons b bs ih =>
    have hb := hbs b (by simp)
    have hrest : ∀ c, c ∈ bs → c.Ranked n := fun c hc => hbs c (by simp [hc])
    rw [history]
    split
    · exact ih hs hrest fun c hc => hds c (by simp [hc])
    · next hne =>
      have hcov := Shape.covers_grow_self hs hb
      have hmem : b ∈ ds :=
        (hds b (by simp)).resolve_left fun h => hne ((Shape.grow_eq_self_iff hs hb).mpr h)
      -- from now on `b` is covered, and so is all that was
      have hlater : ∀ c, c ∈ bs → (s.grow b).covers (.known c) = true ∨ c ∈ ds.erase b := by
        intro c hc
        by_cases hcb : c = b
        · exact .inl (hcb ▸ hcov.2)
        · rcases hds c (by simp [hc]) with h | h
          · exact .inl (Shape.covers_known_trans hs (hs.grow hb) (hrest c hc) hcov.1 h)
          · exact .inr ((List.mem_erase_of_ne hcb).mpr h)
      have hlen := ih (hs.grow hb) hrest hlater
      have herase := List.length_erase_of_mem hmem
      have hpos := List.length_pos_of_mem hmem
      rw [List.length_cons]
      omega

theorem length_history_le_length (x : Target) (s : Shape) (bs : List Box) :
    (history x s bs).length ≤ bs.length := by
  induction bs generalizing s with
  | nil => simp
  | cons b bs ih =>
    rw [history]
    split
    · exact Nat.le_succ_of_le (ih s)
    · exact Nat.succ_le_succ (ih (s.grow b))

theorem length_history_flatMap_le {β γ : Type} {x : Target} {n : Nat} {is : List β} {g : β → List Box}
    {c : β → List γ} (hg : ∀ i, i ∈ is → ∀ b, b ∈ g i → b.Ranked n)
    (hc : ∀ i, i ∈ is → ∀ s : Shape, s.Fits n → (history x s (g i)).length ≤ (c i).length)
    {s : Shape} (hs : s.Fits n) : (history x s (is.flatMap g)).length ≤ (is.flatMap c).length := by
  induction is generalizing s with
  | nil => simp
  | cons i is ih =>
    have hhead := hc i (by simp) s hs
    have hrest := ih (fun j hj => hg j (by simp [hj])) (fun j hj => hc j (by simp [hj]))
      (Shape.fits_foldl_grow hs (hg i (by simp)))
    rw [List.flatMap_cons, List.flatMap_cons, history_append, List.length_append, List.length_append]
    omega

theorem length_history_readsOf_le {x : Target} {r : Region} {n : Nat} (hfit : r.Fits n)
    (hd : ∀ d, r.shape = .known d → d.Ranked n) (o : Operand) {s : Shape} (hs : s.Fits n) :
    (history x s (r.readsOf o)).length ≤ (r.bodies.flatMap (r.offsetsIn o)).length := by
  cases hshape : r.shape with
  | unknown => simp [Region.readsOf, hshape]
  | known domain =>
    have hreads := Region.readsOf_eq hshape o
    have hranked : ∀ box, box ∈ r.readsOf o → box.Ranked n := fun box => Region.ranked_readsOf hfit hd
    rw [hreads] at hranked
    rw [hreads, ← r.map_fst_runs domain, List.flatMap_map]
    have hrun : ∀ run, run ∈ r.runs domain →
        ∀ box, box ∈ ((run.1.accesses.filter fun a => r.operands[a.slot]? = some o).map
          (·.offset)).map run.2.shifted → box.Ranked n :=
      fun run h box hbox => hranked box (List.mem_flatMap.mpr ⟨run, h, hbox⟩)
    apply length_history_flatMap_le hrun _ hs
    intro run h s hs
    have hlen : (r.offsetsIn o run.1).length = ((r.offsetsIn o run.1).map run.2.shifted).length := by simp
    rw [hlen]
    apply length_history_le hs (hrun run h)
    intro box hbox
    obtain ⟨q, hq, rfl⟩ := List.mem_map.mp hbox
    exact .inr (List.mem_map.mpr ⟨q, List.mem_dedup.mpr hq, rfl⟩)

end Inference

def Func.offsetsAt (f : Func) (o : Operand) (id : RegionId) : List Offset :=
  match f.region? id with
  | some r => r.bodies.flatMap (r.offsetsIn o)
  | none => []

theorem Func.length_offsetsAt {f : Func} {order : List RegionId} (hord : f.Ordered order) (o : Operand) :
    (order.reverse.flatMap (f.offsetsAt o)).length = (f.offsetsOf o).length := by
  have hparts : f.regionIds.flatMap (f.offsetsAt o) = f.offsetsOf o := by
    rw [offsetsOf, parts, List.flatMap_assoc, regionIds, List.flatMap_map, List.flatMap_def,
      List.flatMap_def]
    congr 1
    apply List.map_congr_left
    intro r hr
    simp [offsetsAt, mem_liveRegions.mp hr, List.flatMap_map]
  rw [← hparts]
  exact (((List.reverse_perm order).trans hord.perm).flatMap_right _).length_eq

namespace Inference

section Propagate

variable {f : Func} {order : List RegionId} (hf : f.Sound) (hord : f.Ordered order)
include hf hord

/-- Over all visits an operand is asked for one box for each offset and body that reads it there. -/
theorem length_history_reads_le (x : Target) (o : Operand) {s : Shape}
    (hs : s.Fits (propagate f order).func.rank) :
    (history x s (order.reverse.flatMap ((propagate f order).func.readsAt o))).length ≤
      (f.offsetsOf o).length := by
  have h := reached_propagate hf hord
  rw [← Func.length_offsetsAt hord o]
  refine length_history_flatMap_le (n := (propagate f order).func.rank) ?_ ?_ hs
  · intro id hid box hbox
    exact h.ranked_reads hf (List.mem_flatMap.mpr ⟨id, hid, hbox⟩)
  · intro id hid s hs
    cases hr : (propagate f order).func.region? id with
    | none => simp [Func.readsAt, hr]
    | some r =>
      obtain ⟨r', s', hr', he⟩ := h.same.exists_region hr
      have hoffsets : f.offsetsAt o id = r.bodies.flatMap (r.offsetsIn o) := by
        rw [Func.offsetsAt, hr', he]
        rfl
      rw [hoffsets, Func.readsAt, hr]
      exact length_history_readsOf_le ((hf.of_sameStructure h.same).fits id r hr)
        (fun d hd => h.ranked id r d hr hd) o hs

theorem length_eventsOf_le (x : Target) :
    (eventsOf (propagate f order).events x).length ≤ f.allowance x := by
  have h := reached_propagate hf hord
  rw [(recorded_propagate hf hord).1.events]
  cases hx : (propagate f order).func.shapeOf? x with
  | none => simp
  | some s =>
    simp only [Option.map_some, Option.getD_some]
    cases x with
    | temp t =>
      rw [Func.askedOf, Func.allowance, history_append, List.length_append, ← h.same.marksOn_eq]
      apply Nat.add_le_add (length_history_le_length _ _ _)
      apply length_history_reads_le hf hord
      apply Shape.fits_foldl_grow (Shape.fits_unknown _)
      intro b hb
      rw [← h.same.rank_eq]
      exact Func.ranked_marksOn hf hb
    | buffer b => exact length_history_reads_le hf hord _ _ (Shape.fits_unknown _)
    | region id =>
      refine Nat.le_trans (length_history_le_length _ _ _) ?_
      rw [Func.askedOf, Func.allowance, Option.length_toList]
      split <;> simp

end Propagate

theorem length_le_sum_eventsOf {events : List Event} {targets : List Target}
    (h : ∀ e, e ∈ events → e.target ∈ targets) :
    events.length ≤ (targets.map fun x => (eventsOf events x).length).sum := by
  induction targets generalizing events with
  | nil =>
    have hnil : events = [] := List.eq_nil_iff_forall_not_mem.mpr fun e he => List.not_mem_nil (h e he)
    simp [hnil]
  | cons x targets ih =>
    have hsplit := events.length_eq_length_filter_add fun e => decide (e.target = x)
    have hrest : ∀ e, e ∈ events.filter (fun e => !decide (e.target = x)) → e.target ∈ targets := by
      intro e he
      obtain ⟨hmem, hne⟩ := List.mem_filter.mp he
      exact List.mem_of_ne_of_mem (by simpa using hne) (h e hmem)
    have hmono : (targets.map fun y =>
        (eventsOf (events.filter fun e => !decide (e.target = x)) y).length).sum ≤
          (targets.map fun y => (eventsOf events y).length).sum :=
      List.sum_le_sum fun y _ => (List.filter_sublist.filter _).length_le
    rw [List.map_cons, List.sum_cons, hsplit]
    exact Nat.add_le_add_left (Nat.le_trans (ih hrest) hmono) _

/-- The number of growths. Each annotation grows at most as often as its allowance says: a temporary
once for each of its output marks, a temporary or a buffer once for each offset at which a body
reads it, and a region once. The published bound holds where no temporary has two marks and no value
two readers. -/
theorem growths_within_allowance {f : Func} {report : Report} (h : (run f).outcome = .ok report) :
    report.growths = (run f).events.length ∧
      (∀ x, (eventsOf (run f).events x).length ≤ f.allowance x) ∧
      report.growths ≤ (f.targets.map f.allowance).sum ∧
      report.stepBound = f.targets.length * (f.offsets.length + 1) ∧
      ((∀ t, (f.marksOn t).length ≤ 1) → (∀ o, (f.readersOf o).length ≤ 1) →
        report.growths ≤ report.stepBound) := by
  obtain ⟨order, hv, ho, _⟩ := run_ok h
  have hf := Func.sound_of_verified hv
  have hord := Func.ordered_of_order ho
  obtain ⟨hevents, _, hreport⟩ := run_shows hv ho
  obtain ⟨_, hgrowths, hbound⟩ := hreport report h
  have htargets : ∀ e, e ∈ (propagate f order).events → e.target ∈ f.targets := by
    intro e he
    rw [Func.mem_targets, (sameStructure_propagate hf hord).isSome_shapeOf?]
    exact (growth_propagate hf hord he).1
  have htotal : report.growths ≤ (f.targets.map f.allowance).sum := by
    rw [hgrowths]
    exact Nat.le_trans (length_le_sum_eventsOf htargets)
      (List.sum_le_sum fun x _ => length_eventsOf_le hf hord x)
  rw [f.stepBound_eq] at hbound
  refine ⟨by rw [hgrowths, hevents], ?_, htotal, hbound, ?_⟩
  · intro x
    rw [hevents]
    exact length_eventsOf_le hf hord x
  · intro hmarks hreaders
    have heach : ∀ k, k ∈ f.targets.map f.allowance → k ≤ f.offsets.length + 1 := by
      intro k hk
      obtain ⟨x, _, rfl⟩ := List.mem_map.mp hk
      exact Func.allowance_le hmarks hreaders x
    have hsum : (f.targets.map f.allowance).sum ≤ f.targets.length * (f.offsets.length + 1) := by
      simpa using List.sum_le_card_nsmul _ _ heach
    rw [hbound]
    exact Nat.le_trans htotal hsum

/-- Five regions read the same four buffers, over boxes that grow from visit to visit. -/
def crowded : Func where
  name := "crowded"
  rank := 1
  buffers := [⟨"a", .f64, none, .unknown⟩, ⟨"b", .f64, none, .unknown⟩, ⟨"c", .f64, none, .unknown⟩,
    ⟨"d", .f64, none, .unknown⟩]
  temps := (List.range 5).map fun i => some ⟨"t" ++ toString i, .f64, i, 0, .unknown⟩
  regions :=
    (List.range 5).map fun i => some ⟨"r" ++ toString i, [.buffer 0, .buffer 1, .buffer 2, .buffer 3],
    .ofOps [.access 0 [0], .access 1 [0], .access 2 [0], .access 3 [0]] [0], none, [i], .unknown⟩
  outputs := (List.range 5).map fun i => ⟨i, ⟨[0], [5 - i]⟩⟩
  stamp := none

/-- A region that reads nothing and whose result is marked with the given boxes. -/
def marked (marks : List Box) : Func where
  name := "marked"
  rank := 1
  buffers := []
  temps := [some ⟨"p", .f64, 0, 0, .unknown⟩]
  regions := [some ⟨"p", [], .ofOps [.index 0 [0]] [0], none, [0], .unknown⟩]
  outputs := marks.map fun b => ⟨0, b⟩
  stamp := none

theorem growths_within_allowance_crowded :
    (∃ report, (run crowded).outcome = .ok report ∧ report.growths = 30 ∧ report.stepBound = 28 ∧
      report.growths ≤ (crowded.targets.map crowded.allowance).sum ∧
      (crowded.targets.map crowded.allowance).sum = 30) ∧
    ∃ report, (run (marked [⟨[0], [1]⟩])).outcome = .ok report ∧ report.growths ≤ report.stepBound := by
  have hcrowded : ∃ report, (run crowded).outcome = .ok report := ⟨_, rfl⟩
  have hmarked : ∃ report, (run (marked [⟨[0], [1]⟩])).outcome = .ok report := ⟨_, rfl⟩
  obtain ⟨report, h⟩ := hcrowded
  obtain ⟨report', h'⟩ := hmarked
  obtain ⟨hgrowths, _, htotal, hbound, _⟩ := growths_within_allowance h
  obtain ⟨_, _, _, _, hpublished⟩ := growths_within_allowance h'
  have hevents : (run crowded).events.length = 30 := by decide +kernel
  have htargets : crowded.targets.length * (crowded.offsets.length + 1) = 28 := by decide +kernel
  refine ⟨⟨report, h, hgrowths.trans hevents, hbound.trans htargets, htotal, by decide +kernel⟩,
    report', h', ?_⟩
  apply hpublished
  · intro t
    rw [Func.marksOn, List.length_map]
    exact List.length_filter_le _ _
  · exact fun o => List.length_filter_le _ _

/-- Two output marks of one temporary are enough to pass the published bound. -/
theorem growths_pass_stepBound :
    ∃ report, (run (marked [⟨[0], [1]⟩, ⟨[0], [2]⟩])).outcome = .ok report ∧
      report.stepBound = 2 ∧ report.growths = 3 := ⟨_, rfl, rfl, rfl⟩

end Inference

end Stencil
