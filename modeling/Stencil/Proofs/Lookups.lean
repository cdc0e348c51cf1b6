import Stencil.Proofs.Events
import Stencil.Proofs.Lifting
import Stencil.Proofs.Obligations
import Stencil.Proofs.Cycles

/-! Inference with its lookups checked. Where the program reads or writes a place of a list by its
number, that place is looked up here, and a run that asks for a place that is not there has no
result. Inference never asks for one, whatever function it is given: it indexes boxes only after it
has verified their ranks. -/

set_option autoImplicit false

namespace Stencil

namespace Checked

section Places

variable {β : Type}

def put (xs : List β) (i : Nat) (x : β) : Option (List β) :=
  if i < xs.length then some (xs.set i x) else none

def placesFrom (xs : List β) (n : Nat) : Option (List β) :=
  if n ≤ xs.length then some (xs.drop n) else none

theorem put_eq {xs : List β} {i : Nat} (h : i < xs.length) (x : β) :
    put xs i x = some (xs.set i x) := if_pos h

theorem placesFrom_eq {xs : List β} {n : Nat} (h : n ≤ xs.length) :
    placesFrom xs n = some (xs.drop n) := if_pos h

end Places

/-- Walks forward from `node`; a cycle is the path from the place of its first region on. -/
def searchCycle (f : Func) : Nat → List RegionId → List RegionId → RegionId →
    ExceptT (List RegionId) Option (List RegionId)
  | 0, _, explored, _ => pure explored
  | fuel + 1, path, explored, node => do
    let path := path ++ [node]
    let explored ← (f.consumers node).foldlM (fun explored next =>
      match path.idxOf? next with
      | some pos => do throw (← (placesFrom path pos : Option (List RegionId)))
      | none =>
        if explored.contains next then pure explored else searchCycle f fuel path explored next) explored
    return explored ++ [node]

def findCycle (f : Func) : Option (Option (List RegionId)) := do
  let ids := f.regionIds
  let walk ← (ids.foldlM (fun explored id =>
    if explored.contains id then pure explored else searchCycle f (ids.length + 1) [] explored id)
    ([] : List RegionId) : ExceptT (List RegionId) Option (List RegionId)).run
  match walk with
  | .error cycle => return some cycle
  | .ok _ => return none

def order (f : Func) : Option (Except Failure (List RegionId)) :=
  let s := f.placing
  if s.placed.length = s.indegree.length then some (.ok s.placed)
  else do return .error (f.stuckFailure s ((← findCycle f).getD []))

/-- Whether every point of `b` is a point of `a`; bounds are compared for each dimension of `a`. -/
def contains (a b : Box) : Option Bool :=
  if b.isEmpty then some true
  else if a.isEmpty then some false
  else (List.range a.rank).allM fun d => do
    if (← a.lb[d]?) ≤ (← b.lb[d]?) then return decide ((← b.ub[d]?) ≤ (← a.ub[d]?)) else return false

def withAxis (b : Box) (axis : Nat) (lb ub : Int) : Option Box := do
  return ⟨← put b.lb axis lb, ← put b.ub axis ub⟩

/-- The operations of inference, with bounds looked up. -/
def primitives : Primitives Option :=
  { Primitives.total Option with
    bound := fun xs axis => xs[axis]?
    withAxis := withAxis
    contains := contains }

def infer (f : Func) : Option Inference.Run := Inference.runIn primitives (order f) f

theorem drop_of_idxOf? {path : List RegionId} {next : RegionId} {pos : Nat}
    (h : path.idxOf? next = some pos) :
    next ∈ path ∧ pos ≤ path.length ∧ path.drop pos = path.dropWhile (· ≠ next) := by
  induction path generalizing pos with
  | nil => cases h
  | cons x path ih =>
    rw [List.idxOf?_cons] at h
    by_cases hx : x = next
    · obtain rfl : 0 = pos := by simpa [hx] using h
      simp [hx]
    · obtain ⟨i, hi, rfl⟩ : ∃ i, path.idxOf? next = some i ∧ i + 1 = pos := by simpa [hx] using h
      obtain ⟨hmem, hle, hdrop⟩ := ih hi
      exact ⟨List.mem_cons_of_mem x hmem, by simpa using hle, by simpa [hx] using hdrop⟩

theorem foldlM_eq {ε γ δ : Type} {F : γ → δ → ExceptT ε Option γ} {G : γ → δ → Except ε γ}
    (h : ∀ a x, F a x = ExceptT.mk (some (G a x))) (xs : List δ) (a : γ) :
    xs.foldlM F a = ExceptT.mk (some (xs.foldlM G a)) := by
  induction xs generalizing a with
  | nil => rfl
  | cons x xs ih =>
    rw [List.foldlM_cons, List.foldlM_cons, h]
    cases hx : G a x with
    | error e => rfl
    | ok b => exact ih b

theorem searchCycle_eq (f : Func) (fuel : Nat) (path explored : List RegionId) (node : RegionId) :
    searchCycle f fuel path explored node =
      ExceptT.mk (some (f.searchCycle fuel path explored node)) := by
  induction fuel generalizing path explored node with
  | zero => rfl
  | succ fuel ih =>
    rw [searchCycle, Func.searchCycle_succ, foldlM_eq (G := f.searchNext fuel (path ++ [node]))]
    · cases (f.consumers node).foldlM (f.searchNext fuel (path ++ [node])) explored <;> rfl
    · intro explored next
      unfold Func.searchNext
      cases hpos : (path ++ [node]).idxOf? next with
      | none =>
        have hnew : (path ++ [node]).contains next = false := by simpa using hpos
        simp only [hnew, Bool.false_eq_true, if_false, ih]
        split <;> rfl
      | some pos =>
        obtain ⟨hmem, hle, hdrop⟩ := drop_of_idxOf? hpos
        have hold : (path ++ [node]).contains next = true := by simpa using hmem
        simp only [hold, if_true, placesFrom_eq hle, hdrop]
        rfl

theorem findCycle_eq (f : Func) : findCycle f = some f.findCycle? := by
  simp only [findCycle, Func.findCycle?]
  rw [foldlM_eq (G := fun explored id => if explored.contains id then .ok explored
    else f.searchCycle (f.regionIds.length + 1) [] explored id)]
  · generalize f.regionIds.foldlM (m := Except (List RegionId)) _ _ = walk
    cases walk <;> rfl
  · intro explored id
    rw [searchCycle_eq]
    split <;> rfl

theorem order_eq (f : Func) : order f = some f.order := by
  simp only [order, Func.order, findCycle_eq]
  split <;> rfl

end Checked

def Shape.Ranked (s : Shape) (n : Nat) : Prop := ∀ b, s = .known b → b.Ranked n

namespace Checked

theorem getElem?_coord {xs : List Int} {d : Nat} (h : d < xs.length) : xs[d]? = some (coord xs d) := by
  rw [coord_eq_getElem h, List.getElem?_eq_getElem h]

section Ranked

variable {n : Nat}

theorem contains_eq {a b : Box} (ha : a.Ranked n) (hb : b.Ranked n) :
    contains a b = some (a.contains b) := by
  have hcompare : (List.range a.rank).allM (m := Option) (fun d => do
      if (← a.lb[d]?) ≤ (← b.lb[d]?) then return decide ((← b.ub[d]?) ≤ (← a.ub[d]?)) else return false) =
      some ((List.range a.rank).all fun d =>
        coord a.lb d ≤ coord b.lb d && coord b.ub d ≤ coord a.ub d) := by
    apply (Agreement.returns Option).allM
    intro d hd
    rw [ha.rank_eq, List.mem_range] at hd
    change _ = some _
    simp only [getElem?_coord (ha.lb.symm ▸ hd), getElem?_coord (ha.ub.symm ▸ hd),
      getElem?_coord (hb.lb.symm ▸ hd), getElem?_coord (hb.ub.symm ▸ hd), Option.bind_eq_bind,
      Option.bind_some]
    by_cases hle : coord a.lb d ≤ coord b.lb d <;> simp [hle]
  unfold contains
  cases hbe : b.isEmpty with
  | true => simp [Box.contains, hbe]
  | false =>
    cases hae : a.isEmpty with
    | true => simp [Box.contains, hbe, hae]
    | false =>
      simp only [Bool.false_eq_true, if_false, hcompare, Option.some.injEq]
      rw [Bool.eq_iff_iff, Box.contains_iff ha hb, ha.rank_eq]
      simp [hbe]

theorem withAxis_eq {b : Box} (h : b.Ranked n) {axis : Nat} (ha : axis < n) (l u : Int) :
    withAxis b axis l u = some (b.withAxis axis l u) := by
  rw [withAxis, put_eq (h.lb.symm ▸ ha), put_eq (h.ub.symm ▸ ha)]
  rfl

theorem handles_of_ranked {b : Box} (h : b.Ranked n) {axis : Nat} (ha : axis < n) :
    primitives.Handles (.returns Option) b axis :=
  ⟨getElem?_coord (h.lb.symm ▸ ha), getElem?_coord (h.ub.symm ▸ ha), rfl, withAxis_eq h ha⟩

variable {r : Region} (hfit : r.Fits n)

include hfit

theorem computedDomain_eq {required : Box} (h : required.Ranked n) :
    r.computedDomainIn primitives required = some (r.computedDomain required) :=
  Region.agrees_computedDomain (A := .returns Option) fun u hu _ =>
    ⟨handles_of_ranked h (hfit.unroll u hu).1, rfl, ⟨rfl, rfl⟩⟩

theorem footprints_eq {domain : Box} (h : domain.Ranked n) :
    r.footprintsIn primitives domain = some (r.footprints domain) := by
  refine Region.agrees_footprints (A := .returns Option) (Region.agrees_iterationPlan ?_)
    fun _ _ _ _ _ _ => rfl
  rintro u k count hu rfl rfl
  refine ⟨handles_of_ranked h (hfit.unroll u hu).1, ?_, fun _ => ⟨rfl, ⟨rfl, rfl⟩, rfl⟩, ⟨rfl, rfl⟩⟩
  unfold Region.groupsIn Region.groupCount
  split <;> rfl

end Ranked

end Checked

namespace Func

/-- All boxes of the function are of its rank. -/
structure Uniform (f : Func) : Prop where
  domain : ∀ b ∈ f.buffers, ∀ d, b.domain = some d → d.Ranked f.rank
  required : ∀ b ∈ f.buffers, b.required.Ranked f.rank
  temp : ∀ t x, f.temp? t = some x → x.shape.Ranked f.rank
  region : ∀ id r, f.region? id = some r → r.shape.Ranked f.rank
  output : ∀ o ∈ f.outputs, o.domain.Ranked f.rank

theorem Annotated.uniform {f : Func} (ha : f.Annotated) (hf : f.Sound)
    (hd : ∀ b ∈ f.buffers, ∀ d, b.domain = some d → d.Ranked f.rank) : f.Uniform where
  domain := hd
  required := by
    intro x hx d hs
    obtain ⟨b, hb⟩ := List.mem_iff_getElem?.mp hx
    have hhull := (ha.buffer b x hb).symm.trans hs
    exact (Shape.leastAbove_of_hull (fun _ h => ranked_demandsOn hf ha h) hhull).ranked
  temp t x hx d hs := (leastAbove_temp hf ha hx hs).ranked
  region id r hr d hs := ha.ranked id r d hr hs
  output o ho := (hf.outputs o ho).2

theorem Uniform.operandShape {f : Func} (h : f.Uniform) {o : Operand} {s : Shape}
    (hs : f.operandShape? o = some s) :
    s.Ranked f.rank := by
  cases o with
  | temp t =>
    obtain ⟨x, hx, rfl⟩ := Option.map_eq_some_iff.mp hs
    exact h.temp t x hx
  | buffer b =>
    obtain ⟨x, hx, rfl⟩ := Option.map_eq_some_iff.mp hs
    exact h.required x (List.mem_of_getElem? hx)

theorem Uniform.recordStamp {f : Func} (h : f.Uniform) : f.recordStamp.Uniform :=
  ⟨h.domain, h.required, h.temp, h.region, h.output⟩

theorem uniform_propagate {f : Func} {ids : List RegionId} (hv : f.verified = .ok ())
    (ho : f.order = .ok ids) :
    (Inference.propagate f ids).func.Uniform := by
  obtain ⟨hf, _, _, hb⟩ := verified_iff.mp hv
  have hord := ordered_of_order ho
  have hsame := Inference.sameStructure_propagate hf hord
  refine (Inference.annotated_propagate hf hord).uniform (hf.of_sameStructure hsame) ?_
  intro x hx d hd
  obtain ⟨b, hb'⟩ := List.mem_iff_getElem?.mp hx
  obtain ⟨x', s, hx', rfl⟩ := hsame.exists_buffer hb'
  rw [← hsame.rank_eq]
  exact Box.ranked_of_wellFormed (hb.buffer x' d (List.mem_of_getElem? hx') hd)

end Func

theorem Region.ranked_footprints {r : Region} {n : Nat} (hfit : r.Fits n) {domain : Box}
    (hd : domain.Ranked n)
    {fp : Footprint} (h : fp ∈ r.footprints domain) : fp.read.Ranked n := by
  obtain ⟨b, base, hrun, hop, hread⟩ := mem_footprints.mp h
  obtain ⟨hbase, hbody⟩ := ranked_of_mem_runs hfit hd hrun
  rw [hread]
  exact Box.ranked_shifted hbase (hbody.ops _ hop).1

theorem Func.Uniform.boxes {f : Func} (h : f.Uniform) (hf : f.Sound) :
    f.Boxes fun b => b.Ranked f.rank where
  domain := h.domain
  operand _ b hs := h.operandShape hs b rfl
  region id r d hr := h.region id r hr d
  output := h.output
  read id r d _ hr hd hfp := Region.ranked_footprints (hf.fits id r hr) (h.region id r hr d hd) hfp

namespace Checked

open Inference (Progress Reached demand)

section Reached

variable {f : Func} {ids : List RegionId} (hf : f.Sound) (hord : f.Ordered ids)

include hf

/-- Nothing is looked up before the boxes demanded so far are known to be of the function's rank. -/
theorem visit_eq {done rest : List RegionId} {id : RegionId} {p : Progress}
    (h : Reached f ids done (id :: rest) p) :
    Inference.visitIn primitives { p with queue := rest, visits := p.visits + 1 } id =
      some (Inference.visit { p with queue := rest, visits := p.visits + 1 } id) := by
  refine Inference.agrees_visit (A := .returns Option) fun r required hr hd => ?_
  have hfit := (hf.of_sameStructure h.same).fits id r hr
  have hleast := (h.canonicalTemps hf).leastAbove_demand hd
  have hcomputed := (Region.computedDomain_spec hfit hleast.ranked hleast.canonical).1
  exact ⟨computedDomain_eq hfit hleast.ranked, footprints_eq hfit hcomputed⟩

include hord

theorem propagate_eq : Inference.propagateIn primitives f ids = some (Inference.propagate f ids) := by
  refine (Inference.agrees_settle (A := .returns Option) (Q := fun p =>
    ∃ done todo, Reached f ids done todo p)
    ?_ _ ⟨[], _, Inference.reached_seed ids⟩).1
  rintro p id rest ⟨done, todo, h⟩ hq
  obtain rfl : todo = id :: rest := h.queue.symm.trans hq
  exact ⟨visit_eq hf h, _, _, h.visit hf hord⟩

end Reached

/-- Inference never asks for a place that is not there, whatever function it is given. -/
theorem infer_eq (f : Func) : infer f = some (Inference.run f) := by
  refine Inference.agrees_run (A := .returns Option) (B := fun b => b.Ranked f.rank) (order_eq f)
    (fun _ _ => contains_eq) ?_
  intro ids hv ho
  have hf := Func.sound_of_verified hv
  have hord := Func.ordered_of_order ho
  have hsame := Inference.sameStructure_propagate hf hord
  have hsound := hf.of_sameStructure hsame
  have huniform := Func.uniform_propagate hv ho
  refine ⟨propagate_eq hf hord, hsame.rank_eq ▸ huniform.boxes hsound, fun id r d hr hd => ?_⟩
  exact footprints_eq (hsound.fits id r hr) (huniform.region id r hr d hd)

end Checked

end Stencil
