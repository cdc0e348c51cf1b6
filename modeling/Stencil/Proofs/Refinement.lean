import Stencil.Proofs.Evaluation

/-! Refinement of one annotated function by another. The refining function keeps some of the
temporaries and regions, with their annotations, and its equations hold of the same grids. A pass that
refines a function keeps its outputs and its effects. -/

set_option autoImplicit false

namespace Stencil

def Inference.Infers (f g : Func) : Prop := ∃ report, (run f).outcome = .ok report ∧ (run f).func = g

theorem Inference.Infers.analysed {f g : Func} (h : Infers f g) :
    f.SameStructure g ∧ ∃ order, Analysed g order := by
  obtain ⟨report, hok, rfl⟩ := h
  exact analysed_run hok

namespace Evaluation

variable {α : Type} {A : Arithmetic α} {f g k : Func} {inputs : Inputs α}

/-- The grids of the temporaries that a function has. -/
def restrict (f : Func) (T : TempId → Option (Grid α)) (t : TempId) : Option (Grid α) :=
  if (f.temp? t).isSome then T t else none

theorem restrict_of_some {T : TempId → Option (Grid α)} {t : TempId} {x : Temporary}
    (h : f.temp? t = some x) : restrict f T t = T t := by
  simp [restrict, h]

theorem restrict_eq_some {T : TempId → Option (Grid α)} {t : TempId} {grid : Grid α}
    (h : restrict f T t = some grid) : (∃ x, f.temp? t = some x) ∧ T t = some grid := by
  simp only [restrict, Option.ite_none_right_eq_some, Option.isSome_iff_exists] at h
  exact h

theorem Solves.restrict_eq (hf : f.Sound) {ids : List RegionId} {T : TempId → Option (Grid α)}
    (h : Solves A f inputs ids T) : restrict f T = T := by
  funext t
  cases hT : T t with
  | none => simp [restrict, hT]
  | some grid =>
    obtain ⟨id, r, _, _, hr, _, ht⟩ := h.support t grid hT
    obtain ⟨i, hi⟩ := List.mem_iff_getElem?.mp ht
    obtain ⟨x, hx, _⟩ := hf.owned id r i t hr hi
    rw [restrict_of_some hx, hT]

/-- `g` keeps the annotations of what it takes from `f`, and the grids of `f` solve its equations. -/
structure Refines (f g : Func) : Prop where
  sound : g.Sound
  annotated : g.Annotated
  outputs : g.outputs = f.outputs
  temp : ∀ t x, g.temp? t = some x → f.temp? t = some x
  region : ∀ id r, g.region? id = some r → ∃ r', f.region? id = some r' ∧ r.shape = r'.shape
  buffer : ∀ b, g.buffer? b = f.buffer? b
  effects : totalEffects g = totalEffects f
  solves : ∀ {α : Type} (A : Arithmetic α) (inputs : Inputs α) (T : TempId → Option (Grid α)),
    Solves A f inputs f.regionIds T → Solves A g inputs g.regionIds (restrict g T)

theorem Refines.refl (hf : f.Sound) (ha : f.Annotated) : Refines f f where
  sound := hf
  annotated := ha
  outputs := rfl
  temp _ _ h := h
  region _ r h := ⟨r, h, rfl⟩
  buffer _ := rfl
  effects := rfl
  solves _ _ _ h := by rw [h.restrict_eq hf]; exact h

theorem Refines.trans (h : Refines f g) (h' : Refines g k) : Refines f k where
  sound := h'.sound
  annotated := h'.annotated
  outputs := h'.outputs.trans h.outputs
  temp t x hx := h.temp t x (h'.temp t x hx)
  region id r hr := by
    obtain ⟨r₁, hr₁, hs₁⟩ := h'.region id r hr
    obtain ⟨r₂, hr₂, hs₂⟩ := h.region id r₁ hr₁
    exact ⟨r₂, hr₂, hs₁.trans hs₂⟩
  buffer b := (h'.buffer b).trans (h.buffer b)
  effects := h'.effects.trans h.effects
  solves A inputs T hT := by
    have hk := h'.solves A inputs _ (h.solves A inputs T hT)
    have heq : restrict k (restrict g T) = restrict k T := by
      funext t
      cases hx : k.temp? t with
      | none => simp [restrict, hx]
      | some x => rw [restrict_of_some hx, restrict_of_some hx, restrict_of_some (h'.temp t x hx)]
    rwa [heq] at hk

/-- The equations of `g` hold of grids of `f` if its regions compute them. -/
theorem solves_restrict (hg : g.Sound) (hbuffer : ∀ b, g.buffer? b = f.buffer? b)
    {T : TempId → Option (Grid α)}
    (hregion : ∀ id r d, g.region? id = some r → r.shape = .known d →
      ∃ gs, regionGrids A (readerOf f inputs T r) r d = .ok gs ∧
        ∀ (i : Nat) t, r.results[i]? = some t → T t = gs[i]?)
    (hsupport : ∀ t x grid, g.temp? t = some x → T t = some grid →
      ∃ r d, g.region? x.producer = some r ∧ r.shape = .known d ∧ t ∈ r.results) :
    Solves A g inputs g.regionIds (restrict g T) := by
  refine ⟨?_, ?_⟩
  · intro id r d _ hr hd
    obtain ⟨gs, hgs, hT⟩ := hregion id r d hr hd
    refine ⟨gs, regionGrids_mono_read ?_ hgs, ?_⟩
    · rintro s q v ⟨b, hb, o, ho⟩ hv
      obtain ⟨operand, hs, hlive⟩ := hg.reads id r b s o hr hb ho
      obtain ⟨operand', hs', hv⟩ := readerOf_eq_ok_iff.mp hv
      rw [hs] at hs'
      cases hs'
      refine readerOf_eq_ok_iff.mpr ⟨operand, hs, ?_⟩
      cases operand with
      | temp t =>
        obtain ⟨x, hx⟩ := Option.isSome_iff_exists.mp hlive
        simpa only [operandValue, restrict_of_some hx] using hv
      | buffer b => simpa only [operandValue, hbuffer] using hv
    · intro i t ht
      obtain ⟨x, hx, _⟩ := hg.owned id r i t hr ht
      rw [restrict_of_some hx]
      exact hT i t ht
  · intro t grid hgrid
    obtain ⟨⟨x, hx⟩, hgrid⟩ := restrict_eq_some hgrid
    obtain ⟨r, d, hr, hd, ht⟩ := hsupport t x grid hx hgrid
    exact ⟨x.producer, r, d, Func.mem_regionIds.mpr ⟨r, hr⟩, hr, hd, ht⟩

/-- `r'` computes from the same operands what `r` computes. -/
structure SameWork (r r' : Region) : Prop where
  operands : r'.operands = r.operands
  results : r'.results = r.results
  shape : r'.shape = r.shape
  effects : ∀ d, r.shape = .known d → regionEffects r' d = regionEffects r d
  grids : ∀ {α : Type} (A : Arithmetic α) (read : Body.Reader α) (d : Box) (gs : List (Grid α)),
    r.shape = .known d → (regionGrids A read r' d = .ok gs ↔ regionGrids A read r d = .ok gs)

theorem SameWork.refl (r : Region) : SameWork r r :=
  ⟨rfl, rfl, rfl, fun _ _ => rfl, fun _ _ _ _ _ => Iff.rfl⟩

theorem SameWork.symm {r r' : Region} (h : SameWork r r') : SameWork r' r where
  operands := h.operands.symm
  results := h.results.symm
  shape := h.shape.symm
  effects d hd := (h.effects d (h.shape.symm.trans hd)).symm
  grids A read d gs hd := (h.grids A read d gs (h.shape.symm.trans hd)).symm

theorem SameWork.effectsAt_eq {id : RegionId} {r r' : Region} (h : SameWork r r')
    (hr : f.region? id = some r) (hr' : g.region? id = some r') : effectsAt g id = effectsAt f id := by
  simp only [effectsAt, hr, hr', h.shape]
  cases hd : r.shape with
  | unknown => rfl
  | known d => exact h.effects d hd

theorem refines_of_sameWork (hg : g.Sound) (ha : g.Annotated) (houts : g.outputs = f.outputs)
    (hlen : g.regions.length = f.regions.length) (htemp : ∀ t, g.temp? t = f.temp? t)
    (hbuffer : ∀ b, g.buffer? b = f.buffer? b)
    (hregion : ∀ id, (f.region? id = none ∧ g.region? id = none) ∨
      ∃ r r', f.region? id = some r ∧ g.region? id = some r' ∧ SameWork r r') : Refines f g := by
  have hback : ∀ id r', g.region? id = some r' → ∃ r, f.region? id = some r ∧ SameWork r r' := by
    intro id r' hr'
    obtain ⟨_, hnone⟩ | ⟨r, r'', hr, hr'', hwork⟩ := hregion id
    · rw [hr'] at hnone
      cases hnone
    · rw [hr'] at hr''
      cases hr''
      exact ⟨r, hr, hwork⟩
  refine ⟨hg, ha, houts, fun t x hx => (htemp t).symm.trans hx, ?_, hbuffer, ?_, ?_⟩
  · intro id r' hr'
    obtain ⟨r, hr, hwork⟩ := hback id r' hr'
    exact ⟨r, hr, hwork.shape⟩
  · have heff : effectsAt g = effectsAt f := by
      funext id
      obtain ⟨hf, hg⟩ | ⟨r, r', hr, hr', hwork⟩ := hregion id
      · simp only [effectsAt, hf, hg]
      · exact hwork.effectsAt_eq hr hr'
    rw [totalEffects, totalEffects, hlen, heff]
  · intro α A inputs T hT
    apply solves_restrict hg hbuffer
    · intro id r' d hr' hd
      obtain ⟨r, hr, hwork⟩ := hback id r' hr'
      have hd' : r.shape = .known d := hwork.shape.symm.trans hd
      obtain ⟨gs, hgs, hvals⟩ := hT.region id r d (Func.mem_regionIds.mpr ⟨r, hr⟩) hr hd'
      have hread : readerOf f inputs T r' = readerOf f inputs T r := by
        funext s p
        rw [readerOf, readerOf, hwork.operands]
      refine ⟨gs, ?_, ?_⟩
      · rw [hread]
        exact (hwork.grids A _ d gs hd').mpr hgs
      · intro i t ht
        rw [hwork.results] at ht
        exact hvals i t ht
    · intro t x grid hx hgrid
      obtain ⟨id, r, d, _, hr, hd, ht⟩ := hT.support t grid hgrid
      obtain ⟨hnone, _⟩ | ⟨r₁, r', hr₁, hr', hwork⟩ := hregion id
      · rw [hr] at hnone
        cases hnone
      · rw [hr] at hr₁
        cases hr₁
        rw [← hwork.results] at ht
        obtain ⟨i, hi⟩ := List.mem_iff_getElem?.mp ht
        obtain ⟨y, hy, hp, _⟩ := hg.owned id r' i t hr' hi
        rw [hx] at hy
        cases hy
        exact ⟨r', d, by rw [hp]; exact hr', hwork.shape.trans hd, ht⟩

theorem refines_of_same_lookups (hg : g.Sound) (ha : g.Annotated) (hsame : f.SameStructure g)
    (hregion : ∀ id, g.region? id = f.region? id) (htemp : ∀ t, g.temp? t = f.temp? t)
    (hbuffer : ∀ b, g.buffer? b = f.buffer? b) : Refines f g := by
  have hlen : g.regions.length = f.regions.length := by
    simpa [Func.clearShapes] using congrArg (fun f => f.regions.length) hsame.symm
  apply refines_of_sameWork hg ha hsame.outputs_eq.symm hlen htemp hbuffer
  intro id
  cases hr : f.region? id with
  | none => exact .inl ⟨rfl, (hregion id).trans hr⟩
  | some r => exact .inr ⟨r, r, rfl, (hregion id).trans hr, SameWork.refl r⟩

/-- Inference finds the annotations that are already right, so it changes only the stamp. -/
theorem same_lookups_of_infers (ha : f.Annotated) (h : Inference.Infers f g) :
    (∀ id, g.region? id = f.region? id) ∧ (∀ t, g.temp? t = f.temp? t) ∧
      ∀ b, g.buffer? b = f.buffer? b := by
  obtain ⟨hsame, order, han⟩ := h.analysed
  exact Func.Annotated.unique hsame.symm han.sound han.annotated ha han.ordered

theorem Refines.marked (h : Refines f g) {o : OutputMark} (ho : o ∈ f.outputs) :
    ∃ x, g.temp? o.temp = some x ∧ f.temp? o.temp = some x := by
  obtain ⟨x, hx⟩ := (h.sound.outputs o (by rw [h.outputs]; exact ho)).1
  exact ⟨x, hx, h.temp _ x hx⟩

theorem Refines.run (h : Refines f g) {order order' : List RegionId} (hf : Inference.Analysed f order)
    (hg : Inference.Analysed g order') {e : Evaluation α} (he : run A f inputs = .ok e) :
    ∃ e' : Evaluation α, run A g inputs = .ok e' ∧
      (∀ t, gridOf e'.temps t = restrict g (gridOf e.temps) t) ∧
      e'.outputs = e.outputs ∧ e'.effects = e.effects := by
  have hsolve := h.solves A inputs _ (solves_of_run hf he).1
  apply run_of_solves hf hg he hsolve h.outputs _ h.effects
  intro o ho
  obtain ⟨x, hx, hy⟩ := h.marked ho
  exact ⟨hx.trans hy.symm, restrict_of_some hx⟩

/-- Each function refines the other. -/
def Equivalent (f g : Func) : Prop := Refines f g ∧ Refines g f

theorem Equivalent.refl (hf : f.Sound) (ha : f.Annotated) : Equivalent f f :=
  ⟨Refines.refl hf ha, Refines.refl hf ha⟩

theorem Equivalent.trans (h : Equivalent f g) (h' : Equivalent g k) : Equivalent f k :=
  ⟨h.1.trans h'.1, h'.2.trans h.2⟩

theorem equivalent_invalidate (hf : f.Sound) (ha : f.Annotated) : Equivalent f f.invalidate := by
  have hsame := Func.sameStructure_invalidate f
  refine ⟨?_, ?_⟩
  · exact refines_of_same_lookups (hf.of_sameStructure hsame)
      ⟨ha.temp, ha.buffer, ha.region, ha.ranked⟩ hsame (fun _ => rfl) (fun _ => rfl) (fun _ => rfl)
  · exact refines_of_same_lookups (f := f.invalidate) hf ha hsame.symm (fun _ => rfl) (fun _ => rfl)
      (fun _ => rfl)

theorem equivalent_of_infers (hf : f.Sound) (ha : f.Annotated) (h : Inference.Infers f g) :
    Equivalent f g := by
  obtain ⟨hsame, order, han⟩ := h.analysed
  obtain ⟨hregion, htemp, hbuffer⟩ := same_lookups_of_infers ha h
  exact ⟨refines_of_same_lookups han.sound han.annotated hsame hregion htemp hbuffer,
    refines_of_same_lookups hf ha hsame.symm (fun id => (hregion id).symm) (fun t => (htemp t).symm)
      (fun b => (hbuffer b).symm)⟩

theorem Equivalent.temp?_eq (h : Equivalent f g) (t : TempId) : g.temp? t = f.temp? t := by
  cases hx : f.temp? t with
  | some x => exact h.2.temp t x hx
  | none =>
    cases hy : g.temp? t with
    | none => rfl
    | some y =>
      rw [h.1.temp t y hy] at hx
      cases hx

theorem Equivalent.shape_region? (h : Equivalent f g) (id : RegionId) :
    (g.region? id).map (·.shape) = (f.region? id).map (·.shape) := by
  cases hr : f.region? id with
  | some r =>
    obtain ⟨r', hr', hshape⟩ := h.2.region id r hr
    rw [hr', Option.map_some, Option.map_some, hshape]
  | none =>
    cases hr' : g.region? id with
    | none => rfl
    | some r' =>
      obtain ⟨r, hr₁, _⟩ := h.1.region id r' hr'
      rw [hr₁] at hr
      cases hr

/-- Equivalent functions have the same temporaries, so nothing is left out of a solution. -/
theorem Equivalent.gridOf_eq (h : Equivalent f g) {order : List RegionId}
    (hf : Inference.Analysed f order) {e : Evaluation α} (he : run A f inputs = .ok e) (t : TempId) :
    restrict g (gridOf e.temps) t = gridOf e.temps t := by
  have hsolve := (solves_of_run hf he).1.restrict_eq hf.sound
  rw [restrict, h.temp?_eq]
  exact congrFun hsolve t

end Evaluation

end Stencil
