import Stencil.Proofs.Evaluation

/-! Inferred shapes are sound for evaluation: a function that inference accepts is evaluated without
failing on all inputs that cover what its buffers are read for. -/

set_option autoImplicit false

namespace Stencil.Evaluation

variable {α : Type} {A : Arithmetic α} {f : Func} {inputs : Inputs α} {order : List RegionId}

/-- The inputs have a value wherever the function reads a buffer. -/
def Covers (inputs : Inputs α) (f : Func) : Prop :=
  ∀ b x required, f.buffer? b = some x → x.required = .known required →
    ∃ g, inputs x.name = some g ∧ g.Dense ∧
      ∀ p, required.containsPoint p = true → g.domain.containsPoint p = true

def CallsKnown (f : Func) : Prop :=
  ∀ id r b, f.region? id = some r → b ∈ r.bodies → b.CallsKnown

/-- The regions of `done` have filled their boxes. -/
def Filled (f : Func) (done : List RegionId) (temps : List (TempId × Grid α)) : Prop :=
  ∀ id r d t, id ∈ done → f.region? id = some r → r.shape = .known d → t ∈ r.results →
    ∃ g, gridOf temps t = some g ∧ g.domain = d ∧ g.Dense

theorem exists_producer (hf : Inference.Analysed f order) {t : TempId} {x : Temporary}
    (hx : f.temp? t = some x) {box : Box} (h : box ∈ f.marksOn t ++ f.demandsOn (.temp t)) :
    ∃ r d, f.region? x.producer = some r ∧ t ∈ r.results ∧ r.shape = .known d ∧
      ∀ p, box.containsPoint p = true → d.containsPoint p = true := by
  obtain ⟨b, hb, hbox⟩ := Func.exists_temp_covering hf.sound hf.annotated hx h
  obtain ⟨r, d, hr, ht, hd, hcont⟩ := Func.exists_region_covering hf.sound hf.annotated hx hb
  have hranked := (Func.leastAbove_temp hf.sound hf.annotated hx hb).ranked
  refine ⟨r, d, hr, List.mem_of_getElem? ht, hd, ?_⟩
  intro p hp
  exact Box.containsPoint_of_contains (hf.annotated.ranked _ r d hr hd) hranked hcont
    (Box.containsPoint_of_contains hranked (Func.ranked_demands hf.sound hf.annotated h) hbox hp)

theorem exists_read (hf : Inference.Analysed f order) (hin : Covers inputs f)
    {done : List RegionId} {temps : List (TempId × Grid α)} (hfill : Filled f done temps)
    {id : RegionId} {r : Region} {d : Box} (hr : f.region? id = some r) (hd : r.shape = .known d)
    (hdone : ∀ p, p ∈ f.producers id → p ∈ done) {b : Body} {base : Box} (hrun : (b, base) ∈ r.runs d)
    {p : Point} (hp : base.containsPoint p = true) {s : Nat} {o : Offset} (ho : .access s o ∈ b.ops) :
    ∃ v, reader f inputs temps r s (List.zipWith (· + ·) p o) = .ok v := by
  obtain ⟨hbase, hbfit⟩ := Region.ranked_of_mem_runs (hf.sound.fits id r hr)
    (hf.annotated.ranked id r d hr hd) hrun
  obtain ⟨operand, hs, hlive⟩ := hf.sound.reads id r b s o hr (Region.mem_bodies_of_mem_runs hrun) ho
  have hbox : base.shifted o ∈ f.demandsOn operand := Func.mem_demandsOn.mpr ⟨id, r, hr,
    Region.mem_readsOf.mpr ⟨d, b, base, s, o, hd, hrun, ho, hs, rfl⟩⟩
  have hq := Box.containsPoint_shifted hbase (hbfit.ops _ ho).1 hp
  have hvalue :
      ∃ v, operandValue f inputs (gridOf temps) operand (List.zipWith (· + ·) p o) = some v := by
    cases operand with
    | temp t =>
      obtain ⟨x, hx⟩ := Option.isSome_iff_exists.mp hlive
      obtain ⟨r', d', hr', ht', hd', hsub⟩ := exists_producer hf hx (List.mem_append_right _ hbox)
      have hprod : x.producer ∈ f.producers id :=
        Func.mem_producers.mpr ⟨r, t, x, hr, List.mem_of_getElem? hs, hx, rfl⟩
      obtain ⟨g, hg, hdom, hdense⟩ := hfill _ r' d' t (hdone _ hprod) hr' hd' ht'
      obtain ⟨v, hv⟩ := hdense.exists_get? (by rw [hdom]; exact hsub _ hq)
      exact ⟨v, Option.bind_eq_some_iff.mpr ⟨g, hg, hv⟩⟩
    | buffer c =>
      obtain ⟨x, hx⟩ := Option.isSome_iff_exists.mp hlive
      obtain ⟨required, hreq, hranked, hcont⟩ :=
        Func.exists_buffer_covering hf.sound hf.annotated hx hbox
      obtain ⟨g, hg, hdense, hsub⟩ := hin c x required hx hreq
      have hin' := Box.containsPoint_of_contains hranked
        (Func.ranked_demandsOn hf.sound hf.annotated hbox) hcont hq
      obtain ⟨v, hv⟩ := hdense.exists_get? (hsub _ hin')
      refine ⟨v, ?_⟩
      simp only [operandValue, hx, Option.map_some, Option.getD_some]
      exact Option.bind_eq_some_iff.mpr ⟨g, hg, hv⟩
  obtain ⟨v, hv⟩ := hvalue
  exact ⟨v, reader_eq_ok_iff.mpr (readerOf_eq_ok_iff.mpr ⟨operand, hs, hv⟩)⟩

theorem Filled.skip {done : List RegionId} {temps : List (TempId × Grid α)} (h : Filled f done temps)
    {id : RegionId} (hnone : ∀ r d, f.region? id = some r → r.shape ≠ .known d) :
    Filled f (done ++ [id]) temps := by
  intro id' r d t hid hr hd ht
  rcases List.mem_append.mp hid with hid | hid
  · exact h id' r d t hid hr hd ht
  · rw [List.mem_singleton.mp hid] at hr
    exact absurd hd (hnone r d hr)

theorem Filled.put (hf : f.Sound) {done : List RegionId} {temps : List (TempId × Grid α)}
    (h : Filled f done temps) {id : RegionId} (hid : id ∉ done) {r : Region} {d : Box}
    (hr : f.region? id = some r) (hd : r.shape = .known d) {gs : List (Grid α)}
    (hlen : gs.length = r.results.length) (hgs : ∀ g, g ∈ gs → g.domain = d ∧ g.Dense) :
    Filled f (done ++ [id]) (putAll temps (r.results.zip gs)) := by
  intro id' r' d' t hid' hr' hd' ht
  rcases List.mem_append.mp hid' with hid' | hid'
  · obtain ⟨g, hg, hspec⟩ := h id' r' d' t hid' hr' hd' ht
    have hnot : t ∉ r.results := fun hm => hid (hf.owner_unique hr hr' hm ht ▸ hid')
    exact ⟨g, (lookup_putAll_of_not_mem hnot).trans hg, hspec⟩
  · rw [List.mem_singleton.mp hid', hr] at hr'
    cases hr'
    rw [hd] at hd'
    cases hd'
    obtain ⟨i, hi⟩ := List.mem_iff_getElem?.mp ht
    have hlt : i < gs.length := by
      rw [hlen]
      exact (List.getElem?_eq_some_iff.mp hi).1
    refine ⟨gs[i], ?_, hgs _ (List.getElem_mem hlt)⟩
    rw [← List.getElem?_eq_getElem hlt]
    exact lookup_putAll (hf.nodup_results hr) hlen hi

/-- A region whose producers have filled their boxes computes a grid for each result. -/
theorem Filled.regionGrids_exists (hf : Inference.Analysed f order) (hin : Covers inputs f)
    (hcalls : CallsKnown f) {done : List RegionId} {temps : List (TempId × Grid α)}
    (hfill : Filled f done temps) {id : RegionId} {r : Region} {d : Box} (hr : f.region? id = some r)
    (hd : r.shape = .known d) (hdone : ∀ p, p ∈ f.producers id → p ∈ done) :
    ∃ gs, regionGrids A (reader f inputs temps r) r d = .ok gs ∧ gs.length = r.results.length ∧
      ∀ g, g ∈ gs → g.domain = d ∧ g.Dense := by
  have hfit := hf.sound.fits id r hr
  have hranked := hf.annotated.ranked id r d hr hd
  have heval : ∀ b base, (b, base) ∈ r.runs d → ∀ p, base.containsPoint p = true →
      ∃ rs, b.eval A (reader f inputs temps r) p = .ok rs := by
    intro b base hrun p hp
    obtain ⟨hbase, hbfit⟩ := Region.ranked_of_mem_runs hfit hranked hrun
    apply Body.eval_exists hbfit ((Box.containsPoint_iff hbase).mp hp).1
      (hcalls id r b hr (Region.mem_bodies_of_mem_runs hrun))
    intro s o ho
    exact exists_read hf hin hfill hr hd hdone hrun hp ho
  apply Evaluation.regionGrids_exists hfit
  · intro p hp
    exact heval r.body _ (Region.mem_runs.mpr (.inl ⟨rfl, rfl⟩)) p
      (Region.mem_mainBox_of_mem hfit hranked hp)
  · intro e he p hp
    exact heval e _ (Region.mem_runs.mpr (.inr ⟨he, rfl⟩)) p
      (Region.mem_tailBox_of_mem hfit hranked hp)

theorem Filled.step (hf : Inference.Analysed f order) (hin : Covers inputs f) (hcalls : CallsKnown f)
    {done : List RegionId} {s : State α} (hfill : Filled f done s.temps) {id : RegionId}
    (hid : id ∉ done) (hdone : ∀ p, p ∈ f.producers id → p ∈ done) :
    ∃ s', runRegion A f inputs s id = .ok s' ∧ Filled f (done ++ [id]) s'.temps := by
  cases hr : f.region? id with
  | none =>
    refine ⟨s, by simp [runRegion, hr], hfill.skip ?_⟩
    intro r d hr'
    rw [hr] at hr'
    cases hr'
  | some r =>
    cases hs : r.shape with
    | unknown =>
      refine ⟨s, by simp [runRegion, hr, hs], hfill.skip ?_⟩
      intro r' d hr' hd
      rw [hr] at hr'
      cases hr'
      rw [hs] at hd
      cases hd
    | known d =>
      obtain ⟨gs, hgs, hlen, hspec⟩ := hfill.regionGrids_exists (A := A) hf hin hcalls hr hs hdone
      refine ⟨⟨putAll s.temps (r.results.zip gs), s.effects + regionEffects r d⟩, ?_, ?_⟩
      · rw [runRegion_of_known hr hs, hgs]
        rfl
      · exact hfill.put hf.sound hid hr hs hlen hspec

theorem filled_run (hf : Inference.Analysed f order) (hin : Covers inputs f) (hcalls : CallsKnown f) :
    ∃ s, order.foldlM (runRegion A f inputs) ⟨[], 0⟩ = .ok s ∧ Filled f order s.temps := by
  apply foldlM_exists_done (P := fun done (s : State α) => Filled f done s.temps)
  · intro done id todo hsplit s hfill
    have hid : id ∉ done := by
      intro hm
      have hnodup := hf.ordered.nodup
      rw [hsplit, List.nodup_append] at hnodup
      exact hnodup.2.2 id hm id (by simp) rfl
    exact hfill.step hf hin hcalls hid (hf.ordered.producers done id todo hsplit)
  · intro id r d t hid
    cases hid

theorem get?_outputGrid {temps : List (TempId × Grid α)} {x : Temporary} {o : OutputMark} {n : Nat}
    (ho : o.domain.Ranked n) {g : Grid α} (h : outputGrid f temps x o = .ok g) :
    g.domain = o.domain ∧ ∀ p, o.domain.containsPoint p = true →
      g.get? p = (gridOf temps o.temp).bind (·.get? p) := by
  obtain ⟨vs, hvs, rfl⟩ := outputGrid_eq_ok_iff.mp h
  refine ⟨rfl, ?_⟩
  intro p hp
  have hplace := congrArg (·[Grid.placeFrom 0 o.domain.ranges p]?) hvs
  simp only [List.getElem?_map, Box.getElem?_points_place ho hp, Option.map_some] at hplace
  rw [Grid.get?_of_mem hp]
  simp only [Grid.ofValues, List.getElem?_toArray]
  cases hv : vs[Grid.placeFrom 0 o.domain.ranges p]? with
  | none =>
    rw [hv] at hplace
    cases hplace
  | some v =>
    rw [hv] at hplace
    exact (Option.some.inj hplace).symm

theorem mem_putEntry {κ β : Type} [DecidableEq κ] {entries : List (κ × β)} {key : κ} {value : β}
    {e : κ × β} : e ∈ putEntry entries key value ↔ (e ∈ entries ∧ e.1 ≠ key) ∨ e = (key, value) := by
  simp [putEntry]

/-- The output grid `g` belongs to a mark of the function and holds its values. -/
def OfMark (f : Func) (temps : List (TempId × Grid α)) (name : String) (g : Grid α) : Prop :=
  ∃ o x, o ∈ f.outputs ∧ f.temp? o.temp = some x ∧ x.name = name ∧ g.domain = o.domain ∧
    ∀ p, o.domain.containsPoint p = true → g.get? p = (gridOf temps o.temp).bind (·.get? p)

/-- The outputs collected for `marks`: all of them belong to a mark, and every mark has one. -/
structure Collected (f : Func) (temps : List (TempId × Grid α)) (marks : List OutputMark)
    (outs : List (String × Grid α)) : Prop where
  ofMark : ∀ name g, (name, g) ∈ outs → OfMark f temps name g
  named : ∀ o, o ∈ marks → ∃ x g, f.temp? o.temp = some x ∧ (x.name, g) ∈ outs

theorem Collected.put {temps : List (TempId × Grid α)} {marks : List OutputMark}
    {outs : List (String × Grid α)} (h : Collected f temps marks outs) {o : OutputMark} {x : Temporary}
    {g : Grid α} (hx : f.temp? o.temp = some x) (hg : OfMark f temps x.name g) :
    Collected f temps (marks ++ [o]) (putEntry outs x.name g) where
  ofMark := by
    intro name g' hm
    rcases mem_putEntry.mp hm with ⟨hm, _⟩ | hm
    · exact h.ofMark name g' hm
    · cases hm
      exact hg
  named := by
    intro o' ho'
    -- a temporary that is marked twice keeps the grid of its last mark
    rcases List.mem_append.mp ho' with ho' | ho'
    · obtain ⟨x', g', hx', hg'⟩ := h.named o' ho'
      by_cases hname : x'.name = x.name
      · exact ⟨x', g, hx', mem_putEntry.mpr (.inr (by rw [hname]))⟩
      · exact ⟨x', g', hx', mem_putEntry.mpr (.inl ⟨hg', hname⟩)⟩
    · rw [List.mem_singleton.mp ho']
      exact ⟨x, g, hx, mem_putEntry.mpr (.inr rfl)⟩

theorem outputGrid_exists {temps : List (TempId × Grid α)} {x : Temporary} {o : OutputMark} {n : Nat}
    (ho : o.domain.Ranked n) (hgrid : ∀ p, o.domain.containsPoint p = true →
      ∃ v, (gridOf temps o.temp).bind (·.get? p) = some v) :
    ∃ g, outputGrid f temps x o = .ok g := by
  have hneed : ∀ p, p ∈ o.domain.points →
      ∃ v, Body.need ((gridOf temps o.temp).bind (·.get? p)) = .ok v ∧ True := by
    intro p hp
    obtain ⟨v, hv⟩ := hgrid p ((Box.mem_points ho).mp hp)
    exact ⟨v, Body.need_eq_ok_iff.mpr hv, trivial⟩
  obtain ⟨vs, hvs, _⟩ := mapM_exists (P := fun _ => True) hneed
  exact ⟨_, outputGrid_eq_ok_iff.mpr ⟨vs, Body.mapM_need_eq_ok_iff.mp hvs, rfl⟩⟩

theorem collectOutputs_exists (hf : f.Sound) {temps : List (TempId × Grid α)}
    (hgrid : ∀ o, o ∈ f.outputs → ∀ p, o.domain.containsPoint p = true →
      ∃ v, (gridOf temps o.temp).bind (·.get? p) = some v) :
    ∃ outs, collectOutputs f temps = .ok outs ∧ Collected f temps f.outputs outs := by
  apply foldlM_exists_done (P := Collected f temps)
  · intro done o rest hsplit outs hdone
    have ho : o ∈ f.outputs := by simp [hsplit]
    obtain ⟨⟨x, hx⟩, hranked⟩ := hf.outputs o ho
    obtain ⟨g, hg⟩ := outputGrid_exists (f := f) (x := x) hranked (hgrid o ho)
    obtain ⟨hdom, hvals⟩ := get?_outputGrid hranked hg
    refine ⟨putEntry outs x.name g, ?_, hdone.put hx ⟨o, x, ho, hx, rfl, hdom, hvals⟩⟩
    simp only [hx, hg, ok_bind]
    rfl
  · exact ⟨by simp, by simp⟩

/-- With shapes as inference leaves them, evaluation cannot fail. -/
theorem run_exists (hf : Inference.Analysed f order) (hin : Covers inputs f) (hcalls : CallsKnown f) :
    ∃ e : Evaluation α, run A f inputs = .ok e ∧
      Collected f e.temps f.outputs e.outputs ∧
      ∀ o, o ∈ f.outputs → ∀ p, o.domain.containsPoint p = true →
        ∃ v, (gridOf e.temps o.temp).bind (·.get? p) = some v := by
  obtain ⟨s, hs, hfill⟩ := filled_run (A := A) hf hin hcalls
  have hgrid : ∀ o, o ∈ f.outputs → ∀ p, o.domain.containsPoint p = true →
      ∃ v, (gridOf s.temps o.temp).bind (·.get? p) = some v := by
    intro o ho p hp
    obtain ⟨⟨x, hx⟩, _⟩ := hf.sound.outputs o ho
    obtain ⟨r, d, hr, ht, hd, hsub⟩ := exists_producer hf hx
      (List.mem_append_left _ (Func.mem_marksOn.mpr ⟨o, ho, rfl, rfl⟩))
    obtain ⟨g, hg, hdom, hdense⟩ := hfill _ r d _ (hf.ordered.mem_iff.mpr ⟨r, hr⟩) hr hd ht
    obtain ⟨v, hv⟩ := hdense.exists_get? (by rw [hdom]; exact hsub p hp)
    exact ⟨v, Option.bind_eq_some_iff.mpr ⟨g, hg, hv⟩⟩
  obtain ⟨outs, houts, hcollected⟩ := collectOutputs_exists hf.sound hgrid
  exact ⟨⟨outs, s.temps, s.effects⟩, (run_eq_ok_iff hf).mpr ⟨s, hs, rfl, rfl, houts⟩, hcollected, hgrid⟩

theorem CallsKnown.of_sameStructure {g : Func} (h : f.SameStructure g) (hf : CallsKnown f) :
    CallsKnown g := by
  intro id r b hr hb
  obtain ⟨r', s, hr', rfl⟩ := h.exists_region hr
  exact hf id r' b hr' hb

/-- Shapes are sound: when inference succeeds on a function, its certificate passes, every region
and box fits the rank, and on all inputs that cover the boxes required of the buffers evaluation
succeeds, with a value at every point of every marked domain. -/
theorem inferred_shapes_sound {f : Func} {report : Inference.Report}
    (h : (Inference.run f).outcome = .ok report) :
    report.certificate = ⟨[("S1_accesses_sound", true), ("S2_outputs_covered", true),
      ("S3_producers_cover", true)]⟩ ∧
    (∀ id r, (Inference.run f).func.region? id = some r →
      r.Fits f.rank ∧ ∀ d, r.shape = .known d → d.Ranked f.rank) ∧
    ∀ (α : Type) (A : Arithmetic α) (inputs : Inputs α),
      Covers inputs (Inference.run f).func → CallsKnown f →
      ∃ e : Evaluation α, run A (Inference.run f).func inputs = .ok e ∧
        (∀ o, o ∈ f.outputs → ∃ x g, f.temp? o.temp = some x ∧ (x.name, g) ∈ e.outputs) ∧
        ∀ name g, (name, g) ∈ e.outputs → ∃ o x, o ∈ f.outputs ∧ f.temp? o.temp = some x ∧
          x.name = name ∧ g.domain = o.domain ∧ ∀ p, o.domain.containsPoint p = true →
            ∃ v, g.get? p = some v ∧ (gridOf e.temps o.temp).bind (·.get? p) = some v := by
  obtain ⟨hsame, order, hf⟩ := Inference.analysed_run h
  obtain ⟨_, _, _, _, hcert⟩ := Inference.run_ok h
  refine ⟨?_, ?_, ?_⟩
  · rw [hcert]
    exact Func.certificate_eq hf.sound hf.annotated
  · intro id r hr
    rw [hsame.rank_eq]
    exact ⟨hf.sound.fits id r hr, fun d hd => hf.annotated.ranked id r d hr hd⟩
  · intro α A inputs hin hcalls
    obtain ⟨e, he, hcollected, hvals⟩ := run_exists (A := A) hf hin (hcalls.of_sameStructure hsame)
    rw [← hsame.outputs_eq] at hcollected hvals
    refine ⟨e, he, ?_, ?_⟩
    · intro o ho
      obtain ⟨x, g, hx, hg⟩ := hcollected.named o ho
      obtain ⟨x', s, hx', rfl⟩ := hsame.exists_temp hx
      exact ⟨x', g, hx', hg⟩
    · intro name g hg
      obtain ⟨o, x, ho, hx, hname, hdom, hget⟩ := hcollected.ofMark name g hg
      rw [← hsame.outputs_eq] at ho
      obtain ⟨x', s, hx', rfl⟩ := hsame.exists_temp hx
      refine ⟨o, x', ho, hx', hname, hdom, ?_⟩
      intro p hp
      obtain ⟨v, hv⟩ := hvals o ho p hp
      exact ⟨v, (hget p hp).trans hv, hv⟩

instance (f : Func) : Decidable (CallsKnown f) :=
  decidable_of_iff ((f.liveRegions.all fun r => r.2.bodies.all fun b => b.ops.all fun op =>
    match op with
    | .call callee args _ => (Builtin.find? callee args.length).isSome
    | _ => true) = true) (by
      simp only [List.all_eq_true]
      constructor
      · intro h id r b hr hb callee args isPure hop
        exact h (id, r) (Func.mem_liveRegions.mpr hr) b hb _ hop
      · rintro h ⟨id, r⟩ hr b hb op hop
        cases op with
        | call callee args isPure =>
          exact h id r b (Func.mem_liveRegions.mp hr) hb callee args isPure hop
        | access s o => rfl
        | index d o => rfl
        | constant c => rfl
        | unary f a => rfl
        | binary f l r => rfl)

theorem covers_fill {name : String} {elem : ElemType} {domain : Option Box} {box : Box}
    (h : f.buffers = [⟨name, elem, domain, .known box⟩]) (v : α) :
    Covers (fun _ => some (Grid.fill box v)) f := by
  intro b x required hx hreq
  rw [Func.buffer?, h] at hx
  have hmem := List.mem_of_getElem? hx
  rw [List.mem_singleton] at hmem
  subst hmem
  cases hreq
  exact ⟨_, rfl, Grid.dense_fill _ _, fun p hp => hp⟩

/-- A region that reads two neighbours of a buffer, and an unrolled one that pads its last group. -/
def padded : Func where
  name := "padded"
  rank := 1
  buffers := [⟨"a", .f64, none, .unknown⟩]
  temps := [some ⟨"s", .f64, 0, 0, .unknown⟩, some ⟨"t", .f64, 1, 0, .unknown⟩]
  regions :=
    [some ⟨"sum", [.buffer 0], .ofOps [.access 0 [-1], .access 0 [1], .binary .add 0 1] [2], none, [0],
     .unknown⟩, some ⟨"neg", [.temp 0], ⟨[.access 0 [0], .unary .neg 0, .access 0 [1], .unary .neg 2],
       ⟨[1, 3], some ⟨0, 2⟩⟩⟩, none, [1], .unknown⟩]
  outputs := [⟨1, ⟨[0], [3]⟩⟩]
  stamp := none

theorem inferred_shapes_sound_padded : ∃ report, (Inference.run padded).outcome = .ok report ∧
    report.certificate.allPass = true ∧
    Covers (fun _ => some (Grid.fill ⟨[-1], [5]⟩ (0 : Float))) (Inference.run padded).func ∧
    CallsKnown padded ∧
    ∃ e, run .double (Inference.run padded).func (fun _ => some (Grid.fill ⟨[-1], [5]⟩ 0)) = .ok e ∧
      ∃ g, ("t", g) ∈ e.outputs ∧ ∃ v, g.get? [2] = some v := by
  obtain ⟨report, hok⟩ : ∃ report, (Inference.run padded).outcome = .ok report := ⟨_, rfl⟩
  have hin : Covers (fun _ => some (Grid.fill ⟨[-1], [5]⟩ (0 : Float))) (Inference.run padded).func :=
    covers_fill rfl 0
  have hcalls : CallsKnown padded := by decide
  obtain ⟨hcert, _, heval⟩ := inferred_shapes_sound hok
  obtain ⟨e, he, hnames, hmarks⟩ := heval Float .double _ hin hcalls
  obtain ⟨x, g, hx, hg⟩ := hnames ⟨1, ⟨[0], [3]⟩⟩ (by decide)
  cases hx
  obtain ⟨o, x, ho, _, _, _, hvals⟩ := hmarks _ g hg
  cases List.mem_singleton.mp ho
  obtain ⟨v, hv, _⟩ := hvals [2] (by decide)
  exact ⟨report, hok, by rw [hcert]; rfl, hin, hcalls, e, he, g, hg, v, hv⟩

end Stencil.Evaluation
