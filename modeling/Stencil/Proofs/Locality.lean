import Stencil.Proofs.Numbering

/-! Unrolling is local. What becomes of a region is decided by the region as the function has it
before the run, whatever is done to the others, so a run is described region by region: which are
unrolled and which are rejected, what an unrolled region keeps, and that all else stays as it is. -/

set_option autoImplicit false

namespace Stencil.Unrolling

open Inlining (regionName)

/-- What a report has to say about the regions `ids` of a function. -/
structure Accounts (options : Options) (f : Func) (ids : List RegionId) (report : Report) : Prop where
  /-- The selected regions are listed as unrolled or as rejected. -/
  selected : (report.unrolled ++ report.rejected.map (·.1)).Perm
    (ids.filter fun id => selects options (regionName f id))
  unrolled : ∀ id, id ∈ report.unrolled → ∃ r divisible, f.region? id = some r ∧
    check options f.rank r = .ok divisible
  rejected : ∀ id reason, (id, reason) ∈ report.rejected → ∃ r, f.region? id = some r ∧
    check options f.rank r = .error reason
  /-- There is a warning for every rejection. -/
  warned : report.diagnostics = report.rejected.map fun x => skipDiagnostic x.1 (regionName f x.1) x.2

section Accounts

variable {W : Words Id} {options : Options} {f : Func} {ids : List RegionId} {report : Report}

theorem Accounts.nodup (h : Accounts options f ids report) (hids : ids.Nodup) :
    (report.unrolled ++ report.rejected.map (·.1)).Nodup := h.selected.nodup_iff.mpr (hids.filter _)

theorem Accounts.of_perm (h : Accounts options f ids report) {ids' : List RegionId}
    (hperm : ids.Perm ids') :
    Accounts options f ids' report :=
  ⟨h.selected.trans (hperm.filter _), h.unrolled, h.rejected, h.warned⟩

/-- What a run says about a region is about the region as the function has it, provided that it has
not been unrolled before. -/
theorem Accounts.step_snd (h : Accounts options f ids report) {g : Func} {id : RegionId} {r : Region}
    (hr : f.region? id = some r) (hg : g.region? id = some r) (hrank : g.rank = f.rank) :
    Accounts options f (ids ++ [id]) (stepIn W options (g, report) id).2 := by
  have hname := regionName_of_region? hr
  cases hsel : selects options r.name with
  | false =>
    rw [stepIn_of_not_selected hg hsel]
    refine ⟨?_, h.unrolled, h.rejected, h.warned⟩
    simpa [List.filter_append, hname, hsel] using h.selected
  | true =>
    have hall : (ids ++ [id]).filter (fun id => selects options (regionName f id)) =
        (ids.filter fun id => selects options (regionName f id)) ++ [id] := by
      simp [List.filter_append, hname, hsel]
    cases hcheck : check options f.rank r with
    | ok divisible =>
      rw [stepIn_of_check_ok hg hsel (hrank ▸ hcheck)]
      refine ⟨?_, ?_, h.rejected, h.warned⟩
      · rw [hall, List.append_assoc]
        exact (List.perm_append_comm.append_left _).trans
          ((List.append_assoc _ _ _).symm ▸ h.selected.append_right [id])
      · intro id' hid
        rcases List.mem_append.mp hid with hid | hid
        · exact h.unrolled id' hid
        · cases List.mem_singleton.mp hid
          exact ⟨r, divisible, hr, hcheck⟩
    | error reason =>
      rw [stepIn_of_check_error hg hsel (hrank ▸ hcheck)]
      refine ⟨?_, h.unrolled, ?_, ?_⟩
      · rw [hall, List.map_append, ← List.append_assoc]
        exact h.selected.append_right [id]
      · intro id' reason' hid
        rcases List.mem_append.mp hid with hid | hid
        · exact h.rejected id' reason' hid
        · cases List.mem_singleton.mp hid
          exact ⟨r, hr, hcheck⟩
      · simp [h.warned, hname]

theorem Accounts.mem_unrolled (h : Accounts options f ids report) {id : RegionId} (hid : id ∈ ids)
    {r : Region}
    (hr : f.region? id = some r) (hsel : selects options r.name = true) {divisible : Bool}
    (hcheck : check options f.rank r = .ok divisible) : id ∈ report.unrolled := by
  have hmem : id ∈ report.unrolled ++ report.rejected.map (·.1) := by
    rw [h.selected.mem_iff, List.mem_filter, regionName_of_region? hr]
    exact ⟨hid, hsel⟩
  rcases List.mem_append.mp hmem with hmem | hmem
  · exact hmem
  · obtain ⟨⟨_, reason⟩, hrej, rfl⟩ := List.mem_map.mp hmem
    obtain ⟨r', hr', hcheck'⟩ := h.rejected _ reason hrej
    rw [hr] at hr'
    cases hr'
    rw [hcheck] at hcheck'
    cases hcheck'

theorem Accounts.selects_of_mem_unrolled (h : Accounts options f ids report) {id : RegionId}
    (hid : id ∈ report.unrolled) : selects options (regionName f id) = true := by
  have hmem := h.selected.mem_iff.mp (List.mem_append_left _ hid)
  exact (List.mem_filter.mp hmem).2

theorem Accounts.loop_snd {rest : List RegionId} (h : Accounts options f ids report) (hrest : rest.Nodup)
    {g : Func} (hrank : g.rank = f.rank)
    (hlive : ∀ id, id ∈ rest → ∃ r, f.region? id = some r ∧ g.region? id = some r) :
    Accounts options f (ids ++ rest) (rest.foldlM (stepIn W options) (g, report)).2 := by
  induction rest generalizing ids report g with
  | nil =>
    rw [List.append_nil]
    exact h
  | cons id rest ih =>
    obtain ⟨hid, hrest⟩ := List.nodup_cons.mp hrest
    obtain ⟨r, hr, hg⟩ := hlive id List.mem_cons_self
    have hother := step_region? W options g report id
    rw [List.foldlM_cons, List.append_cons]
    refine ih (g := (stepIn W options (g, report) id).1) (h.step_snd hr hg hrank) hrest
      ((hother id).1.trans hrank) ?_
    intro id' hid'
    obtain ⟨r', hr', hg'⟩ := hlive id' (List.mem_cons_of_mem _ hid')
    refine ⟨r', hr', ?_⟩
    rw [(hother id').2, if_neg (fun he : id = id' => hid (he ▸ hid')), hg']

end Accounts

/-- What unrolling the regions `ids` does to a function. -/
structure Rewrites (W : Words Id) (options : Options) (f : Func) (ids : List RegionId) (g : Func) :
    Prop where
  /-- Only regions and the stamp are written. -/
  frame : g = { f with regions := g.regions, stamp := g.stamp }
  places : g.regions.length = f.regions.length
  other : ∀ id, id ∉ ids → g.regions[id]? = f.regions[id]?
  /-- An unrolled region keeps all but its bodies: its body is replicated, and kept for what is left
  over. -/
  unrolled : ∀ id, id ∈ ids → ∃ r d, f.region? id = some r ∧ r.shape = .known d ∧
    g.region? id = some { r with
      body := W.replicate r.body options.axis options.factor
      epilogue := if (options.factor : Int) ∣ d.extent options.axis then none else some r.body }
  obligations : ∀ o, o ≠ .accessRank → g.meets o = true
  idle : ids = [] → g = f
  stale : ids ≠ [] → g.fresh = false

theorem regions_getElem?_eq {f g : Func} (hlen : g.regions.length = f.regions.length) {id : RegionId}
    (h : g.region? id = f.region? id) : g.regions[id]? = f.regions[id]? := by
  by_cases hid : id < f.regions.length
  · have hid' : id < g.regions.length := hlen ▸ hid
    simpa [Func.region?, List.getElem?_eq_getElem hid, List.getElem?_eq_getElem hid'] using h
  · have hid := Nat.not_lt.mp hid
    rw [List.getElem?_eq_none hid, List.getElem?_eq_none (hlen ▸ hid)]

theorem length_regions_run (W : Words Id) (options : Options) (f : Func) :
    (runIn W options f).1.regions.length = f.regions.length := by
  refine run_induction (Q := fun g => g.regions.length = f.regions.length) ?_ (fun h => h) rfl
  intro g k id hk hg
  obtain ⟨_, _, _, _, rfl⟩ := unrollRegionIn_eq_ok hk
  rw [← hg, Func.modifyRegion, List.length_modify]

section Analysed

variable {W : Words Id} {f : Func} {order : List RegionId} (hf : Inference.Analysed f order)
    {options : Options}
include hf

theorem unrolled_region?_run {id : RegionId} {r : Region} {divisible : Bool} (hr : f.region? id = some r)
    (hsel : selects options r.name = true) (hcheck : check options f.rank r = .ok divisible) :
    ∃ d, r.shape = .known d ∧ (runIn W options f).1.region? id = some { r with
      body := W.replicate r.body options.axis options.factor
      epilogue := if (options.factor : Int) ∣ d.extent options.axis then none else some r.body } := by
  obtain ⟨d, U⟩ := unrollable_of_check (hf.sound.fits id r hr) (fun d hd =>
    ⟨hf.annotated.ranked id r d hr hd, Func.canonical_region hf.sound hf.annotated hr hd⟩) hcheck
  refine ⟨d, U.shape, ?_⟩
  rw [region?_run hf, hr, Option.map_some, afterRun, if_pos hsel, hcheck]
  simp only [unrolledIn_eq, U.epilogue, U.divides, Int.dvd_iff_emod_eq_zero]

theorem region?_run_of_not_unrolled {id : RegionId} (h : ∀ r divisible, f.region? id = some r →
    selects options r.name = true → check options f.rank r ≠ .ok divisible) :
    (runIn W options f).1.region? id = f.region? id := by
  rw [region?_run hf]
  cases hr : f.region? id with
  | none => rfl
  | some r =>
    rw [Option.map_some, afterRun]
    split
    · next hsel =>
      cases hcheck : check options f.rank r with
      | ok divisible => exact absurd hcheck (h r divisible hr hsel)
      | error reason => rfl
    · rfl

theorem exists_report_run (W : Words Id) (options : Options) :
    ∃ report, (runIn W options f).2 = .ok report ∧
    Accounts options f f.regionIds report ∧
    (runIn W options f).1.stamp = if report.changed then none else f.stamp := by
  have hstamp : (order.foldlM (stepIn W options) (f, {})).1.stamp = f.stamp := by
    refine loop_induction (Q := fun g => g.stamp = f.stamp) ?_ rfl {} order
    intro g k id hk hg
    obtain ⟨_, _, _, _, rfl⟩ := unrollRegionIn_eq_ok hk
    exact hg
  have hlive : ∀ id, id ∈ order → ∃ r, f.region? id = some r ∧ f.region? id = some r := by
    intro id hid
    obtain ⟨r, hr⟩ := hf.ordered.mem_iff.mp hid
    exact ⟨r, hr, hr⟩
  have hstart : Accounts options f [] {} := ⟨.refl _, by simp, by simp, rfl⟩
  have hreport := (hstart.loop_snd (W := W) hf.ordered.nodup rfl hlive).of_perm hf.ordered.perm
  rw [run_of_fresh W options hf.fresh hf.order_eq rfl]
  refine ⟨_, rfl, hreport, ?_⟩
  simp only
  split
  · rfl
  · exact hstamp

theorem Accounts.rewrites_run (hW : W.Bounded) {report : Report}
    (h : Accounts options f f.regionIds report)
    (hclosed : f.Closed)
    (hstamp : (runIn W options f).1.stamp = if report.changed then none else f.stamp) :
    Rewrites W options f report.unrolled (runIn W options f).1 := by
  obtain ⟨regions, stamp, hframe⟩ := run_frame (W := W) options f
  have hframe' : (runIn W options f).1 =
      { f with regions := (runIn W options f).1.regions, stamp := (runIn W options f).1.stamp } := by
    simp only [hframe]
  have hplaces := length_regions_run W options f
  have hother : ∀ id, id ∉ report.unrolled → (runIn W options f).1.regions[id]? = f.regions[id]? := by
    intro id hid
    apply regions_getElem?_eq hplaces
    apply region?_run_of_not_unrolled hf
    intro r divisible hr hsel hcheck
    exact hid (h.mem_unrolled (Func.mem_regionIds.mpr ⟨r, hr⟩) hr hsel hcheck)
  have hsound := sound_run hW hf.sound hf.annotated options
  refine ⟨hframe', hplaces, hother, ?_, ?_, ?_, ?_⟩
  · intro id hid
    obtain ⟨r, divisible, hr, hcheck⟩ := h.unrolled id hid
    have hsel := h.selects_of_mem_unrolled hid
    rw [regionName_of_region? hr] at hsel
    obtain ⟨d, hd, hg⟩ := unrolled_region?_run hf hr hsel hcheck
    exact ⟨r, d, hr, hd, hg⟩
  · intro o ho
    by_cases hop : o = .operandsClosed
    · exact hop ▸ hsound.meets_operandsClosed_iff.mpr (closed_run hf hclosed options)
    · exact hsound.meets_of_ne ho hop
  · intro hnil
    have hregions : (runIn W options f).1.regions = f.regions := by
      apply List.ext_getElem?
      intro id
      exact hother id (by simp [hnil])
    rw [hframe', hregions, hstamp]
    simp [Report.changed, hnil]
  · intro hne
    rw [Func.fresh, hstamp]
    simp [Report.changed, hne]

end Analysed

/-- Unrolling is a local rewrite. On freshly inferred annotations it succeeds, whether its values
are numbered exactly or in words of 32 bits that wrap around. Every region that the options select
is reported once, as unrolled or as rejected, and a rejection comes with a warning and its reason.
Nothing but the bodies of the unrolled regions changes, besides the stamp, which stays if and only
if no region is unrolled; and the function meets all obligations but the one about the range of
coordinates. Where an overflow of 32 bits is trapped the run does the same as with words that wrap
around, unless it traps; on regions whose copies have at most 2³² operations it does not, and its
numbers are exact. -/
theorem unrolling_is_local {f₀ f : Func} (hf : Inference.Infers f₀ f) (options : Options) :
    (∀ W : Words Id, W = .exact ∨ W = .wrapping →
      ∃ g report, runIn W options f = (g, .ok report) ∧ Accounts options f f.regionIds report ∧
        (report.unrolled ++ report.rejected.map (·.1)).Nodup ∧
        (∀ d, d ∈ report.diagnostics → d.code.map Code.text = some "W0301") ∧
        Rewrites W options f report.unrolled g) ∧
      (runIn .checked options f = none ∨ runIn .checked options f = some (runIn .wrapping options f)) ∧
      ((∀ id r, f.region? id = some r → options.factor * r.body.ops.length ≤ 4294967296) →
        runIn .checked options f = some (run options f)) := by
  obtain ⟨_, order, hfa⟩ := hf.analysed
  refine ⟨?_, checked_run options f, checked_run_eq hfa.sound⟩
  intro W hW
  have hbounded : W.Bounded := by
    rcases hW with rfl | rfl
    · exact Words.bounded_exact
    · exact Words.bounded_wrapping
  obtain ⟨report, hok, hreport, hstamp⟩ := exists_report_run hfa W options
  refine ⟨(runIn W options f).1, report, Prod.ext rfl hok, hreport, hreport.nodup f.nodup_regionIds, ?_,
    hreport.rewrites_run hfa hbounded (Func.verified_iff.mp hf.verified).2.1 hstamp⟩
  intro d hd
  rw [hreport.warned] at hd
  obtain ⟨x, _, rfl⟩ := List.mem_map.mp hd
  rfl

/-- Copies of a buffer over boxes of three, one and four points. -/
def apart : Func where
  name := "apart"
  rank := 1
  buffers := [⟨"a", .f64, none, .unknown⟩]
  temps :=
    [some ⟨"x", .f64, 0, 0, .unknown⟩, some ⟨"y", .f64, 1, 0, .unknown⟩, some ⟨"z", .f64, 2, 0, .unknown⟩]
  regions :=
    [some ⟨"three", [.buffer 0], .ofOps [.access 0 [0]] [0], none, [0], .unknown⟩,
     some ⟨"one", [.buffer 0], .ofOps [.access 0 [0]] [0], none, [1], .unknown⟩,
     some ⟨"four", [.buffer 0], .ofOps [.access 0 [0]] [0], none, [2], .unknown⟩]
  outputs := [⟨0, ⟨[0], [3]⟩⟩, ⟨1, ⟨[0], [1]⟩⟩, ⟨2, ⟨[0], [4]⟩⟩]
  stamp := none

/-- Of two selected regions one is unrolled with an epilogue and one is too small; the third is not
looked at. With a trap at every overflow the run is the same. -/
theorem unrolling_is_local_apart : ∃ f g report, Inference.Infers apart f ∧
    run { remainder := .epilogue, regions := ["three", "one"] } f = (g, .ok report) ∧
    runIn .checked { remainder := .epilogue, regions := ["three", "one"] } f = some (g, .ok report) ∧
    report.unrolled = [0] ∧ report.rejected = [(1, .extentTooSmall 0 1 2)] ∧
      report.diagnostics.length = 1 ∧
    g.regions[1]? = f.regions[1]? ∧ g.regions[2]? = f.regions[2]? ∧ g.temps = f.temps ∧
    (∃ r r', f.region? 0 = some r ∧ g.region? 0 = some r' ∧ r'.epilogue = some r.body ∧
      r'.shape = r.shape) ∧
    g.meets .returnArity = true ∧ g.fresh = false := by
  have hf : Inference.Infers apart (Inference.run apart).func := ⟨_, rfl, rfl⟩
  obtain ⟨hsame, order, hfa⟩ := hf.analysed
  obtain ⟨hlocal, _, hchecked⟩ :=
    unrolling_is_local hf { remainder := .epilogue, regions := ["three", "one"] }
  obtain ⟨g, report, hrun, hreport, _, _, hrw⟩ := hlocal .exact (.inl rfl)
  have hone : ∀ id r, apart.region? id = some r → r.body.ops.length = 1 := by
    intro id r hr
    rcases id with _ | _ | _ | id <;> cases hr <;> rfl
  have hsmall : ∀ id r, (Inference.run apart).func.region? id = some r →
      2 * r.body.ops.length ≤ 4294967296 := by
    intro id r hr
    obtain ⟨r', s, hr', rfl⟩ := hsame.exists_region hr
    show 2 * r'.body.ops.length ≤ 4294967296
    rw [hone id r' hr']
    decide
  -- the stamp is not computed: that it is fresh is known of every inferred function
  have hfold :=
    run_of_fresh .exact { remainder := .epilogue, regions := ["three", "one"] } hfa.fresh (by rfl) rfl
  rw [hrun] at hfold
  obtain ⟨_, hok⟩ := Prod.mk.inj hfold
  have hunrolled : report.unrolled = [0] := congrArg Report.unrolled (Except.ok.inj hok)
  have hrejected : report.rejected = [(1, .extentTooSmall 0 1 2)] :=
    congrArg Report.rejected (Except.ok.inj hok)
  refine ⟨_, g, report, hf, hrun, (hchecked hsmall).trans (congrArg some hrun), hunrolled, hrejected,
    by simp [hreport.warned, hrejected], hrw.other 1 (by simp [hunrolled]),
    hrw.other 2 (by simp [hunrolled]),
    by rw [hrw.frame], ?_, hrw.obligations _ (by decide), hrw.stale (by simp [hunrolled])⟩
  obtain ⟨r, d, hr, hd, hg⟩ := hrw.unrolled 0 (by simp [hunrolled])
  refine ⟨r, _, hr, hg, ?_, rfl⟩
  cases hr
  cases hd
  decide

end Stencil.Unrolling
