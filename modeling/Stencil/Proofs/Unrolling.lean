import Stencil.Proofs.Refinement
import Stencil.Proofs.Soundness
import Stencil.Proofs.Tiling
import Stencil.Unrolling

/-! Unrolling refines, and what it makes refines back: a region that computes its points in groups
reads the same boxes, computes the same grids and has the same effects. -/

set_option autoImplicit false

namespace Stencil.Unrolling

theorem unrolledIn_eq (W : Words Id) (options : Options) (divisible : Bool) (r : Region) :
    unrolledIn W options divisible r = { r with
      body := W.replicate r.body options.axis options.factor
      epilogue := if divisible then r.epilogue else some r.body } := rfl

theorem unroll_unrolledIn (W : Words Id) (options : Options) (divisible : Bool) (r : Region) :
    (unrolledIn W options divisible r).unroll = some ⟨options.axis, options.factor⟩ := rfl

/-- A region that the options unroll over its box `d`; `divisible` says whether the groups fill it. -/
structure Unrollable (options : Options) (n : Nat) (r : Region) (d : Box) (divisible : Bool) : Prop where
  fits : r.Fits n
  factor : 2 ≤ options.factor
  axis : options.axis < n
  unroll : r.unroll = none
  epilogue : r.epilogue = none
  shape : r.shape = .known d
  ranked : d.Ranked n
  canonical : d.Canonical
  extent : options.factor ≤ d.extent options.axis
  divides : divisible = true ↔ d.extent options.axis % options.factor = 0

theorem plain_of_check {options : Options} {n : Nat} {r : Region} {divisible : Bool}
    (h : check options n r = .ok divisible) : r.unroll = none ∧ r.epilogue = none := by
  unfold check at h
  split at h
  · cases h
  · split at h
    · cases h
    · split at h
      · cases h
      · next hplain => simpa using hplain

theorem unrollable_of_check {options : Options} {n : Nat} {r : Region} {divisible : Bool}
    (hfit : r.Fits n) (hr : ∀ d, r.shape = .known d → d.Ranked n ∧ d.Canonical)
    (h : check options n r = .ok divisible) : ∃ d, Unrollable options n r d divisible := by
  unfold check at h
  split at h
  · cases h
  · next hfactor =>
    split at h
    · cases h
    · next haxis =>
      split at h
      · cases h
      · next hplain =>
        simp only [Bool.or_eq_true, not_or, Bool.not_eq_true, Option.isSome_eq_false_iff,
          Option.isNone_iff_eq_none] at hplain
        cases hs : r.shape with
        | unknown => simp [hs] at h
        | known d =>
          simp only [hs] at h
          obtain ⟨hranked, hcan⟩ := hr d hs
          have hbase : ∀ b : Bool, ¬ d.extent options.axis < options.factor →
              (b = true ↔ d.extent options.axis % options.factor = 0) →
              ∃ d, Unrollable options n r d b :=
            fun b hext hdiv => ⟨d, hfit, by omega, by omega, hplain.1, hplain.2, hs, hranked, hcan,
              by omega, hdiv⟩
          split at h
          · cases h
          · next hext =>
            split at h
            · next hdiv =>
              cases h
              exact hbase true hext (by simp [hdiv])
            · next hdiv =>
              split at h
              · cases h
              · cases h
                exact hbase false hext (by simp [hdiv])

section Unrollable

variable {options : Options} {n : Nat} {r : Region} {d : Box} {divisible : Bool}
  (U : Unrollable options n r d divisible)

include U

theorem Unrollable.nonempty : d.isEmpty = false := by
  cases he : d.isEmpty with
  | false => rfl
  | true =>
    have hext := U.extent
    have hfactor := U.factor
    rw [Box.extent_eq U.ranked U.axis, U.canonical he, Box.empty] at hext
    simp at hext
    omega

theorem Unrollable.tiled :
    d.Tiled n options.axis options.factor (d.extent options.axis / options.factor) := by
  have hk : (0 : Int) < options.factor := by have := U.factor; omega
  have hext := (Box.extent_of_nonempty U.ranked U.nonempty U.axis).1
  refine ⟨U.ranked, U.nonempty, U.axis, by omega, ?_, ?_⟩
  · have hext' := U.extent
    have hone := (Int.le_ediv_iff_mul_le (a := 1) (b := d.extent options.axis) hk).mpr (by omega)
    omega
  · rw [← hext]
    exact Int.ediv_mul_le _ (by omega)

theorem Unrollable.plan : (unrolled options divisible r).iterationPlan d =
    { main := some (d.bases options.axis options.factor (d.extent options.axis / options.factor))
      axis := options.axis
      step := options.factor
      tail := if divisible then none
        else some (d.rest options.axis options.factor (d.extent options.axis / options.factor)) } := by
  have hk : 0 < options.factor := by have := U.factor; omega
  have hext := (Box.extent_of_nonempty U.ranked U.nonempty U.axis).1
  have hm := U.tiled.groups_pos
  obtain ⟨m, hm', hplan⟩ := Region.iterationPlan_of_unroll (r := unrolled options divisible r)
    (u := ⟨options.axis, options.factor⟩) U.nonempty rfl hk
  cases divisible with
  | true =>
    have hepi : (unrolled options true r).epilogue.isSome = false := by
      simp [unrolledIn_eq, U.epilogue]
    have hdiv := Region.groupsUp_mul_of_dvd hk (U.divides.mp rfl)
    have hgroups : m = d.extent options.axis / options.factor := by
      rw [hepi] at hm'
      rw [hm', ← Int.mul_ediv_cancel (Region.groupsUp _ _) (by omega : (options.factor : Int) ≠ 0), hdiv]
      rfl
    rw [hplan, hgroups, hepi, if_pos hm]
    rfl
  | false =>
    have hepi : (unrolled options false r).epilogue.isSome = true := rfl
    have hgroups : m = d.extent options.axis / options.factor := hm'
    have hmod : d.extent options.axis % options.factor ≠ 0 := fun h => by
      have := U.divides.mpr h
      cases this
    have hrest : coord d.lb options.axis + d.extent options.axis / options.factor * options.factor <
        coord d.ub options.axis := by
      have hdiv := Int.mul_ediv_add_emod (d.extent options.axis) options.factor
      have hpos := Int.emod_nonneg (d.extent options.axis) (by omega : (options.factor : Int) ≠ 0)
      rw [Int.mul_comm] at hdiv
      omega
    rw [hplan, hgroups, hepi, if_pos hm]
    simp only [hrest, Bool.true_and, decide_true, if_true]
    rfl

theorem Unrollable.rest_isEmpty (h : divisible = true) :
    (d.rest options.axis options.factor (d.extent options.axis / options.factor)).isEmpty = true := by
  have hdiv := Int.mul_ediv_add_emod (d.extent options.axis) options.factor
  rw [U.divides.mp h, Int.mul_comm] at hdiv
  rw [U.tiled.rest_isEmpty_iff, ← (Box.extent_of_nonempty U.ranked U.nonempty U.axis).1]
  omega

theorem Unrollable.mainPoints : (unrolled options divisible r).mainPoints d =
    (d.bases options.axis options.factor (d.extent options.axis / options.factor)).pointsWithStep
      options.axis options.factor := by
  rw [Region.mainPoints, U.plan]
  rfl

theorem Unrollable.tailPoints : (unrolled options divisible r).tailPoints d =
    (d.rest options.axis options.factor (d.extent options.axis / options.factor)).points := by
  rw [Region.tailPoints, U.plan]
  cases divisible with
  | true =>
    rw [Box.points_eq_nil U.tiled.ranked_rest (U.rest_isEmpty rfl)]
    rfl
  | false => rfl

theorem Unrollable.mem_runs {b : Body} {base : Box} :
    (b, base) ∈ (unrolled options divisible r).runs d ↔
      (b = r.body.replicate options.axis options.factor ∧
        base = d.bases options.axis options.factor (d.extent options.axis / options.factor)) ∨
      (divisible = false ∧ b = r.body ∧
        base = d.rest options.axis options.factor (d.extent options.axis / options.factor)) := by
  rw [Region.mem_runs, Region.mainBox, Region.tailBox, U.plan]
  cases divisible with
  | true => simp [unrolledIn_eq, U.epilogue]
  | false => simp [unrolledIn_eq, eq_comm]

theorem Unrollable.arity : r.body.ret.values.length = r.results.length := by
  have harity := U.fits.arity
  have hfactor : r.body.ret.factor = 1 := by
    have hu : r.body.ret.unroll = none := U.unroll
    simp [Return.factor, hu]
  rw [harity, hfactor, Nat.mul_one]

theorem Unrollable.fits_unrolled {W : Words Id} (hW : W.Bounded) :
    (unrolledIn W options divisible r).Fits n := by
  refine ⟨hW.fits_replicate U.fits.body, ?_, ?_, ?_⟩
  · intro e he
    cases divisible with
    | true => simp [unrolledIn_eq, U.epilogue] at he
    | false =>
      cases he
      exact ⟨U.fits.body, U.unroll, U.arity, rfl⟩
  · intro u hu
    cases hu
    exact ⟨U.axis, Nat.lt_of_lt_of_le Nat.zero_lt_two U.factor⟩
  · show (W.replicate r.body options.axis options.factor).ret.values.length =
      r.results.length * options.factor
    rw [Words.length_replicate_values, U.arity]

theorem Unrollable.exists_access {W : Words Id} {b : Body} {s : Nat} {o : Offset}
    (hb : b ∈ (unrolledIn W options divisible r).bodies) (ho : .access s o ∈ b.ops) :
    ∃ o', .access s o' ∈ r.body.ops := by
  simp only [Region.bodies, List.mem_cons, Option.mem_toList] at hb
  rcases hb with rfl | hb
  · obtain ⟨_, _, o', ho', _⟩ := Words.access_mem_replicate.mp ho
    exact ⟨o', ho'⟩
  · cases divisible with
    | true => simp [unrolledIn_eq, U.epilogue] at hb
    | false =>
      cases hb
      exact ⟨o, ho⟩

theorem Unrollable.mem_readsOf {o : Operand} {box : Box} : box ∈ r.readsOf o ↔
    ∃ s q, .access s q ∈ r.body.ops ∧ r.operands[s]? = some o ∧ box = d.shifted q := by
  rw [Region.mem_readsOf]
  constructor
  · rintro ⟨d', b, base, s, q, hd', hrun, hq, hs, rfl⟩
    rw [U.shape] at hd'
    cases hd'
    rcases Region.mem_runs.mp hrun with ⟨rfl, rfl⟩ | ⟨he, _⟩
    · exact ⟨s, q, hq, hs, by rw [Region.mainBox_of_none U.canonical U.unroll]⟩
    · rw [U.epilogue] at he
      cases he
  · rintro ⟨s, q, hq, hs, rfl⟩
    refine ⟨d, r.body, d, s, q, U.shape, Region.mem_runs.mpr (.inl ⟨rfl, ?_⟩), hq, hs, rfl⟩
    rw [Region.mainBox_of_none U.canonical U.unroll]

theorem Unrollable.mem_readsOf_unrolled {o : Operand} {box : Box} :
    box ∈ (unrolled options divisible r).readsOf o ↔
      ∃ s q, .access s q ∈ r.body.ops ∧ r.operands[s]? = some o ∧
        ((∃ i, i < options.factor ∧
          box = (d.bases options.axis options.factor (d.extent options.axis / options.factor)).shifted
            (q.compose (Offset.shiftedAlong (Offset.zeros n) options.axis i))) ∨
        (divisible = false ∧
          box = (d.rest options.axis options.factor (d.extent options.axis / options.factor)).shifted
            q)) := by
  have hlen : ∀ s q, .access s q ∈ r.body.ops → q.length = n := fun s q hq => (U.fits.body.ops _ hq).1
  rw [Region.mem_readsOf]
  constructor
  · rintro ⟨d', b, base, s, q, hd', hrun, hq, hs, rfl⟩
    have hd : r.shape = .known d' := hd'
    rw [U.shape] at hd
    cases hd
    rcases U.mem_runs.mp hrun with ⟨rfl, rfl⟩ | ⟨hdiv, rfl, rfl⟩
    · obtain ⟨i, hi, q', hq', rfl⟩ := Words.access_mem_replicate.mp hq
      exact ⟨s, q', hq', hs, .inl ⟨i, hi, by rw [hlen s q' hq']⟩⟩
    · exact ⟨s, q, hq, hs, .inr ⟨hdiv, rfl⟩⟩
  · rintro ⟨s, q, hq, hs, ⟨i, hi, rfl⟩ | ⟨hdiv, rfl⟩⟩
    · refine ⟨d, _, _, s, _, U.shape, U.mem_runs.mpr (.inl ⟨rfl, rfl⟩), ?_, hs, rfl⟩
      exact Words.access_mem_replicate.mpr ⟨i, hi, q, hq, by rw [hlen s q hq]⟩
    · exact ⟨d, _, _, s, q, U.shape, U.mem_runs.mpr (.inr ⟨hdiv, rfl, rfl⟩), hq, hs, rfl⟩

/-- A box holds what the unrolled region reads of an operand when it holds what the region reads. -/
theorem Unrollable.reads_within_iff {o : Operand} {c : Box} (hc : c.Ranked n) :
    (∀ box, box ∈ (unrolled options divisible r).readsOf o → c.contains box = true) ↔
      ∀ box, box ∈ r.readsOf o → c.contains box = true := by
  have htile : ∀ s q, .access s q ∈ r.body.ops → _ := fun s q hq =>
    U.tiled.contains_shifted_iff hc (U.fits.body.ops _ hq).1
  constructor
  · intro h box hbox
    obtain ⟨s, q, hq, hs, rfl⟩ := U.mem_readsOf.mp hbox
    refine (htile s q hq).mpr ⟨?_, ?_⟩
    · intro i hi
      exact h _ (U.mem_readsOf_unrolled.mpr ⟨s, q, hq, hs, .inl ⟨i, hi, rfl⟩⟩)
    · cases hdiv : divisible with
      | false =>
        subst hdiv
        exact h _ (U.mem_readsOf_unrolled.mpr ⟨s, q, hq, hs, .inr ⟨rfl, rfl⟩⟩)
      | true =>
        have hranked := U.tiled.ranked_rest
        have ho : q.length = n := (U.fits.body.ops _ hq).1
        rw [Box.contains_iff hc (Box.ranked_shifted hranked ho), Box.isEmpty_shifted hranked ho,
          U.rest_isEmpty hdiv]
        intro hne
        cases hne
  · intro h box hbox
    obtain ⟨s, q, hq, hs, hbox⟩ := U.mem_readsOf_unrolled.mp hbox
    obtain ⟨hgroups, hrest⟩ := (htile s q hq).mp (h _ (U.mem_readsOf.mpr ⟨s, q, hq, hs, rfl⟩))
    rcases hbox with ⟨i, hi, rfl⟩ | ⟨_, rfl⟩
    · exact hgroups i hi
    · exact hrest

theorem Unrollable.readsOf_eq_nil_iff {o : Operand} :
    (unrolled options divisible r).readsOf o = [] ↔ r.readsOf o = [] := by
  have hk := U.factor
  rw [List.eq_nil_iff_forall_not_mem, List.eq_nil_iff_forall_not_mem]
  constructor
  · intro h box hbox
    obtain ⟨s, q, hq, hs, _⟩ := U.mem_readsOf.mp hbox
    exact h _ (U.mem_readsOf_unrolled.mpr ⟨s, q, hq, hs, .inl ⟨0, by omega, rfl⟩⟩)
  · intro h box hbox
    obtain ⟨s, q, hq, hs, _⟩ := U.mem_readsOf_unrolled.mp hbox
    exact h _ (U.mem_readsOf.mpr ⟨s, q, hq, hs, rfl⟩)

theorem Unrollable.computedDomain_unrolled : (unrolled options divisible r).computedDomain d = d := by
  cases divisible with
  | false => exact Region.computedDomain_of_not_padded (.inr rfl) d
  | true =>
    have hk : 0 < options.factor := by have := U.factor; omega
    have hne := U.nonempty
    have hdiv := Region.groupsUp_mul_of_dvd hk (U.divides.mp rfl)
    have hext := (Box.extent_of_nonempty U.ranked hne U.axis).1
    rw [hext] at hdiv
    have hub : coord d.lb options.axis + (coord d.ub options.axis - coord d.lb options.axis) =
        coord d.ub options.axis := by omega
    have hepi : (unrolled options true r).epilogue = none := U.epilogue
    have hunroll : (unrolled options true r).unroll = some ⟨options.axis, options.factor⟩ := rfl
    have hself : d.withAxis options.axis (coord d.lb options.axis) (coord d.ub options.axis) = d :=
      Box.withAxis_self U.ranked
    rw [Region.computedDomain_def]
    rw [hunroll, hepi]
    simp only [hne, Bool.not_false, Bool.true_and, hext, hdiv]
    split
    · exact (congrArg (d.withAxis options.axis (coord d.lb options.axis)) hub).trans hself
    · rfl

theorem Unrollable.effects_unrolled :
    Evaluation.regionEffects (unrolled options divisible r) d = Evaluation.regionEffects r d := by
  have hcount := U.tiled.length_points
  have hbody : (unrolled options divisible r).body.effects = options.factor * r.body.effects :=
    Body.effects_replicate r.body options.axis options.factor
  rw [Evaluation.regionEffects, Evaluation.regionEffects, U.mainPoints, U.tailPoints, hbody,
    Region.mainPoints_of_none U.ranked U.unroll, ← hcount, U.epilogue]
  cases divisible with
  | true =>
    rw [Box.points_eq_nil U.tiled.ranked_rest (U.rest_isEmpty rfl)]
    simp only [List.length_nil, Nat.mul_zero, Nat.add_zero, Option.elim_none, Nat.zero_mul]
    rw [Nat.mul_comm options.factor, Nat.mul_assoc, Nat.mul_comm options.factor]
  | false =>
    have hepi : (unrolled options false r).epilogue = some r.body := rfl
    simp only [hepi, Option.elim_some, Option.elim_none, Nat.zero_mul, Nat.add_zero, Nat.mul_add]
    rw [Nat.mul_comm options.factor, Nat.mul_assoc, Nat.mul_comm options.factor]

variable {α : Type} {A : Arithmetic α} {read : Body.Reader α}

/-- The unrolled region has values where the body has them, point by point. -/
theorem Unrollable.grids_unrolled
    (h : ∀ p, d.containsPoint p = true → ∃ rs, r.body.eval A read p = .ok rs) :
    Evaluation.regionGrids A read (unrolled options divisible r) d =
      .ok (r.results.mapIdx fun j _ => Grid.ofFn d (Evaluation.valueAt A read r.body j)) := by
  have hvalue : ∀ p rs j, r.body.eval A read p = .ok rs → j < r.results.length →
      rs[j]? = some (Evaluation.valueAt A read r.body j p) :=
    fun p rs j hrs hj => Evaluation.getElem?_eq_valueAt hrs (by rw [U.arity]; exact hj)
  have haxis : ((unrolled options divisible r).iterationPlan d).axis = options.axis := by rw [U.plan]
  apply Evaluation.regionGrids_eq_ofFn (r := unrolled options divisible r) U.ranked
  · intro p hp
    rw [U.mainPoints] at hp
    obtain ⟨rs, hrs⟩ := Body.exists_eval_replicate fun i hi => h _ (U.tiled.containsPoint_ahead hp hi)
    refine ⟨rs, hrs, ?_⟩
    intro j hj i hi
    obtain ⟨vs, hvs, hsame⟩ := Body.eval_of_eval_replicate hrs hi
    rw [haxis]
    exact (hsame j).trans (hvalue _ vs j hvs hj)
  · intro e he p hp
    rw [U.tailPoints, Box.mem_points U.tiled.ranked_rest] at hp
    have hbody : e = r.body := by
      cases divisible with
      | true => simp [unrolledIn_eq, U.epilogue] at he
      | false => exact (Option.some.inj he).symm
    subst hbody
    obtain ⟨rs, hrs⟩ := h p (U.tiled.containsPoint_iff.mpr (.inr hp))
    exact ⟨rs, hrs, fun j hj => hvalue p rs j hrs hj⟩
  · intro q hq
    rw [haxis, U.mainPoints, U.tailPoints, Box.mem_points U.tiled.ranked_rest]
    rcases U.tiled.containsPoint_iff.mp hq with hmain | hrest
    · exact .inl hmain
    · right
      cases hdiv : divisible with
      | false => exact ⟨rfl, hrest⟩
      | true =>
        -- nothing stands in an empty box
        have hnil := Box.points_eq_nil U.tiled.ranked_rest (U.rest_isEmpty hdiv)
        rw [← Box.mem_points U.tiled.ranked_rest, hnil] at hrest
        cases hrest

theorem Unrollable.eval_of_grids {gs : List (Grid α)}
    (h : Evaluation.regionGrids A read (unrolled options divisible r) d = .ok gs) {q : Point}
    (hq : d.containsPoint q = true) : ∃ rs, r.body.eval A read q = .ok rs := by
  obtain ⟨hmain, htail⟩ := Evaluation.eval_of_regionGrids h
  rw [U.mainPoints] at hmain
  rw [U.tailPoints] at htail
  rcases U.tiled.containsPoint_iff.mp hq with hgroup | hrest
  · obtain ⟨p, hp, i, hi, rfl⟩ := Evaluation.mem_written.mp hgroup
    obtain ⟨rs, hrs⟩ := hmain p hp
    obtain ⟨vs, hvs, _⟩ := Body.eval_of_eval_replicate hrs hi
    exact ⟨vs, hvs⟩
  · rw [← Box.mem_points U.tiled.ranked_rest] at hrest
    cases hdiv : divisible with
    | false =>
      subst hdiv
      exact htail r.body rfl q hrest
    | true =>
      rw [Box.points_eq_nil U.tiled.ranked_rest (U.rest_isEmpty hdiv)] at hrest
      cases hrest

omit α A read in
theorem Unrollable.sameWork : Evaluation.SameWork r (unrolled options divisible r) := by
  refine ⟨rfl, rfl, rfl, ?_, ?_⟩
  · intro d' hd'
    rw [U.shape] at hd'
    cases hd'
    exact U.effects_unrolled
  · intro α A read d' gs hd'
    rw [U.shape] at hd'
    cases hd'
    rw [Evaluation.regionGrids_of_none U.fits U.ranked U.unroll]
    constructor
    · intro h
      have hall := fun p hp => U.eval_of_grids h (q := p) hp
      rw [U.grids_unrolled hall] at h
      exact ⟨hall, (Except.ok.inj h).symm⟩
    · rintro ⟨hall, rfl⟩
      exact U.grids_unrolled hall

end Unrollable

theorem forall_demandsOn_modify {f : Func} {id : RegionId} {r : Region} (hr : f.region? id = some r)
    {F : Region → Region} {o : Operand} {P : Box → Prop}
    (h : (∀ box, box ∈ (F r).readsOf o → P box) ↔ ∀ box, box ∈ r.readsOf o → P box) :
    (∀ box, box ∈ (f.modifyRegion id F).demandsOn o → P box) ↔ ∀ box, box ∈ f.demandsOn o → P box := by
  simp only [Func.mem_demandsOn]
  constructor
  · rintro hall box ⟨id', r', hr', hbox⟩
    by_cases he : id' = id
    · subst he
      rw [hr] at hr'
      cases hr'
      refine h.mp (fun box hbox => hall box ⟨id', F r, ?_, hbox⟩) box hbox
      exact Func.region?_modifyRegion_self hr F
    · exact hall box ⟨id', r', by rw [Func.region?_modifyRegion_of_ne f he]; exact hr', hbox⟩
  · rintro hall box ⟨id', r', hr', hbox⟩
    obtain ⟨rfl, rfl⟩ | ⟨_, hr'⟩ := Func.region_cases_modifyRegion hr hr'
    · exact h.mpr (fun box hbox => hall box ⟨id', r, hr, hbox⟩) box hbox
    · exact hall box ⟨id', r', hr', hbox⟩

section Region

variable {options : Options} {f : Func} {id : RegionId} {r : Region} {d : Box} {divisible : Bool}
  (U : Unrollable options f.rank r d divisible) (hr : f.region? id = some r)

include U hr

theorem Unrollable.sound_modify {W : Words Id} (hW : W.Bounded) (hf : f.Sound) :
    (f.modifyRegion id (unrolledIn W options divisible)).Sound := by
  refine ⟨?_, ?_, ?_, hf.outputs, ?_⟩
  · intro id' r' hr'
    obtain ⟨rfl, rfl⟩ | ⟨_, hr'⟩ := Func.region_cases_modifyRegion hr hr'
    · exact U.fits_unrolled hW
    · exact hf.fits id' r' hr'
  · intro id' r' i t hr' ht
    obtain ⟨rfl, rfl⟩ | ⟨_, hr'⟩ := Func.region_cases_modifyRegion hr hr'
    · exact hf.owned id' r i t hr ht
    · exact hf.owned id' r' i t hr' ht
  · intro t x hx
    obtain ⟨r', hr', ht⟩ := hf.produced t x hx
    by_cases hid : x.producer = id
    · rw [hid, hr] at hr'
      cases hr'
      refine ⟨unrolledIn W options divisible r, ?_, ht⟩
      rw [hid, Func.region?_modifyRegion_self hr]
    · exact ⟨r', by rw [Func.region?_modifyRegion_of_ne f hid, hr'], ht⟩
  · intro id' r' b s o hr' hb ho
    obtain ⟨rfl, rfl⟩ | ⟨_, hr'⟩ := Func.region_cases_modifyRegion hr hr'
    · obtain ⟨o', ho'⟩ := U.exists_access hb ho
      exact hf.reads id' r r.body s o' hr (by simp [Region.bodies]) ho'
    · exact hf.reads id' r' b s o hr' hb ho

theorem Unrollable.sameWork_region (id' : RegionId) :
    (f.region? id' = none ∧ (f.modifyRegion id (unrolled options divisible)).region? id' = none) ∨
      ∃ r₁ r₂, f.region? id' = some r₁ ∧
        (f.modifyRegion id (unrolled options divisible)).region? id' = some r₂ ∧
        Evaluation.SameWork r₁ r₂ := by
  by_cases he : id' = id
  · subst he
    exact .inr ⟨r, _, hr, Func.region?_modifyRegion_self hr _, U.sameWork⟩
  · rw [Func.region?_modifyRegion_of_ne f he]
    cases hr' : f.region? id' with
    | none => exact .inl ⟨rfl, rfl⟩
    | some r' => exact .inr ⟨r', r', rfl, rfl, Evaluation.SameWork.refl r'⟩

theorem Unrollable.hull_modify (hf : f.Sound) (ha : f.Annotated) (marks : List Box)
    (hmarks : ∀ box, box ∈ marks → box.Ranked f.rank) (o : Operand) :
    Shape.hull (marks ++ (f.modifyRegion id (unrolled options divisible)).demandsOn o) =
      Shape.hull (marks ++ f.demandsOn o) := by
  have hg := U.sound_modify hr Words.bounded_exact hf
  have hranked : ∀ id' r' d', (f.modifyRegion id (unrolled options divisible)).region? id' = some r' →
      r'.shape = .known d' → d'.Ranked f.rank := by
    intro id' r' d' hr' hd'
    obtain ⟨rfl, rfl⟩ | ⟨_, hr'⟩ := Func.region_cases_modifyRegion hr hr'
    · exact ha.ranked id' r d' hr hd'
    · exact ha.ranked id' r' d' hr' hd'
  apply Shape.hull_congr (n := f.rank)
  · intro box hbox
    rcases List.mem_append.mp hbox with hbox | hbox
    · exact hmarks box hbox
    · obtain ⟨id', r', hr', hbox⟩ := Func.mem_demandsOn.mp hbox
      exact Region.ranked_readsOf (hg.fits id' r' hr') (fun d' hd' => hranked id' r' d' hr' hd') hbox
  · intro box hbox
    rcases List.mem_append.mp hbox with hbox | hbox
    · exact hmarks box hbox
    · exact Func.ranked_demandsOn hf ha hbox
  · have hnil := forall_demandsOn_modify (F := unrolled options divisible) hr (o := o)
      (P := fun _ => False) (by simpa [← List.eq_nil_iff_forall_not_mem] using U.readsOf_eq_nil_iff)
    have hnone : (f.modifyRegion id (unrolled options divisible)).demandsOn o = [] ↔
        f.demandsOn o = [] := by
      rw [List.eq_nil_iff_forall_not_mem, List.eq_nil_iff_forall_not_mem]
      exact hnil
    rw [List.append_eq_nil_iff, List.append_eq_nil_iff, hnone]
  · intro c hc
    have hwithin := forall_demandsOn_modify (F := unrolled options divisible) hr (o := o)
      (U.reads_within_iff hc)
    simp only [List.mem_append, or_imp, forall_and]
    exact and_congr_right fun _ => hwithin

theorem Unrollable.annotated_modify (hf : f.Sound) (ha : f.Annotated) :
    (f.modifyRegion id (unrolled options divisible)).Annotated := by
  refine ⟨?_, ?_, ?_, ?_⟩
  · intro t x hx
    rw [ha.temp t x hx]
    exact (U.hull_modify hr hf ha (f.marksOn t) (fun box => Func.ranked_marksOn hf) (.temp t)).symm
  · intro b x hx
    rw [ha.buffer b x hx]
    exact (U.hull_modify hr hf ha [] (by simp) (.buffer b)).symm
  · intro id' r' hr'
    obtain ⟨rfl, rfl⟩ | ⟨_, hr'⟩ := Func.region_cases_modifyRegion hr hr'
    · have hdemand : Inference.demand f r = .known d := by
        have hshape := ha.region id' r hr
        rw [U.shape] at hshape
        cases hd : Inference.demand f r with
        | unknown => simp [hd, Region.computedShape] at hshape
        | known b =>
          rw [hd, Region.computedShape, Region.computedDomain_of_not_padded (.inl U.unroll)] at hshape
          exact hshape.symm
      have hsame : Inference.demand (f.modifyRegion id' (unrolled options divisible))
          (unrolled options divisible r) = Inference.demand f r := Func.demand_congr rfl fun _ _ => rfl
      rw [hsame, hdemand, Region.computedShape, U.computedDomain_unrolled]
      exact U.shape
    · rw [ha.region id' r' hr']
      exact congrArg r'.computedShape (Func.demand_congr rfl fun _ _ => rfl)
  · intro id' r' d' hr' hd'
    obtain ⟨rfl, rfl⟩ | ⟨_, hr'⟩ := Func.region_cases_modifyRegion hr hr'
    · exact ha.ranked id' r d' hr hd'
    · exact ha.ranked id' r' d' hr' hd'

theorem Unrollable.equivalent_modify (hf : f.Sound) (ha : f.Annotated) :
    Evaluation.Equivalent f (f.modifyRegion id (unrolled options divisible)) := by
  have hlen : (f.modifyRegion id (unrolled options divisible)).regions.length = f.regions.length := by
    simp [Func.modifyRegion]
  have hwork := U.sameWork_region hr
  constructor
  · exact Evaluation.refines_of_sameWork (U.sound_modify hr Words.bounded_exact hf)
      (U.annotated_modify hr hf ha) rfl hlen
      (fun _ => rfl) (fun _ => rfl) hwork
  · apply Evaluation.refines_of_sameWork (f := f.modifyRegion id (unrolled options divisible)) hf ha rfl
      hlen.symm (fun _ => rfl) (fun _ => rfl)
    intro id'
    obtain ⟨hnone, hnone'⟩ | ⟨r₁, r₂, hr₁, hr₂, hsame⟩ := hwork id'
    · exact .inl ⟨hnone', hnone⟩
    · exact .inr ⟨r₂, r₁, hr₂, hr₁, hsame.symm⟩

end Region

section Run

variable {W : Words Id} {options : Options}

theorem unrollRegionIn_eq_ok {f g : Func} {id : RegionId} (h : unrollRegionIn W options f id = .ok g) :
    ∃ r divisible, f.region? id = some r ∧ check options f.rank r = .ok divisible ∧
      g = f.modifyRegion id (unrolledIn W options divisible) := by
  unfold unrollRegionIn at h
  cases hr : f.region? id with
  | none => cases hr ▸ h
  | some r =>
    simp only [hr] at h
    cases hcheck : check options f.rank r with
    | error reason => cases hcheck ▸ h
    | ok divisible =>
      simp only [hcheck] at h
      cases h
      exact ⟨r, divisible, rfl, hcheck, Func.modifyRegion_const hr _⟩

theorem regionName_of_region? {f : Func} {id : RegionId} {r : Region} (h : f.region? id = some r) :
    Inlining.regionName f id = r.name := by
  simp [Inlining.regionName, h]

section Step

variable {f : Func} {report : Report} {id : RegionId} {r : Region} (hr : f.region? id = some r)
include hr

theorem stepIn_of_not_selected (hsel : selects options r.name = false) :
    stepIn W options (f, report) id = (f, report) := by
  simp [stepIn, regionName_of_region? hr, hsel]
  rfl

theorem stepIn_of_check_ok (hsel : selects options r.name = true) {divisible : Bool}
    (hcheck : check options f.rank r = .ok divisible) :
    stepIn W options (f, report) id = (f.modifyRegion id (unrolledIn W options divisible),
      { report with unrolled := report.unrolled ++ [id] }) := by
  rw [← Func.modifyRegion_const hr]
  simp [stepIn, regionName_of_region? hr, hsel, unrollRegionIn, hr, hcheck]
  rfl

theorem stepIn_of_check_error (hsel : selects options r.name = true) {reason : Rejection}
    (hcheck : check options f.rank r = .error reason) :
    stepIn W options (f, report) id = (f, { report with
      rejected := report.rejected ++ [(id, reason)]
      diagnostics := report.diagnostics ++ [skipDiagnostic id r.name reason] }) := by
  simp [stepIn, regionName_of_region? hr, hsel, unrollRegionIn, hr, hcheck]
  rfl

end Step

theorem loop_eq (s : Func × Report) (ids : List RegionId) :
    ids.foldlM (stepIn W options) s = ids.foldl (stepIn W options) s := List.idRun_foldlM

/-- What every unrolled region keeps is kept by the loop over the regions. -/
theorem loop_induction {Q : Func → Prop}
    (hstep : ∀ {f g id}, unrollRegionIn W options f id = .ok g → Q f → Q g)
    {f : Func} (hq : Q f) (report : Report) (ids : List RegionId) :
    Q (ids.foldlM (stepIn W options) (f, report)).1 := by
  induction ids generalizing f report with
  | nil => exact hq
  | cons id ids ih =>
    have hone : Q (stepIn W options (f, report) id).1 := by
      unfold stepIn
      simp only
      split
      · cases hu : unrollRegionIn W options f id with
        | error reason => exact hq
        | ok g => exact hstep hu hq
      · exact hq
    rw [List.foldlM_cons]
    exact ih hone _

theorem run_induction {Q : Func → Prop}
    (hstep : ∀ {f g id}, unrollRegionIn W options f id = .ok g → Q f → Q g)
    (hstamp : ∀ {f}, Q f → Q f.invalidate) {f : Func} (hq : Q f) : Q (runIn W options f).1 := by
  unfold runIn
  cases f.ensureFresh "unrolling" with
  | error e => exact hq
  | ok u =>
    cases f.order with
    | error e => exact hq
    | ok order =>
      have hfold := loop_induction hstep hq {} order
      simp only [unrollAllIn]
      generalize order.foldlM (stepIn W options) (f, {}) = state at hfold ⊢
      obtain ⟨g, report⟩ := state
      show Q (if report.changed then g.invalidate else g)
      split
      · exact hstamp hfold
      · exact hfold

theorem run_of_fresh (W : Words Id) (options : Options) {f : Func} (h : f.fresh = true)
    {order : List RegionId} (ho : f.order = .ok order) {g : Func} {report : Report}
    (hfold : order.foldlM (stepIn W options) (f, {}) = (g, report)) :
    runIn W options f = (if report.changed then g.invalidate else g, .ok report) := by
  simp only [runIn, unrollAllIn, Func.ensureFresh, h, if_true, ho, hfold]
  rfl

end Run

theorem sound_run {W : Words Id} (hW : W.Bounded) {f : Func} (hf : f.Sound) (ha : f.Annotated)
    (options : Options) :
    (runIn W options f).1.Sound := by
  refine (run_induction (Q := fun g => g.Sound ∧ ∀ id r d, g.region? id = some r → r.shape = .known d →
    d.Ranked g.rank ∧ d.Canonical) ?_ ?_ ⟨hf, ?_⟩).1
  · rintro g k id hk ⟨hg, hshape⟩
    obtain ⟨r, divisible, hr, hcheck, rfl⟩ := unrollRegionIn_eq_ok hk
    obtain ⟨d, U⟩ := unrollable_of_check (hg.fits id r hr) (fun d hd => hshape id r d hr hd) hcheck
    refine ⟨U.sound_modify hr hW hg, ?_⟩
    intro id' r' d' hr' hd'
    obtain ⟨rfl, rfl⟩ | ⟨_, hr'⟩ := Func.region_cases_modifyRegion hr hr'
    · exact hshape id' r d' hr hd'
    · exact hshape id' r' d' hr' hd'
  · rintro g ⟨hg, hshape⟩
    exact ⟨hg.of_sameStructure (Func.sameStructure_invalidate g), hshape⟩
  · intro id r d hr hd
    exact ⟨ha.ranked id r d hr hd, Func.canonical_region hf ha hr hd⟩

theorem equivalent_run {f : Func} (hf : f.Sound) (ha : f.Annotated) (options : Options) :
    Evaluation.Equivalent f (run options f).1 := by
  refine run_induction ?_ ?_ (Evaluation.Equivalent.refl hf ha)
  · intro g k id hk h
    obtain ⟨r, divisible, hr, hcheck, rfl⟩ := unrollRegionIn_eq_ok hk
    obtain ⟨d, U⟩ := unrollable_of_check (h.1.sound.fits id r hr)
      (fun d hd => ⟨h.1.annotated.ranked id r d hr hd,
        Func.canonical_region h.1.sound h.1.annotated hr hd⟩) hcheck
    exact h.trans (U.equivalent_modify hr h.1.sound h.1.annotated)
  · intro g h
    exact h.trans (Evaluation.equivalent_invalidate h.1.sound h.1.annotated)

/-- Unrolling keeps what a function computes: every annotation stays as it was, and the unrolled
function has a value just where the function has one, with the same grids, outputs and effects. -/
theorem unrolling_preserves_evaluation {f₀ f g : Func} (options : Options)
    (hf : Inference.Infers f₀ f) (hg : Inference.Infers (run options f).1 g) :
    (∀ t, (g.temp? t).map (·.shape) = (f.temp? t).map (·.shape)) ∧
    (∀ id, (g.region? id).map (·.shape) = (f.region? id).map (·.shape)) ∧
    (∀ b, (g.buffer? b).map (·.required) = (f.buffer? b).map (·.required)) ∧
    ∀ (α : Type) (A : Arithmetic α) (inputs : Evaluation.Inputs α),
      ((∃ e, Evaluation.run A g inputs = .ok e) ↔ ∃ e, Evaluation.run A f inputs = .ok e) ∧
      ∀ e e' : Evaluation α, Evaluation.run A f inputs = .ok e → Evaluation.run A g inputs = .ok e' →
        (∀ t, Evaluation.gridOf e'.temps t = Evaluation.gridOf e.temps t) ∧
        e'.outputs = e.outputs ∧ e'.effects = e.effects := by
  obtain ⟨_, _, hfa⟩ := hf.analysed
  obtain ⟨_, _, hga⟩ := hg.analysed
  have hrun := equivalent_run hfa.sound hfa.annotated options
  have heqv := hrun.trans (Evaluation.equivalent_of_infers hrun.1.sound hrun.1.annotated hg)
  refine ⟨fun t => by rw [heqv.temp?_eq], heqv.shape_region?, fun b => by rw [heqv.1.buffer], ?_⟩
  intro α A inputs
  refine ⟨⟨?_, ?_⟩, ?_⟩
  · rintro ⟨e, he⟩
    obtain ⟨e', he', _⟩ := heqv.2.run hga hfa he
    exact ⟨e', he'⟩
  · rintro ⟨e, he⟩
    obtain ⟨e', he', _⟩ := heqv.1.run hfa hga he
    exact ⟨e', he'⟩
  · intro e e' he he'
    obtain ⟨e'', he'', hgrid, hrest⟩ := heqv.1.run hfa hga he
    rw [he'] at he''
    cases he''
    refine ⟨?_, hrest⟩
    intro t
    rw [hgrid]
    exact heqv.gridOf_eq hfa he t

/-- A sum of two neighbours, and its negation one point further on. -/
def chained : Func where
  name := "chained"
  rank := 1
  buffers := [⟨"a", .f64, none, .unknown⟩]
  temps := [some ⟨"s", .f64, 0, 0, .unknown⟩, some ⟨"t", .f64, 1, 0, .unknown⟩]
  regions :=
    [some ⟨"sum", [.buffer 0], .ofOps [.access 0 [-1], .access 0 [1], .binary .add 0 1] [2], none, [0],
     .unknown⟩, some ⟨"neg", [.temp 0], .ofOps [.access 0 [1], .unary .neg 0] [1], none, [1], .unknown⟩]
  outputs := [⟨1, ⟨[0], [3]⟩⟩]
  stamp := none

theorem unrolling_preserves_evaluation_chained : ∃ f g : Func, Inference.Infers chained f ∧
    Inference.Infers (run { remainder := .epilogue } f).1 g ∧
    (g.region? 0).map (·.unroll) = some (some ⟨0, 2⟩) ∧
      (g.region? 1).map (·.unroll) = some (some ⟨0, 2⟩) ∧
    ∃ e e', Evaluation.run .double f (fun _ => some (Grid.fill ⟨[0], [5]⟩ 0)) = .ok e ∧
      Evaluation.run .double g (fun _ => some (Grid.fill ⟨[0], [5]⟩ 0)) = .ok e' ∧
      Evaluation.gridOf e'.temps 0 = Evaluation.gridOf e.temps 0 ∧ e'.outputs = e.outputs := by
  have hf : Inference.Infers chained (Inference.run chained).func := ⟨_, rfl, rfl⟩
  obtain ⟨hsame, order, hfa⟩ := hf.analysed
  have hin : Evaluation.Covers (fun _ => some (Grid.fill ⟨[0], [5]⟩ (0 : Float)))
      (Inference.run chained).func := Evaluation.covers_fill rfl 0
  have hcalls : Evaluation.CallsKnown chained := by decide
  obtain ⟨e, he, _⟩ := Evaluation.run_exists (A := .double) hfa hin (hcalls.of_sameStructure hsame)
  -- the stamp is not computed: that it is fresh is known of every inferred function
  have hrun := run_of_fresh .exact { remainder := .epilogue } hfa.fresh (by rfl) rfl
  obtain ⟨g, hg, hsum, hneg⟩ : ∃ g,
      Inference.Infers (run { remainder := .epilogue } (Inference.run chained).func).1 g ∧
      (g.region? 0).map (·.unroll) = some (some ⟨0, 2⟩) ∧
      (g.region? 1).map (·.unroll) = some (some ⟨0, 2⟩) := by
    rw [run, hrun]
    exact ⟨_, ⟨_, rfl, rfl⟩, rfl, rfl⟩
  obtain ⟨_, _, _, heval⟩ := unrolling_preserves_evaluation _ hf hg
  obtain ⟨hiff, hsame'⟩ := heval Float .double (fun _ => some (Grid.fill ⟨[0], [5]⟩ 0))
  obtain ⟨e', he'⟩ := hiff.mpr ⟨e, he⟩
  obtain ⟨hgrid, houts, _⟩ := hsame' e e' he he'
  exact ⟨_, g, hf, hg, hsum, hneg, e, e', he, he', hgrid 0, houts⟩

end Stencil.Unrolling
