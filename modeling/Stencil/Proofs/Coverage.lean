import Stencil.Proofs.Bounds
import Stencil.Proofs.Order
import Stencil.Proofs.Tiling

/-! A region walks its box once. The box it computes is the one demanded of it, with its last group
filled where no epilogue takes what is left over; the points ahead of the base points of its body
and the points of its epilogue are the points of that box, none left out and none twice. -/

set_option autoImplicit false

namespace Stencil

namespace Box

/-- No point comes twice: its place among the points is its place in row-major order. -/
theorem nodup_points (b : Box) : b.points.Nodup := by
  rw [List.Nodup, List.pairwise_iff_getElem]
  intro i j hi hj hij he
  have hplace : Grid.placeFrom 0 b.ranges b.points[i] = i :=
    placeFrom_rangesPoints (List.getElem?_eq_getElem hi)
  have hplace' : Grid.placeFrom 0 b.ranges b.points[j] = j :=
    placeFrom_rangesPoints (List.getElem?_eq_getElem hj)
  rw [he] at hplace
  omega

theorem Tiled.perm_points {b : Box} {n axis k : Nat} {m : Int} (h : b.Tiled n axis k m) :
    (Evaluation.written axis k ((b.bases axis k m).pointsWithStep axis k) ++
      (b.rest axis k m).points).Perm
      b.points := by
  have hsub : b.points ⊆
      Evaluation.written axis k ((b.bases axis k m).pointsWithStep axis k) ++
        (b.rest axis k m).points := by
    intro q hq
    rw [mem_points h.ranked, h.containsPoint_iff] at hq
    rw [List.mem_append, mem_points h.ranked_rest]
    exact hq
  -- all points of the box are there, and there are no more places than points
  have hlen : (Evaluation.written axis k ((b.bases axis k m).pointsWithStep axis k) ++
      (b.rest axis k m).points).length = b.points.length := by
    rw [List.length_append, Evaluation.written, length_flatMap_const _ _ k (by simp), h.length_points]
  exact ((List.subperm_of_subset (nodup_points b) hsub).perm_of_length_le (Nat.le_of_eq hlen)).symm

end Box

namespace Region

/-- Where a region writes when it computes `domain`: at one point per replica from every base point of its
body on, then at the points of its epilogue. -/
def walk (r : Region) (domain : Box) : List Point :=
  Evaluation.written (r.iterationPlan domain).axis r.body.ret.factor (r.mainPoints domain) ++
    r.tailPoints domain

theorem factor_of_unroll {r : Region} {u : Unroll} (hu : r.unroll = some u) :
    r.body.ret.factor = u.factor := by
  have hret : r.body.ret.unroll = some u := hu
  simp [Return.factor, hret]

theorem factor_of_none {r : Region} (hu : r.unroll = none) : r.body.ret.factor = 1 := by
  have hret : r.body.ret.unroll = none := hu
  simp [Return.factor, hret]

theorem groupsUp_mul_lt (e : Int) {k : Nat} (hk : 0 < k) : groupsUp e k * k < e + k := by
  have hle := Int.ediv_mul_le (e + k - 1) (by omega : (k : Int) ≠ 0)
  rw [groupsUp_def]
  omega

theorem walk_of_none {r : Region} {n : Nat} {domain : Box} (hd : domain.Ranked n)
    (hne : domain.isEmpty = false) (hu : r.unroll = none) : r.walk domain = domain.points := by
  rw [walk, mainPoints_of_none hd hu, factor_of_none hu, tailPoints, iterationPlan_of_none hu hne,
    Evaluation.written_one]
  simp

section Unrolled

variable {r : Region} {n : Nat} {domain : Box} {u : Unroll} (hu : r.unroll = some u)
  (haxis : u.axis < n) (hk : 0 < u.factor) (hd : domain.Ranked n) (hne : domain.isEmpty = false)

include hu haxis hk hd hne

/-- An unrolled region walks its box once, if without an epilogue its groups fill the box. -/
theorem perm_walk_of_unroll (hfull : r.epilogue = none → domain.extent u.axis % u.factor = 0) :
    (r.walk domain).Perm domain.points := by
  obtain ⟨m, hm, hplan⟩ := iterationPlan_of_unroll hne hu hk
  obtain ⟨hext, hpos⟩ := Box.extent_of_nonempty hd hne haxis
  have hgroups : (m * u.factor = domain.extent u.axis) ∨
      (r.epilogue.isSome = true ∧ 0 ≤ m ∧ m * u.factor ≤ domain.extent u.axis) := by
    cases he : r.epilogue with
    | none =>
      rw [he] at hm
      rw [hm]
      exact .inl (groupsUp_mul_of_dvd hk (hfull he))
    | some e =>
      rw [he] at hm
      rw [hm]
      exact .inr ⟨rfl, Int.ediv_nonneg (by omega) (by omega), Int.ediv_mul_le _ (by omega)⟩
  by_cases hm0 : 0 < m
  · have htiled : domain.Tiled n u.axis u.factor m :=
      ⟨hd, hne, haxis, hk, hm0, by rw [← hext]; rcases hgroups with h | h <;> omega⟩
    have hmain :
        r.mainPoints domain = (domain.bases u.axis u.factor m).pointsWithStep u.axis u.factor := by
      rw [mainPoints, hplan]
      simp only [if_pos hm0]
      rfl
    have htail : r.tailPoints domain = (domain.rest u.axis u.factor m).points := by
      rw [tailPoints, hplan]
      simp only
      split
      · rfl
      · next hnone =>
        -- no epilogue runs: nothing is left over
        have hempty : (domain.rest u.axis u.factor m).isEmpty = true := by
          rw [htiled.rest_isEmpty_iff, ← hext]
          rcases hgroups with h | ⟨hsome, _, hle⟩
          · exact h.symm
          · simp only [hsome, Bool.true_and, decide_eq_true_eq] at hnone
            omega
        rw [Box.points_eq_nil htiled.ranked_rest hempty]
        rfl
    rw [walk, hmain, htail, factor_of_unroll hu, hplan]
    exact htiled.perm_points
  · -- the box is shorter than one group, and the epilogue takes all of it
    rcases hgroups with h | ⟨hsome, hnonneg, _⟩
    · have hneg := Int.mul_nonpos_of_nonpos_of_nonneg (by omega : m ≤ 0) (by omega : (0 : Int) ≤ u.factor)
      omega
    · have hzero : m = 0 := by omega
      have hmain : r.mainPoints domain = [] := by
        rw [mainPoints, hplan]
        simp only [if_neg hm0]
        rfl
      have htail : r.tailPoints domain = domain.points := by
        have hself : domain.withAxis u.axis (coord domain.lb u.axis) (coord domain.ub u.axis) = domain :=
          Box.withAxis_self hd
        have hlt : coord domain.lb u.axis < coord domain.ub u.axis := by omega
        rw [tailPoints, hplan, hzero, Int.zero_mul, Int.add_zero, hself]
        simp [hsome, hlt]
      rw [walk, hmain, htail]
      exact .refl _

end Unrolled

theorem computedDomain_of_unroll {r : Region} {n : Nat} {u : Unroll} (hu : r.unroll = some u)
    (he : r.epilogue = none) (haxis : u.axis < n) (hk : 0 < u.factor) {b : Box} (hb : b.Ranked n)
    (hne : b.isEmpty = false) :
    r.computedDomain b = b.withAxis u.axis (coord b.lb u.axis)
      (coord b.lb u.axis + groupsUp (b.extent u.axis) u.factor * u.factor) := by
  rw [computedDomain_def]
  rw [hu, he]
  by_cases hone : 1 < u.factor
  · simp only [hne, hone, Bool.not_false, decide_true, Bool.and_self, if_true, coord]
  · have hfactor : u.factor = 1 := by omega
    have hfilled : groupsUp (b.extent u.axis) u.factor * u.factor = b.extent u.axis :=
      groupsUp_mul_of_dvd hk (by rw [hfactor]; exact Int.emod_one _)
    have hub : coord b.lb u.axis + (coord b.ub u.axis - coord b.lb u.axis) = coord b.ub u.axis := by omega
    rw [hfilled, (Box.extent_of_nonempty hb hne haxis).1, hub, Box.withAxis_self hb]
    simp [hone]

section Computed

variable {r : Region} {n : Nat} (hunroll : ∀ u, r.unroll = some u → u.axis < n ∧ 0 < u.factor) {b : Box}
  (hb : b.Ranked n) (hne : b.isEmpty = false)

include hunroll hb hne

theorem computedDomain_bounds : (r.computedDomain b).Ranked n ∧ (r.computedDomain b).lb = b.lb ∧
    ∀ d, d < n → coord b.ub d ≤ coord (r.computedDomain b).ub d ∧
      coord (r.computedDomain b).ub d < coord b.ub d + r.body.ret.factor ∧
      (coord (r.computedDomain b).ub d ≠ coord b.ub d → ∃ u, r.unroll = some u ∧ u.axis = d) := by
  by_cases hpadded : ∃ u, r.unroll = some u ∧ r.epilogue = none
  · obtain ⟨u, hu, he⟩ := hpadded
    obtain ⟨haxis, hk⟩ := hunroll u hu
    have hext := (Box.extent_of_nonempty hb hne haxis).1
    have hle := le_groupsUp_mul (b.extent u.axis) hk
    have hlt := groupsUp_mul_lt (b.extent u.axis) hk
    have hlb : b.lb.set u.axis (coord b.lb u.axis) = b.lb := congrArg Box.lb (Box.withAxis_self hb)
    rw [computedDomain_of_unroll hu he haxis hk hb hne, factor_of_unroll hu]
    refine ⟨Box.ranked_withAxis hb _ _ _, hlb, ?_⟩
    intro d hd
    rw [(Box.coord_withAxis hb hd _ _ _).2]
    split
    · next hd' =>
      subst hd'
      exact ⟨by omega, by omega, fun _ => ⟨u, hu, rfl⟩⟩
    · exact ⟨Int.le_refl _, by omega, fun hdiff => absurd rfl hdiff⟩
  · have hsame : r.computedDomain b = b := by
      apply computedDomain_of_not_padded
      cases hu : r.unroll with
      | none => exact .inl rfl
      | some u =>
        right
        rw [Option.isSome_iff_ne_none]
        exact fun he => hpadded ⟨u, hu, he⟩
    have hfactor : 0 < r.body.ret.factor := by
      cases hu : r.unroll with
      | none => rw [factor_of_none hu]; omega
      | some u => rw [factor_of_unroll hu]; exact (hunroll u hu).2
    rw [hsame]
    exact ⟨hb, rfl, fun d _ => ⟨Int.le_refl _, by omega, fun hdiff => absurd rfl hdiff⟩⟩

theorem computedDomain_nonempty : (r.computedDomain b).isEmpty = false := by
  obtain ⟨hranked, hlb, hub⟩ := computedDomain_bounds hunroll hb hne
  rw [Box.isEmpty_eq_false_iff hranked, hlb]
  intro d hd
  have hlt := (Box.isEmpty_eq_false_iff hb).mp hne d hd
  exact Int.lt_of_lt_of_le hlt (hub d hd).1

theorem computedDomain_full {u : Unroll} (hu : r.unroll = some u) (he : r.epilogue = none) :
    (r.computedDomain b).extent u.axis % u.factor = 0 := by
  obtain ⟨haxis, hk⟩ := hunroll u hu
  have hranked := (computedDomain_bounds hunroll hb hne).1
  have hext := Box.extent_of_nonempty hranked (computedDomain_nonempty hunroll hb hne) haxis
  rw [hext.1, computedDomain_of_unroll hu he haxis hk hb hne, (Box.coord_withAxis hb haxis _ _ _).1,
    (Box.coord_withAxis hb haxis _ _ _).2, if_pos rfl, if_pos rfl, Int.add_comm, Int.add_sub_cancel]
  exact Int.mul_emod_left _ _

theorem perm_walk_computedDomain :
    (r.walk (r.computedDomain b)).Perm (r.computedDomain b).points := by
  have hranked := (computedDomain_bounds hunroll hb hne).1
  have hnonempty := computedDomain_nonempty hunroll hb hne
  cases hu : r.unroll with
  | none =>
    rw [walk_of_none hranked hnonempty hu]
  | some u =>
    obtain ⟨haxis, hk⟩ := hunroll u hu
    exact perm_walk_of_unroll hu haxis hk hranked hnonempty (computedDomain_full hunroll hb hne hu)

end Computed

/-- A region computes what is demanded of it and walks it once. If the region is unrolled, then
along an axis that is there; some points are demanded. What it computes contains the demanded box;
it starts where that does and ends where that does, but along the unrolled axis, where it may end
later by less than a group. The points it writes, ahead of the base points of its body and in its
epilogue, are the points of what it computes, each of them once. -/
theorem walk_exact {r : Region} {n : Nat} (hunroll : ∀ u, r.unroll = some u → u.axis < n ∧ 1 ≤ u.factor)
    {required : Box} (hr : required.Ranked n) (hne : required.isEmpty = false) :
    (r.computedDomain required).Ranked n ∧ (r.computedDomain required).contains required = true ∧
    (r.computedDomain required).lb = required.lb ∧
    (∀ d, d < n → coord required.ub d ≤ coord (r.computedDomain required).ub d ∧
      coord (r.computedDomain required).ub d < coord required.ub d + r.body.ret.factor ∧
      (coord (r.computedDomain required).ub d ≠ coord required.ub d → ∃ u, r.unroll = some u ∧
        u.axis = d)) ∧
    (r.walk (r.computedDomain required)).Nodup ∧
    ∀ q, q ∈ r.walk (r.computedDomain required) ↔ (r.computedDomain required).containsPoint q = true := by
  obtain ⟨hranked, hlb, hub⟩ := computedDomain_bounds hunroll hr hne
  have hperm := perm_walk_computedDomain hunroll hr hne
  refine ⟨hranked, ?_, hlb, hub, hperm.nodup_iff.mpr (Box.nodup_points _), ?_⟩
  · rw [Box.contains_iff hranked hr, hlb]
    exact fun _ d hd => ⟨Int.le_refl _, (hub d hd).1⟩
  · intro q
    rw [hperm.mem_iff, Box.mem_points hranked]

/-- A copy from the point behind along the second axis. -/
def behind : Body := .ofOps [.access 0 [0, 1]] [0]

/-- Three points at a time along the second axis, with or without an epilogue. -/
def threefold (epilogue : Option Body) : Region where
  name := "threefold"
  operands := [.buffer 0]
  body := behind.replicate 1 3
  epilogue := epilogue
  results := [0]
  shape := .unknown

/-- Seven points from -5 on: two groups and one point for the epilogue, or three groups and two
points more than are demanded. -/
theorem walk_exact_threefold :
    (threefold none).computedDomain ⟨[-1, -5], [1, 2]⟩ = ⟨[-1, -5], [1, 4]⟩ ∧
    (threefold none).iterationPlan ⟨[-1, -5], [1, 4]⟩ = ⟨some ⟨[-1, -5], [1, 2]⟩, 1, 3, none⟩ ∧
    ((threefold none).walk ⟨[-1, -5], [1, 4]⟩).Nodup ∧
    (∀ q, q ∈ (threefold none).walk ⟨[-1, -5], [1, 4]⟩ ↔ Box.containsPoint ⟨[-1, -5], [1, 4]⟩ q = true) ∧
    (threefold (some behind)).iterationPlan ⟨[-1, -5], [1, 2]⟩ =
      ⟨some ⟨[-1, -5], [1, -1]⟩, 1, 3, some ⟨[-1, 1], [1, 2]⟩⟩ ∧
    ((threefold (some behind)).walk ⟨[-1, -5], [1, 2]⟩).Nodup ∧
    ∀ q, q ∈ (threefold (some behind)).walk ⟨[-1, -5], [1, 2]⟩ ↔
      Box.containsPoint ⟨[-1, -5], [1, 2]⟩ q = true := by
  have hunroll : ∀ (e : Option Body) (u : Unroll), (threefold e).unroll = some u → u.axis < 2 ∧
      1 ≤ u.factor := by
    intro e u hu
    cases hu
    decide
  have hranked : Box.Ranked ⟨[-1, -5], [1, 2]⟩ 2 := ⟨rfl, rfl⟩
  obtain ⟨_, _, _, _, hnodup, hmem⟩ := walk_exact (hunroll none) hranked rfl
  obtain ⟨_, _, _, _, hnodup', hmem'⟩ := walk_exact (hunroll (some behind)) hranked rfl
  exact ⟨rfl, rfl, hnodup, hmem, rfl, hnodup', hmem'⟩

/-- On 64 bits it is the same box and the same walk, as long as the coordinates of what is demanded
leave room for one more group. -/
theorem walk_faithful {M : Machine} (hM : M.Faithful) {r : Region} (hr : r.Modest) {required : Box}
    (h : required.Within (Machine.roomy - 4294967295)) :
    r.computedDomainIn M.primitives required = some (r.computedDomain required) ∧
    r.iterationPlanIn M.primitives (r.computedDomain required) =
      some (r.iterationPlan (r.computedDomain required)) ∧
    r.footprintsIn M.primitives (r.computedDomain required) =
      some (r.footprints (r.computedDomain required)) := by
  have hpow : Nat.pow 2 32 = 4294967296 := rfl
  have hwithin : (r.computedDomain required).Within Machine.roomy := by
    refine within_computedDomain h (by decide) (k := 4294967295) ?_ (by decide)
    intro u hu
    have hfactor := hr.factor u hu
    omega
  exact ⟨hM.computedDomain_eq hr (h.mono (by decide)), hM.iterationPlan_eq hr hwithin,
    hM.footprints_eq hr hwithin⟩

end Region

end Stencil
