import Stencil.Proofs.Grid
import Stencil.Proofs.Replication
import Stencil.Proofs.Total
import Stencil.Proofs.Validity

/-! How a region walks its box: the box it computes covers what is demanded, and the base points of
its body together with the points of its epilogue reach every point. -/

set_option autoImplicit false

namespace Stencil

namespace Box

theorem ranked_withAxis {b : Box} {n : Nat} (h : b.Ranked n) (axis : Nat) (l u : Int) :
    (b.withAxis axis l u).Ranked n :=
  ⟨by simp [withAxis, h.lb], by simp [withAxis, h.ub]⟩

theorem coord_withAxis {b : Box} {n d : Nat} (h : b.Ranked n) (hd : d < n) (axis : Nat) (l u : Int) :
    coord (b.withAxis axis l u).lb d = (if axis = d then l else coord b.lb d) ∧
      coord (b.withAxis axis l u).ub d = if axis = d then u else coord b.ub d := by
  have hl : d < b.lb.length := by rw [h.lb]; exact hd
  have hu : d < b.ub.length := by rw [h.ub]; exact hd
  exact ⟨coord_set b.lb axis l hl, coord_set b.ub axis u hu⟩

theorem withAxis_self {b : Box} {n axis : Nat} (h : b.Ranked n) :
    b.withAxis axis (coord b.lb axis) (coord b.ub axis) = b := by
  apply ext_coord (ranked_withAxis h _ _ _) h
  · intro d hd
    rw [(coord_withAxis h hd axis _ _).1]
    split
    · next he => rw [he]
    · rfl
  · intro d hd
    rw [(coord_withAxis h hd axis _ _).2]
    split
    · next he => rw [he]
    · rfl

theorem extent_eq {b : Box} {n axis : Nat} (h : b.Ranked n) (ha : axis < n) :
    b.extent axis = max (coord b.ub axis - coord b.lb axis) 0 := by
  have hl : axis < b.lb.length := by rw [h.lb]; exact ha
  have hu : axis < b.ub.length := by rw [h.ub]; exact ha
  rw [extent, List.getElem?_eq_getElem hl, List.getElem?_eq_getElem hu, coord_eq_getElem hl,
    coord_eq_getElem hu]

theorem extent_of_nonempty {b : Box} {n axis : Nat} (h : b.Ranked n) (hne : b.isEmpty = false)
    (ha : axis < n) :
    b.extent axis = coord b.ub axis - coord b.lb axis ∧ 0 < b.extent axis := by
  have hlt := (isEmpty_eq_false_iff h).mp hne axis ha
  rw [extent_eq h ha]
  omega

end Box

namespace Region

theorem le_groupsUp_mul (e : Int) {k : Nat} (hk : 0 < k) : e ≤ groupsUp e k * k := by
  have hdiv := Int.mul_ediv_add_emod (e + k - 1) k
  have hmod := Int.emod_lt_of_pos (e + k - 1) (by omega : (0 : Int) < k)
  rw [groupsUp_def, Int.mul_comm]
  omega

theorem groupsUp_mul_of_dvd {e : Int} {k : Nat} (hk : 0 < k) (h : e % k = 0) :
    groupsUp e k * k = e := by
  have hpos : (0 : Int) < k := by omega
  have hself := Int.mul_ediv_add_emod e k
  have hlast : ((k : Int) - 1) / k = 0 := Int.ediv_eq_zero_of_lt (by omega) (by omega)
  have hsplit : e + k - 1 = (k - 1) + k * (e / k) := by omega
  rw [groupsUp_def, hsplit, Int.add_mul_ediv_left _ _ (by omega), hlast, Int.zero_add, Int.mul_comm]
  omega

theorem computedDomain_congr {r r' : Region} (hu : r'.unroll = r.unroll)
    (he : r'.epilogue.isSome = r.epilogue.isSome) (b : Box) :
    r'.computedDomain b = r.computedDomain b := by
  rw [computedDomain_def, computedDomain_def]
  rw [hu]
  cases h : r.epilogue with
  | none =>
    rw [h, Option.isSome_none, Option.isSome_eq_false_iff, Option.isNone_iff_eq_none] at he
    rw [he]
  | some e =>
    rw [h, Option.isSome_some, Option.isSome_iff_exists] at he
    obtain ⟨e', he'⟩ := he
    rw [he']
    cases r.unroll <;> rfl

theorem computedDomain_of_not_padded {r : Region} (h : r.unroll = none ∨ r.epilogue.isSome = true)
    (b : Box) : r.computedDomain b = b := by
  rw [computedDomain_def]
  split
  · next u hu he =>
    rcases h with h | h
    · rw [hu] at h
      cases h
    · rw [he] at h
      cases h
  · rfl

theorem computedDomain_spec {r : Region} {n : Nat} (hfit : r.Fits n) {b : Box} (hb : b.Ranked n)
    (hc : b.Canonical) :
    (r.computedDomain b).Ranked n ∧ (r.computedDomain b).Canonical ∧
      (r.computedDomain b).contains b = true := by
  rw [computedDomain_def]
  split
  · next u hu he =>
    split
    · next hcond =>
      simp only [Bool.and_eq_true, Bool.not_eq_true', decide_eq_true_eq] at hcond
      obtain ⟨hne, hk⟩ := hcond
      obtain ⟨haxis, _⟩ := hfit.unroll u hu
      obtain ⟨hext, hpos⟩ := Box.extent_of_nonempty hb hne haxis
      have hup := le_groupsUp_mul (b.extent u.axis) (by omega : 0 < u.factor)
      have hlb : b.lb.getD u.axis 0 = coord b.lb u.axis := rfl
      have hranked := Box.ranked_withAxis hb u.axis (b.lb.getD u.axis 0)
        (b.lb.getD u.axis 0 + groupsUp (b.extent u.axis) u.factor * u.factor)
      have hlt := (Box.isEmpty_eq_false_iff hb).mp hne
      refine ⟨hranked, Box.canonical_of_nonempty ?_, ?_⟩
      · rw [Box.isEmpty_eq_false_iff hranked]
        intro d hd
        obtain ⟨h1, h2⟩ := Box.coord_withAxis hb hd u.axis (b.lb.getD u.axis 0)
          (b.lb.getD u.axis 0 + groupsUp (b.extent u.axis) u.factor * u.factor)
        rw [h1, h2]
        split
        · omega
        · exact hlt d hd
      · rw [Box.contains_iff hranked hb]
        intro _ d hd
        obtain ⟨h1, h2⟩ := Box.coord_withAxis hb hd u.axis (b.lb.getD u.axis 0)
          (b.lb.getD u.axis 0 + groupsUp (b.extent u.axis) u.factor * u.factor)
        rw [h1, h2]
        split
        · next hd' =>
          subst hd'
          omega
        · omega
    · exact ⟨hb, hc, Box.contains_refl hb⟩
  · exact ⟨hb, hc, Box.contains_refl hb⟩

def mainPoints (r : Region) (domain : Box) : List Point :=
  ((r.iterationPlan domain).main.map fun b =>
    b.pointsWithStep (r.iterationPlan domain).axis (r.iterationPlan domain).step).getD []

def tailPoints (r : Region) (domain : Box) : List Point :=
  ((r.iterationPlan domain).tail.map Box.points).getD []

def mainBox (r : Region) (domain : Box) : Box :=
  (r.iterationPlan domain).main.getD (Box.empty domain.rank)

def tailBox (r : Region) (domain : Box) : Box :=
  (r.iterationPlan domain).tail.getD (Box.empty domain.rank)

/-- The bodies of a region, each with a box around the points at which it runs. -/
def runs (r : Region) (domain : Box) : List (Body × Box) :=
  (r.body, r.mainBox domain) :: r.epilogue.toList.map fun e => (e, r.tailBox domain)

theorem iterationPlan_of_unroll {r : Region} {domain : Box} {u : Unroll}
    (hne : domain.isEmpty = false) (hu : r.unroll = some u) (hk : 0 < u.factor) :
    ∃ m : Int,
      m = (if r.epilogue.isSome then domain.extent u.axis / u.factor
        else groupsUp (domain.extent u.axis) u.factor) ∧
      r.iterationPlan domain =
        { main := if 0 < m then some (domain.withAxis u.axis (coord domain.lb u.axis)
            (coord domain.lb u.axis + (m - 1) * u.factor + 1)) else none
          axis := u.axis
          step := u.factor
          tail := if r.epilogue.isSome && coord domain.lb u.axis + m * u.factor < coord domain.ub u.axis
            then some (domain.withAxis u.axis (coord domain.lb u.axis + m * u.factor)
              (coord domain.ub u.axis)) else none } := by
  have hmax : max u.factor 1 = u.factor := by omega
  refine ⟨_, rfl, ?_⟩
  simp only [iterationPlan_def, hne, hu, hmax, coord]
  rfl

theorem iterationPlan_of_none {r : Region} {domain : Box} (hu : r.unroll = none)
    (hne : domain.isEmpty = false) : r.iterationPlan domain = ⟨some domain, 0, 1, none⟩ := by
  simp [iterationPlan_def, hne, hu]

theorem iterationPlan_of_isEmpty {r : Region} {domain : Box} (he : domain.isEmpty = true) :
    r.iterationPlan domain = ⟨none, 0, 1, none⟩ := by
  simp [iterationPlan_def, he]

theorem ranked_iterationPlan {r : Region} {n : Nat} (hfit : r.Fits n) {domain : Box}
    (hd : domain.Ranked n) :
    (∀ b, (r.iterationPlan domain).main = some b → b.Ranked n) ∧
      (∀ b, (r.iterationPlan domain).tail = some b → b.Ranked n) ∧
      1 ≤ (r.iterationPlan domain).step := by
  by_cases he : domain.isEmpty = true
  · simp [iterationPlan_of_isEmpty he]
  · rw [Bool.not_eq_true] at he
    cases hu : r.unroll with
    | none =>
      rw [iterationPlan_of_none hu he]
      refine ⟨?_, by simp, by simp⟩
      intro b hb
      cases hb
      exact hd
    | some u =>
      obtain ⟨_, hk⟩ := hfit.unroll u hu
      obtain ⟨m, _, hplan⟩ := iterationPlan_of_unroll he hu hk
      rw [hplan]
      refine ⟨?_, ?_, hk⟩
      · intro b hb
        simp only at hb
        split at hb
        · cases hb
          exact Box.ranked_withAxis hd _ _ _
        · cases hb
      · intro b hb
        simp only at hb
        split at hb
        · cases hb
          exact Box.ranked_withAxis hd _ _ _
        · cases hb

theorem ranked_getD {n : Nat} {part : Option Box} {domain : Box} (hd : domain.Ranked n)
    (h : ∀ b, part = some b → b.Ranked n) : (part.getD (Box.empty domain.rank)).Ranked n := by
  cases part with
  | none => exact hd.rank_eq ▸ Box.ranked_empty n
  | some b => exact h b rfl

theorem ranked_mainBox {r : Region} {n : Nat} (hfit : r.Fits n) {domain : Box}
    (hd : domain.Ranked n) : (r.mainBox domain).Ranked n :=
  ranked_getD hd (ranked_iterationPlan hfit hd).1

theorem ranked_tailBox {r : Region} {n : Nat} (hfit : r.Fits n) {domain : Box}
    (hd : domain.Ranked n) : (r.tailBox domain).Ranked n :=
  ranked_getD hd (ranked_iterationPlan hfit hd).2.1

theorem mem_runs {r : Region} {domain : Box} {b : Body} {base : Box} :
    (b, base) ∈ r.runs domain ↔ (b = r.body ∧ base = r.mainBox domain) ∨
      (r.epilogue = some b ∧ base = r.tailBox domain) := by
  simp only [runs, List.mem_cons, Prod.mk.injEq, List.mem_map, Option.mem_toList]
  constructor
  · rintro (h | ⟨e, he, rfl, rfl⟩)
    · exact .inl h
    · exact .inr ⟨he, rfl⟩
  · rintro (h | ⟨he, rfl⟩)
    · exact .inl h
    · exact .inr ⟨b, he, rfl, rfl⟩

theorem mem_bodies_of_mem_runs {r : Region} {domain : Box} {b : Body} {base : Box}
    (h : (b, base) ∈ r.runs domain) : b ∈ r.bodies := by
  rcases mem_runs.mp h with ⟨rfl, _⟩ | ⟨he, _⟩
  · simp [bodies]
  · simp [bodies, he]

theorem ranked_of_mem_runs {r : Region} {n : Nat} (hfit : r.Fits n) {domain : Box}
    (hd : domain.Ranked n) {b : Body} {base : Box} (h : (b, base) ∈ r.runs domain) :
    base.Ranked n ∧ b.Fits n r.operands.length := by
  rcases mem_runs.mp h with ⟨rfl, rfl⟩ | ⟨he, rfl⟩
  · exact ⟨ranked_mainBox hfit hd, hfit.body⟩
  · exact ⟨ranked_tailBox hfit hd, (hfit.epilogue b he).1⟩

theorem mem_footprints {r : Region} {domain : Box} {fp : Footprint} :
    fp ∈ r.footprints domain ↔ ∃ b base, (b, base) ∈ r.runs domain ∧
      .access fp.slot fp.offset ∈ b.ops ∧ fp.read = base.shifted fp.offset := by
  have hbody : ∀ (b : Body) (base : Box), fp ∈ bodyFootprints b base ↔
      .access fp.slot fp.offset ∈ b.ops ∧ fp.read = base.shifted fp.offset := by
    intro b base
    obtain ⟨slot, offset, read⟩ := fp
    rw [bodyFootprints_def, List.mem_map, ← Body.exists_access_iff]
    constructor
    · rintro ⟨a, ha, he⟩
      cases he
      exact ⟨⟨a, ha, rfl, rfl⟩, rfl⟩
    · rintro ⟨⟨a, ha, rfl, rfl⟩, hread⟩
      simp only at hread
      exact ⟨a, ha, by rw [hread]⟩
  have hsplit : fp ∈ r.footprints domain ↔ fp ∈ bodyFootprints r.body (r.mainBox domain) ∨
      ∃ e, r.epilogue = some e ∧ fp ∈ bodyFootprints e (r.tailBox domain) := by
    rw [footprints_def]
    rw [List.mem_append]
    cases r.epilogue with
    | none => simp [mainBox]
    | some e => simp [mainBox, tailBox]
  rw [hsplit]
  constructor
  · rintro (h | ⟨e, he, h⟩)
    · exact ⟨r.body, _, mem_runs.mpr (.inl ⟨rfl, rfl⟩), (hbody _ _).mp h⟩
    · exact ⟨e, _, mem_runs.mpr (.inr ⟨he, rfl⟩), (hbody _ _).mp h⟩
  · rintro ⟨b, base, hrun, h⟩
    rcases mem_runs.mp hrun with ⟨rfl, rfl⟩ | ⟨he, rfl⟩
    · exact .inl ((hbody _ _).mpr h)
    · exact .inr ⟨b, he, (hbody _ _).mpr h⟩

theorem containsPoint_getD {part : Option Box} {points : Box → List Point} (nothing : Box)
    (hpoints : ∀ b, part = some b → ∀ p, p ∈ points b → b.containsPoint p = true) {p : Point}
    (h : p ∈ (part.map points).getD []) : (part.getD nothing).containsPoint p = true := by
  cases part with
  | none => cases h
  | some b => exact hpoints b rfl p h

theorem mem_mainBox_of_mem {r : Region} {n : Nat} (hfit : r.Fits n) {domain : Box}
    (hd : domain.Ranked n) {p : Point} (h : p ∈ r.mainPoints domain) :
    (r.mainBox domain).containsPoint p = true := by
  obtain ⟨hranked, _, hstep⟩ := ranked_iterationPlan hfit hd
  exact containsPoint_getD _ (fun b hb _ hp => ((Box.mem_pointsWithStep (hranked b hb) hstep).mp hp).1) h

theorem mem_tailBox_of_mem {r : Region} {n : Nat} (hfit : r.Fits n) {domain : Box}
    (hd : domain.Ranked n) {p : Point} (h : p ∈ r.tailPoints domain) :
    (r.tailBox domain).containsPoint p = true := by
  obtain ⟨_, hranked, _⟩ := ranked_iterationPlan hfit hd
  exact containsPoint_getD _ (fun b hb _ hp => (Box.mem_points (hranked b hb)).mp hp) h

theorem mainPoints_of_none {r : Region} {n : Nat} {domain : Box} (hd : domain.Ranked n)
    (hu : r.unroll = none) : r.mainPoints domain = domain.points := by
  by_cases he : domain.isEmpty = true
  · rw [mainPoints, iterationPlan_of_isEmpty he]
    rw [Box.points_eq_nil hd he]
    rfl
  · rw [Bool.not_eq_true] at he
    rw [mainPoints, iterationPlan_of_none hu he, Box.points_eq_pointsWithStep domain 0]
    rfl

theorem mainBox_of_none {r : Region} {domain : Box} (hc : domain.Canonical)
    (hu : r.unroll = none) : r.mainBox domain = domain := by
  by_cases he : domain.isEmpty = true
  · rw [mainBox, iterationPlan_of_isEmpty he]
    exact (hc he).symm
  · rw [Bool.not_eq_true] at he
    rw [mainBox, iterationPlan_of_none hu he]
    rfl

end Region

end Stencil
