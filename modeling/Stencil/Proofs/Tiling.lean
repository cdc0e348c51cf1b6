import Stencil.Proofs.Computation

/-! Tiles along an axis: full groups of neighbouring points, and the points that are left. The groups
and the rest hold each point of a box once, and read together what the box reads. -/

set_option autoImplicit false

namespace Stencil

namespace Box

theorem length_coordinates (l : Int) {u : Int} {s : Nat} {m : Int} (hs : 0 < s)
    (hu : u = l + (m - 1) * s + 1) : (coordinates l u s).length = m.toNat := by
  have hs' : (0 : Int) < s := by omega
  have hexp : (m - 1) * (s : Int) = m * s - s := by rw [Int.sub_mul, Int.one_mul]
  have hnum : u - l + s - 1 = m * s := by omega
  rw [coordinates, List.length_map, List.length_range, hnum, Int.mul_ediv_cancel _ (by omega)]

theorem length_pointsOver_set {rs : List (Int × Int × Nat)} {axis : Nat} (h : axis < rs.length)
    (r : Int × Int × Nat) : (pointsOver (rs.set axis r)).length =
      (coordinates r.1 r.2.1 r.2.2).length * (pointsOver (rs.eraseIdx axis)).length := by
  induction rs generalizing axis with
  | nil => simp at h
  | cons x rs ih =>
    cases axis with
    | zero =>
      rw [List.set_cons_zero, List.eraseIdx_cons_zero, pointsOver]
      exact length_flatMap_const _ _ _ (by simp)
    | succ axis =>
      have hrows : ∀ (ys : List Point) (z : Int), (ys.map (z :: ·)).length = ys.length := by simp
      rw [List.set_cons_succ, List.eraseIdx_cons_succ, pointsOver, pointsOver,
        length_flatMap_const _ _ _ (hrows _), length_flatMap_const _ _ _ (hrows _),
        ih (by simpa using h), Nat.mul_left_comm]

theorem exists_length_pointsWithStep {b : Box} {n axis : Nat} (h : b.Ranked n) (ha : axis < n) :
    ∃ w, ∀ (l u : Int) (s : Nat), 1 ≤ s →
      ((b.withAxis axis l u).pointsWithStep axis s).length = (coordinates l u s).length * w := by
  refine ⟨(pointsOver ((b.ranges.map fun r => (r.1, r.2, 1)).eraseIdx axis)).length, ?_⟩
  intro l u s hs
  have hranges : (b.withAxis axis l u).ranges = b.ranges.set axis (l, u) := by
    apply List.ext_getElem
    · rw [length_ranges (ranked_withAxis h axis l u), List.length_set, length_ranges h]
    · intro d h₁ h₂
      have hd : d < n := by rwa [length_ranges (ranked_withAxis h axis l u)] at h₁
      have hc := coord_withAxis h hd axis l u
      rw [getElem_ranges (ranked_withAxis h axis l u), List.getElem_set, hc.1, hc.2]
      by_cases he : axis = d
      · simp [he]
      · simp [he, getElem_ranges h]
  have hsteps : ((b.withAxis axis l u).ranges.mapIdx fun d r =>
        (r.1, r.2, if d = axis then max s 1 else 1)) =
      (b.ranges.map fun r => (r.1, r.2, 1)).set axis (l, u, s) := by
    rw [hranges]
    apply List.ext_getElem
    · simp
    · intro d h₁ h₂
      by_cases he : axis = d
      · simp [he, Nat.max_eq_left hs]
      · simp [he, Ne.symm he]
  rw [pointsWithStep, hsteps]
  exact length_pointsOver_set (by rw [List.length_map, length_ranges h]; exact ha) _

/-- The first points of `m` groups of `k` points along `axis`. -/
def bases (b : Box) (axis k : Nat) (m : Int) : Box :=
  b.withAxis axis (coord b.lb axis) (coord b.lb axis + (m - 1) * k + 1)

/-- The points behind `m` groups of `k` points along `axis`. -/
def rest (b : Box) (axis k : Nat) (m : Int) : Box :=
  b.withAxis axis (coord b.lb axis + m * k) (coord b.ub axis)

/-- A box that holds `m` groups of `k` points along `axis`. -/
structure Tiled (b : Box) (n axis k : Nat) (m : Int) : Prop where
  ranked : b.Ranked n
  nonempty : b.isEmpty = false
  axis_lt : axis < n
  factor_pos : 0 < k
  groups_pos : 0 < m
  groups_le : m * k ≤ coord b.ub axis - coord b.lb axis

section Tiled

variable {b : Box} {n axis k : Nat} {m : Int} (h : b.Tiled n axis k m)

include h

theorem Tiled.groups_expand : (m - 1) * (k : Int) = m * k - k ∧ 0 ≤ (m - 1) * (k : Int) := by
  refine ⟨by rw [Int.sub_mul, Int.one_mul], Int.mul_nonneg ?_ (by omega)⟩
  have := h.groups_pos
  omega

theorem Tiled.ranked_bases : (b.bases axis k m).Ranked n := ranked_withAxis h.ranked _ _ _

theorem Tiled.ranked_rest : (b.rest axis k m).Ranked n := ranked_withAxis h.ranked _ _ _

theorem Tiled.coord_lt {d : Nat} (hd : d < n) : coord b.lb d < coord b.ub d :=
  (isEmpty_eq_false_iff h.ranked).mp h.nonempty d hd

theorem Tiled.coord_bases {d : Nat} (hd : d < n) :
    coord (b.bases axis k m).lb d = coord b.lb d ∧ coord (b.bases axis k m).ub d =
      if axis = d then coord b.lb d + (m - 1) * k + 1 else coord b.ub d := by
  have hc := coord_withAxis h.ranked hd axis (coord b.lb axis) (coord b.lb axis + (m - 1) * k + 1)
  rw [bases, hc.1, hc.2]
  by_cases he : axis = d
  · simp [he]
  · simp [he]

theorem Tiled.coord_rest {d : Nat} (hd : d < n) :
    coord (b.rest axis k m).lb d = (if axis = d then coord b.lb d + m * k else coord b.lb d) ∧
      coord (b.rest axis k m).ub d = coord b.ub d := by
  have hc := coord_withAxis h.ranked hd axis (coord b.lb axis + m * k) (coord b.ub axis)
  rw [rest, hc.1, hc.2]
  by_cases he : axis = d
  · simp [he]
  · simp [he]

theorem Tiled.bases_nonempty : (b.bases axis k m).isEmpty = false := by
  rw [isEmpty_eq_false_iff h.ranked_bases]
  intro d hd
  have hlt := h.coord_lt hd
  have hexp := h.groups_expand.2
  rw [(h.coord_bases hd).1, (h.coord_bases hd).2]
  split <;> omega

theorem Tiled.rest_isEmpty_iff :
    (b.rest axis k m).isEmpty = true ↔ coord b.ub axis - coord b.lb axis = m * k := by
  have hle := h.groups_le
  rw [isEmpty_iff h.ranked_rest]
  constructor
  · rintro ⟨d, hd, hempty⟩
    have hlt := h.coord_lt hd
    rw [(h.coord_rest hd).1, (h.coord_rest hd).2] at hempty
    split at hempty
    · next he =>
      subst he
      omega
    · omega
  · intro heq
    refine ⟨axis, h.axis_lt, ?_⟩
    rw [(h.coord_rest h.axis_lt).1, (h.coord_rest h.axis_lt).2, if_pos rfl]
    omega

theorem Tiled.length_points : ((b.bases axis k m).pointsWithStep axis k).length * k +
    (b.rest axis k m).points.length = b.points.length := by
  obtain ⟨w, hw⟩ := exists_length_pointsWithStep h.ranked h.axis_lt
  have hbases := hw (coord b.lb axis) (coord b.lb axis + (m - 1) * k + 1) k h.factor_pos
  have hrest := hw (coord b.lb axis + m * k) (coord b.ub axis) 1 (Nat.le_refl 1)
  have hall := hw (coord b.lb axis) (coord b.ub axis) 1 (Nat.le_refl 1)
  rw [withAxis_self h.ranked] at hall
  have hsum : m.toNat * k + (coord b.ub axis - (coord b.lb axis + m * k)).toNat =
      (coord b.ub axis - coord b.lb axis).toNat := by
    have hpos := h.groups_pos
    have hle := h.groups_le
    have hcast : ((m.toNat * k : Nat) : Int) = m * k := by
      rw [Int.natCast_mul, Int.toNat_of_nonneg (by omega)]
    omega
  rw [points_eq_pointsWithStep _ axis, points_eq_pointsWithStep _ axis, bases, rest, hbases, hrest, hall,
    length_coordinates _ h.factor_pos rfl, length_coordinates_one, length_coordinates_one,
    ← hsum, Nat.add_mul, Nat.mul_right_comm]

/-- A point before the rest stands in a group: its place there is the remainder of its distance from
the lower bound. -/
theorem Tiled.exists_base {q : Point} (hq : b.containsPoint q = true)
    (hbefore : coord q axis < coord b.lb axis + m * k) :
    ∃ p, p ∈ (b.bases axis k m).pointsWithStep axis k ∧ ∃ i, i < k ∧ Body.ahead p axis i = q := by
  obtain ⟨hlen, hq⟩ := (Box.containsPoint_iff h.ranked).mp hq
  have hqa := hq axis h.axis_lt
  have hk : (0 : Int) < k := by have := h.factor_pos; omega
  obtain ⟨hexp, _⟩ := h.groups_expand
  have hdiv := Int.mul_ediv_add_emod (coord q axis - coord b.lb axis) k
  have hmod := Int.emod_nonneg (coord q axis - coord b.lb axis) (by omega : (k : Int) ≠ 0)
  have hmod' := Int.emod_lt_of_pos (coord q axis - coord b.lb axis) hk
  have hgroup : (coord q axis - coord b.lb axis) / k < m := by
    apply Int.ediv_lt_of_lt_mul hk
    omega
  have hstart : (k : Int) * ((coord q axis - coord b.lb axis) / k) ≤ k * (m - 1) :=
    Int.mul_le_mul_of_nonneg_left (by omega) (by omega)
  rw [Int.mul_comm (k : Int) (m - 1)] at hstart
  have hnonneg : 0 ≤ (k : Int) * ((coord q axis - coord b.lb axis) / k) :=
    Int.mul_nonneg (by omega) (Int.ediv_nonneg (by omega) (by omega))
  obtain ⟨i, hi⟩ : ∃ i : Nat, (i : Int) = (coord q axis - coord b.lb axis) % k :=
    ⟨_, Int.toNat_of_nonneg hmod⟩
  have hp : ∀ d, d < n → coord (q.modify axis (· - (i : Int))) d =
      if axis = d then coord q d - i else coord q d :=
    fun d hd => coord_modify q axis _ (by rw [hlen]; exact hd)
  refine ⟨q.modify axis (· - (i : Int)), ?_, i, by omega, ?_⟩
  · rw [mem_pointsWithStep h.ranked_bases h.factor_pos, Box.containsPoint_iff h.ranked_bases]
    refine ⟨⟨by simpa using hlen, ?_⟩, ?_⟩
    · intro d hd
      have hqd := hq d hd
      rw [(h.coord_bases hd).1, (h.coord_bases hd).2, hp d hd]
      split
      · next he =>
        subst he
        omega
      · exact hqd
    · intro _
      rw [(h.coord_bases h.axis_lt).1, hp axis h.axis_lt, if_pos rfl]
      exact ⟨(coord q axis - coord b.lb axis) / k, by omega⟩
  · apply coord_ext (by simp)
    intro d hd
    have hd' : d < q.length := by simpa using hd
    rw [Body.coord_ahead (by simpa using hd'), hp d (by omega)]
    split <;> omega

theorem Tiled.containsPoint_ahead {p : Point}
    (hp : p ∈ (b.bases axis k m).pointsWithStep axis k) {i : Nat} (hi : i < k) :
    b.containsPoint (Body.ahead p axis i) = true := by
  obtain ⟨hp, _⟩ := (mem_pointsWithStep h.ranked_bases h.factor_pos).mp hp
  obtain ⟨hlen, hp⟩ := (Box.containsPoint_iff h.ranked_bases).mp hp
  obtain ⟨hexp, _⟩ := h.groups_expand
  have hle := h.groups_le
  rw [Box.containsPoint_iff h.ranked]
  refine ⟨by simpa using hlen, ?_⟩
  intro d hd
  have hpd := hp d hd
  rw [(h.coord_bases hd).1, (h.coord_bases hd).2] at hpd
  rw [Body.coord_ahead (by rw [hlen]; exact hd)]
  split at hpd
  · next he =>
    subst he
    rw [if_pos rfl]
    omega
  · next he =>
    rw [if_neg he]
    exact hpd

theorem Tiled.containsPoint_iff {q : Point} : b.containsPoint q = true ↔
    q ∈ Evaluation.written axis k ((b.bases axis k m).pointsWithStep axis k) ∨
      (b.rest axis k m).containsPoint q = true := by
  have hgroups : 0 ≤ m * (k : Int) := by
    have := h.groups_pos
    exact Int.mul_nonneg (by omega) (by omega)
  rw [Evaluation.mem_written]
  constructor
  · intro hq
    by_cases hbefore : coord q axis < coord b.lb axis + m * k
    · exact .inl (h.exists_base hq hbefore)
    · right
      obtain ⟨hlen, hq⟩ := (Box.containsPoint_iff h.ranked).mp hq
      rw [Box.containsPoint_iff h.ranked_rest]
      refine ⟨hlen, ?_⟩
      intro d hd
      have hqd := hq d hd
      rw [(h.coord_rest hd).1, (h.coord_rest hd).2]
      split
      · next he =>
        subst he
        omega
      · exact hqd
  · rintro (⟨p, hp, i, hi, rfl⟩ | hq)
    · exact h.containsPoint_ahead hp hi
    · obtain ⟨hlen, hq⟩ := (Box.containsPoint_iff h.ranked_rest).mp hq
      rw [Box.containsPoint_iff h.ranked]
      refine ⟨hlen, ?_⟩
      intro d hd
      have hqd := hq d hd
      rw [(h.coord_rest hd).1, (h.coord_rest hd).2] at hqd
      split at hqd <;> omega

theorem Tiled.coord_shifted_bases {o : Offset} (ho : o.length = n) (i : Nat) {d : Nat} (hd : d < n) :
    coord ((b.bases axis k m).shifted (o.compose (Offset.shiftedAlong (Offset.zeros n) axis i))).lb d =
        coord b.lb d + (coord o d + if axis = d then (i : Int) else 0) ∧
      coord ((b.bases axis k m).shifted (o.compose (Offset.shiftedAlong (Offset.zeros n) axis i))).ub d =
        (if axis = d then coord b.lb d + (m - 1) * k + 1 else coord b.ub d) +
          (coord o d + if axis = d then (i : Int) else 0) := by
  have hlen : (o.compose (Offset.shiftedAlong (Offset.zeros n) axis i)).length = n :=
    Offset.length_compose ho (by simp)
  have hc := coord_shifted h.ranked_bases hlen h.bases_nonempty hd
  rw [hc.1, hc.2, Offset.coord_compose_along ho hd, (h.coord_bases hd).1, (h.coord_bases hd).2]
  exact ⟨rfl, rfl⟩

section Reads

variable {c : Box} (hc : c.Ranked n) {o : Offset} (ho : o.length = n)

include hc ho

theorem Tiled.contains_bases_iff (i : Nat) : c.contains ((b.bases axis k m).shifted
    (o.compose (Offset.shiftedAlong (Offset.zeros n) axis i))) = true ↔ ∀ d, d < n →
      coord c.lb d ≤ coord b.lb d + (coord o d + if axis = d then (i : Int) else 0) ∧
      (if axis = d then coord b.lb d + (m - 1) * k + 1 else coord b.ub d) +
        (coord o d + if axis = d then (i : Int) else 0) ≤ coord c.ub d := by
  have hlen : (o.compose (Offset.shiftedAlong (Offset.zeros n) axis i)).length = n :=
    Offset.length_compose ho (by simp)
  rw [contains_iff hc (ranked_shifted h.ranked_bases hlen), isEmpty_shifted h.ranked_bases hlen,
    h.bases_nonempty]
  simp only [true_implies]
  apply forall_congr'
  intro d
  apply imp_congr_right
  intro hd
  rw [(h.coord_shifted_bases ho i hd).1, (h.coord_shifted_bases ho i hd).2]

theorem Tiled.contains_box_iff : c.contains (b.shifted o) = true ↔ ∀ d, d < n →
    coord c.lb d ≤ coord b.lb d + coord o d ∧ coord b.ub d + coord o d ≤ coord c.ub d := by
  rw [contains_iff hc (ranked_shifted h.ranked ho), isEmpty_shifted h.ranked ho, h.nonempty]
  simp only [true_implies]
  apply forall_congr'
  intro d
  apply imp_congr_right
  intro hd
  have hs := coord_shifted h.ranked ho h.nonempty hd
  rw [hs.1, hs.2]

theorem Tiled.contains_rest_iff : c.contains ((b.rest axis k m).shifted o) = true ↔
    (coord b.ub axis - coord b.lb axis ≠ m * k → ∀ d, d < n →
      coord c.lb d ≤ (if axis = d then coord b.lb d + m * k else coord b.lb d) + coord o d ∧
      coord b.ub d + coord o d ≤ coord c.ub d) := by
  rw [contains_iff hc (ranked_shifted h.ranked_rest ho), isEmpty_shifted h.ranked_rest ho,
    ← Bool.not_eq_true, h.rest_isEmpty_iff]
  apply imp_congr_right
  intro hne
  apply forall_congr'
  intro d
  apply imp_congr_right
  intro hd
  have hempty : (b.rest axis k m).isEmpty = false := by
    rw [← Bool.not_eq_true, h.rest_isEmpty_iff]
    exact hne
  have hs := coord_shifted h.ranked_rest ho hempty hd
  rw [hs.1, hs.2, (h.coord_rest hd).1, (h.coord_rest hd).2]

/-- What the groups read, replica by replica, and what the rest reads is what the box reads. -/
theorem Tiled.contains_shifted_iff : c.contains (b.shifted o) = true ↔
    (∀ i, i < k → c.contains ((b.bases axis k m).shifted
      (o.compose (Offset.shiftedAlong (Offset.zeros n) axis i))) = true) ∧
    c.contains ((b.rest axis k m).shifted o) = true := by
  have hk := h.factor_pos
  have hexp := h.groups_expand.1
  have hle := h.groups_le
  have hgroups : 0 ≤ m * (k : Int) := by
    have := h.groups_pos
    exact Int.mul_nonneg (by omega) (by omega)
  simp only [h.contains_bases_iff hc ho, h.contains_box_iff hc ho, h.contains_rest_iff hc ho]
  constructor
  · intro hin
    refine ⟨?_, ?_⟩
    · intro i hi d hd
      have hind := hin d hd
      split
      · next he =>
        subst he
        omega
      · omega
    · intro _ d hd
      have hind := hin d hd
      split <;> omega
  · rintro ⟨hall, hrest⟩ d hd
    -- the first replica reaches the lower bound, the last one and the rest reach the upper
    have hfirst := hall 0 hk d hd
    have hlast := hall (k - 1) (by omega) d hd
    by_cases he : axis = d
    · subst he
      rw [if_pos rfl, if_pos rfl] at hfirst hlast
      by_cases hfull : coord b.ub axis - coord b.lb axis = m * k
      · omega
      · have hin := hrest hfull axis hd
        omega
    · rw [if_neg he, if_neg he] at hfirst
      omega

end Reads

end Tiled

end Box

end Stencil
