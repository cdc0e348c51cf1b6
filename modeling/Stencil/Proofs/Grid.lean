import Stencil.Grid
import Stencil.Proofs.Box

/-! The points of a box and the cells of a grid. The points come in row-major order, so the place of
a point in a grid is its place among the points; a grid is known by the values at its points. -/

set_option autoImplicit false

namespace Stencil

namespace Box

theorem mem_coordinates {l u x : Int} {s : Nat} (hs : 1 ≤ s) :
    x ∈ coordinates l u s ↔ l ≤ x ∧ x < u ∧ (s : Int) ∣ x - l := by
  have hs' : (0 : Int) < s := by omega
  simp only [coordinates, List.mem_map, List.mem_range]
  constructor
  · rintro ⟨i, hi, rfl⟩
    have hle : ((i : Int) + 1) ≤ (u - l + s - 1) / s := by omega
    have hmul := (Int.le_ediv_iff_mul_le hs').mp hle
    rw [Int.add_mul, Int.one_mul, Int.mul_comm] at hmul
    have hnn : 0 ≤ (s : Int) * i := Int.mul_nonneg (by omega) (by omega)
    refine ⟨by omega, by omega, ?_⟩
    rw [Int.add_comm, Int.add_sub_cancel]
    exact Int.dvd_mul_right _ _
  · rintro ⟨hl, hu, ⟨k, hk⟩⟩
    have hk0 : 0 ≤ k := by
      apply Int.not_lt.mp
      intro hneg
      have := Int.mul_neg_of_pos_of_neg hs' hneg
      omega
    refine ⟨k.toNat, ?_, ?_⟩
    · have hle : k + 1 ≤ (u - l + s - 1) / s := by
        rw [Int.le_ediv_iff_mul_le hs', Int.add_mul, Int.one_mul, Int.mul_comm]
        omega
      omega
    · rw [Int.toNat_of_nonneg hk0]
      omega

theorem length_coordinates_one (l u : Int) : (coordinates l u 1).length = (u - l).toNat := by
  simp [coordinates]

theorem getElem_coordinates_one (l u : Int) {i : Nat} (h : i < (coordinates l u 1).length) :
    (coordinates l u 1)[i] = l + i := by
  simp [coordinates]

theorem mem_pointsOver {rs : List (Int × Int × Nat)} {p : Point} :
    p ∈ pointsOver rs ↔ p.length = rs.length ∧
      ∀ d r, rs[d]? = some r → coord p d ∈ coordinates r.1 r.2.1 r.2.2 := by
  induction rs generalizing p with
  | nil =>
    cases p with
    | nil => simp [pointsOver]
    | cons x p => simp [pointsOver]
  | cons r rs ih =>
    obtain ⟨l, u, s⟩ := r
    simp only [pointsOver, List.mem_flatMap, List.mem_map]
    constructor
    · rintro ⟨x, hx, q, hq, rfl⟩
      obtain ⟨hlen, hall⟩ := ih.mp hq
      refine ⟨by simp [hlen], ?_⟩
      intro d r hr
      cases d with
      | zero =>
        simp only [List.getElem?_cons_zero, Option.some.injEq] at hr
        subst hr
        exact hx
      | succ d =>
        rw [coord_cons_succ]
        exact hall d r (by simpa using hr)
    · rintro ⟨hlen, hall⟩
      cases p with
      | nil => simp at hlen
      | cons x p =>
        refine ⟨x, ?_, p, ?_, rfl⟩
        · simpa [coord_cons_zero] using hall 0 (l, u, s) (by simp)
        · apply ih.mpr
          refine ⟨by simpa using hlen, ?_⟩
          intro d r hr
          have := hall (d + 1) r (by simpa using hr)
          rwa [coord_cons_succ] at this

theorem getElem?_ranges {b : Box} {n d : Nat} (h : b.Ranked n) (hd : d < n) :
    b.ranges[d]? = some (coord b.lb d, coord b.ub d) := by
  have hd' : d < b.ranges.length := by rw [length_ranges h]; exact hd
  rw [List.getElem?_eq_getElem hd', getElem_ranges h hd']

theorem mem_pointsWithStep {b : Box} {n axis step : Nat} (h : b.Ranked n) (hs : 1 ≤ step) {p : Point} :
    p ∈ b.pointsWithStep axis step ↔ b.containsPoint p = true ∧
      (axis < n → (step : Int) ∣ coord p axis - coord b.lb axis) := by
  rw [pointsWithStep, mem_pointsOver, containsPoint_iff h]
  have hone : ∀ d, 1 ≤ if d = axis then max step 1 else 1 := by
    intro d
    split <;> omega
  simp only [List.length_mapIdx, length_ranges h, and_assoc]
  apply and_congr_right
  intro hlen
  constructor
  · intro hall
    have hat : ∀ d, d < n → coord p d ∈
        coordinates (coord b.lb d) (coord b.ub d) (if d = axis then max step 1 else 1) := by
      intro d hd
      exact hall d _ (by rw [List.getElem?_mapIdx, getElem?_ranges h hd]; rfl)
    constructor
    · intro d hd
      have := (mem_coordinates (hone d)).mp (hat d hd)
      exact ⟨this.1, this.2.1⟩
    · intro hax
      have := (mem_coordinates (hone axis)).mp (hat axis hax)
      rw [if_pos rfl, Nat.max_eq_left hs] at this
      exact this.2.2
  · rintro ⟨hbnd, hdvd⟩ d r hr
    rw [List.getElem?_mapIdx] at hr
    by_cases hd : d < n
    · rw [getElem?_ranges h hd] at hr
      simp only [Option.map_some, Option.some.injEq] at hr
      subst hr
      rw [mem_coordinates (hone d)]
      refine ⟨(hbnd d hd).1, (hbnd d hd).2, ?_⟩
      split
      · rename_i he
        subst he
        rw [Nat.max_eq_left hs]
        exact hdvd hd
      · exact ⟨coord p d - coord b.lb d, by simp⟩
    · rw [List.getElem?_eq_none (by rw [length_ranges h]; omega)] at hr
      simp at hr

theorem points_eq_pointsWithStep (b : Box) (axis : Nat) : b.points = b.pointsWithStep axis 1 := by
  have h : (b.ranges.map fun r => (r.1, r.2, 1)) =
      b.ranges.mapIdx fun d r => (r.1, r.2, if d = axis then max 1 1 else 1) := by
    apply List.ext_getElem (by simp)
    intro d h1 h2
    simp
  rw [points, pointsWithStep, h]

theorem mem_points {b : Box} {n : Nat} (h : b.Ranked n) {p : Point} :
    p ∈ b.points ↔ b.containsPoint p = true := by
  rw [points_eq_pointsWithStep b 0, mem_pointsWithStep h (Nat.le_refl 1)]
  simp

theorem points_eq_nil {b : Box} {n : Nat} (h : b.Ranked n) (he : b.isEmpty = true) : b.points = [] := by
  rw [List.eq_nil_iff_forall_not_mem]
  intro p hp
  obtain ⟨d, hd, hle⟩ := (isEmpty_iff h).mp he
  have hin := ((containsPoint_iff h).mp ((mem_points h).mp hp)).2 d hd
  omega

def rangesVolume : List (Int × Int) → Nat
  | [] => 1
  | r :: rs => (r.2 - r.1).toNat * rangesVolume rs

def rangesPoints (rs : List (Int × Int)) : List Point := pointsOver (rs.map fun r => (r.1, r.2, 1))

theorem points_eq_rangesPoints (b : Box) : b.points = rangesPoints b.ranges := rfl

theorem rangesPoints_cons (r : Int × Int) (rs : List (Int × Int)) :
    rangesPoints (r :: rs) =
      (coordinates r.1 r.2 1).flatMap fun x => (rangesPoints rs).map (x :: ·) := rfl

theorem length_flatMap_const {β γ : Type} (xs : List β) (f : β → List γ) (n : Nat)
    (h : ∀ x, (f x).length = n) : (xs.flatMap f).length = xs.length * n := by
  induction xs with
  | nil => simp
  | cons x xs ih => simp [List.flatMap_cons, h, ih, Nat.add_mul, Nat.add_comm]

theorem getElem?_flatMap_const {β γ : Type} (xs : List β) (f : β → List γ) (n : Nat) (hn : 0 < n)
    (h : ∀ x, (f x).length = n) (i : Nat) :
    (xs.flatMap f)[i]? = xs[i / n]?.bind fun x => (f x)[i % n]? := by
  induction xs generalizing i with
  | nil => simp
  | cons x xs ih =>
    rw [List.flatMap_cons]
    by_cases hi : i < n
    · rw [List.getElem?_append_left (by rw [h]; exact hi), Nat.div_eq_of_lt hi, Nat.mod_eq_of_lt hi]
      simp
    · have hni : n ≤ i := by omega
      rw [List.getElem?_append_right (by rw [h]; exact hni), h, ih]
      have hdiv : i / n = (i - n) / n + 1 := by
        rw [Nat.div_eq_sub_div hn hni]
      have hmod : i % n = (i - n) % n := Nat.mod_eq_sub_mod hni
      rw [hdiv, hmod, List.getElem?_cons_succ]

theorem getElem?_flatMap_row {β γ : Type} (xs : List β) (f : β → List γ) {n v : Nat}
    (h : ∀ x, (f x).length = n) (hv : v < n) (j : Nat) :
    (xs.flatMap f)[j * n + v]? = xs[j]?.bind fun x => (f x)[v]? := by
  have hdiv : (j * n + v) / n = j := by
    rw [Nat.mul_comm, Nat.mul_add_div (by omega), Nat.div_eq_of_lt hv, Nat.add_zero]
  have hmod : (j * n + v) % n = v := by
    rw [Nat.mul_comm, Nat.mul_add_mod, Nat.mod_eq_of_lt hv]
  rw [getElem?_flatMap_const xs f n (by omega) h, hdiv, hmod]

theorem length_rangesPoints (rs : List (Int × Int)) : (rangesPoints rs).length = rangesVolume rs := by
  induction rs with
  | nil => rfl
  | cons r rs ih =>
    rw [rangesPoints_cons, length_flatMap_const _ _ (rangesVolume rs) (by simp [ih]),
      length_coordinates_one]
    rfl

theorem placeFrom_start (start : Nat) (rs : List (Int × Int)) (p : Point) (h : p.length = rs.length) :
    Grid.placeFrom start rs p = start * rangesVolume rs + Grid.placeFrom 0 rs p := by
  induction rs generalizing start p with
  | nil => simp [Grid.placeFrom, rangesVolume]
  | cons r rs ih =>
    cases p with
    | nil => simp at h
    | cons x p =>
      have hp : p.length = rs.length := by simpa using h
      rw [Grid.placeFrom, Grid.placeFrom, ih _ p hp, ih (0 * _ + _) p hp, rangesVolume]
      simp only [Nat.add_mul, Nat.zero_mul, Nat.zero_add, Nat.mul_assoc, Nat.add_assoc]

/-- The place of a point in row-major order is its place among the points. -/
theorem placeFrom_rangesPoints {rs : List (Int × Int)} {i : Nat} {p : Point}
    (h : (rangesPoints rs)[i]? = some p) : Grid.placeFrom 0 rs p = i := by
  induction rs generalizing i p with
  | nil =>
    have hi : i < 1 := by
      have := (List.getElem?_eq_some_iff.mp h).1
      simpa [rangesPoints, pointsOver] using this
    simp only [Grid.placeFrom]
    omega
  | cons r rs ih =>
    have hlen := (List.getElem?_eq_some_iff.mp h).1
    rw [length_rangesPoints, rangesVolume] at hlen
    have hpos : 0 < rangesVolume rs := by
      apply Nat.pos_of_ne_zero
      intro hz
      rw [hz] at hlen
      omega
    rw [rangesPoints_cons, getElem?_flatMap_const _ _ (rangesVolume rs) hpos
      (by simp [length_rangesPoints])] at h
    obtain ⟨x, hx, hrow⟩ := Option.bind_eq_some_iff.mp h
    rw [List.getElem?_map] at hrow
    obtain ⟨q, hq, rfl⟩ := Option.map_eq_some_iff.mp hrow
    obtain ⟨hxl, hxe⟩ := List.getElem?_eq_some_iff.mp hx
    rw [getElem_coordinates_one] at hxe
    have hqlen : q.length = rs.length := by
      have := (mem_pointsOver.mp (List.mem_of_getElem? hq)).1
      simpa using this
    rw [Grid.placeFrom, placeFrom_start _ rs q hqlen, ih hq]
    have hx' : (x - r.1).toNat = i / rangesVolume rs := by
      rw [← hxe, Int.add_comm, Int.add_sub_cancel, Int.toNat_natCast]
    rw [Nat.zero_mul, Nat.zero_add, hx', Nat.mul_comm]
    exact Nat.div_add_mod _ _

theorem length_of_between {ls us p : List Int} (h : between ls us p = true) :
    p.length = ls.length ∧ ls.length ≤ us.length := by
  induction ls generalizing us p with
  | nil => cases p <;> simp_all [between]
  | cons l ls ih =>
    cases us with
    | nil => cases p <;> simp [between] at h
    | cons u us =>
      cases p with
      | nil => simp [between] at h
      | cons x p =>
        simp only [between, Bool.and_eq_true] at h
        simpa using ih h.2

theorem placeFrom_lt {ls us : List Int} {p : Point} (h : between ls us p = true) :
    Grid.placeFrom 0 (ls.zip us) p < rangesVolume (ls.zip us) := by
  induction ls generalizing us p with
  | nil => simp [Grid.placeFrom, rangesVolume]
  | cons l ls ih =>
    cases us with
    | nil => cases p <;> simp [between] at h
    | cons u us =>
      cases p with
      | nil => simp [between] at h
      | cons x p =>
        simp only [between, Bool.and_eq_true, decide_eq_true_eq] at h
        obtain ⟨⟨hl, hu⟩, hrest⟩ := h
        have hp : p.length = (ls.zip us).length := by
          have hlen := length_of_between hrest
          rw [List.length_zip]
          omega
        have hlt := ih hrest
        rw [List.zip_cons_cons, Grid.placeFrom, placeFrom_start _ _ p hp, rangesVolume]
        have hx : (x - l).toNat + 1 ≤ (u - l).toNat := by omega
        have hm := Nat.mul_le_mul_right (rangesVolume (ls.zip us)) hx
        rw [Nat.add_mul, Nat.one_mul] at hm
        simp only [Nat.zero_mul, Nat.zero_add]
        omega

theorem rangesVolume_eq_zero {rs : List (Int × Int)} (h : rs.any (fun r => r.2 ≤ r.1) = true) :
    rangesVolume rs = 0 := by
  induction rs with
  | nil => simp at h
  | cons r rs ih =>
    simp only [List.any_cons, Bool.or_eq_true, decide_eq_true_eq] at h
    rw [rangesVolume]
    rcases h with h | h
    · have : (r.2 - r.1).toNat = 0 := by omega
      rw [this, Nat.zero_mul]
    · rw [ih h, Nat.mul_zero]

theorem foldl_mul_eq (a : Nat) (rs : List (Int × Int)) :
    (rs.map fun r => (r.2 - r.1).toNat).foldl (· * ·) a = a * rangesVolume rs := by
  induction rs generalizing a with
  | nil => simp [rangesVolume]
  | cons r rs ih => rw [List.map_cons, List.foldl_cons, ih, rangesVolume, Nat.mul_assoc]

theorem volume_eq {b : Box} (h : b.lb.length ≤ b.ub.length) : b.volume = rangesVolume b.ranges := by
  unfold volume
  split
  · rename_i he
    exact (rangesVolume_eq_zero he).symm
  · have hext : ((List.range b.rank).map fun d => (b.extent d).toNat) =
        b.ranges.map fun r => (r.2 - r.1).toNat := by
      apply List.ext_getElem (by simp [ranges, rank]; omega)
      intro d h1 h2
      have hd : d < b.lb.length := by simpa [rank] using h1
      have hd' : d < b.ub.length := by omega
      simp only [List.getElem_map, List.getElem_range, extent, List.getElem?_eq_getElem hd,
        List.getElem?_eq_getElem hd', ranges, List.getElem_zip]
      omega
    rw [hext, foldl_mul_eq, Nat.one_mul]

theorem Ranked.volume_eq {b : Box} {n : Nat} (h : b.Ranked n) : b.volume = rangesVolume b.ranges :=
  Box.volume_eq (Nat.le_of_eq (h.lb.trans h.ub.symm))

theorem length_points {b : Box} {n : Nat} (h : b.Ranked n) : b.points.length = b.volume := by
  rw [points_eq_rangesPoints, length_rangesPoints, h.volume_eq]

theorem place_lt_volume {b : Box} {p : Point} (h : b.containsPoint p = true) :
    Grid.placeFrom 0 b.ranges p < b.volume := by
  rw [volume_eq (length_of_between h).2]
  exact placeFrom_lt h

theorem getElem?_points_place {b : Box} {n : Nat} (h : b.Ranked n) {p : Point}
    (hp : b.containsPoint p = true) : b.points[Grid.placeFrom 0 b.ranges p]? = some p := by
  obtain ⟨i, hi⟩ := List.mem_iff_getElem?.mp ((mem_points h).mpr hp)
  rw [placeFrom_rangesPoints hi]
  exact hi

end Box

namespace Grid

variable {α : Type}

/-- There is one value per point of the domain. -/
def Dense (g : Grid α) : Prop := g.data.size = g.domain.volume

theorem get?_of_mem {g : Grid α} {p : Point} (h : g.domain.containsPoint p = true) :
    g.get? p = g.data[placeFrom 0 g.domain.ranges p]? := by
  simp [get?, place?, h]

theorem get?_of_not_mem {g : Grid α} {p : Point} (h : g.domain.containsPoint p = false) :
    g.get? p = none := by
  simp [get?, place?, h]

theorem Dense.exists_get? {g : Grid α} (hg : g.Dense) {p : Point}
    (h : g.domain.containsPoint p = true) : ∃ v, g.get? p = some v := by
  have hlt := Box.place_lt_volume h
  rw [← hg] at hlt
  exact ⟨g.data[placeFrom 0 g.domain.ranges p], by rw [get?_of_mem h, Array.getElem?_eq_getElem hlt]⟩

theorem dense_fill (domain : Box) (v : α) : (fill domain v).Dense := by simp [Dense, fill]

theorem dense_ofFn {domain : Box} {n : Nat} (h : domain.Ranked n) (f : Point → α) :
    (ofFn domain f).Dense := by
  simp [Dense, ofFn, Box.length_points h]

@[simp] theorem domain_fill (domain : Box) (v : α) : (fill domain v).domain = domain := rfl

@[simp] theorem domain_ofFn (domain : Box) (f : Point → α) : (ofFn domain f).domain = domain := rfl

@[simp] theorem domain_set (g : Grid α) (p : Point) (v : α) : (g.set p v).domain = g.domain := by
  unfold set
  split <;> rfl

@[simp] theorem size_set (g : Grid α) (p : Point) (v : α) : (g.set p v).data.size = g.data.size := by
  unfold set
  split
  · simp
  · rfl

theorem Dense.set {g : Grid α} (hg : g.Dense) (p : Point) (v : α) : (g.set p v).Dense := by
  unfold Dense at *
  rw [size_set, domain_set]
  exact hg

theorem data_set_of_mem {g : Grid α} {p : Point} (h : g.domain.containsPoint p = true) (v : α) :
    (g.set p v).data = g.data.setIfInBounds (placeFrom 0 g.domain.ranges p) v := by
  simp [Grid.set, place?, h]

theorem get?_set_self {g : Grid α} (hg : g.Dense) {p : Point} (h : g.domain.containsPoint p = true)
    (v : α) : (g.set p v).get? p = some v := by
  have hlt := Box.place_lt_volume h
  rw [← hg] at hlt
  rw [get?_of_mem (by rw [domain_set]; exact h), domain_set, data_set_of_mem h]
  simp [hlt]

theorem get?_set_of_ne {g : Grid α} {n : Nat} (hr : g.domain.Ranked n) {p q : Point} (hpq : p ≠ q)
    (v : α) : (g.set p v).get? q = g.get? q := by
  cases hq : g.domain.containsPoint q with
  | false => rw [get?_of_not_mem hq, get?_of_not_mem (by rw [domain_set]; exact hq)]
  | true =>
    rw [get?_of_mem hq, get?_of_mem (by rw [domain_set]; exact hq), domain_set]
    cases hp : g.domain.containsPoint p with
    | false => simp [Grid.set, place?, hp]
    | true =>
      rw [data_set_of_mem hp]
      apply Array.getElem?_setIfInBounds_ne
      intro he
      have h1 := Box.getElem?_points_place hr hp
      have h2 := Box.getElem?_points_place hr hq
      rw [he, h2] at h1
      exact hpq (Option.some.inj h1).symm

theorem get?_ofFn {domain : Box} {n : Nat} (h : domain.Ranked n) (f : Point → α) {p : Point}
    (hp : domain.containsPoint p = true) : (ofFn domain f).get? p = some (f p) := by
  rw [get?_of_mem (by exact hp)]
  simp only [ofFn, List.getElem?_toArray, List.getElem?_map, Box.getElem?_points_place h hp,
    Option.map_some]

theorem ext_get? {g h : Grid α} {n : Nat} (hr : g.domain.Ranked n) (hd : g.domain = h.domain)
    (hg : g.Dense) (hh : h.Dense)
    (hv : ∀ p, g.domain.containsPoint p = true → g.get? p = h.get? p) : g = h := by
  obtain ⟨gd, gdata⟩ := g
  obtain ⟨hdom, hdata⟩ := h
  simp only at hr hd hv
  subst hd
  simp only [Dense] at hg hh
  have he : gdata = hdata := by
    apply Array.ext_getElem?
    intro i
    by_cases hi : i < gd.volume
    · have hi' : i < gd.points.length := by rw [Box.length_points hr]; exact hi
      have hp : gd.containsPoint gd.points[i] = true :=
        (Box.mem_points hr).mp (List.getElem_mem hi')
      have hplace : placeFrom 0 gd.ranges gd.points[i] = i :=
        Box.placeFrom_rangesPoints (List.getElem?_eq_getElem hi')
      have := hv _ hp
      rw [get?_of_mem hp, get?_of_mem hp, hplace] at this
      exact this
    · rw [Array.getElem?_eq_none (by omega), Array.getElem?_eq_none (by omega)]
  rw [he]

def setAll (g : Grid α) (points : List Point) (f : Point → α) : Grid α :=
  points.foldl (fun g p => g.set p (f p)) g

@[simp] theorem domain_setAll (g : Grid α) (points : List Point) (f : Point → α) :
    (g.setAll points f).domain = g.domain := by
  induction points generalizing g with
  | nil => rfl
  | cons p ps ih => rw [setAll, List.foldl_cons, ← setAll, ih, domain_set]

theorem Dense.setAll {g : Grid α} (hg : g.Dense) (points : List Point) (f : Point → α) :
    (g.setAll points f).Dense := by
  induction points generalizing g with
  | nil => exact hg
  | cons p ps ih => exact ih (hg.set p (f p))

theorem setAll_append (g : Grid α) (ps qs : List Point) (f : Point → α) :
    g.setAll (ps ++ qs) f = (g.setAll ps f).setAll qs f := List.foldl_append

theorem get?_setAll {g : Grid α} {n : Nat} (hr : g.domain.Ranked n) (hg : g.Dense)
    (points : List Point) (f : Point → α) {p : Point} (hp : g.domain.containsPoint p = true)
    (hmem : p ∈ points ∨ g.get? p = some (f p)) : (g.setAll points f).get? p = some (f p) := by
  induction points generalizing g with
  | nil =>
    rcases hmem with hmem | hmem
    · cases hmem
    · exact hmem
  | cons q qs ih =>
    rw [setAll, List.foldl_cons, ← setAll]
    apply ih (by rw [domain_set]; exact hr) (hg.set q (f q)) (by rw [domain_set]; exact hp)
    by_cases hq : q = p
    · subst hq
      exact .inr (get?_set_self hg hp (f q))
    · rcases hmem with hmem | hmem
      · rcases List.mem_cons.mp hmem with he | hm
        · exact absurd he.symm hq
        · exact .inl hm
      · rw [get?_set_of_ne hr hq]
        exact .inr hmem

theorem setAll_eq_ofFn {g : Grid α} {n : Nat} (hr : g.domain.Ranked n) (hg : g.Dense)
    (points : List Point) (f : Point → α)
    (hall : ∀ p, g.domain.containsPoint p = true → p ∈ points) :
    g.setAll points f = ofFn g.domain f := by
  apply ext_get? (by rw [domain_setAll]; exact hr) (by simp) (hg.setAll points f) (dense_ofFn hr f)
  intro p hp
  rw [domain_setAll] at hp
  rw [get?_setAll hr hg points f hp (.inl (hall p hp)), get?_ofFn hr f hp]

end Grid

end Stencil
