import Stencil.Proofs.Grid
import Stencil.Proofs.Machine

/-! Walking and numbering the points of a box on a machine. An odometer moves on in the last
dimension and carries into the one before, volumes are products of extents, and the place of a point
is counted up dimension by dimension. As long as 64 bits hold what is formed on the way, these are
the points, the volume and the places of the box. -/

set_option autoImplicit false

namespace Stencil

namespace Box

def starts (rs : List (Int × Int × Nat)) : Point := rs.map (·.1)

/-- The point behind `p`: a step in the last dimension that has room for it, and the lower bounds in those
behind it. -/
def successor : List (Int × Int × Nat) → Point → Option Point
  | (_, u, s) :: rs, x :: p =>
    ((successor rs p).map (x :: ·)).or (if x + s < u then some ((x + s) :: starts rs) else none)
  | _, _ => none

/-- The points of the list follow one another from `start` on, and there is none behind the last. -/
inductive Traces (next : Point → Option Point) : Option Point → List Point → Prop where
  | done : Traces next none []
  | step {p : Point} {ps : List Point} : Traces next (next p) ps → Traces next (some p) (p :: ps)

theorem Traces.getElem?_zero {next : Point → Option Point} {start : Option Point} {ps : List Point}
    (h : Traces next start ps) : ps[0]? = start := by
  cases h <;> rfl

theorem Traces.getElem?_succ {next : Point → Option Point} {start : Option Point} {ps : List Point}
    (h : Traces next start ps) {i : Nat} {p : Point} (hp : ps[i]? = some p) : ps[i + 1]? = next p := by
  induction h generalizing i with
  | done => cases hp
  | step hrest ih =>
    cases i with
    | zero =>
      cases hp
      exact hrest.getElem?_zero
    | succ i => exact ih hp

theorem Traces.row {l u x : Int} {s : Nat} {rs : List (Int × Int × Nat)} {start : Option Point}
    {ps qs : List Point}
    (hps : Traces (successor rs) start ps)
    (hqs : Traces (successor ((l, u, s) :: rs))
      (if x + s < u then some ((x + s) :: starts rs) else none) qs) :
    Traces (successor ((l, u, s) :: rs))
      ((start.map (x :: ·)).or (if x + s < u then some ((x + s) :: starts rs) else none))
      (ps.map (x :: ·) ++ qs) := by
  induction hps with
  | done => exact hqs
  | step _ ih => exact .step ih

theorem coordinates_eq (l u : Int) {s : Nat} (hs : 1 ≤ s) :
    coordinates l u s = if l < u then l :: coordinates (l + s) u s else [] := by
  have hs' : (0 : Int) < s := by omega
  split
  · next hlt =>
    have hnum : u - l + s - 1 = u - l - 1 + s := by omega
    have hrest : u - (l + s) + s - 1 = u - l - 1 := by omega
    have hcount : ((u - l + s - 1) / s).toNat = ((u - (l + s) + s - 1) / s).toNat + 1 := by
      have hnonneg : 0 ≤ (u - l - 1) / (s : Int) := Int.ediv_nonneg (by omega) (by omega)
      rw [hnum, hrest, Int.add_ediv_of_dvd_right (Int.dvd_refl _), Int.ediv_self (by omega)]
      omega
    rw [coordinates, coordinates, hcount, List.range_succ_eq_map, List.map_cons, List.map_map]
    refine List.cons_eq_cons.mpr ⟨by simp, List.map_congr_left fun i _ => ?_⟩
    rw [Function.comp_apply, Int.natCast_succ, Int.mul_add, Int.mul_one]
    omega
  · next hge =>
    rw [List.eq_nil_iff_forall_not_mem]
    intro x hx
    have := (mem_coordinates hs).mp hx
    omega

/-- Ranges with a coordinate each, and steps that move. -/
def Open (rs : List (Int × Int × Nat)) : Prop := ∀ r ∈ rs, r.1 < r.2.1 ∧ 1 ≤ r.2.2

theorem traces_pointsOver {rs : List (Int × Int × Nat)} (h : Open rs) :
    Traces (successor rs) (some (starts rs)) (pointsOver rs) := by
  induction rs with
  | nil => exact .step .done
  | cons r rs ih =>
    obtain ⟨l, u, s⟩ := r
    obtain ⟨hlt, hs⟩ : l < u ∧ 1 ≤ s := h (l, u, s) List.mem_cons_self
    have hrow := ih fun r hr => h r (List.mem_cons_of_mem _ hr)
    -- the rows from the coordinate `x` on, by the number of coordinates that are left
    have hrows : ∀ (k : Nat) (x : Int), (u - x).toNat ≤ k → Traces (successor ((l, u, s) :: rs))
        (if x < u then some (x :: starts rs) else none)
        ((coordinates x u s).flatMap fun x => (pointsOver rs).map (x :: ·)) := by
      intro k
      induction k with
      | zero =>
        intro x hx
        rw [coordinates_eq x u hs, if_neg (by omega), if_neg (by omega)]
        exact .done
      | succ k ihk =>
        intro x hx
        rw [coordinates_eq x u hs]
        split
        · exact hrow.row (ihk (x + s) (by omega))
        · exact .done
    have hall := hrows _ l (Nat.le_refl _)
    rw [if_pos hlt] at hall
    exact hall

/-- The odometer looks at the last dimension first. -/
theorem successor_concat {rs : List (Int × Int × Nat)} {p : Point} (h : p.length = rs.length)
    (l u x : Int) (s : Nat) :
    successor (rs ++ [(l, u, s)]) (p ++ [x]) =
      (if x + s < u then some (p ++ [x + s]) else none).or ((successor rs p).map (· ++ [l])) := by
  induction rs generalizing p with
  | nil =>
    cases p with
    | nil => simp [successor, starts]
    | cons y p => cases h
  | cons r rs ih =>
    obtain ⟨l', u', s'⟩ := r
    cases p with
    | nil => cases h
    | cons y p =>
      rw [List.cons_append, List.cons_append, successor, ih (by simpa using h)]
      by_cases hroom : x + s < u
      · simp [hroom]
      · simp only [hroom, if_false, Option.none_or, successor]
        cases successor rs p with
        | some q => simp
        | none =>
          split
          · simp [starts]
          · rfl

def steps (b : Box) (stride : Nat → Nat) : List (Int × Int × Nat) :=
  b.ranges.mapIdx fun d r => (r.1, r.2, stride d)

/-- One along each dimension, but `s` along `axis`. -/
def along (axis s : Nat) (d : Nat) : Nat := if d = axis then max s 1 else 1

theorem pointsWithStep_eq (b : Box) (axis s : Nat) :
    b.pointsWithStep axis s = pointsOver (b.steps (along axis s)) := rfl

theorem along_one (axis : Nat) : along axis 1 = fun _ => 1 := by
  funext d
  simp [along]

theorem points_eq (b : Box) : b.points = pointsOver (b.steps fun _ => 1) := by
  rw [points_eq_pointsWithStep b 0, pointsWithStep_eq, along_one]

section Steps

variable {b : Box} {n : Nat} (h : b.Ranked n) (stride : Nat → Nat)

include h

theorem length_steps : (b.steps stride).length = n := by rw [steps, List.length_mapIdx, length_ranges h]

theorem getElem?_steps {d : Nat} (hd : d < n) :
    (b.steps stride)[d]? = some (coord b.lb d, coord b.ub d, stride d) := by
  rw [steps, List.getElem?_mapIdx, getElem?_ranges h hd]
  rfl

theorem starts_steps : starts (b.steps stride) = b.lb := by
  apply coord_ext
  · rw [starts, List.length_map, length_steps h, h.lb]
  · intro d hd
    rw [starts, List.length_map, length_steps h] at hd
    rw [coord, List.getD_eq_getElem?_getD, starts, List.getElem?_map, getElem?_steps h stride hd]
    rfl

theorem open_steps (hne : b.isEmpty = false) (hs : ∀ d, 1 ≤ stride d) : Open (b.steps stride) := by
  intro r hr
  obtain ⟨d, hd⟩ := List.mem_iff_getElem?.mp hr
  have hdn : d < n := by
    rw [← length_steps h stride]
    exact (List.getElem?_eq_some_iff.mp hd).1
  rw [getElem?_steps h stride hdn] at hd
  cases hd
  exact ⟨(isEmpty_eq_false_iff h).mp hne d hdn, hs d⟩

theorem containsPoint_of_mem_walk
    (hs : ∀ d, 1 ≤ stride d) {p : Point} (hp : p ∈ pointsOver (b.steps stride)) :
    b.containsPoint p = true := by
  obtain ⟨hlen, hall⟩ := mem_pointsOver.mp hp
  rw [length_steps h] at hlen
  refine (containsPoint_iff h).mpr ⟨hlen, fun d hd => ?_⟩
  have := (mem_coordinates (hs d)).mp (hall d _ (getElem?_steps h stride hd))
  exact ⟨this.1, this.2.1⟩

end Steps

theorem one_le_along (axis s d : Nat) : 1 ≤ along axis s d := by
  rw [along]
  split <;> omega

theorem mem_coordinates_iff_exists {l u x : Int} {s : Nat} :
    x ∈ coordinates l u s ↔ ∃ i < (coordinates l u s).length, x = l + s * (i : Nat) := by
  simp only [coordinates, List.mem_map, List.mem_range, List.length_map, List.length_range]
  constructor
  · rintro ⟨i, hi, hx⟩
    exact ⟨i, hi, hx.symm⟩
  · rintro ⟨i, hi, hx⟩
    exact ⟨i, hi, hx.symm⟩

section Past

variable {b : Box} {axis s : Nat} {x : Int}

theorem add_le_past (hx : x ∈ coordinates (coord b.lb axis) (coord b.ub axis) (max s 1)) :
    x + (max s 1 : Nat) ≤ b.past axis s := by
  obtain ⟨i, hi, rfl⟩ := mem_coordinates_iff_exists.mp hx
  have hmul := Int.mul_le_mul_of_nonneg_left (Int.ofNat_le.mpr hi) (Int.natCast_nonneg (max s 1))
  rw [Int.natCast_succ, Int.mul_add, Int.mul_one] at hmul
  rw [past, ← coord, ← coord]
  omega

theorem add_eq_past (hx : x ∈ coordinates (coord b.lb axis) (coord b.ub axis) (max s 1))
    (hout : coord b.ub axis ≤ x + (max s 1 : Nat)) : x + (max s 1 : Nat) = b.past axis s := by
  apply Int.le_antisymm (add_le_past hx)
  obtain ⟨i, hi, rfl⟩ := mem_coordinates_iff_exists.mp hx
  -- the last coordinate lies inside, so it is not behind this one
  have hlast : (coordinates (coord b.lb axis) (coord b.ub axis) (max s 1)).length ≤ i + 1 := by
    apply Nat.le_of_not_lt
    intro hlt
    have hmem := mem_coordinates_iff_exists.mpr ⟨i + 1, hlt, rfl⟩
    have := ((mem_coordinates (by omega)).mp hmem).2.1
    rw [Int.natCast_succ, Int.mul_add, Int.mul_one] at this
    omega
  have hmul := Int.mul_le_mul_of_nonneg_left (Int.ofNat_le.mpr hlast) (Int.natCast_nonneg (max s 1))
  rw [Int.natCast_succ, Int.mul_add, Int.mul_one] at hmul
  rw [past, ← coord, ← coord]
  omega

end Past

end Box

namespace Machine

variable (M : Machine)

/-- The point behind `p`, when `d` more dimensions can be moved on. It is `none` behind the last point. -/
def advance (b : Box) (stride : Nat → Nat) : Nat → Point → Option (Option Point)
  | 0, _ => some none
  | d + 1, p => do
    let x ← M.add (coord p d) (stride d)
    if x < coord b.ub d then return some (p.set d x) else advance b stride d (p.set d (coord b.lb d))

/-- Where the odometer stands after that many points. -/
def odometer (b : Box) (stride : Nat → Nat) : Nat → Option (Option Point)
  | 0 => some (if b.isEmpty then none else some b.lb)
  | i + 1 => do
    match ← odometer b stride i with
    | some p => M.advance b stride b.rank p
    | none => return none

section Odometer

variable {M} {b : Box} {n : Nat} {stride : Nat → Nat}

open Box

/-- Moving on dimension by dimension, from the last one back, is moving to the next point. -/
theorem advance_eq (h : b.Ranked n) {d : Nat} (hd : d ≤ n) {p : Point} (hp : p.length = n)
    (hadd : ∀ e, e < d → M.add (coord p e) (stride e) = some (coord p e + stride e)) :
    M.advance b stride d p =
      some ((successor ((b.steps stride).take d) (p.take d)).map (· ++ p.drop d)) := by
  induction d generalizing p with
  | zero => simp [advance, successor]
  | succ d ih =>
    have hdp : d < p.length := by omega
    have hsteps : (b.steps stride).take (d + 1) =
        (b.steps stride).take d ++ [(coord b.lb d, coord b.ub d, stride d)] := by
      rw [List.take_add_one, getElem?_steps h stride (by omega), Option.toList_some]
    have hpoint : p.take (d + 1) = p.take d ++ [coord p d] := by
      rw [List.take_add_one, List.getElem?_eq_getElem hdp, Option.toList_some, coord_eq_getElem hdp]
    have hset : ∀ x : Int, p.set d x = p.take d ++ x :: p.drop (d + 1) := by
      intro x
      rw [List.set_eq_take_append_cons_drop, if_pos hdp]
    have hlen : (p.take d).length = ((b.steps stride).take d).length := by
      rw [List.length_take, List.length_take, length_steps h]
      omega
    have htake : ∀ x, (p.set d x).take d = p.take d := fun x => List.take_set_of_le (Nat.le_refl d)
    have hdrop : ∀ x, (p.set d x).drop d = x :: p.drop (d + 1) := by
      intro x
      rw [hset, List.drop_left' (by rw [List.length_take]; omega)]
    rw [hsteps, hpoint, successor_concat hlen, advance, hadd d (by omega)]
    simp only [Option.bind_eq_bind, Option.bind_some]
    by_cases hroom : coord p d + stride d < coord b.ub d
    · simp [hroom, hset]
    · have hrest : ∀ e, e < d → M.add (coord (p.set d (coord b.lb d)) e) (stride e) =
          some (coord (p.set d (coord b.lb d)) e + stride e) := by
        intro e he
        rw [coord_set _ _ _ (by omega), if_neg (by omega)]
        exact hadd e (by omega)
      rw [if_neg hroom, if_neg hroom, Option.none_or, ih (by omega) (by rw [List.length_set, hp]) hrest,
        htake, hdrop, Option.map_map]
      simp [Function.comp_def]

/-- After `i` points the odometer stands at the point number `i`, if the machine adds right along
the way. -/
theorem odometer_eq (h : b.Ranked n) (hs : ∀ d, 1 ≤ stride d)
    (hadd : ∀ p ∈ pointsOver (b.steps stride), ∀ d, d < n →
      M.add (coord p d) (stride d) = some (coord p d + stride d))
    (i : Nat) : M.odometer b stride i = some (pointsOver (b.steps stride))[i]? := by
  cases he : b.isEmpty with
  | true =>
    have hnil : pointsOver (b.steps stride) = [] := by
      rw [List.eq_nil_iff_forall_not_mem]
      intro p hp
      have hne := isEmpty_of_containsPoint h (containsPoint_of_mem_walk h stride hs hp)
      rw [he] at hne
      cases hne
    induction i with
    | zero => rw [odometer, if_pos he, hnil]; rfl
    | succ i ih => rw [odometer, ih, hnil]; rfl
  | false =>
    have htraces := traces_pointsOver (open_steps h stride he hs)
    induction i with
    | zero =>
      rw [odometer, if_neg (by simp [he]), htraces.getElem?_zero, starts_steps h]
    | succ i ih =>
      rw [odometer, ih]
      cases hp : (pointsOver (b.steps stride))[i]? with
      | none =>
        rw [List.getElem?_eq_none_iff] at hp
        rw [List.getElem?_eq_none (by omega)]
        rfl
      | some p =>
        have hmem := List.mem_of_getElem? hp
        have hlen := ((containsPoint_iff h).mp (containsPoint_of_mem_walk h stride hs hmem)).1
        have hadvance := advance_eq h (Nat.le_refl n) hlen (hadd p hmem)
        rw [List.take_of_length_le (Nat.le_of_eq (length_steps h stride)),
          List.take_of_length_le (by omega), List.drop_eq_nil_of_le (by omega)] at hadvance
        rw [htraces.getElem?_succ hp]
        simp only [Option.bind_eq_bind, Option.bind_some, h.rank_eq, hadvance, List.append_nil,
          Option.map_id']

end Odometer

open Box

def volume (b : Box) : Option Int :=
  if b.isEmpty then some 0 else (List.range b.rank).foldlM (fun v d => do M.mul v (← M.extent b d)) 1

/-- The place of a point, counted on from `i` in the dimensions from `d` on. -/
def placeFrom (b : Box) : Int → Nat → Point → Option Int
  | i, _, [] => some i
  | i, d, x :: p => do
    let row ← M.mul i (← M.extent b d)
    let j ← M.add row (← M.sub x (coord b.lb d))
    placeFrom b j (d + 1) p

def place? (b : Box) (p : Point) : Option (Option Int) :=
  if b.containsPoint p then (M.placeFrom b 0 0 p).map some else some none

/-- 64 bits hold every bound of the box. -/
def Holds (b : Box) : Prop := ∀ x ∈ b.lb ++ b.ub, Representable x

theorem le_foldl_mul {es : List Nat} (h : ∀ e ∈ es, 1 ≤ e) (v : Nat) : v ≤ es.foldl (· * ·) v := by
  induction es generalizing v with
  | nil => exact Nat.le_refl v
  | cons e es ih =>
    have he := h e List.mem_cons_self
    exact Nat.le_trans (Nat.le_mul_of_pos_right v he)
      (ih (fun e he => h e (List.mem_cons_of_mem _ he)) (v * e))

theorem le_foldl_mul_of_mem {es : List Nat} (h : ∀ e ∈ es, 1 ≤ e) {v e : Nat} (hv : 1 ≤ v) (he : e ∈ es) :
    e ≤ es.foldl (· * ·) v := by
  induction es generalizing v with
  | nil => cases he
  | cons f es ih =>
    have hf := h f List.mem_cons_self
    have hrest : ∀ e ∈ es, 1 ≤ e := fun e he => h e (List.mem_cons_of_mem _ he)
    rw [List.foldl_cons]
    rcases List.mem_cons.mp he with rfl | he
    · exact Nat.le_trans (Nat.le_mul_of_pos_left e hv) (le_foldl_mul hrest _)
    · exact ih hrest (Nat.mul_pos hv hf) he

theorem representable_coord {xs : List Int} (h : ∀ x ∈ xs, Representable x) (d : Nat) :
    Representable (coord xs d) := by
  by_cases hd : d < xs.length
  · rw [coord_eq_getElem hd]
    exact h _ (List.getElem_mem hd)
  · rw [coord, List.getD_eq_getElem?_getD, List.getElem?_eq_none (by omega), Option.getD_none]
    decide

theorem Holds.lb {b : Box} (h : Holds b) (d : Nat) : Representable (coord b.lb d) :=
  representable_coord (fun x hx => h x (List.mem_append_left _ hx)) d

theorem Holds.ub {b : Box} (h : Holds b) (d : Nat) : Representable (coord b.ub d) :=
  representable_coord (fun x hx => h x (List.mem_append_right _ hx)) d

section Addressing

variable {M} {b : Box} {n : Nat} (hM : M.Faithful) (h : b.Ranked n) (hb : Holds b)
    (hne : b.isEmpty = false)
  (hv : b.volume < Nat.pow 2 63)

include h hne

theorem volume_of_nonempty :
    b.volume = ((List.range n).map fun d => (b.extent d).toNat).foldl (· * ·) 1 := by
  rw [Box.volume, if_neg (by simp [hne]), h.rank_eq]

theorem one_le_extents : ∀ e ∈ (List.range n).map fun d => (b.extent d).toNat, 1 ≤ e := by
  intro e he
  obtain ⟨d, hd, rfl⟩ := List.mem_map.mp he
  have := (Box.extent_of_nonempty h hne (List.mem_range.mp hd)).2
  omega

theorem extent_le_volume {d : Nat} (hd : d < n) : (b.extent d).toNat ≤ b.volume := by
  rw [volume_of_nonempty h hne]
  exact le_foldl_mul_of_mem (one_le_extents h hne) (Nat.le_refl 1)
    (List.mem_map.mpr ⟨d, List.mem_range.mpr hd, rfl⟩)

theorem rangesVolume_drop_pos (d : Nat) : 0 < rangesVolume (b.ranges.drop d) := by
  rw [← Nat.one_mul (rangesVolume _), ← foldl_mul_eq]
  refine le_foldl_mul (fun e he => ?_) 1
  obtain ⟨r, hr, rfl⟩ := List.mem_map.mp he
  obtain ⟨c, hc⟩ := List.mem_iff_getElem?.mp (List.mem_of_mem_drop hr)
  have hcn : c < n := by
    rw [← length_ranges h]
    exact (List.getElem?_eq_some_iff.mp hc).1
  rw [getElem?_ranges h hcn] at hc
  cases hc
  have := (isEmpty_eq_false_iff h).mp hne c hcn
  omega

theorem le_placeFrom (start : Nat) {p : Point} {d : Nat} (hd : d + p.length = n) :
    start ≤ Grid.placeFrom start (b.ranges.drop d) p := by
  have hpos := rangesVolume_drop_pos h hne d
  rw [placeFrom_start start _ p (by rw [List.length_drop, length_ranges h]; omega)]
  exact Nat.le_trans (Nat.le_mul_of_pos_right start hpos) (Nat.le_add_right _ _)

include hv

theorem representable_extent {d : Nat} (hd : d < n) : Representable (b.extent d) := by
  have hle := extent_le_volume h hne hd
  have hpos := (Box.extent_of_nonempty h hne hd).2
  rw [Nat.pow_eq] at hv
  exact ⟨by omega, by omega⟩

include hM hb

theorem Faithful.extent_of_volume {d : Nat} (hd : d < n) : M.extent b d = some (b.extent d) := by
  have hext := (Box.extent_of_nonempty h hne hd).1
  have hrep := representable_extent h hne hv hd
  rw [hext] at hrep
  have hl : d < b.lb.length := by rw [h.lb]; exact hd
  have hu : d < b.ub.length := by rw [h.ub]; exact hd
  have hsub := hM.sub (hb.ub d) (hb.lb d) hrep
  rw [Machine.extent, List.getElem?_eq_getElem hl, List.getElem?_eq_getElem hu, ← coord_eq_getElem hl,
    ← coord_eq_getElem hu, Box.extent_eq h hd]
  simp only [hsub]
  rfl

theorem Faithful.foldlM_extent {ds : List Nat} (hds : ∀ d ∈ ds, d < n) {v : Nat}
    (hfit : (ds.map fun d => (b.extent d).toNat).foldl (· * ·) v < Nat.pow 2 63) :
    ds.foldlM (fun v d => do M.mul v (← M.extent b d)) (v : Int) =
      some (((ds.map fun d => (b.extent d).toNat).foldl (· * ·) v : Nat) : Int) := by
  induction ds generalizing v with
  | nil => rfl
  | cons d ds ih =>
    have hd := hds d List.mem_cons_self
    have hpos := (Box.extent_of_nonempty h hne hd).2
    have hrest : ∀ e ∈ ds.map fun d => (b.extent d).toNat, 1 ≤ e := by
      intro e he
      obtain ⟨c, hc, rfl⟩ := List.mem_map.mp he
      have := (Box.extent_of_nonempty h hne (hds c (List.mem_cons_of_mem _ hc))).2
      omega
    rw [List.map_cons, List.foldl_cons] at hfit ⊢
    have hle := Nat.lt_of_le_of_lt (le_foldl_mul hrest (v * (b.extent d).toNat)) hfit
    have hcast : ((v * (b.extent d).toNat : Nat) : Int) = v * b.extent d := by
      rw [Int.natCast_mul, Int.toNat_of_nonneg (by omega)]
    have hv' : v ≤ v * (b.extent d).toNat := Nat.le_mul_of_pos_right v (by omega)
    have hmul : M.mul v (b.extent d) = some ((v * (b.extent d).toNat : Nat) : Int) := by
      rw [Nat.pow_eq] at hle
      rw [hM.mul ⟨by omega, by omega⟩ (representable_extent h hne hv hd)
        (by rw [← hcast]; exact ⟨by omega, by omega⟩), hcast]
    rw [List.foldlM_cons, hM.extent_of_volume h hb hne hv hd]
    simp only [Option.bind_eq_bind, Option.bind_some, hmul]
    exact ih (fun c hc => hds c (List.mem_cons_of_mem _ hc)) hfit

theorem Faithful.placeFrom_eq {p : Point} {d start : Nat} (hd : d + p.length = n)
    (hin : ∀ e, e < p.length → coord b.lb (d + e) ≤ coord p e ∧ coord p e < coord b.ub (d + e))
    (hfit : Grid.placeFrom start (b.ranges.drop d) p < Nat.pow 2 63) :
    M.placeFrom b start d p = some ((Grid.placeFrom start (b.ranges.drop d) p : Nat) : Int) := by
  induction p generalizing d start with
  | nil =>
    rw [List.length_nil, Nat.add_zero] at hd
    rw [List.drop_eq_nil_of_le (by rw [length_ranges h]; omega)]
    rfl
  | cons x p ih =>
    rw [List.length_cons] at hd
    have hdn : d < n := by omega
    obtain ⟨hl, hu⟩ := hin 0 (by simp)
    rw [Nat.add_zero, coord_cons_zero] at hl hu
    have hext := (Box.extent_of_nonempty h hne hdn).1
    have hdrop : b.ranges.drop d = (coord b.lb d, coord b.ub d) :: b.ranges.drop (d + 1) := by
      rw [List.drop_eq_getElem_cons (by rw [length_ranges h]; exact hdn), getElem_ranges h]
    rw [hdrop, Grid.placeFrom] at hfit ⊢
    have hle := Nat.lt_of_le_of_lt (le_placeFrom h hne (start * (coord b.ub d - coord b.lb d).toNat +
      (x - coord b.lb d).toNat) (p := p) (d := d + 1) (by omega)) hfit
    rw [← hext] at hle hfit ⊢
    have hstart : start ≤ start * (b.extent d).toNat := Nat.le_mul_of_pos_right start (by omega)
    have hrow : ((start * (b.extent d).toNat : Nat) : Int) = start * b.extent d := by
      rw [Int.natCast_mul, Int.toNat_of_nonneg (by omega)]
    have hx : Representable x := ⟨Int.le_trans (hb.lb d).1 hl, Int.le_trans (Int.le_of_lt hu) (hb.ub d).2⟩
    rw [Nat.pow_eq] at hle
    have hmul : M.mul start (b.extent d) = some ((start * (b.extent d).toNat : Nat) : Int) := by
      rw [hM.mul ⟨by omega, by omega⟩ (representable_extent h hne hv hdn)
        (by rw [← hrow]; exact ⟨by omega, by omega⟩), hrow]
    have hsub : M.sub x (coord b.lb d) = some (x - coord b.lb d) :=
      hM.sub hx (hb.lb d) ⟨by omega, by omega⟩
    have hadd : M.add ((start * (b.extent d).toNat : Nat) : Int) (x - coord b.lb d) =
        some ((start * (b.extent d).toNat + (x - coord b.lb d).toNat : Nat) : Int) := by
      rw [hM.add ⟨by omega, by omega⟩ ⟨by omega, by omega⟩ ⟨by omega, by omega⟩]
      congr 1
      omega
    rw [Machine.placeFrom, hM.extent_of_volume h hb hne hv hdn]
    simp only [Option.bind_eq_bind, Option.bind_some, hmul, hsub, hadd]
    refine ih (by omega) (fun e he => ?_) hfit
    have := hin (e + 1) (by rw [List.length_cons]; omega)
    rwa [coord_cons_succ, show d + (e + 1) = d + 1 + e by omega] at this

end Addressing

section Faithful

variable {M} {b : Box} {n : Nat} (hM : M.Faithful) (h : b.Ranked n) (hb : Holds b)

include hM h hb

theorem Faithful.volume_eq (hv : b.volume < Nat.pow 2 63) : M.volume b = some (b.volume : Int) := by
  cases he : b.isEmpty with
  | true => rw [Machine.volume, Box.volume, if_pos he, if_pos he]; rfl
  | false =>
    have hvol := volume_of_nonempty h he
    rw [Machine.volume, if_neg (by simp [he]), h.rank_eq, hvol]
    exact hM.foldlM_extent h hb he hv (fun d hd => List.mem_range.mp hd) (hvol ▸ hv)

theorem Faithful.place?_eq (hv : b.volume < Nat.pow 2 63) {α : Type} {g : Grid α} (hg : g.domain = b)
    (p : Point) :
    M.place? b p = some ((g.place? p).map Int.ofNat) := by
  subst hg
  rw [Machine.place?, Grid.place?]
  split
  · next hp =>
    obtain ⟨hlen, hin⟩ := (containsPoint_iff h).mp hp
    have hne := isEmpty_of_containsPoint h hp
    have hplace :
        M.placeFrom g.domain (0 : Nat) 0 p = some ((Grid.placeFrom 0 g.domain.ranges p : Nat) : Int) :=
      hM.placeFrom_eq h hb hne hv (by omega) (fun e he => by rw [Nat.zero_add]; exact hin e (by omega))
        (Nat.lt_trans (place_lt_volume hp) hv)
    rw [Int.natCast_zero] at hplace
    rw [hplace]
    rfl
  · rfl

/-- The odometer is right if 64 bits hold the strides and each coordinate that one of them leads to. -/
theorem Faithful.odometer_eq {stride : Nat → Nat}
    (hs : ∀ d, 1 ≤ stride d) (hrep : ∀ d, Representable (stride d))
    (hroom : ∀ p ∈ pointsOver (b.steps stride), ∀ d, d < n →
      Representable (coord p d + stride d)) (i : Nat) :
    M.odometer b stride i = some (pointsOver (b.steps stride))[i]? := by
  refine Machine.odometer_eq h hs (fun p hp d hd => ?_) i
  obtain ⟨hl, hu⟩ := ((containsPoint_iff h).mp (containsPoint_of_mem_walk h stride hs hp)).2 d hd
  exact hM.add ⟨Int.le_trans (hb.lb d).1 hl,
    Int.le_trans (Int.le_of_lt hu) (hb.ub d).2⟩ (hrep d) (hroom p hp d hd)

theorem Faithful.odometer_points (i : Nat) : M.odometer b (fun _ => 1) i = some b.points[i]? := by
  rw [points_eq]
  refine hM.odometer_eq h hb (fun _ => Nat.le_refl 1) (fun _ => by decide) (fun p hp d hd => ?_) i
  obtain ⟨hl, hu⟩ :=
    ((containsPoint_iff h).mp (containsPoint_of_mem_walk h _ (fun _ => Nat.le_refl 1) hp)).2 d hd
  have := (hb.lb d).1
  have := (hb.ub d).2
  exact ⟨by omega, by omega⟩

/-- With a stride along one axis it does not leave them if they hold the coordinate past the box. -/
theorem Faithful.odometer_pointsWithStep {axis s : Nat} (hs : Representable (max s 1 : Nat))
    (hroom : b.isEmpty = false → Representable (b.past axis s)) (i : Nat) :
    M.odometer b (along axis s) i = some (b.pointsWithStep axis s)[i]? := by
  rw [pointsWithStep_eq]
  refine hM.odometer_eq h hb (one_le_along axis s) (fun d => ?_) (fun p hp d hd => ?_) i
  · rw [along]
    split
    · exact hs
    · decide
  · have hin := containsPoint_of_mem_walk h _ (one_le_along axis s) hp
    have hne := isEmpty_of_containsPoint h hin
    obtain ⟨hl, hu⟩ := ((containsPoint_iff h).mp hin).2 d hd
    have := (hb.lb d).1
    have := (hb.ub d).2
    by_cases hda : d = axis
    · subst hda
      have hx := (mem_pointsOver.mp hp).2 d _ (getElem?_steps h (along d s) hd)
      rw [along, if_pos rfl] at hx ⊢
      exact ⟨by omega, Int.le_trans (add_le_past hx) (hroom hne).2⟩
    · rw [along, if_neg hda]
      exact ⟨by omega, by omega⟩

end Faithful

theorem exact_odometer {b : Box} {n : Nat} (h : b.Ranked n) {stride : Nat → Nat}
    (hs : ∀ d, 1 ≤ stride d) (i : Nat) :
    exact.odometer b stride i = some (pointsOver (b.steps stride))[i]? :=
  odometer_eq h hs (fun _ _ _ _ => rfl) i

section Trap

variable {M} {b : Box} {n : Nat} {stride : Nat → Nat}

theorem add_of_advance_eq_none {d : Nat} {p : Point} (h : M.advance b stride d p = some none) {e : Nat}
    (he : e < d)
    (hp : d ≤ p.length) : ∃ x, M.add (coord p e) (stride e) = some x ∧ coord b.ub e ≤ x := by
  induction d generalizing p with
  | zero => omega
  | succ d ih =>
    rw [advance] at h
    obtain ⟨x, hx, hrest⟩ := Option.bind_eq_some_iff.mp h
    split at hrest
    · cases hrest
    · next hout =>
      by_cases hed : e = d
      · subst hed
        exact ⟨x, hx, Int.not_lt.mp hout⟩
      · obtain ⟨y, hy, hle⟩ := ih hrest (by omega) (by rw [List.length_set]; omega)
        rw [coord_set _ _ _ (by omega), if_neg (Ne.symm hed)] at hy
        exact ⟨y, hy, hle⟩

theorem odometer_of_checked {i : Nat} {r : Option Point} (h : checked.odometer b stride i = some r) :
    exact.odometer b stride i = some r := by
  have hadvance : ∀ (d : Nat) (p : Point) (r : Option Point), checked.advance b stride d p = some r →
      exact.advance b stride d p = some r := by
    intro d
    induction d with
    | zero => exact fun _ _ h => h
    | succ d ih =>
      intro p r h
      rw [advance] at h ⊢
      obtain ⟨x, hx, hrest⟩ := Option.bind_eq_some_iff.mp h
      have hsum : x = coord p d + stride d := by
        simp only [checked, representable?] at hx
        split at hx
        · exact (Option.some.inj hx).symm
        · cases hx
      subst hsum
      simp only [exact, Option.bind_eq_bind, Option.bind_some]
      split at hrest
      · next hlt => rw [if_pos hlt]; exact hrest
      · next hge => rw [if_neg hge]; exact ih _ _ hrest
  induction i generalizing r with
  | zero => exact h
  | succ i ih =>
    rw [odometer] at h ⊢
    obtain ⟨q, hq, hrest⟩ := Option.bind_eq_some_iff.mp h
    rw [ih hq]
    cases q with
    | none => exact hrest
    | some p => exact hadvance _ _ _ hrest

/-- If 64 bits do not hold the coordinate past the box, an odometer that traps never comes to the end. -/
theorem odometer_traps (h : b.Ranked n) (hne : b.isEmpty = false) {axis s : Nat} (hax : axis < n)
    (hpast : ¬ Representable (b.past axis s)) : ∃ i, checked.odometer b (along axis s) i = none := by
  apply Classical.byContradiction
  intro hnever
  have hwalk : ∀ i, checked.odometer b (along axis s) i = some (b.pointsWithStep axis s)[i]? := by
    intro i
    cases hi : checked.odometer b (along axis s) i with
    | none => exact absurd ⟨i, hi⟩ hnever
    | some r =>
      have := (odometer_of_checked hi).symm.trans (exact_odometer h (one_le_along axis s) i)
      rw [pointsWithStep_eq]
      exact this
  have hpos : 0 < (b.pointsWithStep axis s).length := by
    apply Nat.pos_of_ne_zero
    intro hz
    have hfirst := hwalk 0
    rw [List.getElem?_eq_none (by omega), odometer, if_neg (by simp [hne])] at hfirst
    cases hfirst
  obtain ⟨k, hk⟩ : ∃ k, (b.pointsWithStep axis s).length = k + 1 :=
    ⟨_, (Nat.succ_pred_eq_of_pos hpos).symm⟩
  -- behind the last point all dimensions are looked at, the one with the stride among them
  obtain ⟨p, hp⟩ : ∃ p, (b.pointsWithStep axis s)[k]? = some p := ⟨_, List.getElem?_eq_getElem (by omega)⟩
  have hlast := hwalk (k + 1)
  rw [odometer, hwalk k, hp, List.getElem?_eq_none (by omega)] at hlast
  have hmem := List.mem_of_getElem? hp
  rw [pointsWithStep_eq] at hmem
  have hlen := ((containsPoint_iff h).mp (containsPoint_of_mem_walk h _ (one_le_along axis s) hmem)).1
  obtain ⟨x, hx, hout⟩ := add_of_advance_eq_none hlast (h.rank_eq ▸ hax) (by rw [h.rank_eq]; omega)
  have hcoord := (mem_pointsOver.mp hmem).2 axis _ (getElem?_steps h (along axis s) hax)
  rw [along, if_pos rfl] at hx hcoord
  simp only [checked, representable?] at hx
  split at hx
  · next hrep =>
    cases hx
    rw [add_eq_past hcoord hout] at hrep
    exact hpast hrep
  · cases hx

end Trap

end Machine

end Stencil
