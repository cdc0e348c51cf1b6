import Stencil.Shape

/-! The order of boxes: containment, hulls and displacement, dimension by dimension. A hull is the
least box above what it covers, so two collections of boxes with the same upper bounds have the
same hull. -/

set_option autoImplicit false

namespace Stencil

/-- The coordinate along `d`, zero where there is none. -/
def coord (p : List Int) (d : Nat) : Int := p.getD d 0

theorem coord_eq_getElem {p : List Int} {d : Nat} (h : d < p.length) : coord p d = p[d] := by
  simp [coord, h]

theorem coord_cons_zero (x : Int) (p : List Int) : coord (x :: p) 0 = x := rfl

theorem coord_cons_succ (x : Int) (p : List Int) (d : Nat) : coord (x :: p) (d + 1) = coord p d := by
  simp [coord]

theorem coord_ext {p q : List Int} (hl : p.length = q.length)
    (h : ∀ d, d < p.length → coord p d = coord q d) : p = q := by
  apply List.ext_getElem hl
  intro d hp hq
  have hd := h d hp
  rwa [coord_eq_getElem hp, coord_eq_getElem hq] at hd

theorem mem_zipWith {α β γ : Type} {g : α → β → γ} {xs : List α} {ys : List β} {z : γ}
    (h : z ∈ List.zipWith g xs ys) : ∃ x ∈ xs, ∃ y ∈ ys, z = g x y := by
  rw [← List.map_uncurry_zip_eq_zipWith] at h
  obtain ⟨⟨x, y⟩, hp, rfl⟩ := List.mem_map.mp h
  obtain ⟨hx, hy⟩ := List.of_mem_zip hp
  exact ⟨x, hx, y, hy, rfl⟩

theorem coord_zipWith (f : Int → Int → Int) {p q : List Int} {d : Nat}
    (hp : d < p.length) (hq : d < q.length) :
    coord (List.zipWith f p q) d = f (coord p d) (coord q d) := by
  have hz : d < (List.zipWith f p q).length := by simp; omega
  rw [coord_eq_getElem hz, coord_eq_getElem hp, coord_eq_getElem hq, List.getElem_zipWith]

theorem coord_set (p : List Int) (a : Nat) (v : Int) {d : Nat} (hd : d < p.length) :
    coord (p.set a v) d = if a = d then v else coord p d := by
  rw [coord_eq_getElem (by simpa using hd), coord_eq_getElem hd, List.getElem_set]

theorem coord_modify (p : List Int) (a : Nat) (f : Int → Int) {d : Nat} (hd : d < p.length) :
    coord (p.modify a f) d = if a = d then f (coord p d) else coord p d := by
  rw [coord_eq_getElem (by simpa using hd), coord_eq_getElem hd, List.getElem_modify]

@[simp] theorem coord_replicate_zero (n d : Nat) : coord (List.replicate n 0) d = 0 := by
  simp only [coord, List.getD_eq_getElem?_getD, List.getElem?_replicate]
  split <;> rfl

@[simp] theorem coord_zeros (n d : Nat) : coord (Offset.zeros n) d = 0 := coord_replicate_zero n d

@[simp] theorem Offset.length_zeros (n : Nat) : (Offset.zeros n).length = n := by simp [zeros]

@[simp] theorem Offset.length_shiftedAlong (o : Offset) (axis : Nat) (delta : Int) :
    (o.shiftedAlong axis delta).length = o.length := by simp [shiftedAlong]

theorem Offset.length_compose {o p : Offset} {n : Nat} (ho : o.length = n) (hp : p.length = n) :
    (o.compose p).length = n := by simp [compose, ho, hp]

theorem Offset.coord_compose {o p : Offset} {n d : Nat} (ho : o.length = n) (hp : p.length = n)
    (hd : d < n) : coord (o.compose p) d = coord o d + coord p d :=
  coord_zipWith _ (by omega) (by omega)

theorem Offset.coord_compose_along {o : Offset} {n axis i d : Nat} (ho : o.length = n) (hd : d < n) :
    coord (o.compose (Offset.shiftedAlong (Offset.zeros n) axis i)) d =
      coord o d + if axis = d then (i : Int) else 0 := by
  have hshift : coord (Offset.shiftedAlong (Offset.zeros n) axis i) d =
      if axis = d then (i : Int) else 0 := by
    rw [Offset.shiftedAlong, coord_modify _ axis _ (by simpa using hd)]
    simp
  rw [Offset.coord_compose ho (by simp) hd, hshift]

namespace Box

/-- Both bounds have one coordinate per dimension. -/
structure Ranked (b : Box) (n : Nat) : Prop where
  lb : b.lb.length = n
  ub : b.ub.length = n

/-- An empty box is the one that stands for all of them. -/
def Canonical (b : Box) : Prop := b.isEmpty = true → b = empty b.rank

theorem Ranked.rank_eq {b : Box} {n : Nat} (h : b.Ranked n) : b.rank = n := h.lb

theorem ranked_of_wellFormed {b : Box} {n : Nat} (h : b.wellFormed n = true) : b.Ranked n := by
  simp only [wellFormed, Bool.and_eq_true, decide_eq_true_eq] at h
  exact ⟨h.1.1, h.1.2⟩

theorem ranked_empty (n : Nat) : (empty n).Ranked n := ⟨by simp [empty], by simp [empty]⟩

theorem ext_coord {a b : Box} {n : Nat} (ha : a.Ranked n) (hb : b.Ranked n)
    (hl : ∀ d, d < n → coord a.lb d = coord b.lb d)
    (hu : ∀ d, d < n → coord a.ub d = coord b.ub d) : a = b := by
  have hlb : a.lb = b.lb := by
    apply coord_ext (ha.lb.trans hb.lb.symm)
    intro d hd
    exact hl d (by rw [← ha.lb]; exact hd)
  have hub : a.ub = b.ub := by
    apply coord_ext (ha.ub.trans hb.ub.symm)
    intro d hd
    exact hu d (by rw [← ha.ub]; exact hd)
  cases a
  cases b
  simp only at hlb hub
  rw [hlb, hub]

theorem length_ranges {b : Box} {n : Nat} (h : b.Ranked n) : b.ranges.length = n := by
  simp [ranges, h.lb, h.ub]

theorem getElem_ranges {b : Box} {n d : Nat} (h : b.Ranked n) (hd : d < b.ranges.length) :
    b.ranges[d] = (coord b.lb d, coord b.ub d) := by
  have hn := length_ranges h
  have hl := h.lb
  have hu := h.ub
  rw [coord_eq_getElem (by omega), coord_eq_getElem (by omega)]
  simp [ranges]

theorem isEmpty_iff {b : Box} {n : Nat} (h : b.Ranked n) :
    b.isEmpty = true ↔ ∃ d, d < n ∧ coord b.ub d ≤ coord b.lb d := by
  simp only [isEmpty, List.any_eq_true, decide_eq_true_eq]
  constructor
  · rintro ⟨r, hr, hle⟩
    obtain ⟨d, hd, rfl⟩ := List.getElem_of_mem hr
    rw [getElem_ranges h hd] at hle
    exact ⟨d, by rw [← length_ranges h]; exact hd, hle⟩
  · rintro ⟨d, hd, hle⟩
    have hd' : d < b.ranges.length := by rw [length_ranges h]; exact hd
    refine ⟨b.ranges[d], List.getElem_mem hd', ?_⟩
    rw [getElem_ranges h hd']
    exact hle

theorem isEmpty_eq_false_iff {b : Box} {n : Nat} (h : b.Ranked n) :
    b.isEmpty = false ↔ ∀ d, d < n → coord b.lb d < coord b.ub d := by
  rw [← Bool.not_eq_true, isEmpty_iff h]
  constructor
  · intro hne d hd
    apply Int.lt_of_not_ge
    intro hle
    exact hne ⟨d, hd, hle⟩
  · rintro hlt ⟨d, hd, hle⟩
    have := hlt d hd
    omega

theorem isEmpty_empty {n : Nat} (hn : 0 < n) : (empty n).isEmpty = true := by
  rw [isEmpty_iff (ranked_empty n)]
  exact ⟨0, hn, by simp [empty]⟩

theorem canonical_empty (n : Nat) : (empty n).Canonical := by
  intro _
  rw [(ranked_empty n).rank_eq]

theorem canonical_of_nonempty {b : Box} (h : b.isEmpty = false) : b.Canonical := by
  intro he
  rw [h] at he
  contradiction

theorem rank_pos_of_isEmpty {b : Box} {n : Nat} (h : b.Ranked n) (he : b.isEmpty = true) : 0 < n := by
  obtain ⟨d, hd, _⟩ := (isEmpty_iff h).mp he
  omega

theorem between_iff {ls us p : List Int} (h : ls.length = us.length) :
    between ls us p = true ↔
      p.length = ls.length ∧ ∀ d, d < ls.length → coord ls d ≤ coord p d ∧ coord p d < coord us d := by
  induction ls generalizing us p with
  | nil => cases p <;> simp [between]
  | cons l ls ih =>
    cases us with
    | nil => simp at h
    | cons u us =>
      cases p with
      | nil => simp [between]
      | cons x p =>
        simp only [List.length_cons, Nat.add_right_cancel_iff] at h
        simp only [between, Bool.and_eq_true, decide_eq_true_eq, ih h, List.length_cons,
          Nat.add_right_cancel_iff]
        constructor
        · rintro ⟨⟨hl, hu⟩, hlen, hrest⟩
          refine ⟨hlen, ?_⟩
          intro d hd
          cases d with
          | zero => exact ⟨hl, hu⟩
          | succ d =>
            simp only [coord_cons_succ]
            exact hrest d (by omega)
        · rintro ⟨hlen, hall⟩
          refine ⟨hall 0 (by omega), hlen, ?_⟩
          intro d hd
          have := hall (d + 1) (by omega)
          simpa only [coord_cons_succ] using this

theorem containsPoint_iff {b : Box} {n : Nat} (h : b.Ranked n) {p : Point} :
    b.containsPoint p = true ↔
      p.length = n ∧ ∀ d, d < n → coord b.lb d ≤ coord p d ∧ coord p d < coord b.ub d := by
  rw [containsPoint, between_iff (h.lb.trans h.ub.symm), h.lb]

theorem isEmpty_of_containsPoint {b : Box} {n : Nat} (h : b.Ranked n) {p : Point}
    (hp : b.containsPoint p = true) :
    b.isEmpty = false := by
  rw [isEmpty_eq_false_iff h]
  intro d hd
  have := ((containsPoint_iff h).mp hp).2 d hd
  omega

theorem contains_iff {a b : Box} {n : Nat} (ha : a.Ranked n) (hb : b.Ranked n) :
    a.contains b = true ↔ (b.isEmpty = false →
      ∀ d, d < n → coord a.lb d ≤ coord b.lb d ∧ coord b.ub d ≤ coord a.ub d) := by
  cases heb : b.isEmpty with
  | true => simp [contains, heb]
  | false =>
    simp only [forall_const]
    cases hea : a.isEmpty with
    | true =>
      simp only [contains, heb, hea, Bool.false_eq_true, if_false, if_true, false_iff]
      intro hall
      obtain ⟨d, hd, hle⟩ := (isEmpty_iff ha).mp hea
      have hlt := (isEmpty_eq_false_iff hb).mp heb d hd
      have := hall d hd
      omega
    | false =>
      simp only [contains, heb, hea, Bool.false_eq_true, if_false, List.all_eq_true,
        Bool.and_eq_true, decide_eq_true_eq]
      have hla := length_ranges ha
      have hlb := length_ranges hb
      constructor
      · intro hall d hd
        have hz : d < (a.ranges.zip b.ranges).length := by simp; omega
        have := hall _ (List.getElem_mem hz)
        simpa [getElem_ranges ha, getElem_ranges hb] using this
      · intro hall x hx
        obtain ⟨d, hd, rfl⟩ := List.getElem_of_mem hx
        have hd' : d < n := by simp at hd; omega
        simpa [getElem_ranges ha, getElem_ranges hb] using hall d hd'

theorem contains_refl {b : Box} {n : Nat} (h : b.Ranked n) : b.contains b = true := by
  rw [contains_iff h h]
  intro _ d _
  exact ⟨Int.le_refl _, Int.le_refl _⟩

theorem contains_trans {a b c : Box} {n : Nat} (ha : a.Ranked n) (hb : b.Ranked n) (hc : c.Ranked n)
    (hab : a.contains b = true) (hbc : b.contains c = true) : a.contains c = true := by
  rw [contains_iff ha hb] at hab
  rw [contains_iff hb hc] at hbc
  rw [contains_iff ha hc]
  intro hne d hd
  have hcb := hbc hne
  have hneb : b.isEmpty = false := by
    rw [isEmpty_eq_false_iff hb]
    intro e he
    have := hcb e he
    have := (isEmpty_eq_false_iff hc).mp hne e he
    omega
  have := hcb d hd
  have := hab hneb d hd
  omega

theorem contains_antisymm {a b : Box} {n : Nat} (ha : a.Ranked n) (hb : b.Ranked n)
    (hca : a.Canonical) (hcb : b.Canonical) (hab : a.contains b = true) (hba : b.contains a = true) :
    a = b := by
  rw [contains_iff ha hb] at hab
  rw [contains_iff hb ha] at hba
  cases heb : b.isEmpty with
  | true =>
    have hea : a.isEmpty = true := by
      cases hea : a.isEmpty with
      | true => rfl
      | false =>
        obtain ⟨d, hd, hle⟩ := (isEmpty_iff hb).mp heb
        have := hba hea d hd
        have := (isEmpty_eq_false_iff ha).mp hea d hd
        omega
    rw [hca hea, hcb heb, ha.rank_eq, hb.rank_eq]
  | false =>
    have hbnd := hab heb
    have hea : a.isEmpty = false := by
      rw [isEmpty_eq_false_iff ha]
      intro d hd
      have := hbnd d hd
      have := (isEmpty_eq_false_iff hb).mp heb d hd
      omega
    have hbnd' := hba hea
    apply ext_coord ha hb
    · intro d hd
      have := hbnd d hd
      have := hbnd' d hd
      omega
    · intro d hd
      have := hbnd d hd
      have := hbnd' d hd
      omega

theorem containsPoint_of_contains {a b : Box} {n : Nat} (ha : a.Ranked n) (hb : b.Ranked n)
    (h : a.contains b = true) {p : Point} (hp : b.containsPoint p = true) :
    a.containsPoint p = true := by
  have hbnd := (contains_iff ha hb).mp h (isEmpty_of_containsPoint hb hp)
  rw [containsPoint_iff hb] at hp
  rw [containsPoint_iff ha]
  refine ⟨hp.1, ?_⟩
  intro d hd
  have := hp.2 d hd
  have := hbnd d hd
  omega

theorem ranked_shifted {b : Box} {o : Offset} {n : Nat} (h : b.Ranked n) (ho : o.length = n) :
    (b.shifted o).Ranked n := by
  unfold shifted
  split
  · rw [h.rank_eq]
    exact ranked_empty n
  · exact ⟨by simp [h.lb, ho], by simp [h.ub, ho]⟩

theorem coord_shifted {b : Box} {o : Offset} {n d : Nat} (h : b.Ranked n) (ho : o.length = n)
    (hne : b.isEmpty = false) (hd : d < n) :
    coord (b.shifted o).lb d = coord b.lb d + coord o d ∧
      coord (b.shifted o).ub d = coord b.ub d + coord o d := by
  have hl := h.lb
  have hu := h.ub
  simp only [shifted, hne, Bool.false_eq_true, if_false]
  exact ⟨coord_zipWith _ (by omega) (by omega), coord_zipWith _ (by omega) (by omega)⟩

theorem shifted_of_isEmpty {b : Box} {n : Nat} (h : b.Ranked n) (he : b.isEmpty = true) (o : Offset) :
    b.shifted o = empty n := by
  simp [shifted, he, h.rank_eq]

theorem isEmpty_shifted {b : Box} {o : Offset} {n : Nat} (h : b.Ranked n) (ho : o.length = n) :
    (b.shifted o).isEmpty = b.isEmpty := by
  cases he : b.isEmpty with
  | true =>
    rw [shifted_of_isEmpty h he]
    exact isEmpty_empty (rank_pos_of_isEmpty h he)
  | false =>
    rw [isEmpty_eq_false_iff (ranked_shifted h ho)]
    intro d hd
    have hc := coord_shifted h ho he hd
    have := (isEmpty_eq_false_iff h).mp he d hd
    omega

theorem canonical_shifted {b : Box} {o : Offset} {n : Nat} (h : b.Ranked n) (ho : o.length = n) :
    (b.shifted o).Canonical := by
  cases he : b.isEmpty with
  | true =>
    rw [shifted_of_isEmpty h he]
    exact canonical_empty n
  | false => exact canonical_of_nonempty ((isEmpty_shifted h ho).trans he)

theorem shifted_shifted {b : Box} {o q : Offset} {n : Nat} (h : b.Ranked n) (ho : o.length = n)
    (hq : q.length = n) : (b.shifted o).shifted q = b.shifted (q.compose o) := by
  have hqo := Offset.length_compose hq ho
  have hbo := ranked_shifted h ho
  cases he : b.isEmpty with
  | true =>
    have heo : (b.shifted o).isEmpty = true := (isEmpty_shifted h ho).trans he
    rw [shifted_of_isEmpty hbo heo, shifted_of_isEmpty h he]
  | false =>
    have heo : (b.shifted o).isEmpty = false := (isEmpty_shifted h ho).trans he
    apply ext_coord (ranked_shifted hbo hq) (ranked_shifted h hqo)
    · intro d hd
      have h1 := coord_shifted hbo hq heo hd
      have h2 := coord_shifted h ho he hd
      have h3 := coord_shifted h hqo he hd
      have h4 := Offset.coord_compose hq ho hd
      omega
    · intro d hd
      have h1 := coord_shifted hbo hq heo hd
      have h2 := coord_shifted h ho he hd
      have h3 := coord_shifted h hqo he hd
      have h4 := Offset.coord_compose hq ho hd
      omega

theorem containsPoint_shifted {b : Box} {o : Offset} {n : Nat} (h : b.Ranked n) (ho : o.length = n)
    {p : Point} (hp : b.containsPoint p = true) :
    (b.shifted o).containsPoint (List.zipWith (· + ·) p o) = true := by
  have hne := isEmpty_of_containsPoint h hp
  rw [containsPoint_iff h] at hp
  rw [containsPoint_iff (ranked_shifted h ho)]
  refine ⟨by simp [hp.1, ho], ?_⟩
  intro d hd
  have hc := coord_shifted h ho hne hd
  have hz : coord (List.zipWith (· + ·) p o) d = coord p d + coord o d :=
    coord_zipWith _ (by omega) (by omega)
  have := hp.2 d hd
  omega

theorem ranked_union {a b : Box} {n : Nat} (ha : a.Ranked n) (hb : b.Ranked n) :
    (a.union b).Ranked n := by
  unfold union
  split
  · split
    · rw [ha.rank_eq]
      exact ranked_empty n
    · exact hb
  · split
    · exact ha
    · exact ⟨by simp [ha.lb, hb.lb], by simp [ha.ub, hb.ub]⟩

theorem union_of_nonempty {a b : Box} {n : Nat} (ha : a.Ranked n) (hb : b.Ranked n)
    (hea : a.isEmpty = false) (heb : b.isEmpty = false) :
    (a.union b).isEmpty = false ∧ ∀ d, d < n →
      coord (a.union b).lb d = min (coord a.lb d) (coord b.lb d) ∧
        coord (a.union b).ub d = max (coord a.ub d) (coord b.ub d) := by
  have hla := ha.lb
  have hua := ha.ub
  have hlb := hb.lb
  have hub := hb.ub
  have hc : ∀ d, d < n → coord (a.union b).lb d = min (coord a.lb d) (coord b.lb d) ∧
      coord (a.union b).ub d = max (coord a.ub d) (coord b.ub d) := by
    intro d hd
    simp only [union, hea, heb, Bool.false_eq_true, if_false]
    exact ⟨coord_zipWith _ (by omega) (by omega), coord_zipWith _ (by omega) (by omega)⟩
  refine ⟨?_, hc⟩
  rw [isEmpty_eq_false_iff (ranked_union ha hb)]
  intro d hd
  have := hc d hd
  have := (isEmpty_eq_false_iff ha).mp hea d hd
  omega

theorem canonical_union {a b : Box} {n : Nat} (ha : a.Ranked n) (hb : b.Ranked n) :
    (a.union b).Canonical := by
  cases hea : a.isEmpty with
  | true =>
    cases heb : b.isEmpty with
    | true =>
      have hu : a.union b = empty n := by simp [union, hea, heb, ha.rank_eq]
      rw [hu]
      exact canonical_empty n
    | false =>
      have hu : a.union b = b := by simp [union, hea, heb]
      rw [hu]
      exact canonical_of_nonempty heb
  | false =>
    cases heb : b.isEmpty with
    | true =>
      have hu : a.union b = a := by simp [union, hea, heb]
      rw [hu]
      exact canonical_of_nonempty hea
    | false => exact canonical_of_nonempty (union_of_nonempty ha hb hea heb).1

theorem contains_union_iff {a b c : Box} {n : Nat} (ha : a.Ranked n) (hb : b.Ranked n)
    (hc : c.Ranked n) :
    c.contains (a.union b) = true ↔ c.contains a = true ∧ c.contains b = true := by
  cases hea : a.isEmpty with
  | true =>
    have hca : c.contains a = true := by simp [contains, hea]
    cases heb : b.isEmpty with
    | true =>
      have hu : a.union b = empty n := by simp [union, hea, heb, ha.rank_eq]
      have hue := isEmpty_empty (rank_pos_of_isEmpty ha hea)
      simp [hu, contains, hue, hea, heb]
    | false =>
      have hu : a.union b = b := by simp [union, hea, heb]
      rw [hu]
      exact ⟨fun h => ⟨hca, h⟩, fun h => h.2⟩
  | false =>
    cases heb : b.isEmpty with
    | true =>
      have hu : a.union b = a := by simp [union, hea, heb]
      rw [hu]
      exact ⟨fun h => ⟨h, by simp [contains, heb]⟩, fun h => h.1⟩
    | false =>
      obtain ⟨hue, hud⟩ := union_of_nonempty ha hb hea heb
      rw [contains_iff hc (ranked_union ha hb), contains_iff hc ha, contains_iff hc hb]
      simp only [hue, hea, heb, forall_const]
      constructor
      · intro h
        constructor
        · intro d hd
          have := h d hd
          have := hud d hd
          omega
        · intro d hd
          have := h d hd
          have := hud d hd
          omega
      · rintro ⟨h1, h2⟩ d hd
        have := h1 d hd
        have := h2 d hd
        have := hud d hd
        omega

theorem ranked_canonical {b : Box} {n : Nat} (h : b.Ranked n) : b.canonical.Ranked n := by
  unfold canonical
  split
  · rw [h.rank_eq]
    exact ranked_empty n
  · exact h

theorem canonical_canonical {b : Box} : b.canonical.Canonical := by
  unfold canonical
  split
  · exact canonical_empty _
  · rename_i h
    exact canonical_of_nonempty (by simpa using h)

theorem Canonical.canonical_eq {b : Box} (h : b.Canonical) : b.canonical = b := by
  unfold canonical
  split
  · rename_i he
    exact (h he).symm
  · rfl

theorem contains_canonical {b c : Box} {n : Nat} (h : b.Ranked n) :
    c.contains b.canonical = c.contains b := by
  unfold canonical
  split
  · rename_i he
    have hn := isEmpty_empty (rank_pos_of_isEmpty h he)
    rw [h.rank_eq]
    simp [contains, he, hn]
  · rfl

end Box

namespace Shape

/-- The shape grown, from no demand at all, by one box after the other. -/
def hull (boxes : List Box) : Shape := boxes.foldl grow unknown

@[simp] theorem hull_nil : hull [] = unknown := rfl

theorem hull_append (as bs : List Box) : hull (as ++ bs) = bs.foldl grow (hull as) :=
  List.foldl_append

/-- The least ranked box above all boxes of a list. -/
structure LeastAbove (n : Nat) (boxes : List Box) (b : Box) : Prop where
  ranked : b.Ranked n
  canonical : b.Canonical
  contains_iff : ∀ c : Box, c.Ranked n →
    (c.contains b = true ↔ ∀ d, d ∈ boxes → c.contains d = true)

theorem LeastAbove.unique {n : Nat} {boxes : List Box} {a b : Box} (ha : LeastAbove n boxes a)
    (hb : LeastAbove n boxes b) : a = b := by
  apply Box.contains_antisymm ha.ranked hb.ranked ha.canonical hb.canonical
  · rw [hb.contains_iff a ha.ranked, ← ha.contains_iff a ha.ranked]
    exact Box.contains_refl ha.ranked
  · rw [ha.contains_iff b hb.ranked, ← hb.contains_iff b hb.ranked]
    exact Box.contains_refl hb.ranked

theorem LeastAbove.eq_of_forall_eq {n : Nat} {boxes : List Box} {a b : Box} (h : LeastAbove n boxes b)
    (ha : a.Ranked n) (hc : a.Canonical) (hmem : a ∈ boxes) (hall : ∀ d, d ∈ boxes → d = a) : b = a := by
  apply h.unique
  refine ⟨ha, hc, ?_⟩
  intro c _
  constructor
  · intro hca d hd
    rw [hall d hd]
    exact hca
  · intro hd
    exact hd a hmem

theorem foldl_grow_known {n : Nat} (boxes : List Box) (a : Box) (ha : a.Ranked n)
    (hca : a.Canonical) (hr : ∀ d, d ∈ boxes → d.Ranked n) :
    ∃ b, boxes.foldl grow (known a) = known b ∧ LeastAbove n (a :: boxes) b := by
  induction boxes generalizing a with
  | nil =>
    refine ⟨a, rfl, ha, hca, ?_⟩
    intro c _
    simp
  | cons e boxes ih =>
    have he := hr e (by simp)
    have hrest : ∀ d, d ∈ boxes → d.Ranked n := fun d hd => hr d (by simp [hd])
    -- what lies above the union lies above both of its parts
    obtain ⟨b, hb, hl⟩ := ih (a.union e) (Box.ranked_union ha he) (Box.canonical_union ha he) hrest
    refine ⟨b, hb, hl.ranked, hl.canonical, ?_⟩
    intro c hc
    rw [hl.contains_iff c hc]
    simp only [List.mem_cons, forall_eq_or_imp, Box.contains_union_iff ha he hc, and_assoc]

theorem hull_cons {n : Nat} (a : Box) (boxes : List Box) (hr : ∀ d, d ∈ a :: boxes → d.Ranked n) :
    ∃ b, hull (a :: boxes) = known b ∧ LeastAbove n (a :: boxes) b := by
  have ha := hr a (by simp)
  obtain ⟨b, hb, hl⟩ := foldl_grow_known boxes a.canonical (Box.ranked_canonical ha)
    Box.canonical_canonical (fun d hd => hr d (by simp [hd]))
  refine ⟨b, hb, hl.ranked, hl.canonical, ?_⟩
  intro c hc
  rw [hl.contains_iff c hc]
  simp [Box.contains_canonical ha]

theorem hull_eq_unknown_iff (boxes : List Box) : hull boxes = unknown ↔ boxes = [] := by
  have hk : ∀ (bs : List Box) (a : Box), bs.foldl grow (known a) ≠ unknown := by
    intro bs
    induction bs with
    | nil => intro a h; cases h
    | cons b bs ih => intro a; exact ih (a.union b)
  cases boxes with
  | nil => simp
  | cons a bs =>
    simp only [reduceCtorEq, iff_false]
    exact hk bs a.canonical

theorem leastAbove_of_hull {n : Nat} {boxes : List Box} (hr : ∀ d, d ∈ boxes → d.Ranked n) {b : Box}
    (h : hull boxes = known b) : LeastAbove n boxes b := by
  cases boxes with
  | nil => cases h
  | cons a boxes =>
    obtain ⟨b', hb', hl⟩ := hull_cons a boxes hr
    rw [h] at hb'
    cases hb'
    exact hl

/-- A hull depends on the upper bounds of its boxes only, and on whether there is a box. -/
theorem hull_congr {n : Nat} {as bs : List Box} (ha : ∀ d, d ∈ as → d.Ranked n)
    (hb : ∀ d, d ∈ bs → d.Ranked n) (hnil : as = [] ↔ bs = [])
    (habove : ∀ c : Box, c.Ranked n →
      ((∀ d, d ∈ as → c.contains d = true) ↔ ∀ d, d ∈ bs → c.contains d = true)) :
    hull as = hull bs := by
  cases as with
  | nil => rw [hnil.mp rfl]
  | cons a as =>
    cases bs with
    | nil => cases hnil.mpr rfl
    | cons b bs =>
      obtain ⟨x, hx, hlx⟩ := hull_cons a as ha
      obtain ⟨y, hy, hly⟩ := hull_cons b bs hb
      have hlx' : LeastAbove n (b :: bs) x :=
        ⟨hlx.ranked, hlx.canonical, fun c hc => (hlx.contains_iff c hc).trans (habove c hc)⟩
      rw [hx, hy, hlx'.unique hly]

theorem hull_congr_mem {n : Nat} {as bs : List Box} (ha : ∀ d, d ∈ as → d.Ranked n)
    (hmem : ∀ d, d ∈ as ↔ d ∈ bs) : hull as = hull bs := by
  apply hull_congr ha (fun d hd => ha d ((hmem d).mpr hd))
  · simp only [List.eq_nil_iff_forall_not_mem, hmem]
  · intro c _
    simp only [hmem]

end Shape

end Stencil
