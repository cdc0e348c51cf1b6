import Stencil.Proofs.Odometer

/-! The points of a box and the places of a grid over it agree. The points come each once, in
lexicographic order, as many as the volume says; a walk with a step along an axis takes those at a
multiple of the step; and the place of a point in a grid is its number among the points, so that
what a grid stores at a point is what is read there. Machines of 64 bits find the same points,
volumes and places. Only a walk whose step leads from the box to a coordinate that 64 bits do not
hold finds no points at all. -/

set_option autoImplicit false

namespace Stencil

namespace Box

theorem pairwise_coordinates (l u : Int) {s : Nat} (hs : 1 ≤ s) :
    (coordinates l u s).Pairwise (· < ·) := by
  rw [coordinates, List.pairwise_map]
  refine List.Pairwise.imp (fun {i j} hij => ?_) List.pairwise_lt_range
  have := Int.mul_lt_mul_of_pos_left (Int.ofNat_lt.mpr hij) (show (0 : Int) < s by omega)
  omega

theorem pairwise_pointsOver {rs : List (Int × Int × Nat)} (hs : ∀ r ∈ rs, 1 ≤ r.2.2) :
    (pointsOver rs).Pairwise (List.Lex (· < ·)) := by
  induction rs with
  | nil => exact List.pairwise_singleton _ _
  | cons r rs ih =>
    obtain ⟨l, u, s⟩ := r
    rw [pointsOver, List.pairwise_flatMap]
    constructor
    · intro x _
      rw [List.pairwise_map]
      exact (ih fun r hr => hs r (List.mem_cons_of_mem _ hr)).imp fun hpq => .cons hpq
    · refine (pairwise_coordinates l u (hs _ List.mem_cons_self)).imp fun hxy p hp q hq => ?_
      obtain ⟨_, _, rfl⟩ := List.mem_map.mp hp
      obtain ⟨_, _, rfl⟩ := List.mem_map.mp hq
      exact .rel hxy

theorem pairwise_pointsWithStep (b : Box) (axis s : Nat) :
    (b.pointsWithStep axis s).Pairwise (List.Lex (· < ·)) := by
  rw [pointsWithStep_eq]
  refine pairwise_pointsOver fun r hr => ?_
  obtain ⟨d, hd⟩ := List.mem_iff_getElem?.mp hr
  rw [steps, List.getElem?_mapIdx] at hd
  obtain ⟨_, _, rfl⟩ := Option.map_eq_some_iff.mp hd
  exact one_le_along axis s d

theorem pairwise_points (b : Box) : b.points.Pairwise (List.Lex (· < ·)) := by
  rw [points_eq_pointsWithStep b 0]
  exact pairwise_pointsWithStep b 0 1

theorem eq_of_sorted {ps qs : List Point} (hp : ps.Pairwise (List.Lex (· < ·)))
    (hq : qs.Pairwise (List.Lex (· < ·)))
    (h : ∀ p, p ∈ ps ↔ p ∈ qs) : ps = qs := by
  have hnodup : ∀ {xs : List Point}, xs.Pairwise (List.Lex (· < ·)) → xs.Nodup := by
    intro xs hxs
    refine hxs.imp fun {p q} hpq he => ?_
    subst he
    exact List.lex_irrefl (fun x => Int.lt_irrefl x) p hpq
  refine List.Perm.eq_of_pairwise (fun p q _ _ hpq hqp => ?_) hp hq
    ((List.perm_ext_iff_of_nodup (hnodup hp) (hnodup hq)).mpr h)
  exact absurd hqp (List.lex_asymm (fun h => Int.lt_asymm h) hpq)

def onStep (b : Box) (axis s : Nat) (p : Point) : Bool :=
  decide ((s : Int) ∣ coord p axis - coord b.lb axis)

theorem pointsWithStep_eq_filter {b : Box} {n axis s : Nat} (h : b.Ranked n) (hax : axis < n)
    (hs : 1 ≤ s) :
    b.pointsWithStep axis s = b.points.filter (b.onStep axis s) := by
  refine eq_of_sorted (pairwise_pointsWithStep b axis s) ((pairwise_points b).filter _) fun p => ?_
  rw [mem_pointsWithStep h hs, List.mem_filter, mem_points h, onStep, decide_eq_true_eq]
  exact and_congr_right fun _ => ⟨fun hdvd => hdvd hax, fun hdvd _ => hdvd⟩

theorem walk?_eq_none_iff {b : Box} {axis s : Nat} :
    b.walk? axis s = none ↔ b.isEmpty = false ∧ ¬ Representable (b.past axis s) := by
  rw [walk?]
  cases b.isEmpty <;> simp

theorem eq_of_walk? {b : Box} {axis s : Nat} {ps : List Point} (h : b.walk? axis s = some ps) :
    ps = b.pointsWithStep axis s := by
  rw [walk?] at h
  split at h
  · exact (Option.some.inj h).symm
  · cases h

/-- The points of a box of `n` dimensions, and the walks through them. -/
structure Enumerated (b : Box) (n : Nat) : Prop where
  mem : ∀ p, p ∈ b.points ↔ b.containsPoint p = true
  sorted : b.points.Pairwise (List.Lex (· < ·))
  length : b.points.length = b.volume
  /-- A walk takes the points on the step, in their order. -/
  walk : ∀ {axis s : Nat} {ps : List Point}, axis < n → 1 ≤ s → b.walk? axis s = some ps →
    ps = b.points.filter (b.onStep axis s)
  /-- There is no walk just where the step leads out of the words. -/
  stuck : ∀ {axis s : Nat}, b.walk? axis s = none ↔ b.isEmpty = false ∧ ¬ Representable (b.past axis s)

theorem Ranked.enumerated {b : Box} {n : Nat} (h : b.Ranked n) : b.Enumerated n where
  mem _ := mem_points h
  sorted := pairwise_points b
  length := length_points h
  walk hax hs hw := (eq_of_walk? hw).trans (pointsWithStep_eq_filter h hax hs)
  stuck := walk?_eq_none_iff

end Box

namespace Grid

variable {α : Type}

theorem place?_eq_some_iff {g : Grid α} {n : Nat} (h : g.domain.Ranked n) {p : Point} {i : Nat} :
    g.place? p = some i ↔ g.domain.points[i]? = some p := by
  rw [place?]
  constructor
  · intro hi
    split at hi
    · next hp =>
      cases hi
      exact Box.getElem?_points_place h hp
    · cases hi
  · intro hi
    rw [if_pos ((Box.mem_points h).mp (List.mem_of_getElem? hi)), Box.placeFrom_rangesPoints hi]

theorem stores_eq (g : Grid α) (p : Point) : g.stores p = g.domain.containsPoint p := by
  rw [stores, place?]
  split
  · next hp => rw [hp, Option.isSome_some]
  · next hp => rw [Bool.eq_false_iff.mpr hp, Option.isSome_none]

theorem set_eq_self {g : Grid α} {p : Point} (h : g.domain.containsPoint p = false) (v : α) :
    g.set p v = g := by
  simp [set, place?, h]

theorem get?_fill {domain : Box} (v : α) {p : Point} (h : domain.containsPoint p = true) :
    (fill domain v).get? p = some v := by
  rw [get?_of_mem (g := fill domain v) h]
  simp only [fill]
  rw [Array.getElem?_replicate, if_pos (Box.place_lt_volume h)]

/-- The grids over a box: where points are placed, what new grids hold, and what storing a value
changes. -/
structure Addressed (b : Box) : Prop where
  place : ∀ {α : Type} {g : Grid α} {p : Point} {i : Nat}, g.domain = b →
    (g.place? p = some i ↔ b.points[i]? = some p)
  ofFn : ∀ {α : Type} (f : Point → α) (p : Point), (ofFn b f).Dense ∧
    (ofFn b f).get? p = if b.containsPoint p then some (f p) else none
  fill : ∀ {α : Type} (v : α) (p : Point), (fill b v).Dense ∧
    (fill b v).get? p = if b.containsPoint p then some v else none
  /-- A point of the box takes the value, and all other points keep theirs. -/
  inside :
  ∀ {α : Type} {g : Grid α} {p : Point} (v : α), g.domain = b → g.Dense → b.containsPoint p = true →
    g.stores p = true ∧ (g.set p v).domain = b ∧ (g.set p v).Dense ∧
      ∀ q, (g.set p v).get? q = if q = p then some v else g.get? q
  /-- Nothing is stored outside the box. -/
  outside : ∀ {α : Type} {g : Grid α} {p : Point} (v : α), g.domain = b → b.containsPoint p = false →
    g.stores p = false ∧ g.set p v = g

end Grid

theorem Box.Ranked.addressed {b : Box} {n : Nat} (h : b.Ranked n) : Grid.Addressed b where
  place hg := by
    subst hg
    exact Grid.place?_eq_some_iff h
  ofFn f p := by
    refine ⟨Grid.dense_ofFn h f, ?_⟩
    split
    · next hp => exact Grid.get?_ofFn h f hp
    · next hp => exact Grid.get?_of_not_mem (Bool.eq_false_iff.mpr hp)
  fill v p := by
    refine ⟨Grid.dense_fill b v, ?_⟩
    split
    · next hp => exact Grid.get?_fill v hp
    · next hp => exact Grid.get?_of_not_mem (Bool.eq_false_iff.mpr hp)
  inside v hg hdense hp := by
    subst hg
    refine ⟨(Grid.stores_eq _ _).trans hp, Grid.domain_set _ _ v, hdense.set _ v, fun q => ?_⟩
    split
    · next hq => rw [hq, Grid.get?_set_self hdense hp v]
    · next hq => exact Grid.get?_set_of_ne h (Ne.symm hq) v
  outside v hg hp := by
    subst hg
    exact ⟨(Grid.stores_eq _ _).trans hp, Grid.set_eq_self hp v⟩

namespace Machine

/-- The machine finds the points, the walks, the volume and the places of the box. -/
structure Counts (M : Machine) (b : Box) : Prop where
  points : ∀ i, M.odometer b (fun _ => 1) i = some b.points[i]?
  walk : ∀ {axis s : Nat} {ps : List Point}, Representable (max s 1 : Nat) → b.walk? axis s = some ps →
    ∀ i, M.odometer b (Box.along axis s) i = some ps[i]?
  volume : b.volume < Nat.pow 2 63 → M.volume b = some (b.volume : Int)
  place : ∀ {α : Type} {g : Grid α}, b.volume < Nat.pow 2 63 → g.domain = b →
    ∀ p, M.place? b p = some ((g.place? p).map Int.ofNat)

theorem Faithful.counts {M : Machine} {b : Box} {n : Nat} (hM : M.Faithful) (h : b.Ranked n)
    (hb : Holds b) :
    M.Counts b where
  points := hM.odometer_points h hb
  walk hs hw i := by
    rw [Box.eq_of_walk? hw]
    refine hM.odometer_pointsWithStep h hb hs (fun hne => ?_) i
    apply Classical.byContradiction
    intro hpast
    rw [Box.walk?_eq_none_iff.mpr ⟨hne, hpast⟩] at hw
    cases hw
  volume := hM.volume_eq h hb
  place hv hg := hM.place?_eq h hb hv hg

end Machine

namespace Box

/-- The points of a box are enumerated and its grids addressed in one order, and 64-bit machines
find them so. The one exception is a walk whose step leads out of the words: a machine that traps
does so on it. -/
theorem enumeration_matches_addressing {b : Box} {n : Nat} (h : b.Ranked n) :
    b.Enumerated n ∧ Grid.Addressed b ∧
      (Machine.Holds b → (∀ M : Machine, M.Faithful → M.Counts b) ∧
        ∀ axis s, axis < n →
          (b.walk? axis s = none → ∃ i, Machine.checked.odometer b (along axis s) i = none)) := by
  refine ⟨h.enumerated, h.addressed, fun hb => ⟨fun M hM => hM.counts h hb, fun axis s hax hw => ?_⟩⟩
  obtain ⟨hne, hpast⟩ := walk?_eq_none_iff.mp hw
  exact Machine.odometer_traps h hne hax hpast

/-- A box that reaches the ends of the words in its first dimension. -/
def edgeBox : Box := ⟨[9223372036854775805, -1], [9223372036854775807, 2]⟩

theorem enumeration_matches_addressing_edge :
    edgeBox.Ranked 2 ∧ Machine.Holds edgeBox ∧
      (edgeBox.Enumerated 2 ∧ Grid.Addressed edgeBox ∧ Machine.wrapping.Counts edgeBox ∧
        ∃ i, Machine.checked.odometer edgeBox (along 0 3) i = none) ∧
      edgeBox.walk? 0 3 = none ∧
      edgeBox.walk? 1 2 = some [[9223372036854775805, -1], [9223372036854775805, 1],
        [9223372036854775806, -1], [9223372036854775806, 1]] := by
  have h : edgeBox.Ranked 2 := ⟨rfl, rfl⟩
  have hb : Machine.Holds edgeBox := by unfold Machine.Holds; decide
  have hstuck : edgeBox.walk? 0 3 = none := by decide
  obtain ⟨hpoints, hgrids, hmachines⟩ := enumeration_matches_addressing h
  obtain ⟨hcounts, htraps⟩ := hmachines hb
  exact ⟨h, hb, ⟨hpoints, hgrids, hcounts _ Machine.faithful_wrapping,
    htraps 0 3 (by decide) hstuck⟩, hstuck, by decide⟩

/-- The one point of this box is on every step, but the longest step leads from it out of the words. -/
theorem walk_leaves_words :
    (⟨[1], [2]⟩ : Box).points.filter ((⟨[1], [2]⟩ : Box).onStep 0 9223372036854775807) = [[1]] ∧
      (⟨[1], [2]⟩ : Box).walk? 0 9223372036854775807 = none ∧
      Machine.checked.odometer ⟨[1], [2]⟩ (along 0 9223372036854775807) 1 = none := by decide

end Box

end Stencil
