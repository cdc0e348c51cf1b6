import Mathlib.Order.Lattice
import Stencil.Proofs.Bounds
import Stencil.Proofs.Demand
import Stencil.Proofs.Events
import Stencil.Proofs.Tightness

/-! Boxes and shapes as lattices. A box contains another when it has its points, and two boxes have
a least box above both. Shapes are ordered by what they cover. Boxes without points can be written
in many ways, and only as long as each one is the empty box of its rank do shapes that cover one
another have to be equal; this holds of all shapes that grow and join from no demand at all, and of
no others. On these, the join is the least upper bound. -/

set_option autoImplicit false

namespace Stencil

namespace Box

theorem contains_iff_forall {a b : Box} {n : Nat} (ha : a.Ranked n) (hb : b.Ranked n) :
    a.contains b = true ↔ ∀ p, b.containsPoint p = true → a.containsPoint p = true := by
  refine ⟨fun h p hp => containsPoint_of_contains ha hb h hp,
    fun h => (contains_iff ha hb).mpr fun hne d hd => ?_⟩
  obtain ⟨hfirst, hlast⟩ := containsPoint_corners hb hne
  have hfirst := ((containsPoint_iff ha).mp (h _ hfirst)).2 d hd
  have hlast := ((containsPoint_iff ha).mp (h _ hlast)).2 d hd
  rw [coord_last hb hd] at hlast
  omega

theorem containsPoint_shifted_iff {a : Box} {o : Offset} {n : Nat} (ha : a.Ranked n) (ho : o.length = n)
    {p : Point}
    (hp : p.length = n) :
    (a.shifted o).containsPoint p = true ↔ a.containsPoint (List.zipWith (· - ·) p o) = true := by
  have hback : ∀ d, d < n → coord (List.zipWith (· - ·) p o) d = coord p d - coord o d := fun d hd =>
    coord_zipWith _ (by omega) (by omega)
  have hlen : (List.zipWith (· - ·) p o).length = n := by rw [List.length_zipWith]; omega
  constructor
  · intro hin
    have hne := isEmpty_of_containsPoint (ranked_shifted ha ho) hin
    rw [isEmpty_shifted ha ho] at hne
    refine (containsPoint_iff ha).mpr ⟨hlen, fun d hd => ?_⟩
    have hc := coord_shifted ha ho hne hd
    have := ((containsPoint_iff (ranked_shifted ha ho)).mp hin).2 d hd
    rw [hback d hd]
    omega
  · intro hin
    have hne := isEmpty_of_containsPoint ha hin
    refine (containsPoint_iff (ranked_shifted ha ho)).mpr ⟨hp, fun d hd => ?_⟩
    have hc := coord_shifted ha ho hne hd
    have := ((containsPoint_iff ha).mp hin).2 d hd
    rw [hback d hd] at this
    omega

/-- The boxes of `n` dimensions, ordered by their points. -/
structure Lattice (n : Nat) : Prop where
  contains : ∀ {a b : Box}, a.Ranked n → b.Ranked n →
    (a.contains b = true ↔ ∀ p, b.containsPoint p = true → a.containsPoint p = true)
  above : ∀ {a b : Box}, a.Ranked n → b.Ranked n →
    (a.union b).Ranked n ∧ (a.union b).contains a = true ∧ (a.union b).contains b = true
  least : ∀ {a b c : Box}, a.Ranked n → b.Ranked n → c.Ranked n → c.contains a = true →
    c.contains b = true →
    c.contains (a.union b) = true
  shifted : ∀ {a : Box} {o : Offset} {p : Point}, a.Ranked n → o.length = n → p.length = n →
    ((a.shifted o).containsPoint p = true ↔ a.containsPoint (List.zipWith (· - ·) p o) = true)

theorem lattice (n : Nat) : Lattice n where
  contains ha hb := contains_iff_forall ha hb
  above ha hb :=
    have hu := ranked_union ha hb
    ⟨hu, (contains_union_iff ha hb hu).mp (contains_refl hu)⟩
  least ha hb hc hca hcb := (contains_union_iff ha hb hc).mpr ⟨hca, hcb⟩
  shifted ha ho hp := containsPoint_shifted_iff ha ho hp

end Box

namespace Shape

theorem fits_known {b : Box} {n : Nat} (hb : b.Ranked n) (hc : b.Canonical) : (known b).Fits n := by
  intro c hbc
  cases hbc
  exact ⟨hb, hc⟩

theorem Fits.join {s t : Shape} {n : Nat} (hs : s.Fits n) (ht : t.Fits n) : (s.join t).Fits n := by
  cases t with
  | unknown => rwa [join_unknown]
  | known b =>
    obtain ⟨hb, hc⟩ := ht b rfl
    rw [join_known_eq_grow s hc]
    exact hs.grow hb

theorem covers_trans {s t u : Shape} {n : Nat} (hs : s.Fits n) (ht : t.Fits n) (hu : u.Fits n)
    (hut : u.covers t = true) (hts : t.covers s = true) : u.covers s = true := by
  cases s with
  | unknown => cases u <;> rfl
  | known a => exact covers_known_trans ht hu (hs a rfl).1 hut hts

theorem covers_join_iff {s t u : Shape} {n : Nat} (hs : s.Fits n) (ht : t.Fits n) (hu : u.Fits n) :
    u.covers (s.join t) = true ↔ u.covers s = true ∧ u.covers t = true := by
  cases t with
  | unknown =>
    rw [join_unknown]
    exact ⟨fun h => ⟨h, by cases u <;> rfl⟩, fun h => h.1⟩
  | known b =>
    obtain ⟨hb, hc⟩ := ht b rfl
    rw [join_known_eq_grow s hc]
    exact covers_grow_iff hs hu hb

theorem covers_join_self {s t : Shape} {n : Nat} (hs : s.Fits n) (ht : t.Fits n) :
    (s.join t).covers s = true ∧ (s.join t).covers t = true :=
  (covers_join_iff hs ht (hs.join ht)).mp (covers_refl (hs.join ht))

/-- A shape of rank `n` whose box, when empty, is the empty box. -/
@[ext]
structure Fitting (n : Nat) where
  shape : Shape
  fits : shape.Fits n

instance (n : Nat) : SemilatticeSup (Fitting n) where
  le s t := t.shape.covers s.shape = true
  le_refl s := covers_refl s.fits
  le_trans s t u hst htu := covers_trans s.fits t.fits u.fits htu hst
  le_antisymm s t hst hts := Fitting.ext (covers_antisymm s.fits t.fits hts hst)
  sup s t := ⟨s.shape.join t.shape, s.fits.join t.fits⟩
  le_sup_left s t := (covers_join_self s.fits t.fits).1
  le_sup_right s t := (covers_join_self s.fits t.fits).2
  sup_le s t u hsu htu := (covers_join_iff s.fits t.fits u.fits).mpr ⟨hsu, htu⟩

/-- The shapes that come about from no demand at all by growing and joining. -/
inductive Grown (n : Nat) : Shape → Prop where
  | unknown : Grown n .unknown
  | grow {s : Shape} {b : Box} : Grown n s → b.Ranked n → Grown n (s.grow b)
  | join {s t : Shape} : Grown n s → Grown n t → Grown n (s.join t)

theorem Grown.fits {n : Nat} {s : Shape} (h : Grown n s) : s.Fits n := by
  induction h with
  | unknown => exact fits_unknown n
  | grow _ hb ih => exact ih.grow hb
  | join _ _ ihs iht => exact ihs.join iht

theorem Fits.grown {n : Nat} {s : Shape} (h : s.Fits n) : Grown n s := by
  cases s with
  | unknown => exact .unknown
  | known b =>
    obtain ⟨hb, hc⟩ := h b rfl
    have hgrow := Grown.grow (.unknown (n := n)) hb
    rwa [Shape.grow, hc.canonical_eq] at hgrow

theorem grows_iff (s : Shape) (b : Box) : s.grows b = true ↔ s.grow b ≠ s := by
  cases s with
  | unknown => simp [grows, Shape.grow]
  | known a => simp [grows, Shape.grow]

theorem covers_known_canonical {u : Shape} {b : Box} {n : Nat} (hb : b.Ranked n) :
    u.covers (known b.canonical) = u.covers (known b) := by
  cases u with
  | unknown => rfl
  | known c => exact Box.contains_canonical hb

/-- To grow by a box is to join with it, once it is written as the empty box if it has no points. -/
theorem grow_eq_join {s : Shape} {b : Box} {n : Nat} (hs : s.Fits n) (hb : b.Ranked n) :
    s.grow b = s.join (known b.canonical) := by
  have hb' := Box.ranked_canonical hb
  rw [join_known_eq_grow s Box.canonical_canonical]
  apply covers_antisymm (hs.grow hb) (hs.grow hb')
  · rw [covers_grow_iff hs (hs.grow hb) hb', covers_known_canonical hb]
    exact covers_grow_self hs hb
  · rw [covers_grow_iff hs (hs.grow hb') hb, ← covers_known_canonical hb]
    exact covers_grow_self hs hb'

/-- The shapes of rank `n` whose empty boxes are the empty box, ordered by what they cover. -/
structure Lattice (n : Nat) : Prop where
  /-- They are the shapes that come about from no demand at all. -/
  reached : ∀ {s : Shape}, s.Fits n ↔ Grown n s
  refl : ∀ {s : Shape}, s.Fits n → s.covers s = true
  antisymm : ∀ {s t : Shape}, s.Fits n → t.Fits n → s.covers t = true → t.covers s = true → s = t
  trans : ∀ {s t u : Shape}, s.Fits n → t.Fits n → u.Fits n → u.covers t = true → t.covers s = true →
    u.covers s = true
  above : ∀ {s t : Shape}, s.Fits n → t.Fits n → (s.join t).covers s = true ∧ (s.join t).covers t = true
  least : ∀ {s t u : Shape}, s.Fits n → t.Fits n → u.Fits n → u.covers s = true → u.covers t = true →
    u.covers (s.join t) = true
  comm : ∀ {s t : Shape}, s.Fits n → t.Fits n → s.join t = t.join s
  assoc : ∀ {s t u : Shape}, s.Fits n → t.Fits n → u.Fits n → (s.join t).join u = s.join (t.join u)
  idem : ∀ {s : Shape}, s.Fits n → s.join s = s
  identity : ∀ s : Shape, s.join unknown = s ∧ unknown.join s = s
  /-- A demand for no points is more than no demand. -/
  strict : (known (Box.empty n)).Fits n ∧ (known (Box.empty n)).covers unknown = true ∧
    unknown.covers (known (Box.empty n)) = false
  grow : ∀ {s : Shape} {b : Box}, s.Fits n → b.Ranked n → s.grow b = s.join (known b.canonical) ∧
    (b.Canonical → s.grow b = s.join (known b)) ∧ (s.grows b = true ↔ s.grow b ≠ s)

theorem lattice (n : Nat) : Lattice n where
  reached := ⟨Fits.grown, Grown.fits⟩
  refl hs := covers_refl hs
  antisymm hs ht hst hts := covers_antisymm hs ht hst hts
  trans hs ht hu hut hts := covers_trans hs ht hu hut hts
  above hs ht := covers_join_self hs ht
  least hs ht hu hus hut := (covers_join_iff hs ht hu).mpr ⟨hus, hut⟩
  comm {s t} hs ht := congrArg Fitting.shape (sup_comm (⟨s, hs⟩ : Fitting n) ⟨t, ht⟩)
  assoc {s t u} hs ht hu := congrArg Fitting.shape (sup_assoc (⟨s, hs⟩ : Fitting n) ⟨t, ht⟩ ⟨u, hu⟩)
  idem {s} hs := congrArg Fitting.shape (sup_idem (⟨s, hs⟩ : Fitting n))
  identity s := ⟨join_unknown s, rfl⟩
  strict := ⟨fits_known (Box.ranked_empty n) (Box.canonical_empty n), rfl, rfl⟩
  grow {s b} hs hb := ⟨grow_eq_join hs hb, fun hc => (join_known_eq_grow s hc).symm, grows_iff s b⟩

end Shape

/-- Boxes are ordered by their points and shapes by what they cover, with least upper bounds in both. -/
theorem boxes_and_shapes_form_lattices (n : Nat) :
    Box.Lattice n ∧ Shape.Lattice n ∧ (0 < n → (Box.empty n).isEmpty = true) :=
  ⟨Box.lattice n, Shape.lattice n, Box.isEmpty_empty⟩

-- a box without points that is not the empty box covers it and is covered by it, and grows by being
-- asked for
example : (Shape.known ⟨[1], [1]⟩).covers (.known (Box.empty 1)) = true ∧
    (Shape.known (Box.empty 1)).covers (.known ⟨[1], [1]⟩) = true ∧
    (Shape.known ⟨[1], [1]⟩).grows ⟨[1], [1]⟩ = true := by decide

/-- On 64 bits boxes are displaced by the same law, as long as their coordinates leave room for an
offset; no other operation on boxes and shapes forms new coordinates. -/
theorem Machine.Faithful.containsPoint_shifted_iff {M : Machine} (hM : M.Faithful) {a : Box} {o : Offset}
    {n : Nat}
    (ha : a.Ranked n) (ho : o.length = n) (hroom : a.Within roomy) (hrange : o.inRange = true) {p : Point}
    (hp : p.length = n) :
    ∃ b, M.shifted a o = some b ∧ b.Ranked n ∧
      (b.containsPoint p = true ↔ a.containsPoint (List.zipWith (· - ·) p o) = true) :=
  ⟨a.shifted o, hM.shifted_eq hroom hrange, Box.ranked_shifted ha ho,
    Box.containsPoint_shifted_iff ha ho hp⟩

end Stencil
