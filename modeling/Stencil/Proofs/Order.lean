import Mathlib.Data.List.Perm.Subperm
import Stencil.Proofs.Placing

/-! The order of regions: every region once, each behind the producers of its operands. -/

set_option autoImplicit false

namespace Stencil

namespace Func

theorem mem_producers {f : Func} {id p : RegionId} :
    p ∈ f.producers id ↔ ∃ r t x, f.region? id = some r ∧ .temp t ∈ r.operands ∧
      f.temp? t = some x ∧ x.producer = p := by
  unfold producers
  cases hr : f.region? id with
  | none => simp
  | some r =>
    simp only [mem_ascending, List.mem_filterMap, Option.some.injEq]
    constructor
    · rintro ⟨o, ho, hp⟩
      cases o with
      | temp t =>
        obtain ⟨x, hx, hxp⟩ := Option.map_eq_some_iff.mp hp
        exact ⟨r, t, x, rfl, ho, hx, hxp⟩
      | buffer b => simp at hp
    · rintro ⟨r', t, x, rfl, ho, hx, hxp⟩
      exact ⟨.temp t, ho, by simp [hx, hxp]⟩

/-- Each member stands behind all that it needs. -/
def Behind (needs : RegionId → RegionId → Prop) (ids : List RegionId) : Prop :=
  ∀ before id after, ids = before ++ id :: after → ∀ p, needs p id → p ∈ before

theorem Behind.snoc {needs : RegionId → RegionId → Prop} {ids : List RegionId} (h : Behind needs ids)
    {x : RegionId} (hx : ∀ p, needs p x → p ∈ ids) : Behind needs (ids ++ [x]) := by
  intro before id after he p hp
  -- `id` is the member that was just added, or one of the others with `x` at the far end
  rcases List.eq_nil_or_concat after with ha | ⟨after', y, ha⟩
  · rw [ha] at he
    have hinj := List.append_inj' he rfl
    simp only [List.cons.injEq, and_true] at hinj
    rw [← hinj.1]
    exact hx p (hinj.2 ▸ hp)
  · rw [ha, List.concat_eq_append, ← List.cons_append, ← List.append_assoc] at he
    have hinj := List.append_inj' he rfl
    exact h before id after' hinj.1 p hp

/-- No region twice, and each behind its producers. -/
structure Placed (f : Func) (placed : List RegionId) : Prop where
  nodup : placed.Nodup
  live : ∀ id, id ∈ placed → id ∈ f.regionIds
  producers : ∀ before id after, placed = before ++ id :: after → ∀ p, p ∈ f.producers id → p ∈ before

theorem placed_nil (f : Func) : f.Placed [] := by
  refine ⟨List.nodup_nil, ?_, ?_⟩
  · intro id h
    cases h
  · intro before id after h
    simp at h

theorem nextReady?_eq_some {f : Func} {placed : List RegionId} {r : RegionId}
    (h : f.nextReady? placed = some r) :
    r ∈ f.regionIds ∧ r ∉ placed ∧ ∀ p, p ∈ f.producers r → p ∈ placed := by
  have hm := List.mem_of_find?_eq_some h
  have hp := List.find?_some h
  simp only [isReady, Bool.and_eq_true, Bool.not_eq_true', List.all_eq_true, List.contains_eq_mem,
    decide_eq_false_iff_not, decide_eq_true_eq] at hp
  exact ⟨hm, hp.1, hp.2⟩

theorem Placed.snoc {f : Func} {placed : List RegionId} (hp : f.Placed placed) {r : RegionId}
    (h : f.nextReady? placed = some r) : f.Placed (placed ++ [r]) := by
  obtain ⟨hlive, hnew, hready⟩ := nextReady?_eq_some h
  refine ⟨?_, ?_, ?_⟩
  · rw [List.nodup_append]
    refine ⟨hp.nodup, by simp, ?_⟩
    intro a ha b hb
    rw [List.mem_singleton] at hb
    subst hb
    intro he
    exact hnew (he ▸ ha)
  · intro id hid
    rcases List.mem_append.mp hid with hid | hid
    · exact hp.live id hid
    · rw [List.mem_singleton] at hid
      exact hid ▸ hlive
  · exact Behind.snoc hp.producers hready

theorem placed_placeReady {f : Func} (fuel : Nat) {placed : List RegionId} (hp : f.Placed placed) :
    f.Placed (f.placeReady fuel placed) := by
  induction fuel generalizing placed with
  | zero => exact hp
  | succ fuel ih =>
    rw [placeReady]
    cases hn : f.nextReady? placed with
    | none => exact hp
    | some r => exact ih (hp.snoc hn)

theorem order_eq_ok_iff {f : Func} {order : List RegionId} :
    f.order = .ok order ↔
      f.placeReady f.regionIds.length [] = order ∧ order.length = f.regionIds.length := by
  rw [order_eq_placeReady]
  split
  · next hl =>
    rw [Except.ok.injEq]
    exact ⟨fun h => ⟨h, h ▸ hl⟩, fun h => h.1⟩
  · next hl =>
    simp only [reduceCtorEq, false_iff, not_and]
    rintro rfl
    exact hl

/-- An order of all regions, producers first. -/
structure Ordered (f : Func) (order : List RegionId) : Prop extends f.Placed order where
  perm : order.Perm f.regionIds

theorem ordered_of_order {f : Func} {order : List RegionId} (h : f.order = .ok order) :
    f.Ordered order := by
  obtain ⟨hplace, hlen⟩ := order_eq_ok_iff.mp h
  have hp : f.Placed order := hplace ▸ placed_placeReady _ f.placed_nil
  -- as many regions as there are, none twice: all of them
  have hsub := List.subperm_of_subset hp.nodup hp.live
  exact ⟨hp, hsub.perm_of_length_le (by omega)⟩

theorem Ordered.mem_iff {f : Func} {order : List RegionId} (h : f.Ordered order) {id : RegionId} :
    id ∈ order ↔ ∃ r, f.region? id = some r := by
  rw [h.perm.mem_iff, mem_regionIds]

theorem Ordered.mem_after {f : Func} {order pre post : List RegionId} {p id : RegionId}
    (h : f.Ordered order) (heq : order = pre ++ p :: post) (hid : id ∈ order)
    (hp : p ∈ f.producers id) : id ∈ post := by
  have hnodup := h.nodup
  rw [heq, List.nodup_append] at hnodup
  obtain ⟨_, _, hdisj⟩ := hnodup
  rw [heq, List.mem_append, List.mem_cons] at hid
  rcases hid with hid | rfl | hid
  · obtain ⟨before, after, hsplit⟩ := List.append_of_mem hid
    have hmem : p ∈ before := by
      apply h.producers before id (after ++ p :: post) _ p hp
      rw [heq, hsplit]
      simp
    exact absurd rfl (hdisj p (by rw [hsplit]; simp [hmem]) p (by simp))
  · have hmem := h.producers pre id post heq id hp
    exact absurd rfl (hdisj id hmem id (by simp))
  · exact hid

/-- As long as an ordered region is not placed, one is ready: the first of them that is not placed. -/
theorem Ordered.exists_nextReady? {f : Func} {order placed : List RegionId} (h : f.Ordered order)
    {id : RegionId} (hid : id ∈ order) (hnew : id ∉ placed) : ∃ r, f.nextReady? placed = some r := by
  obtain ⟨first, hfirst⟩ : ∃ r, order.find? (fun r => !placed.contains r) = some r := by
    rw [← Option.isSome_iff_exists, List.find?_isSome]
    exact ⟨id, hid, by simp [hnew]⟩
  obtain ⟨hfree, before, after, heq, hbefore⟩ := List.find?_eq_some_iff_append.mp hfirst
  rw [nextReady?, ← Option.isSome_iff_exists, List.find?_isSome]
  refine ⟨first, h.live first (by rw [heq]; simp), ?_⟩
  rw [isReady, hfree, Bool.true_and, List.all_eq_true]
  intro p hp
  simpa using hbefore p (h.producers before first after heq p hp)

theorem Ordered.length_placeReady {f : Func} {order placed : List RegionId} (h : f.Ordered order)
    {fuel : Nat} (hp : f.Placed placed) (hlen : placed.length + fuel = order.length) :
    (f.placeReady fuel placed).length = order.length := by
  induction fuel generalizing placed with
  | zero => exact hlen
  | succ fuel ih =>
    obtain ⟨id, hid, hnew⟩ : ∃ id, id ∈ order ∧ id ∉ placed := by
      by_contra hall
      push Not at hall
      have := (List.subperm_of_subset h.nodup hall).length_le
      omega
    obtain ⟨r, hr⟩ := h.exists_nextReady? hid hnew
    rw [placeReady, hr]
    exact ih (hp.snoc hr) (by simp only [List.length_append, List.length_singleton]; omega)

theorem Ordered.exists_order {f : Func} {order : List RegionId} (h : f.Ordered order) :
    ∃ found, f.order = .ok found := by
  have hlen := h.perm.length_eq
  refine ⟨_, order_eq_ok_iff.mpr ⟨rfl, ?_⟩⟩
  rw [← hlen]
  exact h.length_placeReady f.placed_nil (by simp)

theorem isReady_congr {f g : Func}
    (hprod : ∀ id, f.producers id = g.producers id) (placed : List RegionId) :
    f.isReady placed = g.isReady placed := by
  funext r
  rw [isReady, isReady, hprod]

theorem placeReady_congr {f g : Func} (hids : f.regionIds = g.regionIds)
    (hprod : ∀ id, f.producers id = g.producers id) (fuel : Nat) (placed : List RegionId) :
    f.placeReady fuel placed = g.placeReady fuel placed := by
  induction fuel generalizing placed with
  | zero => rfl
  | succ fuel ih =>
    have hnext : f.nextReady? placed = g.nextReady? placed := by
      rw [nextReady?, nextReady?, hids, isReady_congr hprod]
    rw [placeReady, placeReady, hnext]
    cases g.nextReady? placed with
    | none => rfl
    | some r => exact ih (placed ++ [r])

theorem order_congr {f g : Func} (hids : f.regionIds = g.regionIds)
    (hprod : ∀ id, f.producers id = g.producers id) {order : List RegionId}
    (h : f.order = .ok order) : g.order = .ok order := by
  rw [order_eq_ok_iff] at h ⊢
  rw [← hids, ← placeReady_congr hids hprod]
  exact h

theorem SameStructure.producers_eq {f g : Func} (h : f.SameStructure g) (id : RegionId) :
    f.producers id = g.producers id := by
  have hclear : ∀ k : Func, k.clearShapes.producers id = k.producers id := by
    intro k
    unfold producers
    rw [region?_clearShapes]
    cases k.region? id with
    | none => rfl
    | some r =>
      simp only [Option.map_some]
      congr 2
      funext o
      cases o with
      | temp t =>
        simp only [temp?_clearShapes]
        cases k.temp? t <;> rfl
      | buffer b => rfl
  rw [← hclear f, ← hclear g]
  exact congrArg (fun k : Func => k.producers id) h

theorem SameStructure.order_eq {f g : Func} (h : f.SameStructure g) {order : List RegionId}
    (ho : f.order = .ok order) : g.order = .ok order :=
  order_congr h.regionIds_eq h.producers_eq ho

end Func

end Stencil
