import Stencil.Proofs.Machine

/-! Bounds on coordinates. Boxes whose coordinates leave room for an offset and a group are
displaced, widened and split on 64 bits as they are on unbounded integers. -/

set_option autoImplicit false

namespace Stencil

/-- No bound of the box is larger than `c`, in either direction. -/
def Box.Within (b : Box) (c : Int) : Prop := ∀ x, x ∈ b.lb ++ b.ub → -c ≤ x ∧ x ≤ c

namespace Box

variable {a b : Box} {c : Int}

theorem Within.mono (h : b.Within c) {c' : Int} (hc : c ≤ c') : b.Within c' := by
  intro x hx
  have := h x hx
  omega

theorem within_empty (hc : 0 ≤ c) (n : Nat) : (empty n).Within c := by
  intro x hx
  simp only [empty, List.mem_append, List.mem_replicate] at hx
  omega

theorem Within.withAxis (h : b.Within c) {l u : Int} (hl : -c ≤ l ∧ l ≤ c) (hu : -c ≤ u ∧ u ≤ c)
    (axis : Nat) : (b.withAxis axis l u).Within c := by
  intro x hx
  rcases List.mem_append.mp hx with hx | hx
  · rcases List.mem_or_eq_of_mem_set hx with hx | rfl
    · exact h x (List.mem_append_left _ hx)
    · exact hl
  · rcases List.mem_or_eq_of_mem_set hx with hx | rfl
    · exact h x (List.mem_append_right _ hx)
    · exact hu

theorem withAxis_withAxis (b : Box) (axis : Nat) (l u l' u' : Int) :
    (b.withAxis axis l u).withAxis axis l' u' = b.withAxis axis l' u' := by
  simp [Box.withAxis]

theorem coord_within {xs : List Int} (h : ∀ x, x ∈ xs → -c ≤ x ∧ x ≤ c) (hc : 0 ≤ c) (d : Nat) :
    -c ≤ coord xs d ∧ coord xs d ≤ c := by
  by_cases hd : d < xs.length
  · rw [coord_eq_getElem hd]
    exact h _ (List.getElem_mem hd)
  · rw [coord, List.getD_eq_getElem?_getD, List.getElem?_eq_none (by omega), Option.getD_none]
    omega

theorem Within.coord_lb (h : b.Within c) (hc : 0 ≤ c) (d : Nat) : -c ≤ coord b.lb d ∧ coord b.lb d ≤ c :=
  coord_within (fun x hx => h x (List.mem_append_left _ hx)) hc d

theorem Within.coord_ub (h : b.Within c) (hc : 0 ≤ c) (d : Nat) : -c ≤ coord b.ub d ∧ coord b.ub d ≤ c :=
  coord_within (fun x hx => h x (List.mem_append_right _ hx)) hc d

theorem extent_nonneg (b : Box) (axis : Nat) : 0 ≤ b.extent axis := by
  unfold extent
  split
  · omega
  · omega

theorem Within.lb_add_extent_le (h : b.Within c) (hc : 0 ≤ c) (axis : Nat) :
    coord b.lb axis + b.extent axis ≤ c := by
  have hlb := h.coord_lb hc axis
  unfold extent
  split
  · next l u hl hu =>
    have hl : coord b.lb axis = l := by rw [coord, List.getD_eq_getElem?_getD, hl]; rfl
    have hu := h u (List.mem_append_right _ (List.mem_of_getElem? hu))
    omega
  · omega

theorem Within.shifted (h : b.Within c) (hc : 0 ≤ c) {o : Offset} (ho : o.inRange = true) :
    (b.shifted o).Within (c + maxCoord) := by
  have hmax : (0 : Int) ≤ maxCoord := by decide
  have hsum : ∀ xs, (∀ x, x ∈ xs → x ∈ b.lb ++ b.ub) → ∀ z, z ∈ List.zipWith (· + ·) xs o →
      -(c + maxCoord) ≤ z ∧ z ≤ c + maxCoord := by
    intro xs hxs z hz
    obtain ⟨x, hxmem, y, hymem, rfl⟩ := mem_zipWith hz
    have hx := h x (hxs x hxmem)
    have hy := List.all_eq_true.mp ho y hymem
    simp only [coordInRange, Bool.and_eq_true, decide_eq_true_eq] at hy
    omega
  unfold Box.shifted
  split
  · exact within_empty (by omega) _
  · intro z hz
    rcases List.mem_append.mp hz with hz | hz
    · exact hsum b.lb (fun x hx => List.mem_append_left _ hx) z hz
    · exact hsum b.ub (fun x hx => List.mem_append_right _ hx) z hz

theorem Within.union (ha : a.Within c) (hb : b.Within c) (hc : 0 ≤ c) : (a.union b).Within c := by
  unfold Box.union
  split
  · split
    · exact within_empty hc _
    · exact hb
  · split
    · exact ha
    · have hpair : ∀ (g : Int → Int → Int), (∀ x y, g x y = x ∨ g x y = y) → ∀ xs ys,
          (∀ x, x ∈ xs → x ∈ a.lb ++ a.ub) → (∀ y, y ∈ ys → y ∈ b.lb ++ b.ub) →
          ∀ z, z ∈ List.zipWith g xs ys → -c ≤ z ∧ z ≤ c := by
        intro g hg xs ys hxs hys z hz
        obtain ⟨x, hx, y, hy, rfl⟩ := mem_zipWith hz
        rcases hg x y with he | he
        · rw [he]
          exact ha x (hxs x hx)
        · rw [he]
          exact hb y (hys y hy)
      intro z hz
      rcases List.mem_append.mp hz with hz | hz
      · exact hpair min (fun x y => by omega) a.lb b.lb (fun x hx => List.mem_append_left _ hx)
          (fun x hx => List.mem_append_left _ hx) z hz
      · exact hpair max (fun x y => by omega) a.ub b.ub (fun x hx => List.mem_append_right _ hx)
          (fun x hx => List.mem_append_right _ hx) z hz

theorem within_of_wellFormed {n : Nat} (h : b.wellFormed n = true) : b.Within maxCoord := by
  simp only [wellFormed, Bool.and_eq_true] at h
  intro x hx
  have := List.all_eq_true.mp h.2 x hx
  simpa [coordInRange] using this

end Box

def Shape.Within (s : Shape) (c : Int) : Prop := ∀ b, s = .known b → b.Within c

namespace Shape

variable {s s' : Shape} {c : Int}

theorem Within.mono (h : s.Within c) {c' : Int} (hc : c ≤ c') : s.Within c' :=
  fun b hb => (h b hb).mono hc

theorem within_unknown (c : Int) : unknown.Within c := by
  intro b hb
  cases hb

theorem Within.grow (h : s.Within c) {b : Box} (hb : b.Within c) (hc : 0 ≤ c) : (s.grow b).Within c := by
  cases s with
  | unknown =>
    rintro _ ⟨⟩
    unfold Box.canonical
    split
    · exact Box.within_empty hc _
    · exact hb
  | known a =>
    rintro _ ⟨⟩
    exact (h a rfl).union hb hc

theorem Within.join (h : s.Within c) (h' : s'.Within c) (hc : 0 ≤ c) : (s.join s').Within c := by
  cases s with
  | unknown => exact h'
  | known a =>
    cases s' with
    | unknown => exact h
    | known b =>
      rintro _ ⟨⟩
      exact (h a rfl).union (h' b rfl) hc

theorem Within.foldl_grow {boxes : List Box} (h : s.Within c)
    (hb : ∀ b, b ∈ boxes → b.Within c) (hc : 0 ≤ c) :
    (boxes.foldl Shape.grow s).Within c := by
  induction boxes generalizing s with
  | nil => exact h
  | cons b boxes ih =>
    exact ih (h.grow (hb b List.mem_cons_self) hc) fun b' hb' => hb b' (List.mem_cons_of_mem _ hb')

end Shape

namespace Region

/-- Groups that start before the end of an extent: the last of them starts in it. -/
theorem groupCount_spec {r : Region} {e : Int} {k : Nat} (he : 0 ≤ e) (hk : 0 < k) :
    0 ≤ r.groupCount e k ∧ r.groupCount e k * k ≤ e + k - 1 ∧
      (0 < r.groupCount e k → (r.groupCount e k - 1) * k + 1 ≤ e) := by
  have hkpos : (0 : Int) < k := by omega
  have hstart : ∀ m : Int, (m - 1) * k = m * k - k := by
    intro m
    rw [Int.sub_mul, Int.one_mul]
  unfold groupCount
  split
  · have hle := Int.ediv_mul_le e (Int.ne_of_gt hkpos)
    exact ⟨Int.ediv_nonneg he (Int.le_of_lt hkpos), by omega, fun _ => by rw [hstart]; omega⟩
  · have hle := Int.ediv_mul_le (e + k - 1) (Int.ne_of_gt hkpos)
    rw [groupsUp_def]
    exact ⟨Int.ediv_nonneg (by omega) (Int.le_of_lt hkpos), hle, fun _ => by rw [hstart]; omega⟩

theorem within_iterationPlan {r : Region} {domain : Box} {c : Int} (h : domain.Within c) (hc : 0 ≤ c)
    (hk : ∀ u, r.unroll = some u → 0 < u.factor) :
    (∀ x, (r.iterationPlan domain).main = some x → x.Within c) ∧
      ∀ x, (r.iterationPlan domain).tail = some x → x.Within c := by
  by_cases he : domain.isEmpty = true
  · simp [iterationPlan_of_isEmpty he]
  · rw [Bool.not_eq_true] at he
    cases hu : r.unroll with
    | none =>
      rw [iterationPlan_of_none hu he]
      exact ⟨fun x hx => Option.some.inj hx ▸ h, by simp⟩
    | some u =>
      obtain ⟨m, hm, hplan⟩ := iterationPlan_of_unroll he hu (hk u hu)
      obtain ⟨hnonneg, _, hlast⟩ := groupCount_spec (r := r) (domain.extent_nonneg u.axis) (hk u hu)
      rw [groupCount, ← hm] at hnonneg hlast
      have hlb := h.coord_lb hc u.axis
      have hub := h.coord_ub hc u.axis
      have hend := h.lb_add_extent_le hc u.axis
      have hsteps : ∀ n : Int, 0 ≤ n → 0 ≤ n * u.factor := fun n hn => Int.mul_nonneg hn (by omega)
      rw [hplan]
      refine ⟨?_, ?_⟩
      · intro x hx
        simp only [Option.ite_none_right_eq_some, Option.some.injEq] at hx
        obtain ⟨hpos, rfl⟩ := hx
        have hlast := hlast hpos
        have hfirst := hsteps (m - 1) (by omega)
        exact h.withAxis hlb (by omega) u.axis
      · intro x hx
        simp only [Option.ite_none_right_eq_some, Option.some.injEq, Bool.and_eq_true,
          decide_eq_true_eq] at hx
        obtain ⟨⟨_, hlt⟩, rfl⟩ := hx
        have hfirst := hsteps m hnonneg
        exact h.withAxis (by omega) hub u.axis

theorem within_of_mem_runs {r : Region} {domain : Box} {c : Int} (h : domain.Within c) (hc : 0 ≤ c)
    (hk : ∀ u, r.unroll = some u →
      0 < u.factor) {b : Body} {base : Box} (hrun : (b, base) ∈ r.runs domain) :
    base.Within c := by
  obtain ⟨hmains, htails⟩ := within_iterationPlan h hc hk
  have hnone : (Box.empty domain.rank).Within c := Box.within_empty hc _
  rcases mem_runs.mp hrun with ⟨rfl, rfl⟩ | ⟨_, rfl⟩
  · rw [mainBox]
    cases hmain : (r.iterationPlan domain).main with
    | none => exact hnone
    | some x => exact hmains x hmain
  · rw [tailBox]
    cases htail : (r.iterationPlan domain).tail with
    | none => exact hnone
    | some x => exact htails x htail

theorem within_computedDomain {r : Region} {required : Box} {c k : Int} (h : required.Within c)
    (hc : 0 ≤ c)
    (hk : ∀ u, r.unroll = some u → u.factor ≤ k) (hk0 : 0 ≤ k) :
    (r.computedDomain required).Within (c + k) := by
  have hmore := h.mono (by omega : c ≤ c + k)
  rw [computedDomain_def]
  split
  · next u hu he =>
    split
    · next hcond =>
      simp only [Bool.and_eq_true, decide_eq_true_eq] at hcond
      have hfactor := hk u hu
      have hlb := h.coord_lb hc u.axis
      have hend := h.lb_add_extent_le hc u.axis
      obtain ⟨hnonneg, hle, _⟩ := groupCount_spec (r := r) (required.extent_nonneg u.axis)
        (by omega : 0 < u.factor)
      rw [groupCount, he] at hnonneg hle
      simp only [Option.isSome_none, Bool.false_eq_true, if_false] at hnonneg hle
      have hsteps := Int.mul_nonneg hnonneg (by omega : (0 : Int) ≤ u.factor)
      have hcoord : required.lb.getD u.axis 0 = coord required.lb u.axis := rfl
      rw [hcoord]
      exact hmore.withAxis (by omega) (by omega) u.axis
    · exact hmore
  · exact hmore

/-- The base points over a box that was widened to `G` whole groups: none, or one in front of each
group. -/
theorem mainBox_widened {r : Region} {u : Unroll} {n : Nat} (hu : r.unroll = some u)
    (he : r.epilogue = none)
    (hk : 0 < u.factor) {required : Box} (hranked : required.Ranked n) (haxis : u.axis < n) {G : Int}
    {domain : Box}
    (hdomain : required.withAxis u.axis (coord required.lb u.axis)
      (coord required.lb u.axis + G * u.factor) = domain)
    (hG : 0 ≤ G * u.factor) :
    r.mainBox domain = Box.empty domain.rank ∨ ∃ m : Int, 0 < m ∧ m * u.factor = G * u.factor ∧
      r.mainBox domain = required.withAxis u.axis (coord required.lb u.axis)
        (coord required.lb u.axis + (m - 1) * u.factor + 1) := by
  have hD := Box.ranked_withAxis hranked u.axis (coord required.lb u.axis)
    (coord required.lb u.axis + G * u.factor)
  obtain ⟨hDlb, hDub⟩ := Box.coord_withAxis hranked haxis u.axis (coord required.lb u.axis)
    (coord required.lb u.axis + G * u.factor)
  rw [if_pos rfl] at hDlb hDub
  rw [hdomain] at hD hDlb hDub
  have hDext : domain.extent u.axis = G * u.factor := by
    rw [Box.extent_eq hD haxis, hDlb, hDub]
    omega
  by_cases hempty : domain.isEmpty = true
  · rw [mainBox, iterationPlan_of_isEmpty hempty]
    exact .inl rfl
  · obtain ⟨m, hm, hplan⟩ := iterationPlan_of_unroll (Bool.not_eq_true _ ▸ hempty) hu hk
    rw [he, Option.isSome_none, if_neg Bool.false_ne_true, hDext] at hm
    rw [mainBox, hplan]
    simp only
    split
    · next hpos =>
      refine .inr ⟨m, hpos, ?_, ?_⟩
      · rw [hm]
        exact groupsUp_mul_of_dvd hk (Int.mul_emod_left G u.factor)
      · rw [Option.getD_some, hDlb, ← hdomain, Box.withAxis_withAxis]
    · exact .inl rfl

/-- The body of a region runs inside the bounds of what is demanded, even where more is computed: the last
group starts before the demand ends. -/
theorem within_of_mem_runs_computedDomain {r : Region} {n : Nat} (hfit : r.Fits n) {required : Box}
    (hranked : required.Ranked n) {c : Int} (h : required.Within c) (hc : 0 ≤ c) {b : Body} {base : Box}
    (hrun : (b, base) ∈ r.runs (r.computedDomain required)) : base.Within c := by
  have hfactor : ∀ u, r.unroll = some u → 0 < u.factor := fun u hu => (hfit.unroll u hu).2
  rw [computedDomain_def] at hrun
  split at hrun
  · next u hu he =>
    split at hrun
    · obtain ⟨haxis, hk⟩ := hfit.unroll u hu
      have hkpos : (0 : Int) < u.factor := by omega
      have hext := required.extent_nonneg u.axis
      have hup := le_groupsUp_mul (required.extent u.axis) hk
      have hlast :
          groupsUp (required.extent u.axis) u.factor * u.factor ≤ required.extent u.axis + u.factor - 1 :=
        Int.ediv_mul_le _ (Int.ne_of_gt hkpos)
      obtain ⟨_, rfl⟩ := (mem_runs.mp hrun).resolve_right fun htail => by
        rw [he] at htail
        cases htail.1
      rcases mainBox_widened hu he hk hranked haxis rfl (Int.le_trans hext hup)
        with hnone | ⟨m, hpos, hall, hmain⟩
      · exact hnone ▸ Box.within_empty hc _
      · have hsteps := Int.mul_nonneg (by omega : 0 ≤ m - 1) (Int.le_of_lt hkpos)
        have hlb := h.coord_lb hc u.axis
        have hend := h.lb_add_extent_le hc u.axis
        have hwithin : (required.withAxis u.axis (coord required.lb u.axis)
            (coord required.lb u.axis + (m - 1) * u.factor + 1)).Within c := by
          rw [Int.sub_mul, Int.one_mul] at hsteps ⊢
          exact h.withAxis hlb (by omega) u.axis
        exact hmain ▸ hwithin
    · exact within_of_mem_runs h hc hfactor hrun
  · exact within_of_mem_runs h hc hfactor hrun

/-- A region as verification lets it be, with a factor of 32 bits. -/
structure Modest (r : Region) : Prop where
  offsets : ∀ b op, b ∈ r.bodies → op ∈ b.ops → Op.InRange op
  positive : ∀ u, r.unroll = some u → 0 < u.factor
  factor : ∀ u, r.unroll = some u → u.factor < Nat.pow 2 32

end Region

namespace Machine

/-- Coordinates up to here leave room for all that is formed from them. -/
def roomy : Int := 2305843009213693952

theorem le_mul_factor {m : Int} {k : Nat} (hm : 0 ≤ m) (hk : 0 < k) : m ≤ m * k := by
  have hle := Int.mul_le_mul_of_nonneg_left (by omega : (1 : Int) ≤ k) hm
  rwa [Int.mul_one] at hle

section Faithful

variable {M : Machine} (hM : M.Faithful) {r : Region} {domain : Box}
include hM

theorem Faithful.extent_eq (h : domain.Within roomy) (axis : Nat) :
    M.extent domain axis = some (domain.extent axis) := by
  unfold roomy at h
  unfold extent Box.extent
  cases hl : domain.lb[axis]? with
  | none => rfl
  | some l =>
    cases hu : domain.ub[axis]? with
    | none => rfl
    | some u =>
      have hl := h l (List.mem_append_left _ (List.mem_of_getElem? hl))
      have hu := h u (List.mem_append_right _ (List.mem_of_getElem? hu))
      simp only
      rw [hM.sub ⟨by omega, by omega⟩ ⟨by omega, by omega⟩ ⟨by omega, by omega⟩]
      rfl

theorem Faithful.groupsUp_eq {e : Int} {k : Nat} (he : 0 ≤ e) (heb : e ≤ 2 * roomy) (hk : 0 < k)
    (hkb : k < Nat.pow 2 32) : Region.groupsUpIn M.primitives e k = some (Region.groupsUp e k) := by
  have hpow : Nat.pow 2 32 = 4294967296 := rfl
  unfold roomy at heb
  exact Region.agrees_groupsUp (A := .returns Option)
    (hM.add ⟨by omega, by omega⟩ ⟨by omega, by omega⟩ ⟨by omega, by omega⟩)
    (hM.sub ⟨by omega, by omega⟩ ⟨by omega, by omega⟩ ⟨by omega, by omega⟩)
    (hM.div ⟨by omega, by omega⟩ ⟨by omega, by omega⟩ (by omega) (by omega))

theorem Faithful.groups_eq {e : Int} {k : Nat} (he : 0 ≤ e) (heb : e ≤ 2 * roomy) (hk : 0 < k)
    (hkb : k < Nat.pow 2 32) : Region.groupsIn M.primitives r e k = some (r.groupCount e k) := by
  have hpow : Nat.pow 2 32 = 4294967296 := rfl
  unfold Region.groupsIn Region.groupCount
  split
  · unfold roomy at heb
    exact hM.div ⟨by omega, by omega⟩ ⟨by omega, by omega⟩ he (by omega)
  · exact hM.groupsUp_eq he heb hk hkb

theorem Faithful.handles (h : domain.Within roomy) (axis : Nat) :
    M.primitives.Handles (.returns Option) domain axis :=
  ⟨rfl, rfl, hM.extent_eq h axis, fun _ _ => rfl⟩

theorem Faithful.steps {lb m e : Int} {k : Nat} (hlb : -roomy ≤ lb ∧ lb ≤ roomy) (hm : 0 ≤ m) (hk : 0 < k)
    (hkb : k < Nat.pow 2 32) (heb : e ≤ 2 * roomy) (hend : m * k ≤ e + k - 1) :
    M.primitives.Steps (.returns Option) lb m k := by
  have hpow : Nat.pow 2 32 = 4294967296 := rfl
  have hle : m ≤ m * k := le_mul_factor hm hk
  unfold roomy at hlb heb
  exact ⟨hM.mul ⟨by omega, by omega⟩ ⟨by omega, by omega⟩ ⟨by omega, by omega⟩,
    hM.add ⟨by omega, by omega⟩ ⟨by omega, by omega⟩ ⟨by omega, by omega⟩⟩

theorem Faithful.bases {lb m e : Int} {k : Nat} (hlb : -roomy ≤ lb ∧ lb ≤ roomy) (hm : 0 < m) (hk : 0 < k)
    (hkb : k < Nat.pow 2 32) (heb : e ≤ 2 * roomy) (hend : (m - 1) * k + 1 ≤ e) :
    M.primitives.Bases (.returns Option) lb m k := by
  have hpow : Nat.pow 2 32 = 4294967296 := rfl
  have hle : m - 1 ≤ (m - 1) * k := le_mul_factor (by omega) hk
  have hsteps := hM.steps hlb (by omega : 0 ≤ m - 1) hk hkb heb (by omega)
  unfold roomy at hlb heb
  exact ⟨hM.sub ⟨by omega, by omega⟩ ⟨by omega, by omega⟩ ⟨by omega, by omega⟩, hsteps,
    hM.add ⟨by omega, by omega⟩ ⟨by omega, by omega⟩ ⟨by omega, by omega⟩⟩

theorem Faithful.computedDomain_eq (hr : r.Modest) (h : domain.Within roomy) :
    r.computedDomainIn M.primitives domain = some (r.computedDomain domain) := by
  refine Region.agrees_computedDomain (A := .returns Option) ?_
  intro u hu _
  have hlb := h.coord_lb (by decide) u.axis
  have hend := h.lb_add_extent_le (by decide) u.axis
  have hnonneg := domain.extent_nonneg u.axis
  have hk := hr.positive u hu
  obtain ⟨hm, hle, _⟩ := Region.groupCount_spec (r := { r with epilogue := none }) hnonneg hk
  exact ⟨hM.handles h u.axis, hM.groupsUp_eq hnonneg (by omega) hk (hr.factor u hu),
    hM.steps hlb hm hk (hr.factor u hu) (by omega : domain.extent u.axis ≤ _) hle⟩

theorem Faithful.iterationPlan_eq (hr : r.Modest) (h : domain.Within roomy) :
    r.iterationPlanIn M.primitives domain = some (r.iterationPlan domain) := by
  refine Region.agrees_iterationPlan (A := .returns Option) ?_
  rintro u k _ hu rfl rfl
  have hk := hr.positive u hu
  have hkb := hr.factor u hu
  rw [show max u.factor 1 = u.factor by omega]
  have hlb := h.coord_lb (by decide) u.axis
  have hend := h.lb_add_extent_le (by decide) u.axis
  have hnonneg := domain.extent_nonneg u.axis
  have heb : domain.extent u.axis ≤ 2 * roomy := by omega
  obtain ⟨hm, hle, hlast⟩ := Region.groupCount_spec (r := r) hnonneg hk
  exact ⟨hM.handles h u.axis, hM.groups_eq hnonneg heb hk hkb,
    fun hpos => hM.bases hlb hpos hk hkb heb (hlast hpos), hM.steps hlb hm hk hkb heb hle⟩

theorem Faithful.shifted_eq {o : Offset} (h : domain.Within roomy) (ho : o.inRange = true) :
    M.shifted domain o = some (domain.shifted o) := by
  apply Machine.shifted_eq
  intro x y hx hy
  have hx := h x hx
  have hy := List.all_eq_true.mp ho y hy
  simp only [coordInRange, Bool.and_eq_true, decide_eq_true_eq] at hy
  have hmax : maxCoord = 2147483647 := rfl
  unfold roomy at hx
  exact hM.add ⟨by omega, by omega⟩ ⟨by omega, by omega⟩ ⟨by omega, by omega⟩

theorem Faithful.footprints_eq (hr : r.Modest) (h : domain.Within roomy) :
    r.footprintsIn M.primitives domain = some (r.footprints domain) := by
  refine Region.agrees_footprints (A := .returns Option) (hM.iterationPlan_eq hr h) ?_
  intro b base s o hrun hop
  exact hM.shifted_eq (Region.within_of_mem_runs h (by decide) hr.positive hrun)
    (hr.offsets b _ (Region.mem_bodies_of_mem_runs hrun) hop)

end Faithful

end Machine

end Stencil
