import Stencil.Proofs.Inference

/-! Inferred boxes are tight: each is the bounding box of the very points that are read or marked. The
analysis works with boxes around whole walks, so the work is to show that every box it demands has both
of its extreme corners among the points that are reached. -/

set_option autoImplicit false

namespace Stencil

namespace Box

def last (b : Box) : Point := b.ub.map (· - 1)

theorem coord_last {b : Box} {n d : Nat} (h : b.Ranked n) (hd : d < n) :
    coord b.last d = coord b.ub d - 1 := by
  have hu : d < b.ub.length := by rw [h.ub]; exact hd
  rw [coord_eq_getElem (by simpa [last] using hu), coord_eq_getElem hu]
  simp [last]

theorem containsPoint_corners {b : Box} {n : Nat} (h : b.Ranked n) (hne : b.isEmpty = false) :
    b.containsPoint b.lb = true ∧ b.containsPoint b.last = true := by
  have hlt := (isEmpty_eq_false_iff h).mp hne
  rw [containsPoint_iff h, containsPoint_iff h]
  refine ⟨⟨h.lb, fun d hd => ?_⟩, ⟨by simp [last, h.ub], fun d hd => ?_⟩⟩
  · have := hlt d hd
    omega
  · have := hlt d hd
    rw [coord_last h hd]
    omega

theorem corners_shifted {b : Box} {o : Offset} {n : Nat} (h : b.Ranked n) (ho : o.length = n)
    (hne : b.isEmpty = false) :
    (b.shifted o).lb = List.zipWith (· + ·) b.lb o ∧
      (b.shifted o).last = List.zipWith (· + ·) b.last o := by
  have hs := ranked_shifted h ho
  have hlast : b.last.length = n := by simp [last, h.ub]
  constructor
  · simp [shifted, hne]
  · apply coord_ext
    · simp [last, hs.ub, h.ub, ho]
    · intro d hd
      have hd : d < n := by simpa [last, hs.ub] using hd
      rw [coord_last hs hd, (coord_shifted h ho hne hd).2, coord_zipWith _ (by omega) (by omega),
        coord_last h hd]
      omega

/-- The bounding box of a set of points: it holds them all, each of its sides touches one of them, and
of no points at all it is the empty box. -/
structure Bounds (n : Nat) (S : Point → Prop) (b : Box) : Prop where
  ranked : b.Ranked n
  inside : ∀ p, S p → b.containsPoint p = true
  lower : ∀ d, d < n → (∃ p, S p) → ∃ p, S p ∧ coord p d = coord b.lb d
  upper : ∀ d, d < n → (∃ p, S p) → ∃ p, S p ∧ coord p d + 1 = coord b.ub d
  empty : (∀ p, ¬ S p) → b = Box.empty n

/-- A set of points as wide as a list of boxes: it lies in them and has both extreme corners of each. -/
structure Spans (S : Point → Prop) (boxes : List Box) : Prop where
  inside : ∀ p, S p → ∃ b, b ∈ boxes ∧ b.containsPoint p = true
  corners : ∀ b, b ∈ boxes → b.isEmpty = false → S b.lb ∧ S b.last

theorem Spans.append {S T : Point → Prop} {as bs : List Box} (hs : Spans S as) (ht : Spans T bs) :
    Spans (fun p => S p ∨ T p) (as ++ bs) := by
  constructor
  · rintro p (hp | hp)
    · obtain ⟨b, hb, hmem⟩ := hs.inside p hp
      exact ⟨b, List.mem_append_left _ hb, hmem⟩
    · obtain ⟨b, hb, hmem⟩ := ht.inside p hp
      exact ⟨b, List.mem_append_right _ hb, hmem⟩
  · intro b hb hne
    rcases List.mem_append.mp hb with hb | hb
    · exact ⟨.inl (hs.corners b hb hne).1, .inl (hs.corners b hb hne).2⟩
    · exact ⟨.inr (ht.corners b hb hne).1, .inr (ht.corners b hb hne).2⟩

theorem Spans.contains_iff {S : Point → Prop} {boxes : List Box} {n : Nat} (h : Spans S boxes)
    (hr : ∀ b, b ∈ boxes → b.Ranked n) {c : Box} (hc : c.Ranked n) :
    (∀ b, b ∈ boxes → c.contains b = true) ↔ ∀ p, S p → c.containsPoint p = true := by
  constructor
  · intro hall p hp
    obtain ⟨b, hb, hmem⟩ := h.inside p hp
    exact containsPoint_of_contains hc (hr b hb) (hall b hb) hmem
  · intro hall b hb
    rw [Box.contains_iff hc (hr b hb)]
    intro hne d hd
    obtain ⟨hfirst, hlast⟩ := h.corners b hb hne
    have h1 := ((containsPoint_iff hc).mp (hall _ hfirst)).2 d hd
    have h2 := ((containsPoint_iff hc).mp (hall _ hlast)).2 d hd
    rw [coord_last (hr b hb) hd] at h2
    omega

end Box

namespace Shape

/-- A shape that is the bounding box of a set of points; it is unknown only when there are none. -/
def Bounds (n : Nat) (S : Point → Prop) : Shape → Prop
  | unknown => ∀ p, ¬ S p
  | known b => b.Bounds n S

/-- The least box above the boxes is the bounding box of the points: a side that touches none of them
could be moved in. -/
theorem LeastAbove.bounds {n : Nat} (hn : 0 < n) {boxes : List Box} {b : Box} (h : LeastAbove n boxes b)
    (hr : ∀ c, c ∈ boxes → c.Ranked n) {S : Point → Prop} (hs : Box.Spans S boxes) : b.Bounds n S := by
  have hleast : ∀ c : Box, c.Ranked n → (c.contains b = true ↔ ∀ p, S p → c.containsPoint p = true) :=
    fun c hc => (h.contains_iff c hc).trans (hs.contains_iff hr hc)
  have hinside := (hleast b h.ranked).mp (Box.contains_refl h.ranked)
  have hnonempty : (∃ p, S p) → b.isEmpty = false := by
    rintro ⟨p, hp⟩
    rw [Box.isEmpty_eq_false_iff h.ranked]
    intro d hd
    have := ((Box.containsPoint_iff h.ranked).mp (hinside p hp)).2 d hd
    omega
  -- a box that is moved in at one side, and still holds every point, would have to hold `b`
  have hmoved : ∀ d l u, d < n → (∃ p, S p) →
      (∀ p, S p → l ≤ coord p d ∧ coord p d < u) → l ≤ coord b.lb d ∧ coord b.ub d ≤ u := by
    intro d l u hd hex hall
    have hc := Box.ranked_withAxis h.ranked d l u
    have hcont : (b.withAxis d l u).contains b = true := by
      rw [hleast _ hc]
      intro p hp
      obtain ⟨hlen, hin⟩ := (Box.containsPoint_iff h.ranked).mp (hinside p hp)
      rw [Box.containsPoint_iff hc]
      refine ⟨hlen, fun e he => ?_⟩
      rw [(Box.coord_withAxis h.ranked he d l u).1, (Box.coord_withAxis h.ranked he d l u).2]
      split
      · next heq =>
        subst heq
        exact hall p hp
      · exact hin e he
    have hbounds := (Box.contains_iff hc h.ranked).mp hcont (hnonempty hex) d hd
    simpa [Box.coord_withAxis h.ranked hd d l u] using hbounds
  refine ⟨h.ranked, hinside, ?_, ?_, ?_⟩
  · intro d hd hex
    by_contra hno
    have hge := hmoved d (coord b.lb d + 1) (coord b.ub d) hd hex fun p hp => by
      have hin := ((Box.containsPoint_iff h.ranked).mp (hinside p hp)).2 d hd
      have hne : coord p d ≠ coord b.lb d := fun heq => hno ⟨p, hp, heq⟩
      omega
    omega
  · intro d hd hex
    by_contra hno
    have hle := hmoved d (coord b.lb d) (coord b.ub d - 1) hd hex fun p hp => by
      have hin := ((Box.containsPoint_iff h.ranked).mp (hinside p hp)).2 d hd
      have hne : coord p d + 1 ≠ coord b.ub d := fun heq => hno ⟨p, hp, heq⟩
      omega
    omega
  · intro hnone
    have hcont : (Box.empty n).contains b = true :=
      (hleast _ (Box.ranked_empty n)).mpr fun p hp => absurd hp (hnone p)
    have hempty : b.isEmpty = true := by
      cases he : b.isEmpty with
      | true => rfl
      | false => simp [Box.contains, he, Box.isEmpty_empty hn] at hcont
    rw [h.canonical hempty, h.ranked.rank_eq]

theorem bounds_hull {n : Nat} (hn : 0 < n) {boxes : List Box} (hr : ∀ c, c ∈ boxes → c.Ranked n)
    {S : Point → Prop} (hs : Box.Spans S boxes) : (hull boxes).Bounds n S := by
  cases hh : hull boxes with
  | unknown =>
    intro p hp
    obtain ⟨b, hb, _⟩ := hs.inside p hp
    rw [(hull_eq_unknown_iff boxes).mp hh] at hb
    cases hb
  | known b => exact (leastAbove_of_hull hr hh).bounds hn hr hs

end Shape

namespace Region

/-- A region that computes `domain` runs a body at a point: its own at the base points, the epilogue
at the points that are left over. -/
def RunsAt (r : Region) (domain : Box) (b : Body) (p : Point) : Prop :=
  (b = r.body ∧ p ∈ r.mainPoints domain) ∨ (r.epilogue = some b ∧ p ∈ r.tailPoints domain)

variable {r : Region} {n : Nat} {domain : Box}

theorem step_dvd_main (hd : domain.Ranked n) (hfit : r.Fits n) {b : Box}
    (hb : (r.iterationPlan domain).main = some b) (haxis : (r.iterationPlan domain).axis < n) :
    ((r.iterationPlan domain).step : Int) ∣
      coord b.ub (r.iterationPlan domain).axis - 1 - coord b.lb (r.iterationPlan domain).axis := by
  by_cases he : domain.isEmpty = true
  · rw [iterationPlan_of_isEmpty he] at hb
    cases hb
  · rw [Bool.not_eq_true] at he
    cases hu : r.unroll with
    | none => simp [iterationPlan_of_none hu he]
    | some u =>
      obtain ⟨m, _, hplan⟩ := iterationPlan_of_unroll he hu (hfit.unroll u hu).2
      rw [hplan] at hb haxis ⊢
      simp only at hb haxis ⊢
      split at hb
      · cases hb
        rw [(Box.coord_withAxis hd haxis _ _ _).1, (Box.coord_withAxis hd haxis _ _ _).2, if_pos rfl,
          if_pos rfl]
        exact ⟨m - 1, by rw [Int.mul_comm]; omega⟩
      · cases hb

theorem corners_mem_mainPoints (hn : 0 < n) (hd : domain.Ranked n) (hfit : r.Fits n)
    (hne : (r.mainBox domain).isEmpty = false) :
    (r.mainBox domain).lb ∈ r.mainPoints domain ∧ (r.mainBox domain).last ∈ r.mainPoints domain := by
  obtain ⟨hranked, _, hstep⟩ := ranked_iterationPlan hfit hd
  unfold mainPoints
  unfold mainBox at hne ⊢
  cases hm : (r.iterationPlan domain).main with
  | none => simp [hm, hd.rank_eq, Box.isEmpty_empty hn] at hne
  | some b =>
    rw [hm, Option.getD_some] at hne
    rw [Option.map_some, Option.getD_some, Option.getD_some]
    obtain ⟨hfirst, hlast⟩ := Box.containsPoint_corners (hranked b hm) hne
    rw [Box.mem_pointsWithStep (hranked b hm) hstep, Box.mem_pointsWithStep (hranked b hm) hstep]
    refine ⟨⟨hfirst, fun _ => by simp⟩, ⟨hlast, fun haxis => ?_⟩⟩
    rw [Box.coord_last (hranked b hm) haxis]
    exact step_dvd_main hd hfit hm haxis

theorem corners_mem_tailPoints (hn : 0 < n) (hd : domain.Ranked n) (hfit : r.Fits n)
    (hne : (r.tailBox domain).isEmpty = false) :
    (r.tailBox domain).lb ∈ r.tailPoints domain ∧ (r.tailBox domain).last ∈ r.tailPoints domain := by
  obtain ⟨_, hranked, _⟩ := ranked_iterationPlan hfit hd
  unfold tailPoints
  unfold tailBox at hne ⊢
  cases ht : (r.iterationPlan domain).tail with
  | none => simp [ht, hd.rank_eq, Box.isEmpty_empty hn] at hne
  | some b =>
    rw [ht, Option.getD_some] at hne
    rw [Option.map_some, Option.getD_some, Option.getD_some, Box.mem_points (hranked b ht),
      Box.mem_points (hranked b ht)]
    exact Box.containsPoint_corners (hranked b ht) hne

theorem runsAt_corners (hn : 0 < n) (hd : domain.Ranked n) (hfit : r.Fits n) {b : Body} {base : Box}
    (h : (b, base) ∈ r.runs domain) (hne : base.isEmpty = false) :
    r.RunsAt domain b base.lb ∧ r.RunsAt domain b base.last := by
  rcases mem_runs.mp h with ⟨rfl, rfl⟩ | ⟨he, rfl⟩
  · obtain ⟨hfirst, hlast⟩ := corners_mem_mainPoints hn hd hfit hne
    exact ⟨.inl ⟨rfl, hfirst⟩, .inl ⟨rfl, hlast⟩⟩
  · obtain ⟨hfirst, hlast⟩ := corners_mem_tailPoints hn hd hfit hne
    exact ⟨.inr ⟨he, hfirst⟩, .inr ⟨he, hlast⟩⟩

theorem RunsAt.exists_run (hd : domain.Ranked n) (hfit : r.Fits n) {b : Body} {p : Point}
    (h : r.RunsAt domain b p) : ∃ base, (b, base) ∈ r.runs domain ∧ base.containsPoint p = true := by
  rcases h with ⟨rfl, hp⟩ | ⟨he, hp⟩
  · exact ⟨_, mem_runs.mpr (.inl ⟨rfl, rfl⟩), mem_mainBox_of_mem hfit hd hp⟩
  · exact ⟨_, mem_runs.mpr (.inr ⟨he, rfl⟩), mem_tailBox_of_mem hfit hd hp⟩

end Region

namespace Func

/-- Some region, where one of its bodies runs, reads an operand at the point `q`. -/
def ReadAt (f : Func) (o : Operand) (q : Point) : Prop :=
  ∃ id r domain b p s offset, f.region? id = some r ∧ r.shape = .known domain ∧ r.RunsAt domain b p ∧
    .access s offset ∈ b.ops ∧ r.operands[s]? = some o ∧ q = List.zipWith (· + ·) p offset

def MarkedAt (f : Func) (t : TempId) (p : Point) : Prop :=
  ∃ o, o ∈ f.outputs ∧ o.temp = t ∧ o.domain.containsPoint p = true

theorem spans_marksOn {f : Func} (hf : f.Sound) (t : TempId) :
    Box.Spans (f.MarkedAt t) (f.marksOn t) := by
  constructor
  · rintro p ⟨o, ho, ht, hp⟩
    exact ⟨o.domain, mem_marksOn.mpr ⟨o, ho, ht, rfl⟩, hp⟩
  · intro b hb hne
    obtain ⟨hfirst, hlast⟩ := Box.containsPoint_corners (ranked_marksOn hf hb) hne
    obtain ⟨o, ho, ht, rfl⟩ := mem_marksOn.mp hb
    exact ⟨⟨o, ho, ht, hfirst⟩, ⟨o, ho, ht, hlast⟩⟩

theorem spans_demandsOn {f : Func} (hn : 0 < f.rank) (hf : f.Sound) (ha : f.Annotated) (o : Operand) :
    Box.Spans (f.ReadAt o) (f.demandsOn o) := by
  constructor
  · rintro q ⟨id, r, domain, b, p, s, offset, hr, hs, hrun, hop, ho, rfl⟩
    have hfit := hf.fits id r hr
    have hd := ha.ranked id r domain hr hs
    obtain ⟨base, hbase, hp⟩ := hrun.exists_run hd hfit
    obtain ⟨hranked, hbody⟩ := Region.ranked_of_mem_runs hfit hd hbase
    refine ⟨base.shifted offset, mem_demandsOn.mpr ⟨id, r, hr, ?_⟩,
      Box.containsPoint_shifted hranked (hbody.ops _ hop).1 hp⟩
    exact Region.mem_readsOf.mpr ⟨domain, b, base, s, offset, hs, hbase, hop, ho, rfl⟩
  · intro box hbox hne
    obtain ⟨id, r, hr, hreads⟩ := mem_demandsOn.mp hbox
    obtain ⟨domain, b, base, s, offset, hs, hbase, hop, ho, rfl⟩ := Region.mem_readsOf.mp hreads
    have hfit := hf.fits id r hr
    have hd := ha.ranked id r domain hr hs
    obtain ⟨hranked, hbody⟩ := Region.ranked_of_mem_runs hfit hd hbase
    have hoffset : offset.length = f.rank := (hbody.ops _ hop).1
    rw [Box.isEmpty_shifted hranked hoffset] at hne
    obtain ⟨hfirst, hlast⟩ := Region.runsAt_corners hn hd hfit hbase hne
    obtain ⟨hlb, hub⟩ := Box.corners_shifted hranked hoffset hne
    rw [hlb, hub]
    exact ⟨⟨id, r, domain, b, _, s, offset, hr, hs, hfirst, hop, ho, rfl⟩,
      ⟨id, r, domain, b, _, s, offset, hr, hs, hlast, hop, ho, rfl⟩⟩

end Func

namespace Inference

/-- A successful inference annotates each temporary with the bounding box of the points at which it is
marked or read, and each buffer with that of the points at which it is read. -/
theorem inferred_boxes_tight {f : Func} (hrank : 0 < f.rank) {report : Report}
    (h : (run f).outcome = .ok report) :
    f.SameStructure (run f).func ∧
    (∀ t x, (run f).func.temp? t = some x →
      x.shape.Bounds f.rank fun p => (run f).func.MarkedAt t p ∨ (run f).func.ReadAt (.temp t) p) ∧
    (∀ b x, (run f).func.buffer? b = some x →
      x.required.Bounds f.rank fun p => (run f).func.ReadAt (.buffer b) p) := by
  obtain ⟨hsame, order, hg⟩ := analysed_run h
  rw [hsame.rank_eq] at hrank ⊢
  refine ⟨hsame, ?_, ?_⟩
  · intro t x hx
    rw [hg.annotated.temp t x hx]
    exact Shape.bounds_hull hrank (fun _ hc => Func.ranked_demands hg.sound hg.annotated hc)
      ((Func.spans_marksOn hg.sound t).append (Func.spans_demandsOn hrank hg.sound hg.annotated _))
  · intro b x hx
    rw [hg.annotated.buffer b x hx]
    exact Shape.bounds_hull hrank (fun _ hc => Func.ranked_demandsOn hg.sound hg.annotated hc)
      (Func.spans_demandsOn hrank hg.sound hg.annotated _)

/-- The consumer walks `[0:7]` by threes, so of `s` it reads the points 2 and 5, and 2 once more in its
epilogue. -/
def strided : Func where
  name := "strided"
  rank := 1
  buffers := [⟨"a", .f64, none, .unknown⟩]
  temps := [some ⟨"s", .f64, 0, 0, .unknown⟩, some ⟨"t", .f64, 1, 0, .unknown⟩]
  regions :=
    [some ⟨"sum", [.buffer 0], .ofOps [.access 0 [-1], .access 0 [1], .binary .add 0 1] [2], none, [0],
     .unknown⟩, some ⟨"step", [.temp 0], ⟨[.access 0 [2]], ⟨[0, 0, 0], some ⟨0, 3⟩⟩⟩,
       some ⟨[.access 0 [-4]], ⟨[0], none⟩⟩, [1], .unknown⟩]
  outputs := [⟨1, ⟨[0], [7]⟩⟩]
  stamp := none

theorem inferred_boxes_tight_strided : 0 < strided.rank ∧
    (∃ report, (run strided).outcome = .ok report) ∧
    (run strided).func.temp? 0 = some ⟨"s", .f64, 0, 0, .known ⟨[2], [6]⟩⟩ ∧
    Box.Bounds 1 (fun p => (run strided).func.MarkedAt 0 p ∨ (run strided).func.ReadAt (.temp 0) p)
      ⟨[2], [6]⟩ := by
  obtain ⟨report, hok⟩ : ∃ report, (run strided).outcome = .ok report := ⟨_, rfl⟩
  have htemp : (run strided).func.temp? 0 = some ⟨"s", .f64, 0, 0, .known ⟨[2], [6]⟩⟩ := by decide +kernel
  exact ⟨by decide, ⟨report, hok⟩, htemp, (inferred_boxes_tight (by decide) hok).2.1 0 _ htemp⟩

end Inference

end Stencil
