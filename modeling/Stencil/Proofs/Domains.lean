import Stencil.Proofs.Candidate
import Stencil.Proofs.Obligations
import Stencil.Proofs.Tightness

/-! Declared domains. Inference compares one box per access with the declared domain of the buffer, while
the program reads single points at a stride. The comparison is exact: a box has both of its extreme
corners among the points that are read, so it leaves the domain just when one of them does. -/

set_option autoImplicit false

namespace Stencil

namespace Region

def partPoints (r : Region) (inEpilogue : Bool) (domain : Box) : List Point :=
  if inEpilogue then r.tailPoints domain else r.mainPoints domain

/-- The accesses in program order, those of the body before those of the epilogue, each with its part. -/
def accesses (r : Region) : List (Bool × Access) :=
  r.body.accesses.map (false, ·) ++ r.epilogue.toList.flatMap fun e => e.accesses.map (true, ·)

theorem mem_accesses {r : Region} {flag : Bool} {a : Access} :
    (flag, a) ∈ r.accesses ↔ ∃ b, r.part flag = some b ∧ a ∈ b.accesses := by
  simp only [accesses, List.mem_append, List.mem_map, List.mem_flatMap, Option.mem_toList, Prod.mk.injEq]
  cases flag with
  | false => simp [part]
  | true => simp [part]

def readBox (r : Region) (domain : Box) (inEpilogue : Bool) (a : Access) : Box :=
  (r.partBox inEpilogue domain).shifted a.offset

theorem footprints_eq (r : Region) (domain : Box) :
    r.footprints domain =
      r.accesses.map fun a => ⟨a.2.slot, a.2.offset, r.readBox domain a.1 a.2⟩ := by
  rw [footprints_def]
  simp only [bodyFootprints_def]
  unfold accesses
  rw [List.map_append, List.map_map]
  cases r.epilogue with
  | none => simp [readBox, partBox, mainBox, Function.comp_def]
  | some e => simp [readBox, partBox, mainBox, tailBox, Function.comp_def]

variable {r : Region} {n : Nat} {domain : Box}

theorem ranked_partBox (hd : domain.Ranked n) (hfit : r.Fits n) (flag : Bool) :
    (r.partBox flag domain).Ranked n := by
  cases flag with
  | false => exact ranked_mainBox hfit hd
  | true => exact ranked_tailBox hfit hd

theorem mem_partBox_of_mem (hd : domain.Ranked n) (hfit : r.Fits n) {flag : Bool} {p : Point}
    (h : p ∈ r.partPoints flag domain) : (r.partBox flag domain).containsPoint p = true := by
  cases flag with
  | false => exact mem_mainBox_of_mem hfit hd h
  | true => exact mem_tailBox_of_mem hfit hd h

theorem corners_mem_partPoints (hn : 0 < n) (hd : domain.Ranked n) (hfit : r.Fits n) {flag : Bool}
    (hne : (r.partBox flag domain).isEmpty = false) :
    (r.partBox flag domain).lb ∈ r.partPoints flag domain ∧
      (r.partBox flag domain).last ∈ r.partPoints flag domain := by
  cases flag with
  | false => exact corners_mem_mainPoints hn hd hfit hne
  | true => exact corners_mem_tailPoints hn hd hfit hne

theorem spans_readBox (hn : 0 < n) (hd : domain.Ranked n) (hfit : r.Fits n) (flag : Bool) {a : Access}
    (ha : a.offset.length = n) :
    Box.Spans (fun q => ∃ p, p ∈ r.partPoints flag domain ∧ q = List.zipWith (· + ·) p a.offset)
      [r.readBox domain flag a] := by
  have hbase := ranked_partBox hd hfit flag
  constructor
  · rintro q ⟨p, hp, rfl⟩
    exact ⟨_, List.mem_singleton_self _,
      Box.containsPoint_shifted hbase ha (mem_partBox_of_mem hd hfit hp)⟩
  · intro b hb hne
    rw [List.mem_singleton] at hb
    subst hb
    rw [readBox, Box.isEmpty_shifted hbase ha] at hne
    obtain ⟨hfirst, hlast⟩ := corners_mem_partPoints hn hd hfit hne
    obtain ⟨hlb, hub⟩ := Box.corners_shifted hbase ha hne
    rw [readBox, hlb, hub]
    exact ⟨⟨_, hfirst, rfl⟩, ⟨_, hlast, rfl⟩⟩

theorem contains_readBox_iff (hd : domain.Ranked n) (hfit : r.Fits n) {flag : Bool} {a : Access}
    (ha : a.offset.length = n) {c : Box} (hc : c.Ranked n) :
    c.contains (r.readBox domain flag a) = true ↔
      ∀ p, p ∈ r.partPoints flag domain → c.containsPoint (List.zipWith (· + ·) p a.offset) = true := by
  have hranked : (r.readBox domain flag a).Ranked n := Box.ranked_shifted (ranked_partBox hd hfit flag) ha
  rcases Nat.eq_zero_or_pos n with rfl | hn
  · -- without dimensions there is one point, and every box holds it
    refine iff_of_true ?_ ?_
    · rw [Box.contains_iff hc hranked]
      intro _ d hd
      omega
    · intro p hp
      have hp' := ((Box.containsPoint_iff (ranked_partBox hd hfit flag)).mp
        (mem_partBox_of_mem hd hfit hp)).1
      rw [Box.containsPoint_iff hc]
      refine ⟨by simp [hp', ha], fun d hd => ?_⟩
      omega
  · have hspans := (spans_readBox hn hd hfit flag ha).contains_iff
      (fun b hb => List.mem_singleton.mp hb ▸ hranked) hc
    simp only [List.mem_singleton, forall_eq] at hspans
    rw [hspans]
    constructor
    · intro h p hp
      exact h _ ⟨p, hp, rfl⟩
    · rintro h q ⟨p, hp, rfl⟩
      exact h p hp

end Region

/-- An access of a region reads a buffer, where its part runs, at a point `q` outside the declared
domain. -/
structure Stray (f : Func) (id : RegionId) (r : Region) (inEpilogue : Bool) (a : Access) (b : BufferId)
    (x : Buffer) (declared : Box) (q : Point) : Prop where
  region : f.region? id = some r
  access : (inEpilogue, a) ∈ r.accesses
  operand : r.operands[a.slot]? = some (.buffer b)
  buffer : f.buffer? b = some x
  domain : x.domain = some declared
  reached : ∃ domain p, r.shape = .known domain ∧ p ∈ r.partPoints inEpilogue domain ∧
    q = List.zipWith (· + ·) p a.offset
  outside : declared.containsPoint q = false

def Func.Strays (f : Func) (id : RegionId) (inEpilogue : Bool) (a : Access) : Prop :=
  ∃ r b x declared q, Stray f id r inEpilogue a b x declared q

namespace Inference

def accessFailure? (f : Func) (id : RegionId) (r : Region) (domain : Box) (a : Bool × Access) :
    Option Failure :=
  boundsFailure? f id r ⟨a.2.slot, a.2.offset, r.readBox domain a.1 a.2⟩

def regionFailure? (f : Func) (id : RegionId) : Option Failure :=
  (f.region? id).bind fun r => r.shape.box?.bind fun domain =>
    r.accesses.findSome? (accessFailure? f id r domain)

theorem firstOutOfBounds?_eq (f : Func) (order : List RegionId) :
    firstOutOfBounds? f order = order.findSome? (regionFailure? f) := by
  rw [firstOutOfBounds?_def]
  congr 1
  funext id
  unfold regionFailure?
  cases f.region? id with
  | none => rfl
  | some r =>
    cases hs : r.shape with
    | unknown => simp [hs, Shape.box?]
    | known domain =>
      simp only [hs, Shape.box?, Option.bind_some, Region.footprints_eq, List.findSome?_map]
      rfl

section Check

variable {f : Func} (hf : f.Sound)
include hf

theorem length_offset {id : RegionId} {r : Region} (hr : f.region? id = some r) {flag : Bool} {a : Access}
    (hacc : (flag, a) ∈ r.accesses) : a.offset.length = f.rank := by
  obtain ⟨b, hpart, hmem⟩ := Region.mem_accesses.mp hacc
  have hbody := (hf.fits id r hr).mem_bodies (Region.mem_bodies_iff.mpr ⟨flag, hpart⟩)
  exact (hbody.ops _ (List.mem_of_getElem? (Body.mem_accesses.mp hmem))).1

variable (ha : f.Annotated)
include ha

theorem containsPoint_of_stray {id : RegionId} {r : Region} {flag : Bool} {a : Access} {b : BufferId}
    {x : Buffer} {declared : Box} {q : Point} (S : Stray f id r flag a b x declared q) {domain : Box}
    (hs : r.shape = .known domain) : (r.readBox domain flag a).containsPoint q = true := by
  have hfit := hf.fits id r S.region
  have hd := ha.ranked id r domain S.region hs
  obtain ⟨domain', p, hs', hp, rfl⟩ := S.reached
  rw [hs] at hs'
  cases hs'
  exact Box.containsPoint_shifted (Region.ranked_partBox hd hfit flag)
    (length_offset hf S.region S.access)
    (Region.mem_partBox_of_mem hd hfit hp)

variable (hb : f.Bounded)
include hb

/-- The check of an access fails just when the access strays. -/
theorem accessFailure?_eq_some_iff {id : RegionId} {r : Region} (hr : f.region? id = some r)
    {domain : Box}
    (hs : r.shape = .known domain) {flag : Bool} {a : Access} (hacc : (flag, a) ∈ r.accesses)
    {e : Failure} :
    accessFailure? f id r domain (flag, a) = some e ↔
      ∃ b x declared q, Stray f id r flag a b x declared q ∧
      e = .outOfBounds id r.name b x.name a.offset (r.readBox domain flag a) declared := by
  have hcontains : ∀ b x declared, f.buffer? b = some x → x.domain = some declared →
      (declared.contains (r.readBox domain flag a) = true ↔ ∀ p, p ∈ r.partPoints flag domain →
        declared.containsPoint (List.zipWith (· + ·) p a.offset) = true) := fun b x declared hx hdom =>
    Region.contains_readBox_iff (ha.ranked id r domain hr hs) (hf.fits id r hr) (length_offset hf hr hacc)
      (Box.ranked_of_wellFormed (hb.buffer x declared (List.mem_of_getElem? hx) hdom))
  rw [accessFailure?, boundsFailure?_eq_some_iff]
  constructor
  · rintro ⟨b, x, declared, ho, hx, hdom, hout, rfl⟩
    have hnot := mt (hcontains b x declared hx hdom).mpr (ne_true_of_eq_false hout)
    push Not at hnot
    obtain ⟨p, hp, hq⟩ := hnot
    exact ⟨b, x, declared, _,
      ⟨hr, hacc, ho, hx, hdom, ⟨domain, p, hs, hp, rfl⟩, eq_false_of_ne_true hq⟩, rfl⟩
  · rintro ⟨b, x, declared, q, S, rfl⟩
    obtain ⟨domain', p, hs', hp, rfl⟩ := S.reached
    rw [hs] at hs'
    cases hs'
    refine ⟨b, x, declared, S.operand, S.buffer, S.domain, eq_false_of_ne_true fun hin => ?_, rfl⟩
    have := (hcontains b x declared S.buffer S.domain).mp hin p hp
    rw [S.outside] at this
    cases this

theorem accessFailure?_eq_none_iff {id : RegionId} {r : Region} (hr : f.region? id = some r)
    {domain : Box}
    (hs : r.shape = .known domain) {flag : Bool} {a : Access} (hacc : (flag, a) ∈ r.accesses) :
    accessFailure? f id r domain (flag, a) = none ↔ ¬ f.Strays id flag a := by
  have hsome := fun e => accessFailure?_eq_some_iff hf ha hb hr hs hacc (e := e)
  rw [Option.eq_none_iff_forall_ne_some]
  constructor
  · rintro h ⟨r', b, x, declared, q, S⟩
    have hr' := S.region
    rw [hr] at hr'
    cases hr'
    exact h _ ((hsome _).mpr ⟨b, x, declared, q, S, rfl⟩)
  · intro h e he
    obtain ⟨b, x, declared, q, S, _⟩ := (hsome e).mp he
    exact h ⟨r, b, x, declared, q, S⟩

theorem regionFailure?_eq_none_iff {id : RegionId} :
    regionFailure? f id = none ↔ ∀ flag a, ¬ f.Strays id flag a := by
  unfold regionFailure?
  constructor
  · rintro h flag a ⟨r, b, x, declared, q, S⟩
    obtain ⟨domain, p, hs, _⟩ := S.reached
    simp only [S.region, hs, Shape.box?, Option.bind_some, List.findSome?_eq_none_iff] at h
    exact (accessFailure?_eq_none_iff hf ha hb S.region hs S.access).mp (h _ S.access)
      ⟨r, b, x, declared, q, S⟩
  · intro h
    cases hr : f.region? id with
    | none => rfl
    | some r =>
      cases hs : r.shape with
      | unknown => simp [hs, Shape.box?]
      | known domain =>
        simp only [hs, Shape.box?, Option.bind_some, List.findSome?_eq_none_iff]
        rintro ⟨flag, a⟩ hacc
        exact (accessFailure?_eq_none_iff hf ha hb hr hs hacc).mpr (h flag a)

theorem stray_of_regionFailure? {id : RegionId} {e : Failure} (h : regionFailure? f id = some e) :
    ∃ r pre flag a post b x declared q accessed, r.accesses = pre ++ (flag, a) :: post ∧
      (∀ flag' a', (flag', a') ∈ pre → ¬ f.Strays id flag' a') ∧ Stray f id r flag a b x declared q ∧
      accessed.containsPoint q = true ∧
      e = .outOfBounds id r.name b x.name a.offset accessed declared := by
  obtain ⟨r, hr, h⟩ := Option.bind_eq_some_iff.mp h
  obtain ⟨domain, hs, h⟩ := Option.bind_eq_some_iff.mp h
  have hs : r.shape = .known domain := by
    cases hshape : r.shape with
    | unknown => simp [hshape, Shape.box?] at hs
    | known d => simpa [hshape, Shape.box?] using hs
  obtain ⟨pre, ⟨flag, a⟩, post, hsplit, hfail, hpre⟩ := List.findSome?_eq_some_iff.mp h
  have hmem : ∀ y, y ∈ pre ++ (flag, a) :: post → y ∈ r.accesses := fun y hy => hsplit ▸ hy
  obtain ⟨b, x, declared, q, S, rfl⟩ :=
    (accessFailure?_eq_some_iff hf ha hb hr hs (hmem _ (by simp))).mp hfail
  refine ⟨r, pre, flag, a, post, b, x, declared, q, _, hsplit, ?_, S,
    containsPoint_of_stray hf ha S hs, rfl⟩
  intro flag' a' hy
  exact (accessFailure?_eq_none_iff hf ha hb hr hs (hmem _ (by simp [hy]))).mp (hpre _ hy)

end Check

/-- The failure names the first access that strays, by the order of regions and then by program order,
and the box it reports holds a point outside the declared domain that the access reads. -/
def ReportsFirst (f : Func) (order : List RegionId) (e : Failure) : Prop :=
  ∃ before id after r pre flag a post b x declared q accessed,
    order = before ++ id :: after ∧ (∀ id', id' ∈ before → ∀ flag' a', ¬ f.Strays id' flag' a') ∧
    r.accesses = pre ++ (flag, a) :: post ∧ (∀ flag' a', (flag', a') ∈ pre → ¬ f.Strays id flag' a') ∧
    Stray f id r flag a b x declared q ∧ accessed.containsPoint q = true ∧
    e = .outOfBounds id r.name b x.name a.offset accessed declared

theorem checked_run {f : Func} {order : List RegionId} (hv : f.verified = .ok ())
    (ho : f.order = .ok order) :
    f.SameStructure (run f).func ∧ (run f).func.Annotated ∧
      ∀ e, (run f).outcome = .error e ↔ order.findSome? (regionFailure? (run f).func) = some e := by
  have hf := Func.sound_of_verified hv
  have hord := Func.ordered_of_order ho
  have hsame := sameStructure_propagate hf hord
  have ha := annotated_propagate hf hord
  have hran := ran_run f
  generalize run f = r at hran ⊢
  cases hran with
  | invalid hv' =>
    rw [hv] at hv'
    cases hv'
  | cyclic _ ho' =>
    rw [ho] at ho'
    cases ho'
  | outOfBounds _ ho' hb =>
    rw [ho] at ho'
    cases ho'
    refine ⟨hsame, ha, fun e => ?_⟩
    rw [← firstOutOfBounds?_eq, hb]
    simp
  | done _ ho' hb =>
    rw [ho] at ho'
    cases ho'
    refine ⟨hsame.trans (Func.sameStructure_recordStamp _), ⟨ha.temp, ha.buffer, ha.region, ha.ranked⟩,
      fun e => ?_⟩
    have hnone : firstOutOfBounds? (propagate f order).func.recordStamp order = none := hb
    rw [← firstOutOfBounds?_eq, hnone]
    simp

theorem accepted_iff {f : Func} {order : List RegionId} (hv : f.verified = .ok ())
    (ho : f.order = .ok order) :
    (∃ report, (run f).outcome = .ok report) ↔ ∀ id flag a, ¬ (run f).func.Strays id flag a := by
  obtain ⟨hsame, ha, houtcome⟩ := checked_run hv ho
  obtain ⟨hf, _, _, hb⟩ := Func.verified_iff.mp (hsame.verified hv)
  have hnone : (∃ report, (run f).outcome = .ok report) ↔
      order.findSome? (regionFailure? (run f).func) = none := by
    rw [Option.eq_none_iff_forall_ne_some]
    simp only [Ne, ← houtcome]
    cases (run f).outcome <;> simp
  rw [hnone, List.findSome?_eq_none_iff]
  constructor
  · intro h id flag a hstrays
    have hmem : id ∈ order := by
      obtain ⟨r, _, _, _, _, S⟩ := hstrays
      obtain ⟨r', _, hr', _⟩ := hsame.exists_region S.region
      exact (Func.ordered_of_order ho).mem_iff.mpr ⟨r', hr'⟩
    exact (regionFailure?_eq_none_iff hf ha hb).mp (h id hmem) flag a hstrays
  · intro h id _
    exact (regionFailure?_eq_none_iff hf ha hb).mpr (h id)

/-- A valid function without cycles is refused just when one of its accesses, at a point where its part
runs, reads a buffer outside the declared domain; and then the failure names the first such access. -/
theorem declared_domains_exact {f : Func} {order : List RegionId} (hv : f.verified = .ok ())
    (ho : f.order = .ok order) :
    ((∃ id name b buffer offset accessed declared,
        (run f).outcome = .error (.outOfBounds id name b buffer offset accessed declared)) ↔
      ∃ id flag a, (run f).func.Strays id flag a) ∧
    ∀ e, (run f).outcome = .error e → ReportsFirst (run f).func order e := by
  obtain ⟨hsame, ha, houtcome⟩ := checked_run hv ho
  obtain ⟨hf, _, _, hb⟩ := Func.verified_iff.mp (hsame.verified hv)
  have hfirst : ∀ e, (run f).outcome = .error e → ReportsFirst (run f).func order e := by
    intro e he
    obtain ⟨before, id, after, hsplit, hfail, hbefore⟩ :=
      List.findSome?_eq_some_iff.mp ((houtcome e).mp he)
    obtain ⟨r, pre, flag, a, post, b, x, declared, q, accessed, hacc, hpre, S, hq, rfl⟩ :=
      stray_of_regionFailure? hf ha hb hfail
    exact ⟨before, id, after, r, pre, flag, a, post, b, x, declared, q, accessed, hsplit,
      fun id' hid' => (regionFailure?_eq_none_iff hf ha hb).mp (hbefore id' hid'), hacc, hpre, S, hq, rfl⟩
  refine ⟨⟨?_, ?_⟩, hfirst⟩
  · rintro ⟨id, name, b, buffer, offset, accessed, declared, he⟩
    obtain ⟨_, id, _, r, _, flag, a, _, b, x, declared, q, _, _, _, _, _, S, _⟩ := hfirst _ he
    exact ⟨id, flag, a, r, b, x, declared, q, S⟩
  · rintro ⟨id, flag, a, hstrays⟩
    cases he : (run f).outcome with
    | ok report => exact absurd hstrays ((accepted_iff hv ho).mp ⟨report, he⟩ id flag a)
    | error e =>
      obtain ⟨_, id, _, r, _, _, a, _, b, x, declared, _, accessed, _, _, _, _, _, _, rfl⟩ := hfirst e he
      exact ⟨_, _, _, _, _, _, _, rfl⟩

/-- The second region walks `[0:7]` by threes. Its body reads the buffer at 2 and 5, and its epilogue
at 7, just behind the declared domain. -/
def overrun : Func where
  name := "overrun"
  rank := 1
  buffers := [⟨"in", .f64, some ⟨[0], [7]⟩, .unknown⟩]
  temps := [some ⟨"s", .f64, 0, 0, .unknown⟩, some ⟨"t", .f64, 1, 0, .unknown⟩]
  regions :=
    [some ⟨"near", [.buffer 0], .ofOps [.access 0 [0]] [0], none, [0], .unknown⟩,
     some ⟨"walk", [.temp 0, .buffer 0], ⟨[.access 0 [0], .access 1 [2]], ⟨[0, 1, 1], some ⟨0, 3⟩⟩⟩,
       some (.ofOps [.access 1 [0], .access 1 [1], .access 1 [2]] [1]), [1], .unknown⟩]
  outputs := [⟨1, ⟨[0], [7]⟩⟩]
  stamp := none

theorem declared_domains_exact_overrun :
    overrun.verified = .ok () ∧ overrun.order = .ok [0, 1] ∧
    (run overrun).outcome = .error (.outOfBounds 1 "walk" 0 "in" [1] ⟨[7], [8]⟩ ⟨[0], [7]⟩) ∧
    (∃ id flag a, (run overrun).func.Strays id flag a) ∧
    ReportsFirst (run overrun).func [0, 1] (.outOfBounds 1 "walk" 0 "in" [1] ⟨[7], [8]⟩ ⟨[0], [7]⟩) := by
  have hv : overrun.verified = .ok () := rfl
  have ho : overrun.order = .ok [0, 1] := rfl
  have he : (run overrun).outcome = .error (.outOfBounds 1 "walk" 0 "in" [1] ⟨[7], [8]⟩ ⟨[0], [7]⟩) := rfl
  obtain ⟨hiff, hfirst⟩ := declared_domains_exact hv ho
  exact ⟨hv, ho, he, hiff.mp ⟨_, _, _, _, _, _, _, he⟩, hfirst _ he⟩

end Inference

end Stencil
