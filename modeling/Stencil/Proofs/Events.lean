import Stencil.Proofs.Cycles
import Stencil.Proofs.Inference

/-! The course of shape inference. The events of an annotation are the history of the boxes asked of it:
they start from no demand at all, each one enlarges the shape at which the one before it ended, and the
last one ends at the shape that is found. Every region is taken from the queue once. -/

set_option autoImplicit false

namespace Stencil

namespace Shape

/-- The box of the shape, if it has one, is of rank `n` and, when empty, the empty box. -/
def Fits (s : Shape) (n : Nat) : Prop := ∀ b, s = known b → b.Ranked n ∧ b.Canonical

theorem fits_unknown (n : Nat) : unknown.Fits n := by
  intro b hb
  cases hb

theorem Fits.grow {s : Shape} {n : Nat} (hs : s.Fits n) {b : Box} (hb : b.Ranked n) :
    (s.grow b).Fits n := by
  intro c hc
  cases s with
  | unknown =>
    cases hc
    exact ⟨Box.ranked_canonical hb, Box.canonical_canonical⟩
  | known a =>
    cases hc
    obtain ⟨ha, _⟩ := hs a rfl
    exact ⟨Box.ranked_union ha hb, Box.canonical_union ha hb⟩

theorem covers_refl {s : Shape} {n : Nat} (hs : s.Fits n) : s.covers s = true := by
  cases s with
  | unknown => rfl
  | known a => exact Box.contains_refl (hs a rfl).1

theorem covers_grow_iff {s t : Shape} {n : Nat} (hs : s.Fits n) (ht : t.Fits n) {b : Box}
    (hb : b.Ranked n) :
    t.covers (s.grow b) = true ↔ t.covers s = true ∧ t.covers (known b) = true := by
  cases t with
  | unknown => cases s <;> simp [grow, covers]
  | known c =>
    cases s with
    | unknown => simp [grow, covers, Box.contains_canonical hb]
    | known a => exact Box.contains_union_iff (hs a rfl).1 hb (ht c rfl).1

theorem covers_antisymm {s t : Shape} {n : Nat} (hs : s.Fits n) (ht : t.Fits n)
    (hst : s.covers t = true) (hts : t.covers s = true) : s = t := by
  cases s with
  | unknown =>
    cases t with
    | unknown => rfl
    | known b => cases hst
  | known a =>
    cases t with
    | unknown => cases hts
    | known b =>
      obtain ⟨ha, hca⟩ := hs a rfl
      obtain ⟨hb, hcb⟩ := ht b rfl
      rw [Box.contains_antisymm ha hb hca hcb hst hts]

theorem covers_grow_self {s : Shape} {n : Nat} (hs : s.Fits n) {b : Box} (hb : b.Ranked n) :
    (s.grow b).covers s = true ∧ (s.grow b).covers (known b) = true :=
  (covers_grow_iff hs (hs.grow hb) hb).mp (covers_refl (hs.grow hb))

theorem grow_eq_self_iff {s : Shape} {n : Nat} (hs : s.Fits n) {b : Box} (hb : b.Ranked n) :
    s.grow b = s ↔ s.covers (known b) = true := by
  constructor
  · intro h
    have hself := (covers_grow_self hs hb).2
    rwa [h] at hself
  · intro h
    apply covers_antisymm (hs.grow hb) hs (covers_grow_self hs hb).1
    exact (covers_grow_iff hs hs hb).mpr ⟨covers_refl hs, h⟩

theorem covers_known_trans {s t : Shape} {n : Nat} (hs : s.Fits n) (ht : t.Fits n) {b : Box}
    (hb : b.Ranked n)
    (hts : t.covers s = true) (hsb : s.covers (known b) = true) : t.covers (known b) = true := by
  rw [← (grow_eq_self_iff hs hb).mpr hsb, covers_grow_iff hs ht hb] at hts
  exact hts.2

theorem fits_foldl_grow {s : Shape} {n : Nat} (hs : s.Fits n) {bs : List Box}
    (hbs : ∀ b, b ∈ bs → b.Ranked n) : (bs.foldl grow s).Fits n := by
  induction bs generalizing s with
  | nil => exact hs
  | cons b bs ih => exact ih (hs.grow (hbs b (by simp))) fun c hc => hbs c (by simp [hc])

end Shape

def Func.shapeOf? (f : Func) : Inference.Target → Option Shape
  | .temp t => (f.temp? t).map (·.shape)
  | .buffer b => (f.buffer? b).map (·.required)
  | .region id => (f.region? id).map (·.shape)

theorem Func.shapeOf?_clearShapes (f : Func) (x : Inference.Target) :
    f.clearShapes.shapeOf? x = (f.shapeOf? x).map fun _ => .unknown := by
  cases x with
  | temp t => simp [shapeOf?, temp?_clearShapes, Function.comp_def]
  | buffer b => simp [shapeOf?, buffer?_clearShapes, Function.comp_def]
  | region id => simp [shapeOf?, region?_clearShapes, Function.comp_def]

/-- The boxes asked of a target, oldest first, when the regions of `done` have been visited. -/
def Func.askedOf (f : Func) (done : List RegionId) : Inference.Target → List Box
  | .temp t => f.marksOn t ++ done.flatMap (f.readsAt (.temp t))
  | .buffer b => done.flatMap (f.readsAt (.buffer b))
  | .region id => ((f.region? id).bind (·.shape.box?)).toList

namespace Inference

def eventsOf (events : List Event) (x : Target) : List Event := events.filter (·.target = x)

/-- The events of a target of shape `s` that is asked for one box after the other. -/
def history (x : Target) : Shape → List Box → List Event
  | _, [] => []
  | s, b :: bs => if s.grow b = s then history x s bs else ⟨x, s, s.grow b⟩ :: history x (s.grow b) bs

/-- Each event starts where the one before it ended, the first at `s`, and the last one ends at `s'`. -/
def Chained : Shape → List Event → Shape → Prop
  | s, [], s' => s = s'
  | s, e :: events, s' => e.before = s ∧ Chained e.after events s'

@[simp] theorem history_nil (x : Target) (s : Shape) : history x s [] = [] := rfl

theorem history_append (x : Target) (s : Shape) (as bs : List Box) :
    history x s (as ++ bs) = history x s as ++ history x (as.foldl Shape.grow s) bs := by
  induction as generalizing s with
  | nil => rfl
  | cons a as ih =>
    rw [List.cons_append, history, history, List.foldl_cons]
    split
    · next hs => rw [ih s, hs]
    · rw [ih (s.grow a), List.cons_append]

theorem chained_history (x : Target) (s : Shape) (bs : List Box) :
    Chained s (history x s bs) (bs.foldl Shape.grow s) := by
  induction bs generalizing s with
  | nil => rfl
  | cons b bs ih =>
    rw [history, List.foldl_cons]
    split
    · next hs =>
      rw [hs]
      exact ih s
    · exact ⟨rfl, ih (s.grow b)⟩

theorem growth_of_mem_history {x : Target} {s : Shape} {n : Nat} (hs : s.Fits n) {bs : List Box}
    (hbs : ∀ b, b ∈ bs → b.Ranked n) {e : Event} (he : e ∈ history x s bs) :
    e.after.covers e.before = true ∧ e.after ≠ e.before := by
  induction bs generalizing s with
  | nil => cases he
  | cons b bs ih =>
    have hb := hbs b (by simp)
    have hrest : ∀ c, c ∈ bs → c.Ranked n := fun c hc => hbs c (by simp [hc])
    rw [history] at he
    split at he
    · exact ih hs hrest he
    · next hne =>
      rcases List.mem_cons.mp he with rfl | he
      · exact ⟨(Shape.covers_grow_self hs hb).1, hne⟩
      · exact ih (hs.grow hb) hrest he

/-- From `p` to `q` each target has been asked for the boxes that `D` gives for it. -/
structure Asks (p q : Progress) (D : Target → List Box) : Prop where
  shapes : ∀ x, q.func.shapeOf? x = (p.func.shapeOf? x).map ((D x).foldl Shape.grow)
  events : ∀ x, eventsOf q.events x =
    eventsOf p.events x ++ ((p.func.shapeOf? x).map fun s => history x s (D x)).getD []
  visits : q.visits = p.visits

theorem Asks.refl (p : Progress) : Asks p p fun _ => [] := by
  refine ⟨fun x => ?_, fun x => ?_, rfl⟩
  · cases p.func.shapeOf? x <;> rfl
  · cases p.func.shapeOf? x <;> simp

theorem Asks.trans {p q s : Progress} {D E : Target → List Box} (h : Asks p q D) (h' : Asks q s E) :
    Asks p s fun x => D x ++ E x := by
  refine ⟨fun x => ?_, fun x => ?_, h'.visits.trans h.visits⟩
  · rw [h'.shapes, h.shapes]
    cases p.func.shapeOf? x <;> simp
  · rw [h'.events, h.events, h.shapes]
    cases p.func.shapeOf? x <;> simp [history_append]

theorem Asks.congr {p q : Progress} {D E : Target → List Box} (h : Asks p q D) (hDE : ∀ x, D x = E x) :
    Asks p q E := by
  have : D = E := funext hDE
  rwa [← this]

theorem Asks.enqueue {p q : Progress} {D : Target → List Box} (h : Asks p q D) (id : RegionId) :
    Asks p (q.enqueue id) D := by
  unfold Progress.enqueue
  split
  · exact h
  · exact ⟨h.shapes, h.events, h.visits⟩

theorem asks_of_absent {p : Progress} {x : Target} (b : Box) (h : p.func.shapeOf? x = none) :
    Asks p p fun y => if x = y then [b] else [] := by
  refine ⟨fun y => ?_, fun y => ?_, rfl⟩
  · by_cases hy : x = y
    · simp [← hy, h]
    · cases p.func.shapeOf? y <;> simp [hy]
  · by_cases hy : x = y
    · simp [← hy, h]
    · cases p.func.shapeOf? y <;> simp [hy]

/-- What each of the three kinds of annotation does with a box: it stays as it is when the box is covered,
and otherwise the growth is recorded. -/
theorem asks_grow {p : Progress} {x : Target} {s : Shape} {g : Func} (b : Box)
    (hs : p.func.shapeOf? x = some s)
    (hg : ∀ y, g.shapeOf? y = if x = y then some (s.grow b) else p.func.shapeOf? y) :
    Asks p (if s.grow b = s then p else p.record g x s (s.grow b)) fun y =>
      if x = y then [b] else [] := by
  split
  · next hcov =>
    refine ⟨fun y => ?_, fun y => ?_, rfl⟩
    · by_cases hy : x = y
      · simp [← hy, hs, hcov]
      · cases p.func.shapeOf? y <;> simp [hy]
    · by_cases hy : x = y
      · simp [← hy, hs, history, hcov]
      · cases p.func.shapeOf? y <;> simp [hy]
  · next hne =>
    refine ⟨fun y => ?_, fun y => ?_, rfl⟩
    · rw [Progress.record, hg]
      by_cases hy : x = y
      · simp [← hy, hs]
      · cases p.func.shapeOf? y <;> simp [hy]
    · rw [Progress.record, eventsOf, List.filter_append]
      by_cases hy : x = y
      · simp [← hy, hs, history, hne, eventsOf]
      · cases p.func.shapeOf? y <;> simp [hy, eventsOf]

theorem asks_growTemp (p : Progress) (t : TempId) (b : Box) :
    Asks p (p.growTemp t b) fun y => if .temp t = y then [b] else [] := by
  unfold Progress.growTemp
  cases hx : p.func.temp? t with
  | none => exact asks_of_absent b (by simp [Func.shapeOf?, hx])
  | some x =>
    apply asks_grow b (by simp [Func.shapeOf?, hx])
    intro y
    cases y with
    | temp t' =>
      simp only [Func.shapeOf?, Func.temp?_modifyTemp, Target.temp.injEq]
      split
      · next ht => simp [← ht, hx]
      · rfl
    | buffer i => rfl
    | region id => rfl

theorem asks_growBuffer (p : Progress) (i : BufferId) (b : Box) :
    Asks p (p.growBuffer i b) fun y => if .buffer i = y then [b] else [] := by
  unfold Progress.growBuffer
  cases hx : p.func.buffer? i with
  | none => exact asks_of_absent b (by simp [Func.shapeOf?, hx])
  | some x =>
    apply asks_grow b (by simp [Func.shapeOf?, hx])
    intro y
    cases y with
    | temp t => rfl
    | buffer i' =>
      simp only [Func.shapeOf?, Func.buffer?_modifyBuffer, Target.buffer.injEq]
      split
      · next hi => simp [← hi, hx]
      · rfl
    | region id => rfl

theorem asks_growRegion (p : Progress) (id : RegionId) (b : Box) :
    Asks p (p.growRegion id b) fun y => if .region id = y then [b] else [] := by
  unfold Progress.growRegion
  cases hx : p.func.region? id with
  | none => exact asks_of_absent b (by simp [Func.shapeOf?, hx])
  | some x =>
    apply asks_grow b (by simp [Func.shapeOf?, hx])
    intro y
    cases y with
    | temp t => rfl
    | buffer i => rfl
    | region id' =>
      simp only [Func.shapeOf?, Func.region?_modifyRegion, Target.region.injEq]
      split
      · next hi => simp [← hi, hx]
      · rfl

theorem asks_demandTemp (p : Progress) (t : TempId) (b : Box) :
    Asks p (p.demandTemp t b) fun y => if .temp t = y then [b] else [] := by
  have hgrow := asks_growTemp p t b
  unfold Progress.demandTemp
  cases hx : p.func.temp? t with
  | none =>
    have hsame : p.growTemp t b = p := by simp [Progress.growTemp, hx]
    rwa [hsame] at hgrow
  | some x =>
    simp only
    split
    · next hs =>
      have hsame : p.growTemp t b = p := by simp [Progress.growTemp, hx, hs]
      rwa [hsame] at hgrow
    · exact hgrow.enqueue x.producer

def Target.operand? : Target → Option Operand
  | .temp t => some (.temp t)
  | .buffer b => some (.buffer b)
  | .region _ => none

theorem asks_demandOperand (p : Progress) (operands : List Operand) (fp : Footprint) :
    Asks p (p.demandOperand operands fp) fun y =>
      y.operand?.elim [] fun o => if operands[fp.slot]? = some o then [fp.read] else [] := by
  unfold Progress.demandOperand
  cases ho : operands[fp.slot]? with
  | none => exact (Asks.refl p).congr fun y => by cases y <;> simp [Target.operand?]
  | some o =>
    cases o with
    | temp t => exact (asks_demandTemp p t fp.read).congr fun y => by cases y <;> simp [Target.operand?]
    | buffer b => exact (asks_growBuffer p b fp.read).congr fun y => by cases y <;> simp [Target.operand?]

theorem asks_footprints (operands : List Operand) (fps : List Footprint) (p : Progress) :
    Asks p (fps.foldl (fun p fp => p.demandOperand operands fp) p) fun y =>
      y.operand?.elim [] fun o => (fps.filter fun fp => operands[fp.slot]? = some o).map (·.read) := by
  refine (foldl_asked (Q := fun _ => True) Asks.refl Asks.trans
    (fun fp _ p _ => ⟨asks_demandOperand p operands fp, trivial⟩) trivial).congr fun y => ?_
  cases y.operand? with
  | none => simp
  | some o => exact flatMap_ite _ _ fps

/-- What the region at a place asks of a target when it is visited: the box it computes, of itself,
and the boxes it reads then. -/
def askedBy (id : RegionId) (r : Region) : Target → List Box
  | .temp t => r.readsOf (.temp t)
  | .buffer b => r.readsOf (.buffer b)
  | .region id' => if id = id' then r.shape.box?.toList else []

theorem asks_visit {p : Progress} {id : RegionId} {r : Region} {required : Box}
    (hr : p.func.region? id = some r) (hd : demand p.func r = .known required) :
    Asks p (visit p id) (askedBy id { r with shape := .known (r.computedDomain required) }) := by
  rw [visit_def]
  simp only [hr, hd]
  refine ((asks_growRegion p id _).trans (asks_footprints _ _ _)).congr fun y => ?_
  cases y with
  | temp t => rfl
  | buffer b => rfl
  | region id' => simp [askedBy, Target.operand?, Shape.box?]

theorem asks_seed (f : Func) (queue : List RegionId) :
    Asks ⟨f.clearShapes, queue, 0, []⟩ (seed f queue) fun | .temp t => f.marksOn t | _ => [] := by
  refine (foldl_asked (Q := fun _ => True) Asks.refl Asks.trans
    (fun m _ p _ => ⟨asks_growTemp p m.temp m.domain, trivial⟩) trivial).congr fun y => ?_
  refine (flatMap_ite _ _ f.outputs).trans ?_
  cases y with
  | temp t => simp [Func.marksOn]
  | buffer b => simp
  | region id => simp

/-- The events of each target are the history of the boxes that `asked` gives for it. -/
structure Recorded (asked : Target → List Box) (p : Progress) : Prop where
  shapes : ∀ x s, p.func.shapeOf? x = some s → s = .hull (asked x)
  events : ∀ x, eventsOf p.events x =
    ((p.func.shapeOf? x).map fun _ => history x .unknown (asked x)).getD []

theorem recorded_clearShapes (f : Func) (queue : List RegionId) :
    Recorded (fun _ => []) ⟨f.clearShapes, queue, 0, []⟩ := by
  refine ⟨fun x s hs => ?_, fun x => ?_⟩
  · rw [Func.shapeOf?_clearShapes] at hs
    obtain ⟨_, _, rfl⟩ := Option.map_eq_some_iff.mp hs
    rfl
  · cases f.clearShapes.shapeOf? x <;> rfl

theorem Recorded.asks {asked D : Target → List Box} {p q : Progress} (h : Recorded asked p)
    (hask : Asks p q D) : Recorded (fun x => asked x ++ D x) q := by
  refine ⟨?_, ?_⟩
  · intro x s hs
    rw [hask.shapes] at hs
    obtain ⟨s', hs', rfl⟩ := Option.map_eq_some_iff.mp hs
    rw [Shape.hull_append, ← h.shapes x s' hs']
  · intro x
    rw [hask.events, h.events, hask.shapes]
    cases hs : p.func.shapeOf? x with
    | none => rfl
    | some s => simp [history_append, h.shapes x s hs, Shape.hull]

theorem Recorded.congr {asked asked' : Target → List Box} {p : Progress} (h : Recorded asked p)
    (heq : ∀ x s, p.func.shapeOf? x = some s → asked x = asked' x) : Recorded asked' p := by
  refine ⟨fun x s hs => ?_, fun x => ?_⟩
  · rw [← heq x s hs]
    exact h.shapes x s hs
  · rw [h.events]
    cases hs : p.func.shapeOf? x with
    | none => rfl
    | some s => rw [heq x s hs]

theorem recorded_seed (f : Func) (queue : List RegionId) :
    Recorded ((seed f queue).func.askedOf []) (seed f queue) := by
  have hgrow := grows_seed f queue
  have hsame := (Func.sameStructure_clearShapes f).trans hgrow.same
  apply ((recorded_clearShapes f queue).asks (asks_seed f queue)).congr
  intro x s hs
  cases x with
  | temp t => simp [Func.askedOf, hsame.marksOn_eq]
  | buffer b => simp [Func.askedOf]
  | region id =>
    obtain ⟨r, hr, rfl⟩ := Option.map_eq_some_iff.mp hs
    simp only [Func.askedOf, hr]
    rw [hgrow.region, Func.region?_clearShapes] at hr
    obtain ⟨y, _, rfl⟩ := Option.map_eq_some_iff.mp hr
    rfl

section Run

variable {f : Func} {order done todo : List RegionId} {p : Progress}

theorem Visited.askedOf {s : Progress} {id : RegionId} {r r' : Region} (hv : Visited p s id r')
    (hid : id ∉ done) (hr : p.func.region? id = some r) (hs : r.shape = .unknown) (x : Target) :
    s.func.askedOf (done ++ [id]) x = p.func.askedOf done x ++ askedBy id r' x := by
  cases x with
  | temp t =>
    simp only [Func.askedOf, askedBy]
    rw [hv.flatMap_readsAt hid, hv.same.marksOn_eq, List.append_assoc]
  | buffer b => exact hv.flatMap_readsAt hid _
  | region id' =>
    simp only [Func.askedOf, askedBy, hv.region]
    split
    · next he => simp [← he, hr, hs, Shape.box?]
    · simp

theorem Recorded.visited {id : RegionId} {rest : List RegionId} (hrec : Recorded (p.func.askedOf done) p)
    (h : Reached f order done (id :: rest) p) (hf : f.Sound) (hord : f.Ordered order) :
    Recorded ((visit { p with queue := rest, visits := p.visits + 1 } id).func.askedOf (done ++ [id]))
        (visit { p with queue := rest, visits := p.visits + 1 } id) ∧
      (visit { p with queue := rest, visits := p.visits + 1 } id).visits = p.visits + 1 := by
  have htaken : Recorded (p.func.askedOf done) { p with queue := rest, visits := p.visits + 1 } :=
    ⟨hrec.shapes, hrec.events⟩
  obtain ⟨r, hr, ⟨_, heq⟩ | ⟨required, hd, _, _, hv, _⟩⟩ := h.visit_cases hf hord
  · rw [heq]
    refine ⟨htaken.congr fun x s _ => ?_, rfl⟩
    cases x with
    | temp t => simp only [Func.askedOf, h.flatMap_readsAt_skip hr]
    | buffer b => exact (h.flatMap_readsAt_skip hr _).symm
    | region id' => rfl
  · have hask : Asks { p with queue := rest, visits := p.visits + 1 } _ _ := asks_visit hr hd
    refine ⟨(htaken.asks hask).congr fun x s _ => ?_, hask.visits⟩
    exact (hv.askedOf (h.disjoint hord).1 hr (h.pending id r (by simp) hr) x).symm

/-- The regions that are taken from the queue, in turn. -/
def taken : Nat → Progress → List RegionId
  | 0, _ => []
  | fuel + 1, p =>
    match p.queue with
    | [] => []
    | id :: rest => id :: taken fuel (visit { p with queue := rest, visits := p.visits + 1 } id)

/-- The loop takes each queued region once and no other, and its fuel does not run out. -/
theorem Recorded.settled (hrec : Recorded (p.func.askedOf done) p) (h : Reached f order done todo p)
    (hf : f.Sound) (hord : f.Ordered order) (hvisits : p.visits = done.length) {fuel : Nat}
    (hfuel : todo.length ≤ fuel) :
    taken fuel p = todo ∧ settle fuel p = settle todo.length p ∧
      Recorded ((settle fuel p).func.askedOf order.reverse) (settle fuel p) ∧
      (settle fuel p).visits = order.length := by
  induction todo generalizing done p fuel with
  | nil =>
    have hdone : order.reverse = done := by rw [h.split, List.append_nil]
    have hstop : settle fuel p = p ∧ taken fuel p = [] := by
      cases fuel with
      | zero => exact ⟨rfl, rfl⟩
      | succ fuel => simp [settle_succ, taken, h.queue]
    rw [hstop.1, hstop.2, hdone]
    refine ⟨rfl, rfl, hrec, ?_⟩
    rw [hvisits, ← hdone, List.length_reverse]
  | cons id rest ih =>
    cases fuel with
    | zero => simp at hfuel
    | succ fuel =>
      obtain ⟨hrec', hvisits'⟩ := hrec.visited h hf hord
      have hdone : (done ++ [id]).length = p.visits + 1 := by simp [hvisits]
      obtain ⟨htaken, hfix, hrest⟩ :=
        ih hrec' (h.visit hf hord) (hvisits'.trans hdone.symm) (by simpa using hfuel)
      rw [settle_succ, taken, List.length_cons, settle_succ, h.queue]
      exact ⟨congrArg (id :: ·) htaken, hfix, hrest⟩

theorem Reached.ranked_askedOf (h : Reached f order done todo p) (hf : f.Sound) {x : Target} {box : Box}
    (hbox : box ∈ p.func.askedOf done x) : box.Ranked p.func.rank := by
  cases x with
  | temp t =>
    rw [Func.askedOf, ← h.same.marksOn_eq] at hbox
    exact h.ranked_temp hf hbox
  | buffer b => exact h.ranked_reads hf hbox
  | region id =>
    obtain ⟨r, hr, hs⟩ := Option.bind_eq_some_iff.mp (Option.mem_toList.mp hbox)
    cases hshape : r.shape with
    | unknown => simp [hshape, Shape.box?] at hs
    | known d =>
      simp only [hshape, Shape.box?, Option.some.injEq] at hs
      rw [← hs]
      exact h.ranked id r d hr hshape

end Run

section Propagate

variable {f : Func} {order : List RegionId} (hf : f.Sound) (hord : f.Ordered order)
include hf hord

theorem settled_seed {fuel : Nat} (hfuel : order.length ≤ fuel) :
    taken fuel (seed f order.reverse) = order.reverse ∧
      settle fuel (seed f order.reverse) = settle order.reverse.length (seed f order.reverse) ∧
      Recorded ((settle fuel (seed f order.reverse)).func.askedOf order.reverse)
        (settle fuel (seed f order.reverse)) ∧
      (settle fuel (seed f order.reverse)).visits = order.length :=
  (recorded_seed f order.reverse).settled (reached_seed order) hf hord (asks_seed f order.reverse).visits
    (by simpa using hfuel)

theorem recorded_propagate :
    Recorded ((propagate f order).func.askedOf order.reverse) (propagate f order) ∧
      (propagate f order).visits = order.length :=
  (settled_seed hf hord (Nat.le_of_lt Nat.lt_two_pow_self)).2.2

theorem settle_eq_propagate {fuel : Nat} (hfuel : order.length ≤ fuel) :
    settle fuel (seed f order.reverse) = propagate f order :=
  (settled_seed hf hord hfuel).2.1.trans
    (settled_seed hf hord (Nat.le_of_lt Nat.lt_two_pow_self)).2.1.symm

/-- The events lead from no demand at all to the annotations found. -/
theorem chained_propagate {x : Target} {s : Shape} (hs : (propagate f order).func.shapeOf? x = some s) :
    Chained .unknown (eventsOf (propagate f order).events x) s := by
  obtain ⟨hrec, _⟩ := recorded_propagate hf hord
  rw [hrec.events, hs, hrec.shapes x s hs]
  exact chained_history x .unknown _

theorem growth_propagate {e : Event} (he : e ∈ (propagate f order).events) :
    ((propagate f order).func.shapeOf? e.target).isSome = true ∧
      e.after.covers e.before = true ∧ e.after ≠ e.before := by
  obtain ⟨hrec, _⟩ := recorded_propagate hf hord
  have hmem : e ∈ eventsOf (propagate f order).events e.target := by simp [eventsOf, he]
  rw [hrec.events] at hmem
  cases hs : (propagate f order).func.shapeOf? e.target with
  | none => simp [hs] at hmem
  | some s =>
    rw [hs] at hmem
    have hranked : ∀ b, b ∈ (propagate f order).func.askedOf order.reverse e.target →
        b.Ranked (propagate f order).func.rank :=
      fun b hb => (reached_propagate hf hord).ranked_askedOf hf hb
    exact ⟨rfl, growth_of_mem_history (Shape.fits_unknown _) hranked hmem⟩

end Propagate

theorem run_shows {f : Func} {order : List RegionId} (hv : f.verified = .ok ())
    (ho : f.order = .ok order) :
    (run f).events = (propagate f order).events ∧
      (∀ x, (run f).func.shapeOf? x = (propagate f order).func.shapeOf? x) ∧
      ∀ report, (run f).outcome = .ok report → report.visits = (propagate f order).visits ∧
        report.growths = (propagate f order).events.length ∧ report.stepBound = stepBound f := by
  rw [run_def]
  simp only [hv, ho]
  cases hb : firstOutOfBounds? (propagate f order).func order with
  | some e => exact ⟨rfl, fun x => rfl, fun report h => by cases h⟩
  | none =>
    refine ⟨rfl, fun x => by cases x <;> rfl, ?_⟩
    intro report h
    cases h
    exact ⟨rfl, rfl, rfl⟩

/-- The course of inference. Of a valid function without cycles each region is taken from the queue once,
whatever fuel is left over. Every event enlarges an annotation strictly, the events of each annotation
follow on each other from no demand at all to what is found, and the report counts visits and events. -/
theorem course_exact {f : Func} (hv : f.verified = .ok ()) (hacyclic : f.Acyclic) :
    ∃ order, f.order = .ok order ∧ order.Perm f.regionIds ∧
      (∀ fuel, f.liveRegions.length ≤ fuel → taken fuel (seed f order.reverse) = order.reverse ∧
        settle fuel (seed f order.reverse) = propagate f order) ∧
      (propagate f order).queue = [] ∧ (propagate f order).visits = f.liveRegions.length ∧
      (run f).events = (propagate f order).events ∧
      (∀ report, (run f).outcome = .ok report →
        report.visits = f.liveRegions.length ∧ report.growths = (run f).events.length) ∧
      (∀ e, e ∈ (run f).events → ((run f).func.shapeOf? e.target).isSome = true ∧
        e.after.covers e.before = true ∧ e.after ≠ e.before) ∧
      ∀ x s, (run f).func.shapeOf? x = some s → Chained .unknown (eventsOf (run f).events x) s := by
  have hf := Func.sound_of_verified hv
  obtain ⟨order, ho⟩ := (Func.exists_order_iff hf).mpr hacyclic
  have hord := Func.ordered_of_order ho
  have hlen : order.length = f.liveRegions.length := by
    rw [hord.perm.length_eq, Func.regionIds, List.length_map]
  have hvisits : (propagate f order).visits = f.liveRegions.length :=
    (recorded_propagate hf hord).2.trans hlen
  obtain ⟨hevents, hshapes, hreport⟩ := run_shows hv ho
  refine ⟨order, ho, hord.perm, ?_, (reached_propagate hf hord).queue, hvisits, hevents, ?_, ?_, ?_⟩
  · intro fuel hfuel
    rw [← hlen] at hfuel
    exact ⟨(settled_seed hf hord hfuel).1, settle_eq_propagate hf hord hfuel⟩
  · intro report h
    obtain ⟨hv', hg, _⟩ := hreport report h
    exact ⟨hv'.trans hvisits, by rw [hg, hevents]⟩
  · intro e he
    rw [hshapes]
    rw [hevents] at he
    exact growth_propagate hf hord he
  · intro x s hs
    rw [hshapes] at hs
    rw [hevents]
    exact chained_propagate hf hord hs

/-- One region feeds two, which meet again in the last. -/
def diamond : Func where
  name := "diamond"
  rank := 1
  buffers := [⟨"in", .f64, none, .unknown⟩]
  temps := [some ⟨"p", .f64, 0, 0, .unknown⟩, some ⟨"l", .f64, 1, 0, .unknown⟩,
    some ⟨"r", .f64, 2, 0, .unknown⟩, some ⟨"m", .f64, 3, 0, .unknown⟩]
  regions :=
    [some ⟨"p", [.buffer 0], .ofOps [.access 0 [0]] [0], none, [0], .unknown⟩,
     some ⟨"l", [.temp 0], .ofOps [.access 0 [-1]] [0], none, [1], .unknown⟩,
     some ⟨"r", [.temp 0], .ofOps [.access 0 [1]] [0], none, [2], .unknown⟩,
     some ⟨"m", [.temp 1, .temp 2], .ofOps [.access 0 [0], .access 1 [0], .binary .add 0 1] [2],
       none, [3], .unknown⟩]
  outputs := [⟨3, ⟨[0], [4]⟩⟩]
  stamp := none

theorem course_exact_diamond :
    diamond.verified = .ok () ∧ diamond.Acyclic ∧ taken 4 (seed diamond [3, 2, 1, 0]) = [3, 2, 1, 0] ∧
      (propagate diamond [0, 1, 2, 3]).visits = 4 ∧
      eventsOf (run diamond).events (.temp 0) =
        [⟨.temp 0, .unknown, .known ⟨[1], [5]⟩⟩, ⟨.temp 0, .known ⟨[1], [5]⟩, .known ⟨[-1], [5]⟩⟩] ∧
      Chained .unknown (eventsOf (run diamond).events (.temp 0)) (.known ⟨[-1], [5]⟩) := by
  have ho : diamond.order = .ok [0, 1, 2, 3] := rfl
  have hacyclic : diamond.Acyclic := (Func.exists_order_iff (Func.sound_of_verified rfl)).mp ⟨_, ho⟩
  obtain ⟨order, ho', _, hfuel, _, hvisits, _, _, _, hchain⟩ := course_exact (f := diamond) rfl hacyclic
  rw [ho] at ho'
  cases ho'
  exact ⟨rfl, hacyclic, (hfuel 4 (by decide)).1, hvisits, by decide +kernel,
    hchain (.temp 0) _ (by decide +kernel)⟩

end Inference

end Stencil
