import Stencil.Proofs.Agreement
import Stencil.Proofs.Plan

/-! From operations to inference. Where the operations that a region or a function asks for agree
with those that always have a result, what is computed from them agrees too. -/

set_option autoImplicit false

namespace Stencil

variable {m : Type → Type} [Monad m] (A : Agreement m) (P : Primitives m)

/-- The operations agree on the bounds of a box along an axis. -/
structure Primitives.Handles (b : Box) (axis : Nat) : Prop where
  lb : A.Agrees (P.bound b.lb axis) (coord b.lb axis)
  ub : A.Agrees (P.bound b.ub axis) (coord b.ub axis)
  extent : A.Agrees (P.extent b axis) (b.extent axis)
  withAxis : ∀ l u, A.Agrees (P.withAxis b axis l u) (b.withAxis axis l u)

/-- The operations agree on where `count` groups of `k` points from `lb` on end. -/
structure Primitives.Steps (lb count : Int) (k : Nat) : Prop where
  mul : A.Agrees (P.mul count k) (count * k)
  add : A.Agrees (P.add lb (count * k)) (lb + count * k)

/-- The operations agree on the last base point of `count` groups of `k` points from `lb` on. -/
structure Primitives.Bases (lb count : Int) (k : Nat) : Prop where
  sub : A.Agrees (P.sub count 1) (count - 1)
  steps : P.Steps A lb (count - 1) k
  add : A.Agrees (P.add (lb + (count - 1) * k) 1) (lb + (count - 1) * k + 1)

namespace Region

def groupCount (r : Region) (extent : Int) (k : Nat) : Int :=
  if r.epilogue.isSome then extent / k else groupsUp extent k

variable {A P} {r : Region}

theorem agrees_groupsUp {e : Int} {k : Nat} (hadd : A.Agrees (P.add e k) (e + k))
    (hsub : A.Agrees (P.sub (e + k) 1) (e + k - 1))
    (hdiv : A.Agrees (P.div (e + k - 1) k) ((e + k - 1) / k)) :
    A.Agrees (groupsUpIn P e k) (groupsUp e k) := A.next hadd (A.next hsub hdiv)

theorem agrees_computedDomain {required : Box}
    (h : ∀ u, r.unroll = some u → 1 < u.factor → P.Handles A required u.axis ∧
      A.Agrees (groupsUpIn P (required.extent u.axis) u.factor)
        (groupsUp (required.extent u.axis) u.factor) ∧
      P.Steps A (coord required.lb u.axis) (groupsUp (required.extent u.axis) u.factor) u.factor) :
    A.Agrees (r.computedDomainIn P required) (r.computedDomain required) := by
  rw [computedDomain_def]
  unfold computedDomainIn
  cases hu : r.unroll with
  | none => exact A.value _
  | some u =>
    cases r.epilogue with
    | some e => exact A.value _
    | none =>
      simp only
      split
      · next hcond =>
        simp only [Bool.and_eq_true, decide_eq_true_eq] at hcond
        obtain ⟨hbox, hgroups, hsteps⟩ := h u hu hcond.2
        exact A.next hbox.lb (A.next hbox.extent (A.next hgroups (A.next hsteps.mul (A.next hsteps.add
          (hbox.withAxis _ _)))))
      · exact A.value _

theorem agrees_main {domain : Box} {axis k : Nat} {lb count : Int} (hbox : P.Handles A domain axis)
    (h : 0 < count → P.Bases A lb count k) :
    A.Agrees (mainIn P domain axis lb count k)
      (if 0 < count then some (domain.withAxis axis lb (lb + (count - 1) * k + 1)) else none) := by
  unfold mainIn
  split
  · next hpos =>
    exact A.next (h hpos).sub (A.next (h hpos).steps.mul (A.next (h hpos).steps.add (A.next (h hpos).add
      (A.next (hbox.withAxis _ _) (A.value _)))))
  · exact A.value _

theorem agrees_tail {domain : Box} {axis : Nat} (hbox : P.Handles A domain axis) (start ub : Int) :
    A.Agrees (tailIn P r domain axis start ub)
      (if r.epilogue.isSome && start < ub then some (domain.withAxis axis start ub) else none) := by
  unfold tailIn
  split
  · exact A.next (hbox.withAxis _ _) (A.value _)
  · exact A.value _

theorem agrees_iterationPlan {domain : Box}
    (h : ∀ u k count, r.unroll = some u → k = max u.factor 1 →
      count = r.groupCount (domain.extent u.axis) k →
      P.Handles A domain u.axis ∧ A.Agrees (groupsIn P r (domain.extent u.axis) k) count ∧
        (0 < count → P.Bases A (coord domain.lb u.axis) count k) ∧
        P.Steps A (coord domain.lb u.axis) count k) :
    A.Agrees (r.iterationPlanIn P domain) (r.iterationPlan domain) := by
  rw [iterationPlan_def]
  unfold iterationPlanIn
  split
  · exact A.value _
  · cases hu : r.unroll with
    | none => exact A.value _
    | some u =>
      obtain ⟨hbox, hgroups, hbases, hsteps⟩ := h u _ _ hu rfl rfl
      exact A.next hbox.lb
        (A.next hbox.ub (A.next hbox.extent (A.next hgroups (A.next (agrees_main hbox hbases)
        (A.next hsteps.mul (A.next hsteps.add (A.next (agrees_tail hbox _ _) (A.value _))))))))

variable [LawfulMonad m]

theorem agrees_footprints {domain : Box}
    (hplan : A.Agrees (r.iterationPlanIn P domain) (r.iterationPlan domain))
    (h : ∀ b base s o, (b, base) ∈ r.runs domain → .access s o ∈ b.ops →
      A.Agrees (P.shifted base o) (base.shifted o)) :
    A.Agrees (r.footprintsIn P domain) (r.footprints domain) := by
  have hbody : ∀ b base, (b, base) ∈ r.runs domain →
      A.Agrees (bodyFootprintsIn P b base) (bodyFootprints b base) := by
    intro b base hrun
    rw [bodyFootprints_def]
    refine A.mapM fun a ha => A.next (h b base a.slot a.offset hrun ?_) (A.value _)
    exact Body.exists_access_iff.mp ⟨a, ha, rfl, rfl⟩
  have hmain := hbody r.body (r.mainBox domain) (mem_runs.mpr (.inl ⟨rfl, rfl⟩))
  rw [footprints_def]
  unfold footprintsIn
  refine A.next hplan (A.next hmain ?_)
  cases he : r.epilogue with
  | none => exact A.next (A.value _) (A.value _)
  | some e => exact A.next (hbody e (r.tailBox domain) (mem_runs.mpr (.inr ⟨he, rfl⟩))) (A.value _)

end Region

/-- All boxes of the function, and all that its regions read, are of the kind `B`. -/
structure Func.Boxes (f : Func) (B : Box → Prop) : Prop where
  domain : ∀ b ∈ f.buffers, ∀ d, b.domain = some d → B d
  operand : ∀ o b, f.operandShape? o = some (.known b) → B b
  region : ∀ id r d, f.region? id = some r → r.shape = .known d → B d
  output : ∀ o ∈ f.outputs, B o.domain
  read : ∀ id r d fp, f.region? id = some r → r.shape = .known d → fp ∈ r.footprints d → B fp.read

theorem Func.boxes_trivial (f : Func) : f.Boxes fun _ => True :=
  ⟨fun _ _ _ _ => trivial, fun _ _ _ => trivial, fun _ _ _ _ _ => trivial, fun _ _ => trivial,
    fun _ _ _ _ _ _ _ => trivial⟩

theorem Func.Boxes.recordStamp {f : Func} {B : Box → Prop} (h : f.Boxes B) : f.recordStamp.Boxes B :=
  ⟨h.domain, h.operand, h.region, h.output, h.read⟩

namespace Inference

variable {A P}

theorem agrees_visit {p : Progress} {id : RegionId}
    (h : ∀ r required, p.func.region? id = some r → demand p.func r = .known required →
      A.Agrees (r.computedDomainIn P required) (r.computedDomain required) ∧
        A.Agrees (r.footprintsIn P (r.computedDomain required))
          (r.footprints (r.computedDomain required))) :
    A.Agrees (visitIn P p id) (visit p id) := by
  rw [visit_def]
  unfold visitIn
  cases hr : p.func.region? id with
  | none => exact A.value _
  | some r =>
    simp only
    cases hd : demand p.func r with
    | unknown => exact A.value _
    | known required =>
      obtain ⟨hcomputed, hreads⟩ := h r required hr hd
      exact A.next hcomputed (A.next hreads (A.value _))

/-- What holds at the start and after every visit, and makes the next visit agree, makes all of them
agree. -/
theorem agrees_settle {Q : Progress → Prop}
    (hstep : ∀ {p id rest}, Q p → p.queue = id :: rest →
      A.Agrees (visitIn P { p with queue := rest, visits := p.visits + 1 } id)
          (visit { p with queue := rest, visits := p.visits + 1 } id) ∧
        Q (visit { p with queue := rest, visits := p.visits + 1 } id))
    (fuel : Nat) {p : Progress} (hp : Q p) :
    A.Agrees (settleIn P fuel p) (settle fuel p) ∧ Q (settle fuel p) := by
  induction fuel generalizing p with
  | zero => exact ⟨A.value p, hp⟩
  | succ fuel ih =>
    rw [settle_succ]
    unfold settleIn
    cases hq : p.queue with
    | nil => exact ⟨A.value p, hp⟩
    | cons id rest =>
      obtain ⟨hvisit, hinv⟩ := hstep hp hq
      exact ⟨A.next hvisit (ih hinv).1, (ih hinv).2⟩

section Checks

variable {f : Func} {B : Box → Prop} (hboxes : f.Boxes B)
  (hcontains : ∀ a b, B a → B b → A.Agrees (P.contains a b) (a.contains b))
include hboxes hcontains

theorem agrees_boundsFailure (id : RegionId) (r : Region) {fp : Footprint} (hfp : B fp.read) :
    A.Agrees (boundsFailureIn P f id r fp) (boundsFailure? f id r fp) := by
  rw [boundsFailure?_def]
  unfold boundsFailureIn
  cases r.operands[fp.slot]? with
  | none => exact A.value _
  | some o =>
    cases o with
    | temp t => exact A.value _
    | buffer b =>
      simp only
      cases hx : f.buffer? b with
      | none => exact A.value _
      | some x =>
        simp only
        cases hd : x.domain with
        | none => exact A.value _
        | some declared =>
          refine A.next (hcontains _ _ (hboxes.domain x (List.mem_of_getElem? hx) declared hd) hfp) ?_
          simp only
          split <;> exact A.value _

omit hboxes in
theorem agrees_covers {s : Option Shape} {t : Shape} (hs : ∀ a, s = some (.known a) → B a)
    (ht : ∀ b, t = .known b → B b) : A.Agrees (coversIn P s t) (s.any fun s => s.covers t) := by
  cases s with
  | none => exact A.value _
  | some s =>
    cases t with
    | unknown => cases s <;> exact A.value _
    | known b =>
      cases s with
      | unknown => exact A.value _
      | known a => exact hcontains a b (hs a rfl) (ht b rfl)

variable (hreads : ∀ id r d, f.region? id = some r → r.shape = .known d →
  A.Agrees (r.footprintsIn P d) (r.footprints d))
include hreads

theorem agrees_firstOutOfBounds (order : List RegionId) :
    A.Agrees (firstOutOfBoundsIn P f order) (firstOutOfBounds? f order) := by
  rw [firstOutOfBounds?_def]
  refine A.findSomeM? fun id _ => ?_
  cases hr : f.region? id with
  | none => exact A.value _
  | some r =>
    simp only
    cases hs : r.shape with
    | unknown => exact A.value _
    | known d =>
      refine A.next (hreads id r d hr hs) (A.findSomeM? fun fp hfp => ?_)
      exact agrees_boundsFailure hboxes hcontains id r (hboxes.read id r d fp hr hs hfp)

theorem agrees_accessesSound {id : RegionId} {r : Region} (hr : f.region? id = some r) :
    A.Agrees (accessesSoundIn P f r) (accessesSound f r) := by
  rw [accessesSound_def]
  unfold accessesSoundIn
  cases hs : r.shape with
  | unknown => exact A.value _
  | known d =>
    refine A.next (hreads id r d hr hs) (A.allM fun fp hfp => agrees_covers hcontains ?_ ?_)
    · intro a ha
      obtain ⟨o, _, ho⟩ := Option.bind_eq_some_iff.mp ha
      exact hboxes.operand o a ho
    · rintro b ⟨⟩
      exact hboxes.read id r d fp hr hs hfp

theorem agrees_certificate : A.Agrees (certificateIn P f) (certificate f) := by
  have htemp : ∀ t x b, f.temp? t = some x → x.shape = .known b → B b := by
    intro t x b hx hs
    exact hboxes.operand (.temp t) b (by simp [Func.operandShape?, hx, hs])
  rw [certificate_def]
  refine A.next (A.allM fun r hr => ?_)
    (A.next (A.allM fun o ho => ?_) (A.next (A.allM fun t ht => ?_) (A.value _)))
  · exact agrees_accessesSound hboxes hcontains hreads (Func.mem_liveRegions.mp hr)
  · refine agrees_covers hcontains ?_ ?_
    · intro a ha
      obtain ⟨x, hx, hs⟩ := Option.map_eq_some_iff.mp ha
      exact htemp _ x a hx hs
    · rintro b ⟨⟩
      exact hboxes.output o ho
  · cases hk : t.2.shape.isKnown with
    | false => exact A.value _
    | true =>
      refine agrees_covers hcontains ?_ (fun b hb => htemp _ _ b (Func.mem_liveTemps.mp ht) hb)
      intro a ha
      obtain ⟨r, hr, hs⟩ := Option.map_eq_some_iff.mp ha
      exact hboxes.region _ r a hr hs

end Checks

theorem agrees_run {f : Func} {B : Box → Prop} {order : m (Except Failure (List RegionId))}
    (horder : A.Agrees order f.order)
    (hcontains : ∀ a b, B a → B b → A.Agrees (P.contains a b) (a.contains b))
    (h : ∀ order, f.verified = .ok () → f.order = .ok order →
      A.Agrees (propagateIn P f order) (propagate f order) ∧ (propagate f order).func.Boxes B ∧
        ∀ id r d, (propagate f order).func.region? id = some r → r.shape = .known d →
          A.Agrees (r.footprintsIn P d) (r.footprints d)) :
    A.Agrees (runIn P order f) (run f) := by
  rw [run_def]
  unfold runIn
  cases hv : f.verified with
  | error e => exact A.value _
  | ok u =>
    refine A.next horder ?_
    cases ho : f.order with
    | error e => exact A.value _
    | ok order =>
      obtain ⟨hp, hboxes, hreads⟩ := h order hv ho
      refine A.next hp (A.next (agrees_firstOutOfBounds hboxes hcontains hreads order) ?_)
      simp only
      cases firstOutOfBounds? (propagate f order).func order with
      | some e => exact A.value _
      | none => exact A.next (agrees_certificate hboxes.recordStamp hcontains hreads) (A.value _)

section Total

variable (A) [LawfulMonad m]

theorem agrees_footprints_total (r : Region) (domain : Box) :
    A.Agrees (r.footprintsIn (.total m) domain) (r.footprints domain) := by
  refine Region.agrees_footprints (Region.agrees_iterationPlan ?_) fun b base _ o _ _ =>
    A.value (base.shifted o)
  rintro u k count _ rfl rfl
  refine ⟨⟨A.value _, A.value _, A.value _, fun _ _ => A.value _⟩, ?_,
    fun _ => ⟨A.value _, ⟨A.value _, A.value _⟩, A.value _⟩, ⟨A.value _, A.value _⟩⟩
  unfold Region.groupsIn Region.groupCount
  split
  · exact A.value _
  · exact Region.agrees_groupsUp (A.value _) (A.value _) (A.value _)

omit [LawfulMonad m] in
theorem agrees_computedDomain_total (r : Region) (required : Box) :
    A.Agrees (r.computedDomainIn (.total m) required) (r.computedDomain required) :=
  Region.agrees_computedDomain fun _ _ _ => ⟨⟨A.value _, A.value _, A.value _, fun _ _ => A.value _⟩,
    Region.agrees_groupsUp (A.value _) (A.value _) (A.value _), ⟨A.value _, A.value _⟩⟩

/-- With operations that always have a result, inference is the same in every monad. -/
theorem agrees_total (f : Func) : A.Agrees (runIn (.total m) (pure f.order) f) (run f) := by
  refine agrees_run (B := fun _ => True) (A.value _) (fun a b _ _ => A.value (a.contains b))
    fun order _ _ => ?_
  refine ⟨?_, Func.boxes_trivial _, fun _ r d _ _ => agrees_footprints_total A r d⟩
  refine (agrees_settle (Q := fun _ => True) (fun _ _ => ⟨agrees_visit fun r required _ _ => ?_,
    trivial⟩) _ trivial).1
  exact ⟨agrees_computedDomain_total A r required, agrees_footprints_total A r _⟩

end Total

end Inference

end Stencil
