import Stencil.Inference

/-! Regions and inference with operations that always have a result: what their definitions come to. -/

set_option autoImplicit false

namespace Stencil

namespace Region

theorem groupsUp_def (extent : Int) (k : Nat) : groupsUp extent k = (extent + k - 1) / k := rfl

theorem computedDomain_def (r : Region) (required : Box) : r.computedDomain required =
    match r.unroll, r.epilogue with
    | some u, none =>
      if !required.isEmpty && 1 < u.factor then
        required.withAxis u.axis (required.lb.getD u.axis 0)
          (required.lb.getD u.axis 0 + groupsUp (required.extent u.axis) u.factor * u.factor)
      else required
    | _, _ => required := by
  unfold computedDomain computedDomainIn
  cases r.unroll <;> cases r.epilogue <;> rfl

theorem iterationPlan_def (r : Region) (domain : Box) : r.iterationPlan domain =
    if domain.isEmpty then ⟨none, 0, 1, none⟩
    else
      match r.unroll with
      | none => ⟨some domain, 0, 1, none⟩
      | some u =>
        let k := max u.factor 1
        let lb := domain.lb.getD u.axis 0
        let ub := domain.ub.getD u.axis 0
        let extent := domain.extent u.axis
        let groups := if r.epilogue.isSome then extent / k else groupsUp extent k
        let tailStart := lb + groups * k
        { main := if 0 < groups then some (domain.withAxis u.axis lb (lb + (groups - 1) * k + 1))
          else none
          axis := u.axis
          step := k
          tail :=
            if r.epilogue.isSome && tailStart < ub then some (domain.withAxis u.axis tailStart ub)
            else none } := by
  unfold iterationPlan iterationPlanIn
  cases r.unroll <;> rfl

theorem bodyFootprints_def (body : Body) (base : Box) :
    bodyFootprints body base = body.accesses.map fun a => ⟨a.slot, a.offset, base.shifted a.offset⟩ :=
  List.idRun_mapM

theorem footprints_def (r : Region) (domain : Box) : r.footprints domain =
    bodyFootprints r.body ((r.iterationPlan domain).main.getD (.empty domain.rank)) ++
      match r.epilogue with
      | some e => bodyFootprints e ((r.iterationPlan domain).tail.getD (.empty domain.rank))
      | none => [] := by
  unfold footprints footprintsIn
  cases r.epilogue <;> rfl

end Region

namespace Inference

theorem visit_def (p : Progress) (id : RegionId) : visit p id =
    match p.func.region? id with
    | none => p
    | some r =>
      match demand p.func r with
      | .unknown => p
      | .known required =>
        (r.footprints (r.computedDomain required)).foldl (fun p fp => p.demandOperand r.operands fp)
          (p.growRegion id (r.computedDomain required)) := by
  unfold visit visitIn
  cases p.func.region? id with
  | none => rfl
  | some r =>
    simp only
    cases demand p.func r <;> rfl

theorem settle_succ (fuel : Nat) (p : Progress) : settle (fuel + 1) p =
    match p.queue with
    | [] => p
    | id :: rest => settle fuel (visit { p with queue := rest, visits := p.visits + 1 } id) := by
  rw [settle, settleIn]
  cases p.queue <;> rfl

theorem propagate_def (f : Func) (order : List RegionId) :
    propagate f order = settle (Nat.pow 2 order.length) (seed f order.reverse) := rfl

theorem boundsFailure?_def (f : Func) (id : RegionId) (r : Region) (fp : Footprint) :
    boundsFailure? f id r fp =
    match r.operands[fp.slot]? with
    | some (.buffer b) =>
      match f.buffer? b with
      | some x =>
        match x.domain with
        | some declared =>
          if declared.contains fp.read then none
          else some (.outOfBounds id r.name b x.name fp.offset fp.read declared)
        | none => none
      | none => none
    | _ => none := by
  unfold boundsFailure? boundsFailureIn
  cases r.operands[fp.slot]? with
  | none => rfl
  | some o =>
    cases o with
    | temp t => rfl
    | buffer b =>
      simp only
      cases f.buffer? b with
      | none => rfl
      | some x =>
        simp only
        cases x.domain <;> rfl

theorem firstOutOfBounds?_def (f : Func) (order : List RegionId) : firstOutOfBounds? f order =
    order.findSome? fun id =>
      match f.region? id with
      | some r =>
        match r.shape with
        | .known domain => (r.footprints domain).findSome? (boundsFailure? f id r)
        | .unknown => none
      | none => none := by
  unfold firstOutOfBounds? firstOutOfBoundsIn
  refine (List.idRun_findSomeM? _ _).trans ?_
  congr 1
  funext id
  cases f.region? id with
  | none => rfl
  | some r =>
    simp only
    cases r.shape with
    | unknown => rfl
    | known domain => exact List.idRun_findSomeM? _ _

theorem boundsFailure?_eq_some_iff {f : Func} {id : RegionId} {r : Region} {fp : Footprint}
    {e : Failure} :
    boundsFailure? f id r fp = some e ↔ ∃ b x declared, r.operands[fp.slot]? = some (.buffer b) ∧
      f.buffer? b = some x ∧ x.domain = some declared ∧ declared.contains fp.read = false ∧
      e = .outOfBounds id r.name b x.name fp.offset fp.read declared := by
  rw [boundsFailure?_def]
  constructor
  · intro h
    split at h
    · next b ho =>
      split at h
      · next x hx =>
        split at h
        · next declared hd =>
          split at h
          · cases h
          · next hc =>
            cases h
            exact ⟨b, x, declared, ho, hx, hd, eq_false_of_ne_true hc, rfl⟩
        · cases h
      · cases h
    · cases h
  · rintro ⟨b, x, declared, ho, hx, hd, hc, rfl⟩
    simp [ho, hx, hd, hc]

theorem exists_of_firstOutOfBounds {f : Func} {order : List RegionId} {e : Failure}
    (h : firstOutOfBounds? f order = some e) : ∃ id r d fp b x declared, f.region? id = some r ∧
      r.shape = .known d ∧ fp ∈ r.footprints d ∧ f.buffer? b = some x ∧ x.domain = some declared ∧
      e = .outOfBounds id r.name b x.name fp.offset fp.read declared := by
  rw [firstOutOfBounds?_def] at h
  obtain ⟨id, _, h⟩ := List.exists_of_findSome?_eq_some h
  split at h
  · next r hr =>
    split at h
    · next d hs =>
      obtain ⟨fp, hfp, h⟩ := List.exists_of_findSome?_eq_some h
      obtain ⟨b, x, declared, _, hx, hd, _, rfl⟩ := boundsFailure?_eq_some_iff.mp h
      exact ⟨id, r, d, fp, b, x, declared, hr, hs, hfp, hx, hd, rfl⟩
    · cases h
  · cases h

theorem covers_def (s : Option Shape) (t : Shape) :
    coversIn (.total Id) s t = s.any fun s => s.covers t := by
  cases s with
  | none => rfl
  | some s => cases s <;> cases t <;> rfl

theorem allM_def {β : Type} (F : β → Id Bool) (xs : List β) : xs.allM F = xs.all F := List.allM_pure

theorem accessesSound_def (f : Func) (r : Region) : accessesSound f r =
    match r.shape with
    | .unknown => true
    | .known domain =>
      (r.footprints domain).all fun fp =>
        (r.operands[fp.slot]?.bind f.operandShape?).any fun s => s.covers (.known fp.read) := by
  unfold accessesSound accessesSoundIn
  cases r.shape with
  | unknown => rfl
  | known domain =>
    refine (allM_def _ _).trans ?_
    congr 1
    funext fp
    exact covers_def _ _

theorem certificate_def (f : Func) : certificate f =
    ⟨[("S1_accesses_sound", f.liveRegions.all fun r => accessesSound f r.2),
      ("S2_outputs_covered", f.outputs.all fun o =>
        ((f.temp? o.temp).map (·.shape)).any fun s => s.covers (.known o.domain)),
      ("S3_producers_cover", f.liveTemps.all fun t =>
        !t.2.shape.isKnown || ((f.region? t.2.producer).map (·.shape)).any fun s =>
          s.covers t.2.shape)]⟩ := by
  have himp : ∀ k b : Bool, (if k then b else pure true : Id Bool) = (!k || b) := by
    intro k b
    cases k <;> rfl
  simp only [certificate, certificateIn, allM_def, covers_def, himp]
  rfl

theorem run_def (f : Func) : run f =
    match f.verified, f.order with
    | .error e, _ => ⟨f, [], .error e⟩
    | .ok _, .error e => ⟨f, [], .error e⟩
    | .ok _, .ok order =>
      let p := propagate f order
      match firstOutOfBounds? p.func order with
      | some e => ⟨p.func, p.events, .error e⟩
      | none =>
        let g := p.func.recordStamp
        let dead := deadRegions g order
        ⟨g, p.events, .ok
          { certificate := certificate g
            visits := p.visits
            growths := p.events.length
            stepBound := stepBound f
            dead := dead.map (·.1)
            diagnostics := dead.map fun r => deadDiagnostic r.1 r.2 }⟩ := by
  unfold run runIn
  cases f.verified with
  | error e => rfl
  | ok u =>
    cases f.order with
    | error e => rfl
    | ok order =>
      show (match firstOutOfBounds? (propagate f order).func order with
        | some e => _ | none => _ : Run) =
        match firstOutOfBounds? (propagate f order).func order with | some e => _ | none => _
      cases firstOutOfBounds? (propagate f order).func order <;> rfl

end Inference

end Stencil
