import Stencil.Proofs.Demand

/-! Shape inference solves the equations of demand. Regions are visited from the outputs back, each
one after all that read its results, so that no visit has to be repeated. -/

set_option autoImplicit false

namespace Stencil.Inference

section Folds

variable {σ ι β : Type}

/-- Where a relation says which boxes were asked for between two states, a loop asks for those of
its steps. -/
theorem foldl_asked {R : σ → σ → (β → List Box) → Prop} {Q : σ → Prop} {step : σ → ι → σ}
    {asked : ι → β → List Box}
    (refl : ∀ s, R s s fun _ => []) (trans : ∀ {s t u D E}, R s t D → R t u E → R s u fun y => D y ++ E y)
    {xs : List ι}
    (hstep : ∀ x, x ∈ xs → ∀ s, Q s → R s (step s x) (asked x) ∧ Q (step s x)) {s : σ} (hs : Q s) :
    R s (xs.foldl step s) fun y => xs.flatMap fun x => asked x y := by
  induction xs generalizing s with
  | nil => exact refl s
  | cons x xs ih =>
    obtain ⟨hhead, hnext⟩ := hstep x List.mem_cons_self s hs
    exact trans hhead (ih (fun y hy => hstep y (List.mem_cons_of_mem _ hy)) hnext)

theorem flatMap_ite (c : ι → Prop) [DecidablePred c] (g : ι → β) (xs : List ι) :
    (xs.flatMap fun x => if c x then [g x] else []) = (xs.filter fun x => c x).map g := by
  induction xs with
  | nil => rfl
  | cons x xs ih => by_cases hx : c x <;> simp [hx, ih]

end Folds

/-- From `p` to `q` the shape of each operand has grown by the boxes that `D` gives for it. -/
structure Grows (p q : Progress) (D : Operand → List Box) : Prop where
  same : p.func.SameStructure q.func
  region : ∀ id, q.func.region? id = p.func.region? id
  temp : ∀ t, q.func.temp? t =
    (p.func.temp? t).map fun x => { x with shape := (D (.temp t)).foldl Shape.grow x.shape }
  buffer : ∀ b, q.func.buffer? b =
    (p.func.buffer? b).map fun x => { x with required := (D (.buffer b)).foldl Shape.grow x.required }
  queue : q.queue = p.queue

theorem Grows.refl (p : Progress) : Grows p p fun _ => [] :=
  ⟨.refl _, fun _ => rfl, fun _ => by simp, fun _ => by simp, rfl⟩

theorem Grows.trans {p q s : Progress} {D E : Operand → List Box} (h : Grows p q D)
    (h' : Grows q s E) : Grows p s fun o => D o ++ E o := by
  refine ⟨h.same.trans h'.same, ?_, ?_, ?_, h'.queue.trans h.queue⟩
  · intro id
    rw [h'.region, h.region]
  · intro t
    rw [h'.temp, h.temp]
    cases p.func.temp? t <;> simp
  · intro b
    rw [h'.buffer, h.buffer]
    cases p.func.buffer? b <;> simp

theorem Grows.congr {p q : Progress} {D E : Operand → List Box} (h : Grows p q D)
    (hDE : ∀ o, D o = E o) : Grows p q E := by
  have : D = E := funext hDE
  rwa [← this]

theorem grows_growTemp (p : Progress) (t : TempId) (b : Box) :
    Grows p (p.growTemp t b) fun o => if o = .temp t then [b] else [] := by
  unfold Progress.growTemp
  cases hx : p.func.temp? t with
  | none =>
    refine ⟨.refl _, fun _ => rfl, ?_, fun _ => by simp, rfl⟩
    intro t'
    by_cases ht : t' = t
    · subst ht
      simp [hx]
    · simp [ht]
  | some x =>
    simp only
    split
    · next hs =>
      refine ⟨.refl _, fun _ => rfl, ?_, fun _ => by simp, rfl⟩
      intro t'
      by_cases ht : t' = t
      · subst ht
        simp [hx, hs]
      · simp [ht]
    · refine ⟨Func.sameStructure_modifyTemp _ _ _, fun _ => rfl, ?_, ?_, rfl⟩
      · intro t'
        simp only [Progress.record, Func.temp?_modifyTemp]
        by_cases ht : t = t'
        · subst ht
          simp [hx]
        · simp [ht, Ne.symm ht]
      · intro b'
        simp [Progress.record, Func.modifyTemp, Func.buffer?]

theorem grows_growBuffer (p : Progress) (b : BufferId) (box : Box) :
    Grows p (p.growBuffer b box) fun o => if o = .buffer b then [box] else [] := by
  unfold Progress.growBuffer
  cases hx : p.func.buffer? b with
  | none =>
    refine ⟨.refl _, fun _ => rfl, fun _ => by simp, ?_, rfl⟩
    intro b'
    by_cases hb : b' = b
    · subst hb
      simp [hx]
    · simp [hb]
  | some x =>
    simp only
    split
    · next hs =>
      refine ⟨.refl _, fun _ => rfl, fun _ => by simp, ?_, rfl⟩
      intro b'
      by_cases hb : b' = b
      · subst hb
        simp [hx, hs]
      · simp [hb]
    · refine ⟨Func.sameStructure_modifyBuffer _ _ _, fun _ => rfl, ?_, ?_, rfl⟩
      · intro t
        simp [Progress.record, Func.modifyBuffer, Func.temp?]
      · intro b'
        simp only [Progress.record, Func.buffer?_modifyBuffer]
        by_cases hb : b = b'
        · subst hb
          simp [hx]
        · simp [hb, Ne.symm hb]

/-- A demand on a temporary whose producer is still to be visited queues nothing. -/
theorem grows_demandTemp {p : Progress} {t : TempId} (b : Box)
    (hq : ∀ x, p.func.temp? t = some x → x.producer ∈ p.queue) :
    Grows p (p.demandTemp t b) fun o => if o = .temp t then [b] else [] := by
  have hgrow := grows_growTemp p t b
  unfold Progress.demandTemp
  cases hx : p.func.temp? t with
  | none =>
    simp only
    have hsame : p.growTemp t b = p := by simp [Progress.growTemp, hx]
    rwa [hsame] at hgrow
  | some x =>
    simp only
    split
    · next hs =>
      have hsame : p.growTemp t b = p := by simp [Progress.growTemp, hx, hs]
      rwa [hsame] at hgrow
    · have hmem : x.producer ∈ (p.growTemp t b).queue := by
        rw [hgrow.queue]
        exact hq x hx
      have hsame : (p.growTemp t b).enqueue x.producer = p.growTemp t b := by
        simp [Progress.enqueue, hmem]
      rwa [hsame]

/-- The producers of the temporaries that an operand list names at a slot are queued. -/
def Queued (p : Progress) (operands : List Operand) (slot : Nat) : Prop :=
  ∀ t x, operands[slot]? = some (.temp t) → p.func.temp? t = some x → x.producer ∈ p.queue

theorem Queued.of_grows {p q : Progress} {D : Operand → List Box} (h : Grows p q D)
    {operands : List Operand} {slot : Nat} (hq : Queued p operands slot) : Queued q operands slot := by
  intro t x ho hx
  rw [h.temp] at hx
  obtain ⟨y, hy, rfl⟩ := Option.map_eq_some_iff.mp hx
  rw [h.queue]
  exact hq t y ho hy

theorem grows_demandOperand {p : Progress} {operands : List Operand} {fp : Footprint}
    (hq : Queued p operands fp.slot) :
    Grows p (p.demandOperand operands fp)
      fun o => if operands[fp.slot]? = some o then [fp.read] else [] := by
  unfold Progress.demandOperand
  cases ho : operands[fp.slot]? with
  | none => exact (Grows.refl p).congr fun o => by simp
  | some o =>
    cases o with
    | temp t =>
      refine (grows_demandTemp fp.read fun x hx => hq t x ho hx).congr fun o => ?_
      simp [eq_comm]
    | buffer b =>
      refine (grows_growBuffer p b fp.read).congr fun o => ?_
      simp [eq_comm]

theorem grows_footprints {operands : List Operand} (fps : List Footprint) {p : Progress}
    (hq : ∀ fp, fp ∈ fps → Queued p operands fp.slot) :
    Grows p (fps.foldl (fun p fp => p.demandOperand operands fp) p)
      fun o => (fps.filter fun fp => operands[fp.slot]? = some o).map (·.read) := by
  refine (foldl_asked (Q := fun p => ∀ fp, fp ∈ fps → Queued p operands fp.slot) Grows.refl Grows.trans
    (fun fp hfp p hq => ?_) hq).congr fun o => flatMap_ite _ _ fps
  have hgrows := grows_demandOperand (hq fp hfp)
  exact ⟨hgrows, fun fp' hfp' => (hq fp' hfp').of_grows hgrows⟩

theorem grows_seed (f : Func) (queue : List RegionId) :
    Grows ⟨f.clearShapes, queue, 0, []⟩ (seed f queue)
      fun | .temp t => f.marksOn t | .buffer _ => [] := by
  refine (foldl_asked (Q := fun _ => True) Grows.refl Grows.trans
    (fun m _ p _ => ⟨grows_growTemp p m.temp m.domain, trivial⟩) trivial).congr fun o => ?_
  refine (flatMap_ite _ _ f.outputs).trans ?_
  cases o with
  | temp t => simp [Func.marksOn, eq_comm]
  | buffer b => simp

theorem growRegion_of_unknown {p : Progress} {id : RegionId} {r : Region} {b : Box}
    (hr : p.func.region? id = some r) (hs : r.shape = .unknown) (hb : b.Canonical) :
    (p.growRegion id b).func = p.func.modifyRegion id (fun y => { y with shape := .known b }) ∧
      (p.growRegion id b).queue = p.queue := by
  have hgrow : Shape.unknown.grow b = .known b := by rw [Shape.grow, hb.canonical_eq]
  simp [Progress.growRegion, hr, hs, hgrow, Progress.record]

/-- What holds when the regions of `done` have been visited and those of `todo` have not. -/
structure Reached (f : Func) (order done todo : List RegionId) (p : Progress) : Prop where
  split : order.reverse = done ++ todo
  queue : p.queue = todo
  same : f.SameStructure p.func
  temp : ∀ t x, p.func.temp? t = some x →
    x.shape = .hull (f.marksOn t ++ done.flatMap (p.func.readsAt (.temp t)))
  buffer : ∀ b x, p.func.buffer? b = some x →
    x.required = .hull (done.flatMap (p.func.readsAt (.buffer b)))
  region : ∀ id r, id ∈ done → p.func.region? id = some r → r.shape = r.computedShape (demand p.func r)
  ranked : ∀ id r d, p.func.region? id = some r → r.shape = .known d → d.Ranked p.func.rank
  pending : ∀ id r, id ∈ todo → p.func.region? id = some r → r.shape = .unknown

theorem reached_seed {f : Func} (order : List RegionId) :
    Reached f order [] order.reverse (seed f order.reverse) := by
  have hseed := grows_seed f order.reverse
  have hunknown : ∀ id r, (seed f order.reverse).func.region? id = some r → r.shape = .unknown := by
    intro id r hr
    rw [hseed.region, Func.region?_clearShapes] at hr
    obtain ⟨y, _, rfl⟩ := Option.map_eq_some_iff.mp hr
    rfl
  refine ⟨rfl, hseed.queue, (Func.sameStructure_clearShapes f).trans hseed.same, ?_, ?_, ?_, ?_, ?_⟩
  · intro t x hx
    rw [hseed.temp, Func.temp?_clearShapes] at hx
    obtain ⟨y, hy, rfl⟩ := Option.map_eq_some_iff.mp hx
    obtain ⟨z, _, rfl⟩ := Option.map_eq_some_iff.mp hy
    simp [Shape.hull]
  · intro b x hx
    rw [hseed.buffer, Func.buffer?_clearShapes] at hx
    obtain ⟨y, hy, rfl⟩ := Option.map_eq_some_iff.mp hx
    obtain ⟨z, _, rfl⟩ := Option.map_eq_some_iff.mp hy
    rfl
  · intro id r hid
    cases hid
  · intro id r d hr hs
    rw [hunknown id r hr] at hs
    cases hs
  · intro id r _ hr
    exact hunknown id r hr

section Visit

variable {f : Func} {order done todo : List RegionId} {p : Progress}

theorem Reached.ranked_reads (h : Reached f order done todo p) (hf : f.Sound) {o : Operand}
    {box : Box} (hbox : box ∈ done.flatMap (p.func.readsAt o)) : box.Ranked p.func.rank := by
  obtain ⟨id, _, hbox⟩ := List.mem_flatMap.mp hbox
  obtain ⟨r, hr, hbox⟩ := Func.mem_readsAt.mp hbox
  exact Region.ranked_readsOf ((hf.of_sameStructure h.same).fits id r hr)
    (fun d hs => h.ranked id r d hr hs) hbox

theorem Reached.ranked_temp (h : Reached f order done todo p) (hf : f.Sound) {t : TempId} {box : Box}
    (hbox : box ∈ f.marksOn t ++ done.flatMap (p.func.readsAt (.temp t))) :
    box.Ranked p.func.rank := by
  rcases List.mem_append.mp hbox with hbox | hbox
  · rw [← h.same.rank_eq]
    exact Func.ranked_marksOn hf hbox
  · exact h.ranked_reads hf hbox

theorem Reached.canonicalTemps (h : Reached f order done todo p) (hf : f.Sound) :
    p.func.CanonicalTemps := by
  intro t x b hx hb
  have hl := Shape.leastAbove_of_hull (fun _ hd => h.ranked_temp hf hd)
    ((h.temp t x hx).symm.trans hb)
  exact ⟨hl.ranked, hl.canonical⟩

theorem Reached.producer_mem {id : RegionId} {rest : List RegionId}
    (h : Reached f order done (id :: rest) p) (hord : f.Ordered order) {r : Region} {t : TempId}
    {x : Temporary} (hr : p.func.region? id = some r) (ht : .temp t ∈ r.operands)
    (hx : p.func.temp? t = some x) : x.producer ∈ rest := by
  have hsplit : order = rest.reverse ++ id :: done.reverse := by
    have := congrArg List.reverse h.split
    simpa using this
  have hprod : x.producer ∈ f.producers id := by
    rw [h.same.producers_eq]
    exact Func.mem_producers.mpr ⟨r, t, x, hr, ht, hx, rfl⟩
  simpa using hord.producers _ id _ hsplit _ hprod

theorem Reached.nodup (h : Reached f order done todo p) (hord : f.Ordered order) :
    (done ++ todo).Nodup := by
  rw [← h.split]
  exact (List.reverse_perm order).nodup_iff.mpr hord.nodup

theorem flatMap_readsAt_snoc {f g : Func} {done : List RegionId} {id : RegionId} {r : Region}
    {o : Operand} (hid : g.region? id = some r)
    (hsame : ∀ id', id' ∈ done → g.region? id' = f.region? id') :
    (done ++ [id]).flatMap (g.readsAt o) = done.flatMap (f.readsAt o) ++ r.readsOf o := by
  have hdone : done.flatMap (g.readsAt o) = done.flatMap (f.readsAt o) := by
    rw [List.flatMap_def, List.flatMap_def]
    congr 1
    apply List.map_congr_left
    intro id' hid'
    rw [Func.readsAt, Func.readsAt, hsame id' hid']
  rw [List.flatMap_append, hdone]
  simp [Func.readsAt, hid]

theorem Reached.flatMap_readsAt_skip {id : RegionId} {rest : List RegionId}
    (h : Reached f order done (id :: rest) p) {r : Region} (hr : p.func.region? id = some r)
    (o : Operand) :
    (done ++ [id]).flatMap (p.func.readsAt o) = done.flatMap (p.func.readsAt o) := by
  rw [flatMap_readsAt_snoc hr fun _ _ => rfl]
  simp [Region.readsOf, h.pending id r (by simp) hr]

theorem Reached.skip {id : RegionId} {rest : List RegionId} (h : Reached f order done (id :: rest) p)
    {r : Region} (hr : p.func.region? id = some r) (hd : demand p.func r = .unknown) :
    Reached f order (done ++ [id]) rest { p with queue := rest, visits := p.visits + 1 } := by
  have hs := h.pending id r (by simp) hr
  have hreads := h.flatMap_readsAt_skip hr
  refine ⟨by rw [h.split]; simp, rfl, h.same, ?_, ?_, ?_, h.ranked, ?_⟩
  · intro t x hx
    simp only [hreads]
    exact h.temp t x hx
  · intro b x hx
    simp only [hreads]
    exact h.buffer b x hx
  · intro id' r' hid' hr'
    rcases List.mem_append.mp hid' with hid' | hid'
    · exact h.region id' r' hid' hr'
    · rw [List.mem_singleton] at hid'
      subst hid'
      rw [show p.func.region? id' = some r from hr] at hr'
      cases hr'
      rw [hs]
      simp [hd, Region.computedShape]
  · intro id' r' hid' hr'
    exact h.pending id' r' (by simp [hid']) hr'

theorem Reached.disjoint {id : RegionId} {rest : List RegionId}
    (h : Reached f order done (id :: rest) p) (hord : f.Ordered order) :
    id ∉ done ∧ id ∉ rest ∧ ∀ x, x ∈ done → x ∉ rest := by
  have hnodup := h.nodup hord
  rw [List.nodup_append, List.nodup_cons] at hnodup
  obtain ⟨_, ⟨hrest, _⟩, hne⟩ := hnodup
  refine ⟨fun hm => hne id hm id (by simp) rfl, hrest, ?_⟩
  intro x hx hm
  exact hne x hx x (by simp [hm]) rfl

theorem Reached.readsOf_eq_nil {id : RegionId} {rest : List RegionId}
    (h : Reached f order done (id :: rest) p) (hf : f.Sound) (hord : f.Ordered order) {r r' : Region}
    (hr : p.func.region? id = some r) (hops : r'.operands = r.operands) {id' : RegionId} {r'' : Region}
    (hid' : id' ∈ done ++ [id]) (hr'' : p.func.region? id' = some r'') {t : TempId}
    (ht : t ∈ r''.results) : r'.readsOf (.temp t) = [] := by
  obtain ⟨_, hrest, hdisj⟩ := h.disjoint hord
  rw [List.eq_nil_iff_forall_not_mem]
  intro box hbox
  obtain ⟨_, _, _, s, _, _, _, _, ho, _⟩ := Region.mem_readsOf.mp hbox
  obtain ⟨i, hi⟩ := List.mem_iff_getElem?.mp ht
  obtain ⟨x, hx, rfl, _⟩ := (hf.of_sameStructure h.same).owned id' r'' i t hr'' hi
  rw [hops] at ho
  have hmem := h.producer_mem hord hr (List.mem_of_getElem? ho) hx
  rcases List.mem_append.mp hid' with hid' | hid'
  · exact hdisj _ hid' hmem
  · rw [List.mem_singleton] at hid'
    exact hrest (hid' ▸ hmem)

/-- What a visit changes: the shape of one region, and the boxes of what it reads. -/
structure Visited (p s : Progress) (id : RegionId) (r' : Region) : Prop where
  same : p.func.SameStructure s.func
  region : ∀ id', s.func.region? id' = if id = id' then some r' else p.func.region? id'
  temp : ∀ t, s.func.temp? t = (p.func.temp? t).map fun x =>
    { x with shape := (r'.readsOf (.temp t)).foldl Shape.grow x.shape }
  buffer : ∀ b, s.func.buffer? b = (p.func.buffer? b).map fun x =>
    { x with required := (r'.readsOf (.buffer b)).foldl Shape.grow x.required }

theorem Grows.visited {q s : Progress} {id : RegionId} {r r' : Region} {d : Box}
    (hr : p.func.region? id = some r) (hr' : r' = { r with shape := .known d })
    (hfunc : q.func = p.func.modifyRegion id fun y => { y with shape := .known d })
    (hgrow : Grows q s r'.readsOf) : Visited p s id r' := by
  refine ⟨?_, ?_, ?_, ?_⟩
  · apply Func.SameStructure.trans _ hgrow.same
    rw [hfunc]
    exact Func.sameStructure_modifyRegion _ _ _
  · intro id'
    rw [hgrow.region, hfunc, Func.region?_modifyRegion]
    by_cases he : id = id'
    · subst he
      simp [hr, hr']
    · simp [he]
  · intro t
    rw [hgrow.temp, hfunc]
    rfl
  · intro b
    rw [hgrow.buffer, hfunc]
    rfl

theorem Visited.flatMap_readsAt {s : Progress} {id : RegionId} {r' : Region} (hv : Visited p s id r')
    (hid : id ∉ done) (o : Operand) :
    (done ++ [id]).flatMap (s.func.readsAt o) = done.flatMap (p.func.readsAt o) ++ r'.readsOf o := by
  apply flatMap_readsAt_snoc
  · rw [hv.region, if_pos rfl]
  · intro id' hid'
    have hne : id ≠ id' := fun he => hid (he ▸ hid')
    rw [hv.region, if_neg hne]

/-- The demands on the regions visited so far do not change any more. -/
theorem Reached.demand_eq {id : RegionId} {rest : List RegionId} (h : Reached f order done (id :: rest) p)
    (hf : f.Sound) (hord : f.Ordered order) {r r' : Region} (hr : p.func.region? id = some r)
    (hops : r'.operands = r.operands) {s : Progress} (hv : Visited p s id r') {id' : RegionId}
    {r'' : Region} (hid' : id' ∈ done ++ [id]) (hr'' : p.func.region? id' = some r'') :
    demand s.func r'' = demand p.func r'' := by
  apply Func.demand_congr rfl
  intro t ht
  rw [hv.temp, h.readsOf_eq_nil hf hord hr hops hid' hr'' ht]
  cases p.func.temp? t <;> rfl

theorem Reached.pass {id : RegionId} {rest : List RegionId} (h : Reached f order done (id :: rest) p)
    (hf : f.Sound) (hord : f.Ordered order) {r r' : Region} (hr : p.func.region? id = some r)
    {d : Box} (hr' : r' = { r with shape := .known d }) (hd : d.Ranked p.func.rank)
    (hdemand : r.computedShape (demand p.func r) = .known d) {s : Progress}
    (hv : Visited p s id r') (hqueue : s.queue = rest) : Reached f order (done ++ [id]) rest s := by
  obtain ⟨hid, hrest, hdisj⟩ := h.disjoint hord
  have hkeep : ∀ id' r'', id' ∈ done ++ [id] → p.func.region? id' = some r'' →
      demand s.func r'' = demand p.func r'' :=
    fun id' r'' => h.demand_eq hf hord hr (by rw [hr'] : r'.operands = r.operands) hv
  have hreads := hv.flatMap_readsAt hid
  refine ⟨by rw [h.split]; simp, hqueue, h.same.trans hv.same, ?_, ?_, ?_, ?_, ?_⟩
  · intro t x hx
    rw [hv.temp] at hx
    obtain ⟨y, hy, rfl⟩ := Option.map_eq_some_iff.mp hx
    rw [hreads, ← List.append_assoc, Shape.hull_append, ← h.temp t y hy]
  · intro b x hx
    rw [hv.buffer] at hx
    obtain ⟨y, hy, rfl⟩ := Option.map_eq_some_iff.mp hx
    rw [hreads, Shape.hull_append, ← h.buffer b y hy]
  · intro id' r'' hid' hr''
    -- the boxes that grow belong to regions still to be visited, so every visited shape stands
    rw [hv.region] at hr''
    split at hr''
    · next he =>
      subst he
      cases hr''
      have hd' : demand s.func r' = demand p.func r := by
        rw [← hkeep id r hid' hr]
        exact Func.demand_congr (by rw [hr']) fun _ _ => rfl
      have hshape : r'.computedShape (demand p.func r) = r.computedShape (demand p.func r) := by
        rw [hr']
        rfl
      rw [hd', hshape, hdemand, hr']
    · next he =>
      rw [hkeep id' r'' hid' hr'']
      apply h.region id' r'' _ hr''
      rcases List.mem_append.mp hid' with hid' | hid'
      · exact hid'
      · exact absurd (List.mem_singleton.mp hid').symm he
  · intro id' r'' c hr'' hs
    rw [← hv.same.rank_eq]
    rw [hv.region] at hr''
    split at hr''
    · cases hr''
      rw [hr'] at hs
      cases hs
      exact hd
    · exact h.ranked id' r'' c hr'' hs
  · intro id' r'' hid' hr''
    have hne : id ≠ id' := fun he => hrest (he ▸ hid')
    rw [hv.region, if_neg hne] at hr''
    exact h.pending id' r'' (by simp [hid']) hr''

/-- What a visit does to the region whose turn it is: when nothing is demanded of the region it
stays as it is, and otherwise the box it computes is fixed and what it then reads is asked for. -/
theorem Reached.visit_cases {id : RegionId} {rest : List RegionId}
    (h : Reached f order done (id :: rest) p) (hf : f.Sound) (hord : f.Ordered order) :
    ∃ r, p.func.region? id = some r ∧
      ((demand p.func r = .unknown ∧ visit { p with queue := rest, visits := p.visits + 1 } id =
          { p with queue := rest, visits := p.visits + 1 }) ∨
        ∃ required, demand p.func r = .known required ∧
          (r.computedDomain required).Ranked p.func.rank ∧ (r.computedDomain required).Canonical ∧
          Visited p (visit { p with queue := rest, visits := p.visits + 1 } id) id
            { r with shape := .known (r.computedDomain required) } ∧
          (visit { p with queue := rest, visits := p.visits + 1 } id).queue = rest) := by
  obtain ⟨r, hr⟩ : ∃ r, p.func.region? id = some r := by
    have hmem : id ∈ order := by
      rw [← List.mem_reverse, h.split]
      simp
    obtain ⟨r, hr⟩ := hord.mem_iff.mp hmem
    obtain ⟨r', _, hr', _⟩ := h.same.symm.exists_region hr
    exact ⟨r', hr'⟩
  refine ⟨r, hr, ?_⟩
  rw [visit_def]
  simp only [hr]
  cases hd : demand p.func r with
  | unknown => exact .inl ⟨rfl, rfl⟩
  | known required =>
    have hl := (h.canonicalTemps hf).leastAbove_demand hd
    obtain ⟨hranked, hcanon, _⟩ := Region.computedDomain_spec
      ((hf.of_sameStructure h.same).fits id r hr) hl.ranked hl.canonical
    obtain ⟨hfunc, hqueue⟩ := growRegion_of_unknown
      (p := { p with queue := rest, visits := p.visits + 1 }) hr (h.pending id r (by simp) hr) hcanon
    have hfps : ∀ fp, fp ∈ r.footprints (r.computedDomain required) →
        Queued (Progress.growRegion { p with queue := rest, visits := p.visits + 1 } id
          (r.computedDomain required)) r.operands fp.slot := by
      intro fp _ t x ho hx
      rw [hqueue]
      rw [hfunc] at hx
      exact h.producer_mem hord hr (List.mem_of_getElem? ho) hx
    have hgrow := grows_footprints _ hfps
    exact .inr ⟨required, rfl, hranked, hcanon, hgrow.visited hr rfl hfunc, hgrow.queue.trans hqueue⟩

theorem Reached.visit {id : RegionId} {rest : List RegionId} (h : Reached f order done (id :: rest) p)
    (hf : f.Sound) (hord : f.Ordered order) :
    Reached f order (done ++ [id]) rest
      (visit { p with queue := rest, visits := p.visits + 1 } id) := by
  obtain ⟨r, hr, ⟨hd, heq⟩ | ⟨required, hd, hranked, _, hv, hqueue⟩⟩ := h.visit_cases hf hord
  · rw [heq]
    exact h.skip hr hd
  · exact h.pass hf hord hr rfl hranked (by rw [hd]; rfl) hv hqueue

theorem Reached.settle (hf : f.Sound) (hord : f.Ordered order) {fuel : Nat}
    (h : Reached f order done todo p) (hfuel : todo.length ≤ fuel) :
    Reached f order order.reverse [] (settle fuel p) := by
  induction todo generalizing done p fuel with
  | nil =>
    have hdone : order.reverse = done := by rw [h.split, List.append_nil]
    rw [hdone]
    cases fuel with
    | zero => exact h
    | succ fuel =>
      rw [settle_succ, h.queue]
      exact h
  | cons id rest ih =>
    cases fuel with
    | zero => simp at hfuel
    | succ fuel =>
      rw [settle_succ, h.queue]
      exact ih (h.visit hf hord) (by simpa using hfuel)

end Visit

section Propagate

variable {f : Func} {order : List RegionId} (hf : f.Sound) (hord : f.Ordered order)
include hf hord

theorem reached_propagate : Reached f order order.reverse [] (propagate f order) := by
  apply Reached.settle hf hord (reached_seed order)
  rw [List.length_reverse]
  exact Nat.le_of_lt Nat.lt_two_pow_self

theorem sameStructure_propagate : f.SameStructure (propagate f order).func :=
  (reached_propagate hf hord).same

/-- The annotations that inference finds meet all demands and no more. -/
theorem annotated_propagate : (propagate f order).func.Annotated := by
  have h := reached_propagate hf hord
  have hperm : ∀ (o : Operand) (box : Box),
      box ∈ order.reverse.flatMap ((propagate f order).func.readsAt o) ↔
        box ∈ (propagate f order).func.demandsOn o := by
    intro o box
    rw [Func.demandsOn, List.mem_flatMap, List.mem_flatMap, ← h.same.regionIds_eq]
    simp only [List.mem_reverse, hord.perm.mem_iff]
  refine ⟨?_, ?_, ?_, h.ranked⟩
  · intro t x hx
    rw [h.temp t x hx, h.same.marksOn_eq]
    apply Shape.hull_congr_mem (n := (propagate f order).func.rank)
    · intro d hd
      rw [← h.same.marksOn_eq] at hd
      exact h.ranked_temp hf hd
    · intro d
      rw [List.mem_append, List.mem_append, hperm]
  · intro b x hx
    rw [h.buffer b x hx]
    exact Shape.hull_congr_mem (fun d hd => h.ranked_reads hf hd) (hperm _)
  · intro id r hr
    apply h.region id r _ hr
    obtain ⟨r', _, hr', _⟩ := h.same.exists_region hr
    rw [List.mem_reverse]
    exact hord.mem_iff.mpr ⟨r', hr'⟩

end Propagate

/-- A function as inference leaves it when it succeeds. -/
structure Analysed (f : Func) (order : List RegionId) : Prop where
  sound : f.Sound
  ordered : f.Ordered order
  order_eq : f.order = .ok order
  annotated : f.Annotated
  fresh : f.fresh = true

/-- What inference makes of a function: one that is invalid or cyclic it refuses, one that reads out of
bounds it annotates, and any other it stamps as well. -/
inductive Ran (f : Func) : Run → Prop where
  | invalid {e : Failure} : f.verified = .error e → Ran f ⟨f, [], .error e⟩
  | cyclic {e : Failure} : f.verified = .ok () → f.order = .error e → Ran f ⟨f, [], .error e⟩
  | outOfBounds {order : List RegionId} {e : Failure} : f.verified = .ok () → f.order = .ok order →
      firstOutOfBounds? (propagate f order).func order = some e →
      Ran f ⟨(propagate f order).func, (propagate f order).events, .error e⟩
  | done {order : List RegionId} {report : Report} : f.verified = .ok () → f.order = .ok order →
      firstOutOfBounds? (propagate f order).func order = none →
      report.certificate = certificate (propagate f order).func.recordStamp →
      (∀ d, d ∈ report.diagnostics → d.code = some .deadRegion) →
      Ran f ⟨(propagate f order).func.recordStamp, (propagate f order).events, .ok report⟩

theorem ran_run (f : Func) : Ran f (run f) := by
  rw [run_def]
  cases hv : f.verified with
  | error e => exact .invalid hv
  | ok u =>
    cases ho : f.order with
    | error e => exact .cyclic hv ho
    | ok order =>
      cases hb : firstOutOfBounds? (propagate f order).func order with
      | some e =>
        simp only [hb]
        exact .outOfBounds hv ho hb
      | none =>
        simp only [hb]
        refine .done hv ho hb rfl ?_
        intro d hd
        obtain ⟨_, _, rfl⟩ := List.mem_map.mp hd
        rfl

theorem run_done {f : Func} {report : Report} (h : (run f).outcome = .ok report) :
    ∃ order, f.verified = .ok () ∧ f.order = .ok order ∧
      firstOutOfBounds? (propagate f order).func order = none ∧
      (run f).func = (propagate f order).func.recordStamp ∧
      report.certificate = certificate (run f).func ∧
      ∀ d, d ∈ report.diagnostics → d.code = some .deadRegion := by
  have hran := ran_run f
  generalize run f = r at h hran ⊢
  cases hran with
  | invalid hv => cases h
  | cyclic hv ho => cases h
  | outOfBounds hv ho hb => cases h
  | done hv ho hb hcert hcodes =>
    cases h
    exact ⟨_, hv, ho, hb, rfl, hcert, hcodes⟩

theorem run_ok {f : Func} {report : Report} (h : (run f).outcome = .ok report) :
    ∃ order, f.verified = .ok () ∧ f.order = .ok order ∧
      (run f).func = (propagate f order).func.recordStamp ∧
      report.certificate = certificate (run f).func := by
  obtain ⟨order, hv, ho, _, hfunc, hcert, _⟩ := run_done h
  exact ⟨order, hv, ho, hfunc, hcert⟩

theorem analysed_run {f : Func} {report : Report} (h : (run f).outcome = .ok report) :
    f.SameStructure (run f).func ∧ ∃ order, Analysed (run f).func order := by
  obtain ⟨order, hv, ho, hfunc, _⟩ := run_ok h
  have hf := Func.sound_of_verified hv
  have hord := Func.ordered_of_order ho
  have hsame : f.SameStructure (run f).func := by
    rw [hfunc]
    exact (sameStructure_propagate hf hord).trans (Func.sameStructure_recordStamp _)
  have horder := hsame.order_eq ho
  refine ⟨hsame, order, hf.of_sameStructure hsame, Func.ordered_of_order horder, horder, ?_, ?_⟩
  · rw [hfunc]
    obtain ⟨h1, h2, h3, h4⟩ := annotated_propagate hf hord
    exact ⟨h1, h2, h3, h4⟩
  · rw [hfunc]
    exact Func.fresh_recordStamp _

end Stencil.Inference
