import Mathlib.Algebra.GroupWithZero.Nat
import Stencil.Proofs.Computation
import Stencil.Proofs.Inference

/-! Evaluation as a system of equations: the grids of a function's temporaries are what its regions
compute from them. Evaluating along an order solves the equations, and a solution is what evaluation
finds, whatever the order. -/

set_option autoImplicit false

namespace Stencil

theorem lookup_append_singleton {β : Type} (entries : List (Nat × β)) (k k' : Nat) (v : β) :
    (entries ++ [(k, v)]).lookup k' = (entries.lookup k').or (if k' = k then some v else none) := by
  induction entries with
  | nil =>
    by_cases h : k' = k
    · simp [h]
    · simp [List.lookup_cons, h, beq_eq_false_iff_ne.mpr h]
  | cons e entries ih =>
    obtain ⟨k₀, v₀⟩ := e
    by_cases h : k' = k₀
    · simp [h]
    · simp only [List.cons_append, List.lookup_cons, beq_eq_false_iff_ne.mpr h, ih]

theorem lookup_filter_ne {β : Type} (entries : List (Nat × β)) (k k' : Nat) :
    (entries.filter fun e => e.1 ≠ k).lookup k' = if k' = k then none else entries.lookup k' := by
  induction entries with
  | nil => simp
  | cons e entries ih =>
    obtain ⟨k₀, v₀⟩ := e
    by_cases h₀ : k₀ = k
    · subst h₀
      rw [List.filter_cons_of_neg (by simp), ih]
      by_cases h : k' = k₀
      · simp [h]
      · simp [h, List.lookup_cons, beq_eq_false_iff_ne.mpr h]
    · rw [List.filter_cons_of_pos (by simpa using h₀), List.lookup_cons, List.lookup_cons, ih]
      by_cases h : k' = k₀
      · simp [h, h₀]
      · simp [beq_eq_false_iff_ne.mpr h]

theorem lookup_putEntry {β : Type} (entries : List (Nat × β)) (k k' : Nat) (v : β) :
    (putEntry entries k v).lookup k' = if k' = k then some v else entries.lookup k' := by
  rw [putEntry, lookup_append_singleton, lookup_filter_ne]
  by_cases h : k' = k
  · simp [h]
  · simp [h]

namespace Evaluation

variable {α : Type} {A : Arithmetic α} {f : Func} {inputs : Inputs α}

theorem lookup_putAll_of_not_mem {temps : List (TempId × Grid α)} {results : List TempId}
    {gs : List (Grid α)} {t : TempId} (h : t ∉ results) :
    (putAll temps (results.zip gs)).lookup t = temps.lookup t := by
  induction results generalizing temps gs with
  | nil => rfl
  | cons x results ih =>
    cases gs with
    | nil => rfl
    | cons g gs =>
      rw [List.mem_cons, not_or] at h
      have hput := lookup_putEntry temps x t g
      rw [if_neg h.1] at hput
      rw [← hput]
      exact ih h.2

theorem lookup_putAll {temps : List (TempId × Grid α)} {results : List TempId} {gs : List (Grid α)}
    (hnodup : results.Nodup) (hlen : gs.length = results.length) {i : Nat} {t : TempId}
    (ht : results[i]? = some t) : (putAll temps (results.zip gs)).lookup t = gs[i]? := by
  induction results generalizing temps gs i with
  | nil => simp at ht
  | cons x results ih =>
    cases gs with
    | nil => simp at hlen
    | cons g gs =>
      rw [List.nodup_cons] at hnodup
      cases i with
      | zero =>
        rw [List.getElem?_cons_zero, Option.some.injEq] at ht
        subst ht
        have hput := lookup_putEntry temps x x g
        rw [if_pos rfl] at hput
        exact (lookup_putAll_of_not_mem hnodup.1).trans hput
      | succ i => exact ih hnodup.2 (by simpa using hlen) (by simpa using ht)

def gridOf (temps : List (TempId × Grid α)) (t : TempId) : Option (Grid α) := temps.lookup t

def operandValue (f : Func) (inputs : Inputs α) (T : TempId → Option (Grid α)) (o : Operand)
    (p : Point) : Option α :=
  match o with
  | .temp t => (T t).bind (·.get? p)
  | .buffer b => (inputs (((f.buffer? b).map (·.name)).getD "")).bind (·.get? p)

def readerOf (f : Func) (inputs : Inputs α) (T : TempId → Option (Grid α)) (r : Region) :
    Body.Reader α :=
  fun s p => Body.need (r.operands[s]?.bind fun o => operandValue f inputs T o p)

theorem readerOf_eq_ok_iff {T : TempId → Option (Grid α)} {r : Region} {s : Nat} {p : Point} {v : α} :
    readerOf f inputs T r s p = .ok v ↔
      ∃ o, r.operands[s]? = some o ∧ operandValue f inputs T o p = some v := by
  rw [readerOf, Body.need_eq_ok_iff, Option.bind_eq_some_iff]

theorem reader_eq_ok_iff {temps : List (TempId × Grid α)} {r : Region} {s : Nat} {p : Point} {v : α} :
    reader f inputs temps r s p = .ok v ↔ readerOf f inputs (gridOf temps) r s p = .ok v := by
  rw [readerOf_eq_ok_iff]
  unfold reader
  cases r.operands[s]? with
  | none => simp
  | some o =>
    cases o with
    | temp t =>
      simp only [Option.some.injEq, exists_eq_left', operandValue, gridOf]
      cases (temps.lookup t).bind (·.get? p) <;> simp
    | buffer b =>
      simp only [Option.some.injEq, exists_eq_left', operandValue, gridOf]
      cases inputs (((f.buffer? b).map (·.name)).getD "") with
      | none => simp
      | some g =>
        simp only [Option.bind_some]
        cases g.get? p <;> simp

def effectsAt (f : Func) (id : RegionId) : Nat :=
  match f.region? id with
  | none => 0
  | some r =>
    match r.shape with
    | .unknown => 0
    | .known d => regionEffects r d

def totalEffects (f : Func) : Nat := ((List.range f.regions.length).map (effectsAt f)).sum

/-- The grids `T` are what the listed regions compute from them, and there are no others. -/
structure Solves (A : Arithmetic α) (f : Func) (inputs : Inputs α) (ids : List RegionId)
    (T : TempId → Option (Grid α)) : Prop where
  region : ∀ id r d, id ∈ ids → f.region? id = some r → r.shape = .known d →
    ∃ gs, regionGrids A (readerOf f inputs T r) r d = .ok gs ∧
      ∀ (i : Nat) t, r.results[i]? = some t → T t = gs[i]?
  support : ∀ t g, T t = some g →
    ∃ id r d, id ∈ ids ∧ f.region? id = some r ∧ r.shape = .known d ∧ t ∈ r.results

theorem operandValue_mono {T T' : TempId → Option (Grid α)}
    (h : ∀ t g, T t = some g → T' t = some g) {o : Operand} {p : Point} {v : α}
    (hv : operandValue f inputs T o p = some v) : operandValue f inputs T' o p = some v := by
  cases o with
  | temp t =>
    obtain ⟨g, hg, hv⟩ := Option.bind_eq_some_iff.mp hv
    exact Option.bind_eq_some_iff.mpr ⟨g, h t g hg, hv⟩
  | buffer b => exact hv

theorem readerOf_mono {T T' : TempId → Option (Grid α)} (h : ∀ t g, T t = some g → T' t = some g)
    {r : Region} {s : Nat} {p : Point} {v : α} (hv : readerOf f inputs T r s p = .ok v) :
    readerOf f inputs T' r s p = .ok v := by
  obtain ⟨o, ho, hv⟩ := readerOf_eq_ok_iff.mp hv
  exact readerOf_eq_ok_iff.mpr ⟨o, ho, operandValue_mono h hv⟩

theorem Solves.skip {done : List RegionId} {T : TempId → Option (Grid α)} {id : RegionId}
    (h : Solves A f inputs done T) (hidle : ∀ r d, f.region? id = some r → r.shape ≠ .known d) :
    Solves A f inputs (done ++ [id]) T := by
  refine ⟨?_, ?_⟩
  · intro id' r d hid' hr hd
    rcases List.mem_append.mp hid' with hid' | hid'
    · exact h.region id' r d hid' hr hd
    · rw [List.mem_singleton.mp hid'] at hr
      exact absurd hd (hidle r d hr)
  · intro t g hg
    obtain ⟨id', r, d, hid', rest⟩ := h.support t g hg
    exact ⟨id', r, d, by simp [hid'], rest⟩

theorem Solves.snoc (hf : f.Sound) {done : List RegionId} {temps : List (TempId × Grid α)}
    {id : RegionId} {r : Region} {d : Box} {gs : List (Grid α)}
    (h : Solves A f inputs done (gridOf temps)) (hid : id ∉ done) (hr : f.region? id = some r)
    (hs : r.shape = .known d) (hgs : regionGrids A (readerOf f inputs (gridOf temps) r) r d = .ok gs) :
    Solves A f inputs (done ++ [id]) (gridOf (putAll temps (r.results.zip gs))) := by
  have hlen := (spec_regionGrids (hf.fits id r hr) hgs).1
  -- no region that is done owns a result of this one: its grids stay, and so does what it read
  have hold : ∀ t g, gridOf temps t = some g →
      gridOf (putAll temps (r.results.zip gs)) t = some g := by
    intro t g hg
    obtain ⟨id', r', _, hid', hr', _, ht'⟩ := h.support t g hg
    have hnot : t ∉ r.results := fun ht => hid (hf.owner_unique hr hr' ht ht' ▸ hid')
    exact (lookup_putAll_of_not_mem hnot).trans hg
  refine ⟨?_, ?_⟩
  · intro id' r' d' hid' hr' hd'
    rcases List.mem_append.mp hid' with hid' | hid'
    · obtain ⟨gs', hgs', hT⟩ := h.region id' r' d' hid' hr' hd'
      refine ⟨gs', regionGrids_mono_read (fun s q v _ => readerOf_mono hold) hgs', ?_⟩
      intro i t ht
      have hnot : t ∉ r.results := fun hm =>
        hid (hf.owner_unique hr hr' hm (List.mem_of_getElem? ht) ▸ hid')
      exact (lookup_putAll_of_not_mem hnot).trans (hT i t ht)
    · rw [List.mem_singleton.mp hid', hr] at hr'
      cases hr'
      rw [hs] at hd'
      cases hd'
      refine ⟨gs, regionGrids_mono_read (fun s q v _ => readerOf_mono hold) hgs, ?_⟩
      intro i t ht
      exact lookup_putAll (hf.nodup_results hr) hlen ht
  · intro t g hg
    by_cases ht : t ∈ r.results
    · exact ⟨id, r, d, by simp, hr, hs, ht⟩
    · have hg' : gridOf temps t = some g := (lookup_putAll_of_not_mem ht).symm.trans hg
      obtain ⟨id', r', d', hid', rest⟩ := h.support t g hg'
      exact ⟨id', r', d', by simp [hid'], rest⟩

theorem Solves.step (hf : f.Sound) {done : List RegionId} {s s' : State α} {id : RegionId}
    (h : Solves A f inputs done (gridOf s.temps)) (hid : id ∉ done)
    (hrun : runRegion A f inputs s id = .ok s') :
    Solves A f inputs (done ++ [id]) (gridOf s'.temps) ∧ s'.effects = s.effects + effectsAt f id := by
  cases hr : f.region? id with
  | none =>
    simp only [runRegion, hr, Except.ok.injEq] at hrun
    subst hrun
    exact ⟨h.skip (by simp [hr]), by simp [effectsAt, hr]⟩
  | some r =>
    cases hs : r.shape with
    | unknown =>
      simp only [runRegion, hr, hs, Except.ok.injEq] at hrun
      subst hrun
      refine ⟨h.skip ?_, by simp [effectsAt, hr, hs]⟩
      intro r' d hr' hd
      rw [hr] at hr'
      cases hr'
      rw [hs] at hd
      cases hd
    | known d =>
      rw [runRegion_of_known hr hs] at hrun
      obtain ⟨gs, hgs, rfl⟩ := map_eq_ok_iff.mp hrun
      refine ⟨h.snoc hf hid hr hs ?_, by simp [effectsAt, hr, hs]⟩
      exact regionGrids_mono_read (fun s₀ q v _ hv => reader_eq_ok_iff.mp hv) hgs

/-- Regions that run one after the other, each once, solve their equations. -/
theorem Solves.run (hf : f.Sound) {todo done : List RegionId} (hnodup : (done ++ todo).Nodup)
    {s s' : State α} (h : Solves A f inputs done (gridOf s.temps))
    (hrun : todo.foldlM (runRegion A f inputs) s = .ok s') :
    Solves A f inputs (done ++ todo) (gridOf s'.temps) ∧
      s'.effects = s.effects + (todo.map (effectsAt f)).sum := by
  induction todo generalizing done s with
  | nil =>
    cases hrun
    exact ⟨by simpa using h, by simp⟩
  | cons id todo ih =>
    obtain ⟨s₁, hstep, hrest⟩ := foldlM_cons_eq_ok_iff.mp hrun
    have hid : id ∉ done := by
      intro hm
      rw [List.nodup_append] at hnodup
      exact hnodup.2.2 id hm id (by simp) rfl
    obtain ⟨h₁, he₁⟩ := h.step hf hid hstep
    have hassoc : done ++ [id] ++ todo = done ++ id :: todo := by simp
    obtain ⟨h', he'⟩ := ih (by rw [hassoc]; exact hnodup) h₁ hrest
    rw [hassoc] at h'
    refine ⟨h', ?_⟩
    rw [he', he₁, List.map_cons, List.sum_cons, Nat.add_assoc]

/-- The grids computed so far are those of `T`, and those of the regions that are done are there. -/
structure Agrees (f : Func) (T : TempId → Option (Grid α)) (done : List RegionId)
    (temps : List (TempId × Grid α)) : Prop where
  done : ∀ id r d t, id ∈ done → f.region? id = some r → r.shape = .known d → t ∈ r.results →
    gridOf temps t = T t
  sub : ∀ t g, gridOf temps t = some g → T t = some g

section Replay

variable {order done todo : List RegionId} {T : TempId → Option (Grid α)} {id : RegionId}
  {temps : List (TempId × Grid α)} (hf : f.Sound) (hord : f.Ordered order)
  (h : Solves A f inputs order T) (ha : Agrees f T done temps)

include hf hord h ha

theorem Agrees.reader {r : Region} (hsplit : order = done ++ id :: todo) (hr : f.region? id = some r)
    {s : Nat} {q : Point} {v : α} (hv : readerOf f inputs T r s q = .ok v) :
    reader f inputs temps r s q = .ok v := by
  rw [reader_eq_ok_iff]
  obtain ⟨o, ho, hv⟩ := readerOf_eq_ok_iff.mp hv
  refine readerOf_eq_ok_iff.mpr ⟨o, ho, ?_⟩
  cases o with
  | buffer b => exact hv
  | temp t =>
    obtain ⟨g, hg, hv⟩ := Option.bind_eq_some_iff.mp hv
    -- a grid of the solution has a region behind it, and that region was placed before this one
    obtain ⟨id', r', d', _, hr', hd', ht'⟩ := h.support t g hg
    obtain ⟨i, hi⟩ := List.mem_iff_getElem?.mp ht'
    obtain ⟨x, hx, hp, _⟩ := hf.owned id' r' i t hr' hi
    have hprod : id' ∈ f.producers id :=
      Func.mem_producers.mpr ⟨r, t, x, hr, List.mem_of_getElem? ho, hx, hp⟩
    have hbefore := hord.producers done id todo hsplit id' hprod
    refine Option.bind_eq_some_iff.mpr ⟨g, ?_, hv⟩
    rw [ha.done id' r' d' t hbefore hr' hd' ht', hg]

theorem Agrees.step {s : State α} (hs : s.temps = temps) (hsplit : order = done ++ id :: todo) :
    ∃ s', runRegion A f inputs s id = .ok s' ∧ Agrees f T (done ++ [id]) s'.temps := by
  subst hs
  have hmem : id ∈ order := by rw [hsplit]; simp
  obtain ⟨r, hr⟩ := hord.mem_iff.mp hmem
  cases hs : r.shape with
  | unknown =>
    refine ⟨s, by simp [runRegion, hr, hs], ?_, ha.sub⟩
    intro id' r' d t hid' hr' hd ht
    rcases List.mem_append.mp hid' with hid' | hid'
    · exact ha.done id' r' d t hid' hr' hd ht
    · rw [List.mem_singleton.mp hid', hr] at hr'
      cases hr'
      rw [hs] at hd
      cases hd
  | known d =>
    obtain ⟨gs, hgs, hT⟩ := h.region id r d hmem hr hs
    have hlen := (spec_regionGrids (hf.fits id r hr) hgs).1
    have hread := fun s₀ q v (_ : ∃ b, b ∈ r.bodies ∧ ∃ o, Op.access s₀ o ∈ b.ops) hv =>
      ha.reader hf hord h hsplit hr (s := s₀) (q := q) (v := v) hv
    have hnew : ∀ t, t ∈ r.results → gridOf (putAll s.temps (r.results.zip gs)) t = T t := by
      intro t ht
      obtain ⟨i, hi⟩ := List.mem_iff_getElem?.mp ht
      rw [hT i t hi]
      exact lookup_putAll (hf.nodup_results hr) hlen hi
    refine ⟨⟨putAll s.temps (r.results.zip gs), s.effects + regionEffects r d⟩, ?_, ?_, ?_⟩
    · rw [runRegion_of_known hr hs, regionGrids_mono_read hread hgs]
      rfl
    · intro id' r' d' t hid' hr' hd' ht
      by_cases hm : t ∈ r.results
      · exact hnew t hm
      · rcases List.mem_append.mp hid' with hid' | hid'
        · exact (lookup_putAll_of_not_mem hm).trans (ha.done id' r' d' t hid' hr' hd' ht)
        · rw [List.mem_singleton.mp hid', hr] at hr'
          cases hr'
          exact absurd ht hm
    · intro t g hg
      by_cases hm : t ∈ r.results
      · rw [← hnew t hm, hg]
      · exact ha.sub t g ((lookup_putAll_of_not_mem hm).symm.trans hg)

omit hord hf in
theorem Agrees.gridOf_eq (hdone : done = order) (t : TempId) : gridOf temps t = T t := by
  subst hdone
  cases hT : T t with
  | some g =>
    obtain ⟨id, r, d, hid, hr, hd, ht⟩ := h.support t g hT
    rw [ha.done id r d t hid hr hd ht, hT]
  | none =>
    cases hg : gridOf temps t with
    | none => rfl
    | some g =>
      rw [ha.sub t g hg] at hT
      cases hT

end Replay

theorem agrees_nil (f : Func) (T : TempId → Option (Grid α)) : Agrees f T [] [] := by
  refine ⟨?_, ?_⟩
  · intro id r d t hid
    cases hid
  · intro t g hg
    cases hg

/-- Running the regions in order reproduces a solution. -/
theorem Solves.replay (hf : f.Sound) {order : List RegionId} (hord : f.Ordered order)
    {T : TempId → Option (Grid α)} (h : Solves A f inputs order T) :
    ∃ s, order.foldlM (runRegion A f inputs) ⟨[], 0⟩ = .ok s ∧ ∀ t, gridOf s.temps t = T t := by
  obtain ⟨s, hrun, ha⟩ := foldlM_exists_done (F := runRegion A f inputs) (s := ⟨[], 0⟩)
    (P := fun done s => Agrees f T done s.temps)
    (fun done id todo hsplit s ha => ha.step hf hord h rfl hsplit) (agrees_nil f T)
  exact ⟨s, hrun, ha.gridOf_eq h rfl⟩

theorem solves_nil (A : Arithmetic α) (f : Func) (inputs : Inputs α) :
    Solves A f inputs [] (gridOf []) := by
  refine ⟨?_, ?_⟩
  · intro id r d hid
    cases hid
  · intro t g hg
    cases hg

theorem Solves.of_mem_iff {ids ids' : List RegionId} {T : TempId → Option (Grid α)}
    (h : Solves A f inputs ids T) (hids : ∀ id, id ∈ ids ↔ id ∈ ids') : Solves A f inputs ids' T := by
  refine ⟨?_, ?_⟩
  · intro id r d hid
    exact h.region id r d ((hids id).mpr hid)
  · intro t g hg
    obtain ⟨id, r, d, hid, rest⟩ := h.support t g hg
    exact ⟨id, r, d, (hids id).mp hid, rest⟩

theorem sum_effectsAt {order : List RegionId} (hord : f.Ordered order) :
    (order.map (effectsAt f)).sum = totalEffects f := by
  have hfilter : ∀ xs : List RegionId,
      ((xs.filter fun id => (f.region? id).isSome).map (effectsAt f)).sum =
        (xs.map (effectsAt f)).sum := by
    intro xs
    induction xs with
    | nil => rfl
    | cons id xs ih =>
      cases hr : f.region? id with
      | none =>
        have hzero : effectsAt f id = 0 := by simp [effectsAt, hr]
        simp [hr, ih, hzero]
      | some r => simp [hr, ih]
  rw [(hord.perm.map (effectsAt f)).sum_nat, Func.regionIds_eq, hfilter, totalEffects]

theorem run_eq_ok_iff {order : List RegionId} (hf : Inference.Analysed f order) {e : Evaluation α} :
    run A f inputs = .ok e ↔ ∃ s, order.foldlM (runRegion A f inputs) ⟨[], 0⟩ = .ok s ∧
      s.temps = e.temps ∧ s.effects = e.effects ∧ collectOutputs f s.temps = .ok e.outputs := by
  simp only [run, hf.fresh, if_true, hf.order_eq, bind_eq_ok_iff, pure_eq_ok_iff]
  constructor
  · rintro ⟨s, hs, outs, houts, rfl⟩
    exact ⟨s, hs, rfl, rfl, houts⟩
  · rintro ⟨s, hs, ht, hn, houts⟩
    exact ⟨s, hs, e.outputs, houts, by rw [ht, hn]⟩

theorem outputGrid_eq_ok_iff {temps : List (TempId × Grid α)} {x : Temporary} {o : OutputMark}
    {grid : Grid α} : outputGrid f temps x o = .ok grid ↔ ∃ vs,
      (o.domain.points.map fun p => (gridOf temps o.temp).bind (·.get? p)) = vs.map some ∧
        Grid.ofValues o.domain vs = grid := by
  rw [outputGrid, bind_eq_ok_iff]
  simp only [pure_eq_ok_iff]
  apply exists_congr
  intro vs
  rw [mapM_eq_ok_iff]
  intro p v
  rw [gridOf]
  cases (temps.lookup o.temp).bind (·.get? p) <;> simp

theorem collectOutputs_congr {g : Func} {temps temps' : List (TempId × Grid α)}
    {outs : List (String × Grid α)} (hmarks : g.outputs = f.outputs)
    (hsame : ∀ o, o ∈ f.outputs → g.temp? o.temp = f.temp? o.temp ∧
      gridOf temps' o.temp = gridOf temps o.temp)
    (h : collectOutputs f temps = .ok outs) : collectOutputs g temps' = .ok outs := by
  unfold collectOutputs at h ⊢
  rw [hmarks]
  apply foldlM_mono _ h
  intro o ho s s' hstep
  obtain ⟨htemp, hgrid⟩ := hsame o ho
  rw [htemp]
  cases hx : f.temp? o.temp with
  | none =>
    rw [hx] at hstep
    exact hstep
  | some x =>
    rw [hx] at hstep
    obtain ⟨grid, hout, hstep⟩ := bind_eq_ok_iff.mp hstep
    refine bind_eq_ok_iff.mpr ⟨grid, ?_, hstep⟩
    rw [outputGrid_eq_ok_iff, hgrid]
    exact outputGrid_eq_ok_iff.mp hout

section Transfer

variable {g : Func} {order order' : List RegionId}

theorem solves_of_run (hf : Inference.Analysed f order) {e : Evaluation α}
    (he : run A f inputs = .ok e) :
    Solves A f inputs f.regionIds (gridOf e.temps) ∧ e.effects = totalEffects f := by
  obtain ⟨s, hs, ht, hn, _⟩ := (run_eq_ok_iff hf).mp he
  obtain ⟨hsolve, heff⟩ := (solves_nil A f inputs).run hf.sound (by simpa using hf.ordered.nodup) hs
  rw [List.nil_append, ht] at hsolve
  refine ⟨hsolve.of_mem_iff fun id => hf.ordered.perm.mem_iff, ?_⟩
  rw [← hn, heff, sum_effectsAt hf.ordered, Nat.zero_add]

/-- A function whose equations the grids of another solve gives the same outputs and effects. -/
theorem run_of_solves (hf : Inference.Analysed f order) (hg : Inference.Analysed g order')
    {e : Evaluation α} (he : run A f inputs = .ok e) {T : TempId → Option (Grid α)}
    (hsolve : Solves A g inputs g.regionIds T) (hmarks : g.outputs = f.outputs)
    (hsame : ∀ o, o ∈ f.outputs → g.temp? o.temp = f.temp? o.temp ∧ T o.temp = gridOf e.temps o.temp)
    (heff : totalEffects g = totalEffects f) :
    ∃ e' : Evaluation α, run A g inputs = .ok e' ∧ (∀ t, gridOf e'.temps t = T t) ∧
      e'.outputs = e.outputs ∧ e'.effects = e.effects := by
  obtain ⟨_, _, ht, _, houts⟩ := (run_eq_ok_iff hf).mp he
  have hsolve' := hsolve.of_mem_iff fun id => hg.ordered.perm.mem_iff.symm
  obtain ⟨s, hs, hT⟩ := hsolve'.replay hg.sound hg.ordered
  obtain ⟨_, heff'⟩ := (solves_nil A g inputs).run hg.sound (by simpa using hg.ordered.nodup) hs
  have houts' : collectOutputs g s.temps = .ok e.outputs := by
    apply collectOutputs_congr hmarks _ houts
    intro o ho
    refine ⟨(hsame o ho).1, ?_⟩
    rw [hT, (hsame o ho).2, ht]
  refine ⟨⟨e.outputs, s.temps, s.effects⟩, (run_eq_ok_iff hg).mpr ⟨s, hs, rfl, rfl, houts'⟩, hT, rfl, ?_⟩
  rw [(solves_of_run hf he).2, heff', sum_effectsAt hg.ordered, heff, Nat.zero_add]

end Transfer

end Evaluation

end Stencil
