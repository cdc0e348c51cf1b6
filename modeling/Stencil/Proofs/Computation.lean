import Stencil.Evaluation
import Stencil.Proofs.Agreement
import Stencil.Proofs.Plan

/-! What a region computes: its bodies run at the points of its plan, and the values of every run are
stored at the base point and at the points ahead of it. -/

set_option autoImplicit false

namespace Stencil

theorem foldlM_cons_eq_ok_iff {ε β γ : Type} {F : γ → β → Except ε γ} {x : β} {xs : List β} {s s' : γ} :
    (x :: xs).foldlM F s = .ok s' ↔ ∃ s₁, F s x = .ok s₁ ∧ xs.foldlM F s₁ = .ok s' := by
  rw [List.foldlM_cons, bind_eq_ok_iff]

/-- A loop whose steps never fail and keep an invariant of what is done ends with the invariant. -/
theorem foldlM_exists_done {ε β γ : Type} {F : γ → β → Except ε γ} {P : List β → γ → Prop} {xs : List β}
    (h : ∀ done x rest, xs = done ++ x :: rest → ∀ s, P done s →
      ∃ s', F s x = .ok s' ∧ P (done ++ [x]) s') {s : γ} (hs : P [] s) :
    ∃ s', xs.foldlM F s = .ok s' ∧ P xs s' := by
  have hfrom : ∀ todo done s, xs = done ++ todo → P done s →
      ∃ s', todo.foldlM F s = .ok s' ∧ P xs s' := by
    intro todo
    induction todo with
    | nil =>
      intro done s hsplit hs
      rw [List.append_nil] at hsplit
      exact ⟨s, rfl, hsplit ▸ hs⟩
    | cons x todo ih =>
      intro done s hsplit hs
      obtain ⟨s₁, h₁, hs₁⟩ := h done x todo hsplit s hs
      obtain ⟨s', h', hs'⟩ := ih (done ++ [x]) s₁ (by simp [hsplit]) hs₁
      exact ⟨s', foldlM_cons_eq_ok_iff.mpr ⟨s₁, h₁, h'⟩, hs'⟩
  exact hfrom xs [] s rfl hs

theorem foldlM_exists {ε β γ : Type} {F : γ → β → Except ε γ} {P : γ → Prop} {xs : List β}
    (h : ∀ x, x ∈ xs → ∀ s, P s → ∃ s', F s x = .ok s' ∧ P s') {s : γ} (hs : P s) :
    ∃ s', xs.foldlM F s = .ok s' ∧ P s' := by
  apply foldlM_exists_done (P := fun _ => P) _ hs
  intro done x rest hsplit
  exact h x (by simp [hsplit])

theorem foldlM_mono {ε ε' β γ : Type} {F : γ → β → Except ε γ} {G : γ → β → Except ε' γ} {xs : List β}
    (h : ∀ x, x ∈ xs → ∀ s s', F s x = .ok s' → G s x = .ok s') {s s' : γ}
    (hs : xs.foldlM F s = .ok s') : xs.foldlM G s = .ok s' := by
  induction xs generalizing s with
  | nil =>
    cases hs
    rfl
  | cons x xs ih =>
    obtain ⟨s₁, h₁, hrest⟩ := foldlM_cons_eq_ok_iff.mp hs
    exact foldlM_cons_eq_ok_iff.mpr
      ⟨s₁, h x (by simp) s s₁ h₁, ih (fun y hy => h y (by simp [hy])) hrest⟩

theorem mapM_exists {ε β γ : Type} {F : β → Except ε γ} {P : γ → Prop} {xs : List β}
    (h : ∀ x, x ∈ xs → ∃ y, F x = .ok y ∧ P y) :
    ∃ ys, xs.mapM F = .ok ys ∧ ys.length = xs.length ∧ ∀ y, y ∈ ys → P y := by
  induction xs with
  | nil => exact ⟨[], rfl, rfl, by simp⟩
  | cons x xs ih =>
    obtain ⟨y, hy, hPy⟩ := h x (by simp)
    obtain ⟨ys, hys, hlen, hPys⟩ := ih fun z hz => h z (by simp [hz])
    refine ⟨y :: ys, ?_, by simp [hlen], ?_⟩
    · rw [List.mapM_cons, hy, ok_bind, hys]
      rfl
    · intro z hz
      rcases List.mem_cons.mp hz with rfl | hz
      · exact hPy
      · exact hPys z hz

namespace Evaluation

open Body

variable {α : Type} {A : Arithmetic α} {read read' : Reader α} {b b' : Body}

def storeResult (axis k : Nat) (base : Point) (values : List α) (j : Nat) (g : Grid α) :
    Except EvalError (Grid α) :=
  (List.range k).foldlM (fun g r => do
    let v ← need values[j * k + r]?
    return g.set (ahead base axis r) v) g

theorem store_eq_mapM (axis k : Nat) (base : Point) (values : List α) (grids : List (Grid α)) :
    store axis k base values grids =
      (grids.mapIdx fun j g => (j, g)).mapM fun x => storeResult axis k base values x.1 x.2 := rfl

theorem store_exists {P : Grid α → Prop} (hset : ∀ g p v, P g → P (g.set p v)) (axis : Nat) {k : Nat}
    (base : Point) {values : List α} {grids : List (Grid α)}
    (hlen : values.length = grids.length * k) (hP : ∀ g, g ∈ grids → P g) :
    ∃ grids', store axis k base values grids = .ok grids' ∧ grids'.length = grids.length ∧
      ∀ g, g ∈ grids' → P g := by
  have hone : ∀ x, x ∈ grids.mapIdx (fun j g => (j, g)) →
      ∃ g', storeResult axis k base values x.1 x.2 = .ok g' ∧ P g' := by
    intro x hx
    obtain ⟨j, hj, rfl⟩ := List.mem_mapIdx.mp hx
    apply foldlM_exists _ (hP _ (List.getElem_mem hj))
    intro r hr g hg
    have hle : (j + 1) * k ≤ grids.length * k := Nat.mul_le_mul_right k hj
    rw [Nat.add_mul, Nat.one_mul] at hle
    have hlt : j * k + r < values.length := by
      have := List.mem_range.mp hr
      omega
    rw [List.getElem?_eq_getElem hlt]
    exact ⟨_, rfl, hset _ _ _ hg⟩
  obtain ⟨grids', hok, hl, hP'⟩ := mapM_exists hone
  exact ⟨grids', hok, by simpa using hl, hP'⟩

theorem storeResult_eq {F : Point → α} {axis k j : Nat} {base : Point} {values : List α}
    (h : ∀ r, r < k → values[j * k + r]? = some (F (ahead base axis r))) (g : Grid α) :
    storeResult axis k base values j g = .ok (g.setAll ((List.range k).map (ahead base axis)) F) := by
  have hfold : ∀ (rs : List Nat) (g : Grid α), (∀ r, r ∈ rs → r < k) →
      (rs.foldlM (fun g r => do
        let v ← need values[j * k + r]?
        return g.set (ahead base axis r) v) g : Except EvalError (Grid α)) =
        .ok (g.setAll (rs.map (ahead base axis)) F) := by
    intro rs
    induction rs with
    | nil => intros; rfl
    | cons r rs ih =>
      intro g hrs
      rw [List.foldlM_cons, h r (hrs r (by simp))]
      exact ih _ fun r' hr' => hrs r' (by simp [hr'])
  exact hfold _ g fun r hr => List.mem_range.mp hr

theorem store_eq {F : Nat → Point → α} {axis k : Nat} {base : Point} {values : List α}
    {grids : List (Grid α)}
    (h : ∀ j, j < grids.length → ∀ r, r < k → values[j * k + r]? = some (F j (ahead base axis r))) :
    store axis k base values grids =
      .ok (grids.mapIdx fun j g => g.setAll ((List.range k).map (ahead base axis)) (F j)) := by
  have hone : ∀ x, x ∈ grids.mapIdx (fun j g => (j, g)) → storeResult axis k base values x.1 x.2 =
      .ok (x.2.setAll ((List.range k).map (ahead base axis)) (F x.1)) := by
    intro x hx
    obtain ⟨j, hj, rfl⟩ := List.mem_mapIdx.mp hx
    exact storeResult_eq (h j hj) _
  rw [store_eq_mapM]
  refine ((Agreement.returns (Except _)).mapM hone).trans ?_
  congr 1
  apply List.ext_getElem
  · simp
  · intro i h1 h2
    simp

def written (axis k : Nat) (points : List Point) : List Point :=
  points.flatMap fun p => (List.range k).map (ahead p axis)

theorem mem_written {axis k : Nat} {points : List Point} {q : Point} :
    q ∈ written axis k points ↔ ∃ p, p ∈ points ∧ ∃ i, i < k ∧ ahead p axis i = q := by
  simp [written]

theorem written_one (points : List Point) : written 0 1 points = points := by
  simp [written, ahead_zero]

theorem runBody_nil (A : Arithmetic α) (read : Reader α) (b : Body) (axis k : Nat)
    (grids : List (Grid α)) : runBody A read b axis k [] grids = .ok grids := rfl

theorem runBody_exists {P : Grid α → Prop} (hset : ∀ g p v, P g → P (g.set p v)) (axis : Nat) {k : Nat}
    {points : List Point} {grids : List (Grid α)}
    (hlen : b.ret.values.length = grids.length * k)
    (heval : ∀ p, p ∈ points → ∃ rs, b.eval A read p = .ok rs) (hP : ∀ g, g ∈ grids → P g) :
    ∃ grids', runBody A read b axis k points grids = .ok grids' ∧ grids'.length = grids.length ∧
      ∀ g, g ∈ grids' → P g := by
  apply foldlM_exists (P := fun gs => gs.length = grids.length ∧ ∀ g, g ∈ gs → P g) _ ⟨rfl, hP⟩
  rintro p hp gs ⟨hl, hPs⟩
  obtain ⟨rs, hrs⟩ := heval p hp
  have hcount : rs.length = gs.length * k := by rw [eval_length hrs, hlen, hl]
  obtain ⟨gs', hok, hl', hP'⟩ := store_exists hset axis p hcount hPs
  exact ⟨gs', by rw [hrs]; exact hok, hl'.trans hl, hP'⟩

theorem eval_of_runBody {axis k : Nat} {points : List Point} {grids grids' : List (Grid α)}
    (h : runBody A read b axis k points grids = .ok grids') {p : Point} (hp : p ∈ points) :
    ∃ rs, b.eval A read p = .ok rs := by
  induction points generalizing grids with
  | nil => cases hp
  | cons q points ih =>
    obtain ⟨gs, hstep, hrest⟩ := foldlM_cons_eq_ok_iff.mp h
    rcases List.mem_cons.mp hp with rfl | hp
    · obtain ⟨rs, hrs, _⟩ := bind_eq_ok_iff.mp hstep
      exact ⟨rs, hrs⟩
    · exact ih hrest hp

theorem runBody_mono {axis k : Nat} {points : List Point} {grids grids' : List (Grid α)}
    (heval : ∀ p, p ∈ points → ∀ rs, b.eval A read p = .ok rs → b'.eval A read' p = .ok rs)
    (h : runBody A read b axis k points grids = .ok grids') :
    runBody A read' b' axis k points grids = .ok grids' := by
  apply foldlM_mono _ h
  intro p hp gs gs' hstep
  obtain ⟨rs, hrs, hstore⟩ := bind_eq_ok_iff.mp hstep
  rw [heval p hp rs hrs]
  exact hstore

/-- When the value of result `j` at every point that is written is `F j`, the grids hold `F`. -/
theorem runBody_eq {F : Nat → Point → α} {axis k : Nat} {points : List Point} {grids : List (Grid α)}
    (h : ∀ p, p ∈ points → ∃ rs, b.eval A read p = .ok rs ∧ ∀ j, j < grids.length → ∀ r, r < k →
      rs[j * k + r]? = some (F j (ahead p axis r))) :
    runBody A read b axis k points grids =
      .ok (grids.mapIdx fun j g => g.setAll (written axis k points) (F j)) := by
  induction points generalizing grids with
  | nil =>
    rw [runBody_nil]
    congr 1
    apply List.ext_getElem
    · simp
    · intro i h1 h2
      simp [Grid.setAll, written]
  | cons p points ih =>
    obtain ⟨rs, hrs, hvals⟩ := h p (by simp)
    have hstore := store_eq hvals
    rw [runBody, List.foldlM_cons, hrs, ok_bind, hstore, ok_bind]
    refine (ih ?_).trans ?_
    · intro q hq
      simpa using h q (by simp [hq])
    congr 1
    apply List.ext_getElem
    · simp
    · intro i h1 h2
      simp [Grid.setAll_append, written]

def regionGrids (A : Arithmetic α) (read : Reader α) (r : Region) (domain : Box) :
    Except EvalError (List (Grid α)) := do
  let grids ← runBody A read r.body (r.iterationPlan domain).axis r.body.ret.factor
    (r.mainPoints domain) (r.results.map fun _ => Grid.fill domain (A.ofScalar Scalar.zero))
  match r.epilogue with
  | some e => runBody A read e 0 1 (r.tailPoints domain) grids
  | none => .ok grids

def regionEffects (r : Region) (domain : Box) : Nat :=
  r.body.effects * (r.mainPoints domain).length +
    (r.epilogue.elim 0 Body.effects) * (r.tailPoints domain).length

def putAll (temps : List (TempId × Grid α)) (entries : List (TempId × Grid α)) :
    List (TempId × Grid α) :=
  entries.foldl (fun ts t => putEntry ts t.1 t.2) temps

theorem runRegion_of_known {f : Func} {inputs : Inputs α} {s : State α} {id : RegionId} {r : Region}
    {d : Box} (hr : f.region? id = some r) (hs : r.shape = .known d) :
    runRegion A f inputs s id = (regionGrids A (reader f inputs s.temps r) r d).map fun grids =>
      ⟨putAll s.temps (r.results.zip grids), s.effects + regionEffects r d⟩ := by
  simp only [runRegion, hr, hs, regionGrids]
  change (runBody A (reader f inputs s.temps r) r.body (r.iterationPlan d).axis r.body.ret.factor
    (r.mainPoints d) _ >>= _) = _
  cases runBody A (reader f inputs s.temps r) r.body (r.iterationPlan d).axis r.body.ret.factor
      (r.mainPoints d) (r.results.map fun _ => Grid.fill d (A.ofScalar Scalar.zero)) with
  | error e => rfl
  | ok grids =>
    rw [ok_bind, ok_bind]
    cases he : r.epilogue with
    | none => simp [regionEffects, he, Except.map, pure, Except.pure, bind, Except.bind, putAll,
      Region.mainPoints]
    | some e =>
      cases ht : (r.iterationPlan d).tail with
      | none =>
        simp [regionEffects, he, ht, Except.map, pure, Except.pure, bind, Except.bind, putAll,
          Region.mainPoints, Region.tailPoints, runBody_nil]
      | some tail =>
        have hpts : r.tailPoints d = tail.points := by simp [Region.tailPoints, ht]
        simp only [hpts]
        cases runBody A (reader f inputs s.temps r) e 0 1 tail.points grids with
        | error e => rfl
        | ok grids' =>
          simp [regionEffects, he, hpts, Except.map, pure, Except.pure, bind, Except.bind, putAll,
            Region.mainPoints, Nat.add_assoc]

theorem regionGrids_eq_ok_iff {r : Region} {d : Box} {gs : List (Grid α)} :
    regionGrids A read r d = .ok gs ↔ ∃ grids,
      runBody A read r.body (r.iterationPlan d).axis r.body.ret.factor (r.mainPoints d)
        (r.results.map fun _ => Grid.fill d (A.ofScalar Scalar.zero)) = .ok grids ∧
      (∀ e, r.epilogue = some e → runBody A read e 0 1 (r.tailPoints d) grids = .ok gs) ∧
      (r.epilogue = none → grids = gs) := by
  rw [regionGrids, bind_eq_ok_iff]
  cases r.epilogue with
  | none => simp
  | some e => simp

theorem iterationPlan_congr {r r' : Region} (hu : r'.unroll = r.unroll)
    (he : r'.epilogue.isSome = r.epilogue.isSome) (d : Box) :
    r'.iterationPlan d = r.iterationPlan d := by
  simp only [Region.iterationPlan_def, hu, he]

/-- Regions that walk a box alike compute the same grids when their bodies have the same values. -/
theorem regionGrids_mono {r r' : Region} {d : Box} {gs : List (Grid α)} (hu : r'.unroll = r.unroll)
    (hres : r'.results = r.results) (hsome : r'.epilogue.isSome = r.epilogue.isSome)
    (hbody : ∀ p, p ∈ r.mainPoints d → ∀ rs, r.body.eval A read p = .ok rs →
      r'.body.eval A read' p = .ok rs)
    (hepi : ∀ e e', r.epilogue = some e → r'.epilogue = some e' → ∀ p, p ∈ r.tailPoints d →
      ∀ rs, e.eval A read p = .ok rs → e'.eval A read' p = .ok rs)
    (h : regionGrids A read r d = .ok gs) : regionGrids A read' r' d = .ok gs := by
  have hplan := iterationPlan_congr hu hsome d
  have hfactor : r'.body.ret.factor = r.body.ret.factor := by
    have : r'.body.ret.unroll = r.body.ret.unroll := hu
    simp only [Return.factor, this]
  have hmain : r'.mainPoints d = r.mainPoints d := by simp only [Region.mainPoints, hplan]
  have htail : r'.tailPoints d = r.tailPoints d := by simp only [Region.tailPoints, hplan]
  obtain ⟨grids, hrun, hsm, hnone⟩ := regionGrids_eq_ok_iff.mp h
  refine regionGrids_eq_ok_iff.mpr ⟨grids, ?_, ?_, ?_⟩
  · rw [hplan, hfactor, hmain, hres]
    exact runBody_mono hbody hrun
  · intro e' he'
    have hsome' : r.epilogue.isSome = true := by rw [← hsome, he']; rfl
    obtain ⟨e, he⟩ := Option.isSome_iff_exists.mp hsome'
    rw [htail]
    exact runBody_mono (hepi e e' he he') (hsm e he)
  · intro he'
    apply hnone
    have hsome' : r.epilogue.isSome = false := by rw [← hsome, he']; rfl
    exact Option.isNone_iff_eq_none.mp (Option.isSome_eq_false_iff.mp hsome')

theorem eval_mono_read {p : Point} {rs : List α}
    (hread : ∀ s q v, (∃ o, .access s o ∈ b.ops) → read s q = .ok v → read' s q = .ok v)
    (h : b.eval A read p = .ok rs) : b.eval A read' p = .ok rs := by
  obtain ⟨vs, hvs, hrs⟩ := eval_eq_ok_iff.mp h
  exact eval_eq_ok_iff.mpr ⟨vs, evalOps_mono_read hread hvs, hrs⟩

theorem regionGrids_mono_read {r : Region} {d : Box} {gs : List (Grid α)}
    (hread : ∀ s q v, (∃ b, b ∈ r.bodies ∧ ∃ o, .access s o ∈ b.ops) → read s q = .ok v →
      read' s q = .ok v)
    (h : regionGrids A read r d = .ok gs) : regionGrids A read' r d = .ok gs := by
  apply regionGrids_mono rfl rfl rfl _ _ h
  · intro p _ rs hrs
    refine eval_mono_read (fun s q v ho => hread s q v ⟨r.body, ?_, ho⟩) hrs
    simp [Region.bodies]
  · intro e e' he he' p _ rs hrs
    rw [he] at he'
    cases he'
    refine eval_mono_read (fun s q v ho => hread s q v ⟨e, ?_, ho⟩) hrs
    simp [Region.bodies, he]

theorem regionGrids_exists {r : Region} {n : Nat} (hfit : r.Fits n) {d : Box}
    (hmain : ∀ p, p ∈ r.mainPoints d → ∃ rs, r.body.eval A read p = .ok rs)
    (htail : ∀ e, r.epilogue = some e → ∀ p, p ∈ r.tailPoints d → ∃ rs, e.eval A read p = .ok rs) :
    ∃ gs, regionGrids A read r d = .ok gs ∧ gs.length = r.results.length ∧
      ∀ g, g ∈ gs → g.domain = d ∧ g.Dense := by
  have hset : ∀ (g : Grid α) p v, (g.domain = d ∧ g.Dense) →
      ((g.set p v).domain = d ∧ (g.set p v).Dense) := by
    rintro g p v ⟨hd, hg⟩
    exact ⟨by simp [hd], hg.set p v⟩
  have hblank : ∀ g, g ∈ r.results.map (fun _ => Grid.fill d (A.ofScalar Scalar.zero)) →
      g.domain = d ∧ g.Dense := by
    intro g hg
    obtain ⟨_, _, rfl⟩ := List.mem_map.mp hg
    exact ⟨rfl, Grid.dense_fill _ _⟩
  obtain ⟨grids, hrun, hlen, hgrids⟩ := runBody_exists hset (r.iterationPlan d).axis
    (by rw [List.length_map]; exact hfit.arity) hmain hblank
  rw [List.length_map] at hlen
  cases he : r.epilogue with
  | none =>
    exact ⟨grids, regionGrids_eq_ok_iff.mpr ⟨grids, hrun, by simp [he], fun _ => rfl⟩, hlen, hgrids⟩
  | some e =>
    have hcount : e.ret.values.length = grids.length * 1 := by
      rw [(hfit.epilogue e he).2.2.1, hlen, Nat.mul_one]
    obtain ⟨gs, hrun', hlen', hgs⟩ := runBody_exists hset 0 hcount (htail e he) hgrids
    refine ⟨gs, regionGrids_eq_ok_iff.mpr ⟨grids, hrun, ?_, ?_⟩, hlen'.trans hlen, hgs⟩
    · intro e' he'
      rw [he] at he'
      cases he'
      exact hrun'
    · intro hn
      rw [he] at hn
      cases hn

theorem eval_of_regionGrids {r : Region} {d : Box} {gs : List (Grid α)}
    (h : regionGrids A read r d = .ok gs) :
    (∀ p, p ∈ r.mainPoints d → ∃ rs, r.body.eval A read p = .ok rs) ∧
      ∀ e, r.epilogue = some e → ∀ p, p ∈ r.tailPoints d → ∃ rs, e.eval A read p = .ok rs := by
  obtain ⟨grids, hrun, hsome, _⟩ := regionGrids_eq_ok_iff.mp h
  exact ⟨fun p hp => eval_of_runBody hrun hp, fun e he p hp => eval_of_runBody (hsome e he) hp⟩

theorem spec_regionGrids {r : Region} {n : Nat} (hfit : r.Fits n) {d : Box} {gs : List (Grid α)}
    (h : regionGrids A read r d = .ok gs) :
    gs.length = r.results.length ∧ ∀ g, g ∈ gs → g.domain = d ∧ g.Dense := by
  obtain ⟨hmain, htail⟩ := eval_of_regionGrids h
  obtain ⟨gs', h', hspec⟩ := regionGrids_exists hfit hmain htail
  rw [h] at h'
  cases h'
  exact hspec

theorem regionGrids_eq_ofFn {F : Nat → Point → α} {r : Region} {d : Box} {n : Nat} (hd : d.Ranked n)
    (hmain : ∀ p, p ∈ r.mainPoints d → ∃ rs, r.body.eval A read p = .ok rs ∧
      ∀ j, j < r.results.length → ∀ i, i < r.body.ret.factor →
        rs[j * r.body.ret.factor + i]? = some (F j (ahead p (r.iterationPlan d).axis i)))
    (htail : ∀ e, r.epilogue = some e → ∀ p, p ∈ r.tailPoints d → ∃ rs, e.eval A read p = .ok rs ∧
      ∀ j, j < r.results.length → rs[j]? = some (F j p))
    (hcover : ∀ q, d.containsPoint q = true →
      q ∈ written (r.iterationPlan d).axis r.body.ret.factor (r.mainPoints d) ∨
        r.epilogue.isSome = true ∧ q ∈ r.tailPoints d) :
    regionGrids A read r d = .ok (r.results.mapIdx fun j _ => Grid.ofFn d (F j)) := by
  have hfill := Grid.dense_fill d (A.ofScalar Scalar.zero)
  have hrun : runBody A read r.body (r.iterationPlan d).axis r.body.ret.factor (r.mainPoints d)
      (r.results.map fun _ => Grid.fill d (A.ofScalar Scalar.zero)) =
      .ok (r.results.mapIdx fun j _ => (Grid.fill d (A.ofScalar Scalar.zero)).setAll
        (written (r.iterationPlan d).axis r.body.ret.factor (r.mainPoints d)) (F j)) := by
    rw [runBody_eq (by simpa using hmain)]
    congr 1
    apply List.ext_getElem
    · simp
    · intro j h1 h2
      simp
  refine regionGrids_eq_ok_iff.mpr ⟨_, hrun, ?_, ?_⟩
  · intro e he
    rw [runBody_eq (F := F), written_one]
    · congr 1
      apply List.ext_getElem
      · simp
      · intro j h1 h2
        simp only [List.getElem_mapIdx, ← Grid.setAll_append]
        apply Grid.setAll_eq_ofFn hd hfill
        intro q hq
        rw [List.mem_append]
        exact (hcover q hq).imp_right fun h => h.2
    · intro p hp
      obtain ⟨rs, hrs, hvals⟩ := htail e he p hp
      refine ⟨rs, hrs, ?_⟩
      intro j hj i hi
      have hi0 : i = 0 := by omega
      rw [hi0, ahead_zero, Nat.mul_one, Nat.add_zero]
      exact hvals j (by simpa using hj)
  · intro he
    apply List.ext_getElem
    · simp
    · intro j h1 h2
      simp only [List.getElem_mapIdx]
      apply Grid.setAll_eq_ofFn hd hfill
      intro q hq
      rcases hcover q hq with hq | ⟨hsome, _⟩
      · exact hq
      · rw [he] at hsome
        cases hsome

def valueAt (A : Arithmetic α) (read : Reader α) (b : Body) (j : Nat) (p : Point) : α :=
  ((b.eval A read p).toOption.bind (·[j]?)).getD (A.ofScalar Scalar.zero)

theorem getElem?_eq_valueAt {p : Point} {rs : List α} (h : b.eval A read p = .ok rs) {j : Nat}
    (hj : j < b.ret.values.length) : rs[j]? = some (valueAt A read b j p) := by
  have hlt : j < rs.length := by
    rw [eval_length h]
    exact hj
  rw [valueAt, h, List.getElem?_eq_getElem hlt]
  simp [Except.toOption, List.getElem?_eq_getElem hlt]

theorem regionGrids_of_none {r : Region} {n : Nat} (hfit : r.Fits n) {d : Box} (hd : d.Ranked n)
    (hu : r.unroll = none) {gs : List (Grid α)} :
    regionGrids A read r d = .ok gs ↔
      (∀ p, d.containsPoint p = true → ∃ rs, r.body.eval A read p = .ok rs) ∧
      gs = r.results.mapIdx fun j _ => Grid.ofFn d (valueAt A read r.body j) := by
  have hpoints : ∀ p, p ∈ r.mainPoints d ↔ d.containsPoint p = true := by
    intro p
    rw [Region.mainPoints_of_none hd hu, Box.mem_points hd]
  have hfactor : r.body.ret.factor = 1 := by
    have hnone : r.body.ret.unroll = none := hu
    simp [Return.factor, hnone]
  have hepi : r.epilogue = none := by
    cases he : r.epilogue with
    | none => rfl
    | some e =>
      have hsome := (hfit.epilogue e he).2.2.2
      rw [hu] at hsome
      cases hsome
  have heq : (∀ p, d.containsPoint p = true → ∃ rs, r.body.eval A read p = .ok rs) →
      regionGrids A read r d =
        .ok (r.results.mapIdx fun j _ => Grid.ofFn d (valueAt A read r.body j)) := by
    intro hall
    apply regionGrids_eq_ofFn hd
    · intro p hp
      obtain ⟨rs, hrs⟩ := hall p ((hpoints p).mp hp)
      refine ⟨rs, hrs, ?_⟩
      intro j hj i hi
      have hi0 : i = 0 := by omega
      rw [hi0, ahead_zero, hfactor, Nat.mul_one, Nat.add_zero]
      exact getElem?_eq_valueAt hrs (by rw [hfit.arity, hfactor]; omega)
    · intro e he
      rw [hepi] at he
      cases he
    · intro q hq
      exact .inl (mem_written.mpr ⟨q, (hpoints q).mpr hq, 0, by omega, ahead_zero q _⟩)
  constructor
  · intro h
    have hall : ∀ p, d.containsPoint p = true → ∃ rs, r.body.eval A read p = .ok rs :=
      fun p hp => (eval_of_regionGrids h).1 p ((hpoints p).mpr hp)
    refine ⟨hall, ?_⟩
    rw [heq hall] at h
    cases h
    rfl
  · rintro ⟨hall, rfl⟩
    exact heq hall

end Evaluation

end Stencil
