import Stencil.Body.Replicate
import Stencil.Proofs.Grid
import Stencil.Proofs.Performing

/-! Replication: a replicated body computes at one point what the body computes at the points
from there on along the axis. -/

set_option autoImplicit false

namespace Stencil

theorem Op.mapArgsM_eq_mapArgs (f : ValueId → Id ValueId) (op : Op) : op.mapArgsM f = op.mapArgs f := by
  cases op with
  | call c as q => exact congrArg (call c · q) (List.idRun_mapM (l := as) (f := f))
  | access s o => rfl
  | index d o => rfl
  | constant c => rfl
  | unary g a => rfl
  | binary g l r => rfl

theorem Body.place_lt {k n r v : Nat} (hr : r < k) (hv : v < n) : r * n + v < k * n :=
  calc r * n + v < r * n + n := Nat.add_lt_add_left hv _
    _ = (r + 1) * n := (Nat.succ_mul _ _).symm
    _ ≤ k * n := Nat.mul_le_mul_right _ hr

namespace Words

variable (W : Words Id)

/-- The number of value `v` of replica `r` of a body of `n` operations. -/
def number (n r v : Nat) : ValueId := (W.result ((W.result (r * n)).run + v)).run

/-- The operation in replica `r` of a body of `n` operations. -/
def replicaOp (axis n r : Nat) (op : Op) : Op := (op.ahead axis r).mapArgs (W.number n r)

theorem replicate_eq (b : Body) (axis k : Nat) : W.replicate b axis k =
    { ops := (List.range k).flatMap fun r => b.ops.map (W.replicaOp axis (W.length b.ops.length) r)
      ret :=
        { values := b.ret.values.flatMap fun v => (List.range k).map fun r =>
          W.number (W.length b.ops.length) r v
          unroll := some ⟨axis, k⟩ } } := by
  have hops : (List.range k).mapM (W.replica b.ops axis (W.length b.ops.length)) =
      (List.range k).map fun r => b.ops.map (W.replicaOp axis (W.length b.ops.length) r) := by
    refine List.idRun_mapM.trans (List.map_congr_left fun r _ => ?_)
    refine (List.idRun_mapM (l := b.ops)).trans (List.map_congr_left fun op _ => ?_)
    exact Op.mapArgsM_eq_mapArgs _ _
  have hvalues : (b.ret.values.mapM fun v => (List.range k).mapM fun r => do
      W.result ((← W.result (r * W.length b.ops.length)) + v) : Id _) =
      b.ret.values.map fun v => (List.range k).map fun r => W.number (W.length b.ops.length) r v :=
    List.idRun_mapM.trans (List.map_congr_left fun v _ => List.idRun_mapM)
  rw [replicate, hops, hvalues]
  rfl

section Operations

variable {W} {b : Body} {axis k n r s rank slots : Nat} {op : Op} {o : Offset}

theorem mem_replicate_ops : op ∈ (W.replicate b axis k).ops ↔
    ∃ r, r < k ∧ ∃ op', op' ∈ b.ops ∧ W.replicaOp axis (W.length b.ops.length) r op' = op := by
  simp [replicate_eq]

theorem length_replicate_ops : (W.replicate b axis k).ops.length = k * b.ops.length := by
  rw [replicate_eq, Box.length_flatMap_const _ _ b.ops.length (by simp), List.length_range]

theorem mem_replicate_values {x : ValueId} : x ∈ (W.replicate b axis k).ret.values ↔
    ∃ v, v ∈ b.ret.values ∧ ∃ r, r < k ∧ W.number (W.length b.ops.length) r v = x := by
  simp [replicate_eq]

theorem length_replicate_values : (W.replicate b axis k).ret.values.length = b.ret.values.length * k := by
  rw [replicate_eq, Box.length_flatMap_const _ _ k (by simp)]

@[simp] theorem args_replicaOp : (W.replicaOp axis n r op).args = op.args.map (W.number n r) := by
  rw [replicaOp, Op.args_mapArgs]
  cases op <;> rfl

@[simp] theorem hasEffect_replicaOp : (W.replicaOp axis n r op).hasEffect = op.hasEffect := by
  rw [replicaOp, Op.hasEffect_mapArgs]
  cases op <;> rfl

theorem replicaOp_eq_access_iff : W.replicaOp axis n r op = .access s o ↔ ∃ o', op = .access s o' ∧
    o = o'.compose (Offset.shiftedAlong (Offset.zeros o'.length) axis r) := by
  cases op with
  | access s' o' =>
    simp only [replicaOp, Op.ahead, Op.shifted, Op.mapArgs, Op.access.injEq]
    constructor
    · rintro ⟨rfl, rfl⟩
      exact ⟨o', ⟨rfl, rfl⟩, rfl⟩
    · rintro ⟨o'', ⟨rfl, rfl⟩, rfl⟩
      exact ⟨rfl, rfl⟩
  | index d o' => simp [replicaOp, Op.ahead, Op.shifted, Op.mapArgs]
  | constant c => simp [replicaOp, Op.ahead, Op.mapArgs]
  | unary g a => simp [replicaOp, Op.ahead, Op.mapArgs]
  | binary g l r => simp [replicaOp, Op.ahead, Op.mapArgs]
  | call c as q => simp [replicaOp, Op.ahead, Op.mapArgs]

theorem fits_replicaOp (h : op.Fits rank slots) : (W.replicaOp axis n r op).Fits rank slots := by
  cases op with
  | access s o => exact ⟨Offset.length_compose h.1 (by simpa using h.1), h.2⟩
  | index d o => exact ⟨h.1, Offset.length_compose h.2 (by simpa using h.2)⟩
  | constant c => trivial
  | unary g a => trivial
  | binary g l r => trivial
  | call c as q => trivial

theorem access_mem_replicate : .access s o ∈ (W.replicate b axis k).ops ↔
    ∃ r, r < k ∧ ∃ o', .access s o' ∈ b.ops ∧
      o = o'.compose (Offset.shiftedAlong (Offset.zeros o'.length) axis r) := by
  simp only [mem_replicate_ops, replicaOp_eq_access_iff]
  constructor
  · rintro ⟨r, hr, op, hop, o', rfl, ho⟩
    exact ⟨r, hr, o', hop, ho⟩
  · rintro ⟨r, hr, o', hop, ho⟩
    exact ⟨r, hr, _, hop, o', rfl, ho⟩

/-- Words in which no number is larger than it should be. -/
def Bounded (W : Words Id) : Prop := ∀ n r v, W.number (W.length n) r v ≤ r * n + v

/-- A value that stands before its use in the body does so in every replica, even if its number
wraps around. -/
theorem Bounded.fits_replicate (hW : W.Bounded) (h : b.Fits rank slots) :
    (W.replicate b axis k).Fits rank slots := by
  refine ⟨?_, ?_, ?_⟩
  · intro op hop
    obtain ⟨r, _, op', hop', rfl⟩ := mem_replicate_ops.mp hop
    exact fits_replicaOp (h.ops op' hop')
  · intro i op hop a ha
    have hlt : i < k * b.ops.length := by
      rw [← length_replicate_ops]
      exact (List.getElem?_eq_some_iff.mp hop).1
    have hpos : 0 < b.ops.length := by
      apply Nat.pos_of_ne_zero
      intro hzero
      simp [hzero] at hlt
    rw [replicate_eq, Box.getElem?_flatMap_const _ _ b.ops.length hpos (by simp)] at hop
    obtain ⟨r, hr, hop⟩ := Option.bind_eq_some_iff.mp hop
    obtain ⟨_, hr⟩ := List.getElem?_eq_some_iff.mp hr
    rw [List.getElem?_map] at hop
    obtain ⟨op', hop', rfl⟩ := Option.map_eq_some_iff.mp hop
    rw [args_replicaOp, List.mem_map] at ha
    obtain ⟨x, hx, rfl⟩ := ha
    have hx' := h.args _ _ hop' x hx
    have hdiv := Nat.div_add_mod i b.ops.length
    rw [List.getElem_range] at hr
    calc W.number (W.length b.ops.length) r x ≤ r * b.ops.length + x := hW _ _ _
      _ < r * b.ops.length + i % b.ops.length := Nat.add_lt_add_left hx' _
      _ = i := by rw [← hr, Nat.mul_comm, hdiv]
  · intro v hv
    obtain ⟨x, hx, r, hr, rfl⟩ := mem_replicate_values.mp hv
    rw [length_replicate_ops]
    exact Nat.lt_of_le_of_lt (hW _ _ _) (Body.place_lt hr (h.ret x hx))

end Operations

theorem bounded_exact : exact.Bounded := fun _ _ _ => Nat.le_refl _

theorem bounded_wrapping : wrapping.Bounded := by
  intro n r v
  calc (r * (n % 4294967296) % 4294967296 + v) % 4294967296
      ≤ r * (n % 4294967296) % 4294967296 + v := Nat.mod_le _ _
    _ ≤ r * (n % 4294967296) + v := Nat.add_le_add_right (Nat.mod_le _ _) _
    _ ≤ r * n + v := Nat.add_le_add_right (Nat.mul_le_mul_left _ (Nat.mod_le _ _)) _

end Words

namespace Body

variable {α : Type} {A : Arithmetic α} {read : Reader α} {point : Point}

def ahead (point : Point) (axis r : Nat) : Point := point.modify axis (· + (r : Int))

@[simp] theorem length_ahead (point : Point) (axis r : Nat) :
    (ahead point axis r).length = point.length := by simp [ahead]

theorem coord_ahead {point : Point} {axis r d : Nat} (hd : d < point.length) :
    coord (ahead point axis r) d = if axis = d then coord point d + r else coord point d :=
  coord_modify point axis _ hd

theorem ahead_zero (point : Point) (axis : Nat) : ahead point axis 0 = point := by
  apply coord_ext (by simp)
  intro d hd
  rw [coord_ahead (by simpa using hd)]
  split <;> simp

theorem zipWith_compose_shiftedAlong (point : Point) (o : Offset) (axis r : Nat) :
    List.zipWith (· + ·) point (o.compose (Offset.shiftedAlong (Offset.zeros o.length) axis r)) =
      List.zipWith (· + ·) (ahead point axis r) o := by
  apply List.ext_getElem
  · simp [Offset.compose]
  · intro i h1 h2
    simp only [List.getElem_zipWith, Offset.compose, Offset.shiftedAlong, Offset.zeros, ahead,
      List.getElem_modify, List.getElem_replicate]
    split <;> omega

/-- The operation in replica `r`, with its values numbered exactly. -/
abbrev replicaOp (axis n r : Nat) (op : Op) : Op := Words.exact.replicaOp axis n r op

theorem evalOp_replicaOp {op : Op} {axis n r : Nat} {vs ws : Array α}
    (hargs : ∀ a, a ∈ op.args → ws[r * n + a]? = vs[a]?) :
    evalOp A read point ws (replicaOp axis n r op) = evalOp A read (ahead point axis r) vs op := by
  cases op with
  | access s o => exact congrArg (read s) (zipWith_compose_shiftedAlong point o axis r)
  | index d o =>
    -- a coordinate that is not there is missing at both points, and so is an offset's
    have hpoint : (ahead point axis r)[d]? =
        point[d]?.map fun x => if axis = d then x + (r : Int) else x := by
      rw [ahead, List.getElem?_modify]
      split <;> rfl
    have hoffset : (o.compose (Offset.shiftedAlong (Offset.zeros o.length) axis r))[d]? =
        o[d]?.map fun y => y + if axis = d then (r : Int) else 0 := by
      by_cases hd : d < o.length
      · simp [Offset.compose, Offset.shiftedAlong, Offset.zeros, hd, List.getElem_modify]
      · simp [Offset.compose, hd]
    have hvalue : ∀ x y : Int, x + (y + if axis = d then (r : Int) else 0) =
        (if axis = d then x + (r : Int) else x) + y := by
      intro x y
      split <;> omega
    simp only [Words.replicaOp, Op.ahead, Op.shifted, Op.mapArgs, evalOp, hpoint, hoffset]
    cases point[d]? with
    | none => rfl
    | some x =>
      cases o[d]? with
      | none => rfl
      | some y => exact congrArg (fun z => Except.ok (A.ofCoordinate z)) (hvalue x y)
  | constant c => rfl
  | unary f a => exact evalOp_mapArgs hargs
  | binary f a b => exact evalOp_mapArgs hargs
  | call c as q => exact evalOp_mapArgs hargs

def replicaOps (b : Body) (axis k : Nat) : List Op :=
  (List.range k).flatMap fun r => b.ops.map (replicaOp axis b.ops.length r)

theorem replicate_eq (b : Body) (axis k : Nat) : b.replicate axis k =
    { ops := b.replicaOps axis k
      ret :=
        { values := b.ret.values.flatMap fun v => (List.range k).map fun r => r * b.ops.length + v
          unroll := some ⟨axis, k⟩ } } := Words.replicate_eq .exact b axis k

theorem replicate_ops (b : Body) (axis k : Nat) : (b.replicate axis k).ops = b.replicaOps axis k :=
  congrArg ops (replicate_eq b axis k)

theorem replicaOps_succ (b : Body) (axis k : Nat) :
    b.replicaOps axis (k + 1) = b.replicaOps axis k ++ b.ops.map (replicaOp axis b.ops.length k) := by
  simp [replicaOps, List.range_succ]

theorem length_replicaOps (b : Body) (axis k : Nat) :
    (b.replicaOps axis k).length = k * b.ops.length := by
  rw [replicaOps, Box.length_flatMap_const _ _ b.ops.length (by simp), List.length_range]

theorem evalOps_replicaOps_succ (b : Body) (axis k : Nat) :
    evalOps A read point (b.replicaOps axis (k + 1)) #[] =
      evalOps A read point (b.replicaOps axis k) #[] >>= fun ws =>
        (evalOps A read (ahead point axis k) b.ops #[]).map (ws ++ ·) := by
  rw [replicaOps_succ, evalOps_append]
  cases hk : evalOps A read point (b.replicaOps axis k) #[] with
  | error e => rfl
  | ok ws =>
    have hsize : ws.size = k * b.ops.length := by
      have := evalOps_size hk
      simpa [length_replicaOps] using this
    rw [ok_bind, ok_bind]
    apply evalOps_behind (f := fun v => k * b.ops.length + v)
    · intro op _ vs' ws' hargs
      exact evalOp_replicaOp hargs
    · intro v
      rw [hsize]

/-- The values of all replicas, replica by replica. -/
theorem evalOps_replicaOps {b : Body} {axis k : Nat} {ws : Array α}
    (h : evalOps A read point (b.replicaOps axis k) #[] = .ok ws) {r : Nat} (hr : r < k) :
    ∃ vs, evalOps A read (ahead point axis r) b.ops #[] = .ok vs ∧
      ∀ v : Nat, v < b.ops.length → ws[r * b.ops.length + v]? = vs[v]? := by
  induction k generalizing ws with
  | zero => omega
  | succ k ih =>
    rw [evalOps_replicaOps_succ, bind_eq_ok_iff] at h
    obtain ⟨ws₀, h₀, h⟩ := h
    obtain ⟨new, hnew, rfl⟩ := map_eq_ok_iff.mp h
    have hsize₀ : ws₀.size = k * b.ops.length := by
      have := evalOps_size h₀
      simpa [length_replicaOps] using this
    -- the last replica is the new part, the others are found in what was there
    by_cases hk : r = k
    · subst hk
      refine ⟨new, hnew, ?_⟩
      intro v _
      rw [Array.getElem?_append_right (by omega), hsize₀, Nat.add_sub_cancel_left]
    · obtain ⟨vs, hvs, hv⟩ := ih h₀ (by omega)
      refine ⟨vs, hvs, ?_⟩
      intro v hlt
      rw [Array.getElem?_append_left (hsize₀ ▸ place_lt (by omega) hlt), hv v hlt]

theorem exists_evalOps_replicaOps {b : Body} {axis k : Nat}
    (h : ∀ r, r < k → ∃ vs, evalOps A read (ahead point axis r) b.ops #[] = .ok vs) :
    ∃ ws, evalOps A read point (b.replicaOps axis k) #[] = .ok ws := by
  induction k with
  | zero => exact ⟨#[], rfl⟩
  | succ k ih =>
    obtain ⟨ws, hws⟩ := ih fun r hr => h r (by omega)
    obtain ⟨vs, hvs⟩ := h k (by omega)
    exact ⟨ws ++ vs, by rw [evalOps_replicaOps_succ, hws, ok_bind, hvs]; rfl⟩

theorem getElem?_replicate_values (b : Body) (axis : Nat) {k j r : Nat} (hr : r < k) :
    (b.replicate axis k).ret.values[j * k + r]? =
      b.ret.values[j]?.map fun v => r * b.ops.length + v := by
  rw [replicate_eq, Box.getElem?_flatMap_row _ _ (by simp) hr]
  cases b.ret.values[j]? with
  | none => rfl
  | some v => simp [hr]

theorem getElem?_replicate_ops (b : Body) (axis : Nat) {k j v : Nat} (hj : j < k)
    (hv : v < b.ops.length) :
    (b.replicate axis k).ops[j * b.ops.length + v]? =
      (b.ops[v]?).map (replicaOp axis b.ops.length j) := by
  rw [replicate_ops, replicaOps, Box.getElem?_flatMap_row _ _ (by simp) hv]
  simp [hj]

theorem length_replicate_values (b : Body) (axis k : Nat) :
    (b.replicate axis k).ret.values.length = b.ret.values.length * k := Words.length_replicate_values

theorem mem_replicate_values {b : Body} {axis k : Nat} {x : ValueId} :
    x ∈ (b.replicate axis k).ret.values ↔
      ∃ v, v ∈ b.ret.values ∧ ∃ r, r < k ∧ r * b.ops.length + v = x := Words.mem_replicate_values

theorem length_replicate_ops (b : Body) (axis k : Nat) :
    (b.replicate axis k).ops.length = k * b.ops.length :=
  Words.length_replicate_ops

theorem eval_of_eval_replicate {b : Body} {axis k : Nat} {rs : List α}
    (h : (b.replicate axis k).eval A read point = .ok rs) {r : Nat} (hr : r < k) :
    ∃ vs, b.eval A read (ahead point axis r) = .ok vs ∧ ∀ j : Nat, rs[j * k + r]? = vs[j]? := by
  obtain ⟨ws, hws, hrs⟩ := eval_eq_ok_iff.mp h
  rw [replicate_ops] at hws
  obtain ⟨us, hus, hval⟩ := evalOps_replicaOps hws hr
  -- a value that a replica returns is one of its own: the last replica has nothing behind it
  have hret : ∀ v, v ∈ b.ret.values → v < b.ops.length := by
    intro v hv
    have hlast := lt_of_eval h (mem_replicate_values.mpr ⟨v, hv, k - 1, by omega, rfl⟩)
    have hlen : (b.replicate axis k).ops.length = (k - 1) * b.ops.length + b.ops.length := by
      rw [← Nat.succ_mul, Nat.succ_eq_add_one, Nat.sub_add_cancel (by omega)]
      exact length_replicate_ops b axis k
    exact Nat.lt_of_add_lt_add_left (hlen ▸ hlast)
  obtain ⟨vs, hvs⟩ := eval_exists_of_evalOps hret hus
  refine ⟨vs, hvs, ?_⟩
  obtain ⟨us', hus', hvals⟩ := eval_eq_ok_iff.mp hvs
  rw [hus] at hus'
  cases hus'
  intro j
  have hleft := congrArg (fun l : List (Option α) => l[j * k + r]?) hrs
  have hright := congrArg (fun l : List (Option α) => l[j]?) hvals
  simp only [List.getElem?_map, getElem?_replicate_values b axis hr] at hleft hright
  have hsame : rs[j * k + r]?.map some = vs[j]?.map some := by
    rw [← hleft, ← hright]
    cases hj : b.ret.values[j]? with
    | none => rfl
    | some v =>
      have hv : v < b.ops.length := hret v (List.mem_of_getElem? hj)
      simp only [Option.map_some, hval v hv]
  cases hx : rs[j * k + r]? <;> cases hy : vs[j]? <;> simp_all

theorem exists_eval_replicate {b : Body} {axis k : Nat}
    (h : ∀ r, r < k → ∃ vs, b.eval A read (ahead point axis r) = .ok vs) :
    ∃ rs, (b.replicate axis k).eval A read point = .ok rs := by
  have hops : ∃ ws, evalOps A read point (b.replicate axis k).ops #[] = .ok ws := by
    rw [replicate_ops]
    apply exists_evalOps_replicaOps
    intro r hr
    obtain ⟨vs, hvs⟩ := h r hr
    obtain ⟨us, hus, _⟩ := eval_eq_ok_iff.mp hvs
    exact ⟨us, hus⟩
  obtain ⟨ws, hws⟩ := hops
  refine eval_exists_of_evalOps ?_ hws
  intro x hx
  obtain ⟨v, hv, r, hr, rfl⟩ := mem_replicate_values.mp hx
  obtain ⟨vs, hvs⟩ := h r hr
  rw [length_replicate_ops]
  exact place_lt hr (lt_of_eval hvs hv)

/-- Replication is exact. At any point the replicated body has values just when the body has values there
and at the next points along the axis, one for each replica; then it returns `k` values per result, and
value `r` of result `j` is result `j` of the body at the point `r` further on. -/
theorem replicated_values_exact (A : Arithmetic α) (read : Reader α) (b : Body) (axis k : Nat)
    (p : Point) :
    ((∃ rs, (b.replicate axis k).eval A read p = .ok rs) ↔
      ∀ r, r < k → ∃ vs, b.eval A read (ahead p axis r) = .ok vs) ∧
    ∀ rs, (b.replicate axis k).eval A read p = .ok rs → rs.length = b.ret.values.length * k ∧
      ∀ r, r < k → ∃ vs, b.eval A read (ahead p axis r) = .ok vs ∧ vs.length = b.ret.values.length ∧
        ∀ j : Nat, rs[j * k + r]? = vs[j]? := by
  refine ⟨⟨?_, exists_eval_replicate⟩, ?_⟩
  · rintro ⟨rs, hrs⟩ r hr
    obtain ⟨vs, hvs, _⟩ := eval_of_eval_replicate hrs hr
    exact ⟨vs, hvs⟩
  · intro rs hrs
    refine ⟨by rw [eval_length hrs, length_replicate_values], ?_⟩
    intro r hr
    obtain ⟨vs, hvs, hentries⟩ := eval_of_eval_replicate hrs hr
    exact ⟨vs, hvs, eval_length hvs, hentries⟩

theorem effects_replicate (b : Body) (axis k : Nat) : (b.replicate axis k).effects = k * b.effects := by
  have hrow : ∀ r, ((b.ops.map (replicaOp axis b.ops.length r)).filter Op.hasEffect).length = b.effects :=
    fun r => Op.length_filter_hasEffect_map (fun _ => Words.hasEffect_replicaOp) b.ops
  rw [effects, replicate_ops, replicaOps, List.filter_flatMap,
    Box.length_flatMap_const _ _ b.effects hrow, List.length_range]

end Body

end Stencil
