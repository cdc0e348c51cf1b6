import Stencil.Body.Eval
import Stencil.Proofs.Box

/-! The meaning of bodies. Operations that are renamed, displaced or renumbered together with what
they refer to compute the same values; a body that fits its region has a value wherever its reads
have one. -/

set_option autoImplicit false

namespace Stencil

theorem ok_bind {ε β γ : Type} (x : β) (f : β → Except ε γ) : (Except.ok x >>= f) = f x := rfl

theorem error_bind {ε β γ : Type} (e : ε) (f : β → Except ε γ) :
    (Except.error e >>= f) = Except.error e := rfl

theorem bind_eq_ok_iff {ε β γ : Type} {x : Except ε β} {f : β → Except ε γ} {c : γ} :
    (x >>= f) = .ok c ↔ ∃ b, x = .ok b ∧ f b = .ok c := by
  cases x with
  | error e => simp [error_bind]
  | ok b => simp [ok_bind]

theorem pure_eq_ok_iff {ε β : Type} {x y : β} : (pure x : Except ε β) = .ok y ↔ x = y := by
  constructor
  · intro h
    exact Except.ok.inj h
  · intro h
    rw [h]
    rfl

theorem map_eq_ok_iff {ε β γ : Type} {x : Except ε β} {f : β → γ} {c : γ} :
    x.map f = .ok c ↔ ∃ b, x = .ok b ∧ f b = c := by
  cases x with
  | error e => simp [Except.map]
  | ok b => simp [Except.map]

theorem map_eq_error_iff {ε β γ : Type} {x : Except ε β} {f : β → γ} {e : ε} :
    x.map f = .error e ↔ x = .error e := by
  cases x <;> simp [Except.map]

theorem mapM_eq_ok_iff {ε β γ : Type} {F : β → Except ε γ} {f : β → Option γ}
    (h : ∀ x y, F x = .ok y ↔ f x = some y) {xs : List β} {ys : List γ} :
    xs.mapM F = .ok ys ↔ xs.map f = ys.map some := by
  induction xs generalizing ys with
  | nil =>
    simp only [List.mapM_nil, pure_eq_ok_iff, List.map_nil]
    constructor
    · intro h
      rw [← h]
      rfl
    · intro h
      cases ys with
      | nil => rfl
      | cons y ys => simp at h
  | cons x xs ih =>
    simp only [List.mapM_cons, bind_eq_ok_iff, h, pure_eq_ok_iff, List.map_cons]
    constructor
    · rintro ⟨v, hv, vs, hvs, rfl⟩
      rw [hv, ih.mp hvs, List.map_cons]
    · intro h
      cases ys with
      | nil => simp at h
      | cons y ys =>
        simp only [List.map_cons, List.cons.injEq] at h
        exact ⟨y, h.1, ys, ih.mpr h.2, rfl⟩

namespace Body

theorem need_eq_ok_iff {β : Type} {x : Option β} {v : β} : need x = .ok v ↔ x = some v := by
  cases x <;> simp [need]

theorem mapM_need_eq_ok_iff {β γ : Type} {xs : List β} {f : β → Option γ} {rs : List γ} :
    (xs.mapM fun x => need (f x)) = .ok rs ↔ xs.map f = rs.map some :=
  mapM_eq_ok_iff fun _ _ => need_eq_ok_iff

theorem mapM_need_congr {β γ : Type} {xs : List β} {f : β → Option γ} {g : β → Option γ}
    (h : ∀ x, x ∈ xs → f x = g x) : (xs.mapM fun x => need (f x)) = xs.mapM fun x => need (g x) := by
  induction xs with
  | nil => rfl
  | cons x xs ih =>
    rw [List.mapM_cons, List.mapM_cons, h x (by simp), ih (fun y hy => h y (by simp [hy]))]

end Body

/-- Offsets have the rank of the region, coordinates and operand slots are there. -/
def Op.Fits (rank slots : Nat) : Op → Prop
  | .access slot o => o.length = rank ∧ slot < slots
  | .index dim o => dim < rank ∧ o.length = rank
  | _ => True

/-- Operations fit, and values are used after their definition. -/
structure Body.Fits (rank slots : Nat) (b : Body) : Prop where
  ops : ∀ op : Op, op ∈ b.ops → op.Fits rank slots
  args : ∀ (i : Nat) (op : Op), b.ops[i]? = some op → ∀ a, a ∈ op.args → a < i
  ret : ∀ v, v ∈ b.ret.values → v < b.ops.length

theorem Body.Fits.mono {rank slots slots' : Nat} {b : Body} (h : b.Fits rank slots)
    (hle : slots ≤ slots') : b.Fits rank slots' := by
  refine ⟨?_, h.args, h.ret⟩
  intro op hop
  have hfit := h.ops op hop
  cases op with
  | access s o => exact ⟨hfit.1, Nat.lt_of_lt_of_le hfit.2 hle⟩
  | index d o => exact hfit
  | constant c => trivial
  | unary f a => trivial
  | binary f l r => trivial
  | call c as q => trivial

def Body.CallsKnown (b : Body) : Prop :=
  ∀ callee args isPure, .call callee args isPure ∈ b.ops → (Builtin.find? callee args.length).isSome

namespace Op

@[simp] theorem args_mapArgs (f : ValueId → ValueId) (op : Op) : (op.mapArgs f).args = op.args.map f := by
  cases op <;> simp [mapArgs, args]

theorem mapArgs_id (op : Op) : op.mapArgs id = op := by cases op <;> simp [mapArgs]

@[simp] theorem args_shifted (delta : Offset) (op : Op) : (op.shifted delta).args = op.args := by
  cases op <;> rfl

@[simp] theorem args_mapSlot (f : Nat → Nat) (op : Op) : (op.mapSlot f).args = op.args := by
  cases op <;> rfl

@[simp] theorem hasEffect_mapArgs (f : ValueId → ValueId) (op : Op) :
    (op.mapArgs f).hasEffect = op.hasEffect := by
  cases op <;> rfl

@[simp] theorem hasEffect_shifted (delta : Offset) (op : Op) :
    (op.shifted delta).hasEffect = op.hasEffect := by
  cases op <;> rfl

@[simp] theorem hasEffect_mapSlot (f : Nat → Nat) (op : Op) :
    (op.mapSlot f).hasEffect = op.hasEffect := by
  cases op <;> rfl

theorem mapArgs_eq_access_iff {f : ValueId → ValueId} {op : Op} {s : Nat} {o : Offset} :
    op.mapArgs f = .access s o ↔ op = .access s o := by
  cases op <;> simp [mapArgs]

theorem fits_mapArgs {f : ValueId → ValueId} {op : Op} {rank slots : Nat} :
    (op.mapArgs f).Fits rank slots ↔ op.Fits rank slots := by
  cases op <;> simp [mapArgs, Fits]

theorem mapSlot_eq_access_iff {f : Nat → Nat} {op : Op} {s : Nat} {o : Offset} :
    op.mapSlot f = .access s o ↔ ∃ s', op = .access s' o ∧ f s' = s := by
  constructor
  · intro h
    cases op with
    | access s' o' =>
      simp only [mapSlot, access.injEq] at h
      exact ⟨s', by rw [h.2], h.1⟩
    | index d o' => simp [mapSlot] at h
    | constant c => simp [mapSlot] at h
    | unary g a => simp [mapSlot] at h
    | binary g l r => simp [mapSlot] at h
    | call c as q => simp [mapSlot] at h
  · rintro ⟨s', rfl, rfl⟩
    rfl

theorem length_filter_hasEffect_map {F : Op → Op} (h : ∀ op, (F op).hasEffect = op.hasEffect)
    (ops : List Op) :
    ((ops.map F).filter hasEffect).length = (ops.filter hasEffect).length := by
  rw [List.filter_map, List.length_map]
  congr 2
  funext op
  exact h op

end Op

namespace Body

variable {α : Type} {A : Arithmetic α} {read read' : Reader α} {point point' : Point}

theorem mem_accessesFrom {ops : List Op} {start v slot : Nat} {o : Offset} :
    ⟨v, slot, o⟩ ∈ accessesFrom start ops ↔ start ≤ v ∧ ops[v - start]? = some (.access slot o) := by
  induction ops generalizing start with
  | nil => simp [accessesFrom]
  | cons op ops ih =>
    have hcons : (start ≤ v ∧ (op :: ops)[v - start]? = some (.access slot o)) ↔
        (v = start ∧ op = .access slot o) ∨ ⟨v, slot, o⟩ ∈ accessesFrom (start + 1) ops := by
      rw [ih]
      by_cases hv : v = start
      · have hn : ¬ start + 1 ≤ start := by omega
        simp [hv, hn]
      · by_cases hlt : start < v
        · have hs : v - start = (v - (start + 1)) + 1 := by omega
          rw [hs, List.getElem?_cons_succ]
          simp only [hv, false_and, false_or]
          exact ⟨fun h => ⟨hlt, h.2⟩, fun h => ⟨by omega, h.2⟩⟩
        · simp only [hv, false_and, false_or]
          exact ⟨fun h => ⟨by omega, by omega⟩, fun h => ⟨by omega, by omega⟩⟩
    rw [hcons]
    cases op with
    | access slot' o' =>
      simp only [accessesFrom, List.mem_cons, Access.mk.injEq, Op.access.injEq]
      constructor
      · rintro (⟨hv, hs, ho⟩ | h)
        · exact .inl ⟨hv, hs.symm, ho.symm⟩
        · exact .inr h
      · rintro (⟨hv, hs, ho⟩ | h)
        · exact .inl ⟨hv, hs.symm, ho.symm⟩
        · exact .inr h
    | index d o' => simp [accessesFrom]
    | constant c => simp [accessesFrom]
    | unary f x => simp [accessesFrom]
    | binary f l r => simp [accessesFrom]
    | call c xs q => simp [accessesFrom]

theorem mem_accesses {b : Body} {a : Access} :
    a ∈ b.accesses ↔ b.ops[a.value]? = some (.access a.slot a.offset) := by
  obtain ⟨v, slot, o⟩ := a
  rw [accesses, mem_accessesFrom]
  simp

theorem exists_access_iff {b : Body} {slot : Nat} {o : Offset} :
    (∃ a, a ∈ b.accesses ∧ a.slot = slot ∧ a.offset = o) ↔ .access slot o ∈ b.ops := by
  constructor
  · rintro ⟨a, ha, rfl, rfl⟩
    exact List.mem_of_getElem? (mem_accesses.mp ha)
  · intro h
    obtain ⟨i, hi⟩ := List.mem_iff_getElem?.mp h
    exact ⟨⟨i, slot, o⟩, mem_accesses.mpr hi, rfl, rfl⟩

theorem evalOp_mapArgs {vs ws : Array α} {f : ValueId → ValueId} {op : Op}
    (h : ∀ a, a ∈ op.args → ws[f a]? = vs[a]?) :
    evalOp A read point ws (op.mapArgs f) = evalOp A read point vs op := by
  cases op with
  | access s o => rfl
  | index d o => rfl
  | constant c => rfl
  | unary o a => simp only [Op.mapArgs, evalOp, h a (by simp [Op.args])]
  | binary o l r => simp only [Op.mapArgs, evalOp, h l (by simp [Op.args]), h r (by simp [Op.args])]
  | call c as q =>
    have hm : ((as.map f).mapM fun a => need ws[a]?) = as.mapM fun a => need vs[a]? := by
      rw [List.mapM_map]
      exact mapM_need_congr fun a ha => h a ha
    simp only [Op.mapArgs, evalOp, hm, List.length_map]

theorem zipWith_compose (point : Point) (o delta : Offset) :
    List.zipWith (· + ·) point (o.compose delta) =
      List.zipWith (· + ·) (List.zipWith (· + ·) point delta) o := by
  apply List.ext_getElem
  · simp only [Offset.compose, List.length_zipWith]
    omega
  · intro i h1 h2
    simp only [Offset.compose, List.getElem_zipWith]
    omega

/-- An operation displaced by `delta` sees at a point what it saw at the displaced point. -/
theorem evalOp_shifted {vs : Array α} {op : Op} (delta : Offset) :
    evalOp A read point vs (op.shifted delta) =
      evalOp A read (List.zipWith (· + ·) point delta) vs op := by
  cases op with
  | access s o => exact congrArg (read s) (zipWith_compose point o delta)
  | index d o =>
    -- a coordinate that is missing in one of the three is missing in both sums
    simp only [Op.shifted, evalOp, Offset.compose, List.getElem?_zipWith]
    cases point[d]? with
    | none => rfl
    | some x =>
      cases delta[d]? with
      | none => cases o[d]? <;> rfl
      | some z =>
        cases o[d]? with
        | none => rfl
        | some y =>
          have hsum : x + (y + z) = x + z + y := by omega
          exact congrArg (fun c => Except.ok (A.ofCoordinate c)) hsum
  | constant c => rfl
  | unary o a => rfl
  | binary o l r => rfl
  | call c as q => rfl

theorem evalOp_mapSlot {vs : Array α} {op : Op} (f : Nat → Nat) :
    evalOp A read point vs (op.mapSlot f) = evalOp A (fun s q => read (f s) q) point vs op := by
  cases op <;> rfl

theorem evalOps_append (xs ys : List Op) (vs : Array α) :
    evalOps A read point (xs ++ ys) vs =
      evalOps A read point xs vs >>= fun ws => evalOps A read point ys ws := by
  induction xs generalizing vs with
  | nil => rfl
  | cons op xs ih =>
    rw [List.cons_append, evalOps, evalOps]
    cases evalOp A read point vs op with
    | error e => rfl
    | ok v => exact ih (vs.push v)

theorem evalOps_ok {ops : List Op} {vs ws : Array α} (h : evalOps A read point ops vs = .ok ws) :
    ∃ new : Array α, new.size = ops.length ∧ ws = vs ++ new := by
  induction ops generalizing vs with
  | nil => exact ⟨#[], rfl, by simpa [evalOps] using h.symm⟩
  | cons op ops ih =>
    rw [evalOps, bind_eq_ok_iff] at h
    obtain ⟨v, _, hrest⟩ := h
    obtain ⟨new, hsize, hws⟩ := ih hrest
    refine ⟨#[v] ++ new, by simp [hsize]; omega, ?_⟩
    rw [hws, ← Array.append_assoc, Array.push_eq_append]

theorem evalOps_size {ops : List Op} {vs ws : Array α} (h : evalOps A read point ops vs = .ok ws) :
    ws.size = vs.size + ops.length := by
  obtain ⟨new, hsize, rfl⟩ := evalOps_ok h
  rw [Array.size_append, hsize]

/-- Where the operations of one sequence have a value, those of the other have the same. -/
theorem evalOps_mono {F : Op → Op} {ops : List Op} {vs ws : Array α}
    (hop : ∀ op : Op, op ∈ ops → ∀ (vs' : Array α) (v : α), evalOp A read point vs' op = .ok v →
      evalOp A read' point' vs' (F op) = .ok v)
    (h : evalOps A read point ops vs = .ok ws) : evalOps A read' point' (ops.map F) vs = .ok ws := by
  induction ops generalizing vs with
  | nil => exact h
  | cons op ops ih =>
    rw [evalOps, bind_eq_ok_iff] at h
    obtain ⟨v, hv, hrest⟩ := h
    rw [List.map_cons, evalOps, hop op (by simp) vs v hv, ok_bind]
    exact ih (fun o ho => hop o (by simp [ho])) hrest

theorem evalOps_mono_read {ops : List Op} {vs ws : Array α}
    (hread : ∀ s q v, (∃ o, .access s o ∈ ops) → read s q = .ok v → read' s q = .ok v)
    (h : evalOps A read point ops vs = .ok ws) : evalOps A read' point ops vs = .ok ws := by
  have hid : evalOps A read' point (ops.map id) vs = .ok ws := by
    apply evalOps_mono _ h
    intro op hop vs' x hx
    cases op with
    | access s o => exact hread s _ x ⟨o, hop⟩ hx
    | index d o => exact hx
    | constant c => exact hx
    | unary f a => exact hx
    | binary f l r => exact hx
    | call c as q => exact hx
  rwa [List.map_id] at hid

theorem eval_eq_ok_iff {b : Body} {rs : List α} :
    b.eval A read point = .ok rs ↔ ∃ vs, evalOps A read point b.ops #[] = .ok vs ∧
      (b.ret.values.map fun v => vs[v]?) = rs.map some := by
  rw [eval, bind_eq_ok_iff]
  simp only [mapM_need_eq_ok_iff]

theorem eval_length {b : Body} {rs : List α} (h : b.eval A read point = .ok rs) :
    rs.length = b.ret.values.length := by
  obtain ⟨vs, _, hrs⟩ := eval_eq_ok_iff.mp h
  have := congrArg List.length hrs
  simpa using this.symm

theorem lt_of_eval {b : Body} {rs : List α} (h : b.eval A read point = .ok rs) {v : ValueId}
    (hv : v ∈ b.ret.values) : v < b.ops.length := by
  obtain ⟨vs, hvs, hrs⟩ := eval_eq_ok_iff.mp h
  have hmem : vs[v]? ∈ rs.map some := by
    rw [← hrs]
    exact List.mem_map.mpr ⟨v, hv, rfl⟩
  obtain ⟨x, _, hx⟩ := List.mem_map.mp hmem
  obtain ⟨hlt, _⟩ := Array.getElem?_eq_some_iff.mp hx.symm
  have hsize := evalOps_size hvs
  simp only [Array.size_empty, Nat.zero_add] at hsize
  exact Nat.lt_of_lt_of_eq hlt hsize

theorem eval_mapSlot {b b' : Body} {f : Nat → Nat} {rs : List α}
    (hops : b'.ops = b.ops.map (Op.mapSlot f)) (hret : b'.ret = b.ret)
    (hread : ∀ s o, .access s o ∈ b.ops → ∀ v, read s (List.zipWith (· + ·) point o) = .ok v →
      read' (f s) (List.zipWith (· + ·) point o) = .ok v)
    (h : b.eval A read point = .ok rs) : b'.eval A read' point = .ok rs := by
  obtain ⟨vs, hvs, hrs⟩ := eval_eq_ok_iff.mp h
  rw [eval_eq_ok_iff, hops, hret]
  refine ⟨vs, evalOps_mono ?_ hvs, hrs⟩
  intro op hmem vs' v hv
  rw [evalOp_mapSlot]
  cases op with
  | access s o => exact hread s o hmem v hv
  | index d o => exact hv
  | constant c => exact hv
  | unary o a => exact hv
  | binary o l r => exact hv
  | call c as q => exact hv

theorem map_getElem?_eq (xs : List ValueId) (vs : Array α) (h : ∀ v, v ∈ xs → v < vs.size) :
    ∃ rs : List α, (xs.map fun v => vs[v]?) = rs.map some := by
  induction xs with
  | nil => exact ⟨[], rfl⟩
  | cons x xs ih =>
    obtain ⟨rs, hrs⟩ := ih fun v hv => h v (by simp [hv])
    have hx : x < vs.size := h x (by simp)
    exact ⟨vs[x] :: rs, by rw [List.map_cons, hrs, Array.getElem?_eq_getElem hx, List.map_cons]⟩

theorem evalOp_exists {op : Op} {vs : Array α} {rank slots : Nat} (hfit : op.Fits rank slots)
    (hargs : ∀ a, a ∈ op.args → a < vs.size) (hp : point.length = rank)
    (hread : ∀ s o, op = .access s o → ∃ v, read s (List.zipWith (· + ·) point o) = .ok v)
    (hcall : ∀ callee args isPure, op = .call callee args isPure →
      (Builtin.find? callee args.length).isSome) : ∃ v, evalOp A read point vs op = .ok v := by
  have hneed : ∀ a, a ∈ op.args → ∃ v, need vs[a]? = .ok v := by
    intro a ha
    have hlt : a < vs.size := hargs a ha
    exact ⟨vs[a], by rw [need_eq_ok_iff, Array.getElem?_eq_getElem hlt]⟩
  cases op with
  | access s o => exact hread s o rfl
  | index d o =>
    obtain ⟨hd, ho⟩ := hfit
    have hpd : d < point.length := by omega
    have hod : d < o.length := by omega
    refine ⟨A.ofCoordinate (point[d] + o[d]), ?_⟩
    simp only [evalOp, List.getElem?_eq_getElem hpd, List.getElem?_eq_getElem hod]
    rfl
  | constant c => exact ⟨A.ofScalar c, rfl⟩
  | unary f a =>
    obtain ⟨x, hx⟩ := hneed a (by simp [Op.args])
    exact ⟨A.unary f x, by rw [evalOp, hx]; rfl⟩
  | binary f l r =>
    obtain ⟨x, hx⟩ := hneed l (by simp [Op.args])
    obtain ⟨y, hy⟩ := hneed r (by simp [Op.args])
    exact ⟨A.binary f x y, by rw [evalOp, hx, hy]; rfl⟩
  | call c as q =>
    obtain ⟨b, hb⟩ := Option.isSome_iff_exists.mp (hcall c as q rfl)
    obtain ⟨xs, hxs⟩ := map_getElem?_eq as vs hargs
    have hm : (as.mapM fun a => need vs[a]?) = .ok xs := mapM_need_eq_ok_iff.mpr hxs
    exact ⟨A.builtin b xs, by rw [evalOp, hm, ok_bind, hb]; rfl⟩

theorem evalOps_exists {ops : List Op} {vs : Array α} {rank slots : Nat}
    (hfit : ∀ op : Op, op ∈ ops → op.Fits rank slots)
    (hargs : ∀ (i : Nat) (op : Op), ops[i]? = some op → ∀ a, a ∈ op.args → a < vs.size + i)
    (hp : point.length = rank)
    (hread : ∀ s o, .access s o ∈ ops → ∃ v, read s (List.zipWith (· + ·) point o) = .ok v)
    (hcall : ∀ callee args isPure, .call callee args isPure ∈ ops →
      (Builtin.find? callee args.length).isSome) :
    ∃ ws, evalOps A read point ops vs = .ok ws := by
  induction ops generalizing vs with
  | nil => exact ⟨vs, rfl⟩
  | cons op ops ih =>
    have hop : ∃ v, evalOp A read point vs op = .ok v :=
      evalOp_exists (hfit op (by simp)) (hargs 0 op (by simp)) hp
        (fun s o he => hread s o (by simp [he])) (fun c as q he => hcall c as q (by simp [he]))
    obtain ⟨v, hv⟩ := hop
    have hargs' : ∀ (i : Nat) (o : Op), ops[i]? = some o → ∀ a, a ∈ o.args →
        a < (vs.push v).size + i := by
      intro i o ho a ha
      have hlt : a < vs.size + (i + 1) := hargs (i + 1) o (by simpa using ho) a ha
      rw [Array.size_push]
      exact Nat.lt_of_lt_of_eq hlt (by omega)
    obtain ⟨ws, hws⟩ := ih (fun o ho => hfit o (by simp [ho])) hargs'
      (fun s o ho => hread s o (by simp [ho])) (fun c as q hm => hcall c as q (by simp [hm]))
    exact ⟨ws, by rw [evalOps, hv, ok_bind, hws]⟩

theorem eval_exists_of_evalOps {b : Body} (hret : ∀ v, v ∈ b.ret.values → v < b.ops.length)
    {vs : Array α} (h : evalOps A read point b.ops #[] = .ok vs) :
    ∃ rs, b.eval A read point = .ok rs := by
  have hsize := evalOps_size h
  obtain ⟨rs, hrs⟩ := map_getElem?_eq b.ret.values vs (by
    intro v hv
    have hlt : v < b.ops.length := hret v hv
    simp only [Array.size_empty, Nat.zero_add] at hsize
    exact Nat.lt_of_lt_of_eq hlt hsize.symm)
  exact ⟨rs, eval_eq_ok_iff.mpr ⟨vs, h, hrs⟩⟩

/-- A body that fits has values wherever its reads have values and its calls are known. -/
theorem eval_exists {b : Body} {rank slots : Nat} (hfit : b.Fits rank slots)
    (hp : point.length = rank) (hcalls : b.CallsKnown)
    (hread : ∀ s o, .access s o ∈ b.ops → ∃ v, read s (List.zipWith (· + ·) point o) = .ok v) :
    ∃ rs, b.eval A read point = .ok rs := by
  have hops : ∃ vs, evalOps A read point b.ops #[] = .ok vs :=
    evalOps_exists hfit.ops (by simpa using hfit.args) hp hread hcalls
  obtain ⟨vs, hvs⟩ := hops
  exact eval_exists_of_evalOps hfit.ret hvs

end Body

end Stencil
