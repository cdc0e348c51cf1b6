import Stencil.Proofs.Agreement
import Stencil.Proofs.Coordinates

/-! Unrolling in words of 32 bits. Numbers that wrap around are too small at worst, so that the
copies of a body still fit their region. With a trap at every overflow a run does the same or stops,
and it does not stop as long as a word can number all copies. -/

set_option autoImplicit false

namespace Stencil

theorem Op.args_ahead (axis r : Nat) (op : Op) : (op.ahead axis r).args = op.args := by cases op <;> rfl

/-- The body names the value, as an argument or as a result. -/
def Body.Names (b : Body) (v : ValueId) : Prop := v ∈ b.ret.values ∨ ∃ op, op ∈ b.ops ∧ v ∈ op.args

theorem Body.Fits.lt_of_names {b : Body} {rank slots : Nat} (h : b.Fits rank slots) {v : ValueId}
    (hv : b.Names v) : v < b.ops.length := by
  rcases hv with hv | ⟨op, hop, hv⟩
  · exact h.ret v hv
  · obtain ⟨i, hi⟩ := List.mem_iff_getElem?.mp hop
    exact Nat.lt_trans (h.args i op hi v hv) (List.getElem?_eq_some_iff.mp hi).1

section Agreement

variable {m : Type → Type} [Monad m] [LawfulMonad m] (A : Agreement m)

theorem Op.agrees_mapArgsM {F : ValueId → m ValueId} {G : ValueId → ValueId} {op : Op}
    (h : ∀ v, v ∈ op.args → A.Agrees (F v) (G v)) : A.Agrees (op.mapArgsM F) (op.mapArgs G) := by
  cases op with
  | access s o => exact A.value _
  | index d o => exact A.value _
  | constant c => exact A.value _
  | unary g a => exact A.next (h a (by simp [args])) (A.value _)
  | binary g l r => exact A.next (h l (by simp [args])) (A.next (h r (by simp [args])) (A.value _))
  | call c as q => exact A.next (A.mapM h) (A.value _)

theorem Words.agrees_replicate {V : Words m} {W : Words Id} {b : Body} (axis : Nat) {k : Nat}
    (hlen : V.length b.ops.length = W.length b.ops.length)
    (hbase : ∀ r, r < k → A.Agrees (V.result (r * W.length b.ops.length))
      (W.result (r * W.length b.ops.length)).run)
    (hnumber : ∀ r v, r < k → b.Names v →
      A.Agrees (V.result ((W.result (r * W.length b.ops.length)).run + v))
        (W.number (W.length b.ops.length) r v)) :
    A.Agrees (V.replicate b axis k) (W.replicate b axis k) := by
  rw [W.replicate_eq, replicate, hlen]
  refine A.next (A.mapM fun r hr => ?_) (A.next (A.mapM fun v hv => A.mapM fun r hr => ?_) (A.value _))
  · refine A.next (hbase r (List.mem_range.mp hr)) (A.mapM fun op hop =>
      Op.agrees_mapArgsM A fun v hv => ?_)
    rw [Op.args_ahead] at hv
    exact hnumber r v (List.mem_range.mp hr) (.inr ⟨op, hop, hv⟩)
  · exact A.next (hbase r (List.mem_range.mp hr)) (hnumber r v (List.mem_range.mp hr) (.inl hv))

end Agreement

namespace Words

variable {b : Body} {axis k rank slots : Nat}

theorem checked_result (n : Nat) :
    Agreement.unlessNone.Agrees (checked.result n) (wrapping.result n).run := by
  by_cases h : n < 4294967296
  · right
    simp only [checked, wrapping, if_pos h, Id.run_pure, Nat.mod_eq_of_lt h]
  · left
    exact if_neg h

theorem checked_replicate :
    Agreement.unlessNone.Agrees (checked.replicate b axis k) (wrapping.replicate b axis k) :=
  agrees_replicate _ axis rfl (fun _ _ => checked_result _) fun _ _ _ _ => checked_result _

/-- Nothing is trapped as long as a word can number all copies. -/
theorem checked_replicate_eq (h : b.Fits rank slots) (hk : 2 ≤ k) (hle : k * b.ops.length ≤ 4294967296) :
    checked.replicate b axis k = some (b.replicate axis k) := by
  have hlen : checked.length b.ops.length = b.ops.length := by
    apply Nat.mod_eq_of_lt
    have := Nat.mul_le_mul_right b.ops.length hk
    omega
  have hresult : ∀ n, n < 4294967296 → checked.result n = some n := fun n hn => if_pos hn
  refine agrees_replicate (W := .exact) (.returns Option) axis hlen ?_ ?_
  · intro r hr
    apply hresult
    rcases Nat.eq_zero_or_pos b.ops.length with hzero | hpos
    · rw [show Words.exact.length b.ops.length = 0 from hzero]
      omega
    · exact Nat.lt_of_lt_of_le (Body.place_lt hr hpos) hle
  · intro r v hr hv
    exact hresult _ (Nat.lt_of_lt_of_le (Body.place_lt hr (h.lt_of_names hv)) hle)

end Words

namespace Unrolling

section Run

variable {m : Type → Type} [Monad m] (A : Agreement m) {V : Words m} {W : Words Id} {options : Options}

theorem agrees_unrollRegion {f : Func} {id : RegionId}
    (h : ∀ r divisible, f.region? id = some r → check options f.rank r = .ok divisible →
      A.Agrees (V.replicate r.body options.axis options.factor)
        (W.replicate r.body options.axis options.factor)) :
    A.Agrees (unrollRegionIn V options f id) (unrollRegionIn W options f id) := by
  unfold unrollRegionIn
  cases hr : f.region? id with
  | none => exact A.value _
  | some r =>
    simp only
    cases hcheck : check options f.rank r with
    | error reason => exact A.value _
    | ok divisible => exact A.next (A.next (h r divisible hr hcheck) (A.value _)) (A.value _)

theorem agrees_step {f : Func} {report : Report} {id : RegionId}
    (h : ∀ r divisible, f.region? id = some r → check options f.rank r = .ok divisible →
      A.Agrees (V.replicate r.body options.axis options.factor)
        (W.replicate r.body options.axis options.factor)) :
    A.Agrees (stepIn V options (f, report) id) (stepIn W options (f, report) id) := by
  unfold stepIn
  simp only
  split
  · refine A.next (agrees_unrollRegion A h) ?_
    generalize unrollRegionIn W options f id = unrolled
    cases unrolled with
    | error reason => exact A.value _
    | ok g => exact A.value _
  · exact A.value _

/-- What `g` still can unroll stands in it as it stands in `f`. -/
structure Remains (options : Options) (f g : Func) : Prop where
  rank : g.rank = f.rank
  region : ∀ id r divisible, g.region? id = some r → check options f.rank r = .ok divisible →
    f.region? id = some r

theorem Remains.step {f g : Func} (h : Remains options f g) (W : Words Id) (report : Report)
    (id : RegionId) :
    Remains options f (stepIn W options (g, report) id).1 := by
  refine ⟨(step_region? W options g report id id).1.trans h.rank, ?_⟩
  intro id' r divisible hr hcheck
  rw [(step_region? W options g report id id').2, h.rank] at hr
  split at hr
  · obtain ⟨r', hr', rfl⟩ := Option.map_eq_some_iff.mp hr
    unfold afterRun at hcheck ⊢
    split at hcheck
    · cases hc : check options f.rank r' with
      | error e => simp [hc] at hcheck
      | ok d =>
        obtain ⟨e, he⟩ := check_unrolled W hc d
        simp only [hc, he] at hcheck
        cases hcheck
    · next hsel =>
      rw [if_neg hsel]
      exact h.region id' r' divisible hr' hcheck
  · exact h.region id' r divisible hr hcheck

theorem agrees_run {f : Func}
    (h : ∀ id r divisible, f.region? id = some r → check options f.rank r = .ok divisible →
      A.Agrees (V.replicate r.body options.axis options.factor)
        (W.replicate r.body options.axis options.factor)) :
    A.Agrees (runIn V options f) (runIn W options f) := by
  unfold runIn
  cases f.ensureFresh "unrolling" with
  | error e => exact A.value _
  | ok u =>
    cases f.order with
    | error e => exact A.value _
    | ok order =>
      have hloop : A.Agrees (order.foldlM (stepIn V options) (f, {}))
          (order.foldl (stepIn W options) (f, {})) := by
        refine A.foldlM (Q := fun s => Remains options f s.1) ?_ ⟨rfl, fun _ _ _ hr _ => hr⟩
        rintro ⟨g, report⟩ id _ hg
        refine ⟨agrees_step A fun r divisible hr hcheck => ?_, hg.step W report id⟩
        rw [hg.rank] at hcheck
        exact h id r divisible (hg.region id r divisible hr hcheck) hcheck
      simp only [unrollAllIn, loop_eq]
      exact A.next hloop (A.value _)

end Run

/-- With a trap at every overflow a run does what it does on words that wrap around, or it traps. -/
theorem checked_run (options : Options) (f : Func) :
    Agreement.unlessNone.Agrees (runIn .checked options f) (runIn .wrapping options f) :=
  agrees_run _ fun _ _ _ _ _ => Words.checked_replicate

theorem factor_of_check {options : Options} {n : Nat} {r : Region} {divisible : Bool}
    (h : check options n r = .ok divisible) : 2 ≤ options.factor := by
  unfold check at h
  split at h
  · cases h
  · omega

theorem checked_run_eq {options : Options} {f : Func} (hf : f.Sound)
    (h : ∀ id r, f.region? id = some r → options.factor * r.body.ops.length ≤ 4294967296) :
    runIn .checked options f = some (run options f) := by
  refine agrees_run (.returns Option) fun id r divisible hr hcheck => ?_
  exact Words.checked_replicate_eq (hf.fits id r hr).body (factor_of_check hcheck) (h id r hr)

end Unrolling

end Stencil
