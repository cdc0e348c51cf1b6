import Stencil.Proofs.Body

/-! Reads as effects. A body asks for the values it reads one after another, in any monad that can
fail, so that a reader may keep a log or answer differently from question to question. With a reader
that has no memory this is evaluation, and the log is the list of reads. -/

set_option autoImplicit false

namespace Stencil.Body

variable {α β : Type} {m : Type → Type}

/-- Reading as an activity, which can have effects of its own besides failing. -/
abbrev Asker (m : Type → Type) (α : Type) := Nat → Point → ExceptT EvalError m α

/-- Answers that stand ready for some of the values, so that their operations are not performed. -/
abbrev Answers (m : Type → Type) (α : Type) := ValueId → Option (ExceptT EvalError m α)

def unanswered : Answers m α := fun _ => none

def answeredAt (pos : ValueId) (answer : ExceptT EvalError m α) : Answers m α :=
  fun v => if v = pos then some answer else none

section Perform

variable [Monad m]

/-- An outcome that is there without asking. -/
def given (x : Except EvalError β) : ExceptT EvalError m β := ExceptT.mk (pure x)

/-- One operation, given the values before it. Only an access asks. -/
def performOp (A : Arithmetic α) (ask : Asker m α) (point : Point) (values : Array α) :
    Op → ExceptT EvalError m α
  | .access slot o => ask slot (List.zipWith (· + ·) point o)
  | op => given (evalOp A (fun _ _ => .error .malformed) point values op)

/-- Operations one after another, behind the values already there. -/
def performOps (A : Arithmetic α) (ask : Asker m α) (answers : Answers m α) (point : Point) :
    List Op → Array α → ExceptT EvalError m (Array α)
  | [], values => pure values
  | op :: ops, values => do
    let v ← (answers values.size).getD (performOp A ask point values op)
    performOps A ask answers point ops (values.push v)

def perform (A : Arithmetic α) (ask : Asker m α) (answers : Answers m α) (b : Body) (point : Point) :
    ExceptT EvalError m (List α) := do
  let values ← performOps A ask answers point b.ops #[]
  given (b.ret.values.mapM fun v => need values[v]?)

/-- One value of a body at a point, when all its operations have been performed. -/
def performValue (A : Arithmetic α) (ask : Asker m α) (b : Body) (point : Point) (v : ValueId) :
    ExceptT EvalError m α := do
  let values ← performOps A ask unanswered point b.ops #[]
  given (need values[v]?)

end Perform

theorem getElem?_push_rename {f : Nat → Nat} {vs ws : Array α} (hrel : ∀ v : Nat, ws[f v]? = vs[v]?)
    (hnext : ∀ k : Nat, f (vs.size + k) = ws.size + k) (x : α) (v : Nat) :
    (ws.push x)[f v]? = (vs.push x)[v]? := by
  rw [Array.getElem?_push, Array.getElem?_push]
  by_cases hv : v < vs.size
  · have hfv : f v < ws.size := by
      have hsome := hrel v
      rw [Array.getElem?_eq_getElem hv] at hsome
      exact (Array.getElem?_eq_some_iff.mp hsome).1
    rw [if_neg (by omega), if_neg (by omega), hrel v]
  · obtain ⟨k, rfl⟩ := Nat.exists_eq_add_of_le (Nat.le_of_not_lt hv)
    rw [hnext k]
    by_cases hk : k = 0
    · simp [hk]
    · rw [if_neg (by omega), if_neg (by omega), Array.getElem?_eq_none (by omega),
        Array.getElem?_eq_none (by omega)]

section Steps

variable [Monad m] {A : Arithmetic α} {ask : Asker m α} {answers : Answers m α} {point : Point}

theorem performOp_mapArgs {vs ws : Array α} {f : ValueId → ValueId} {op : Op}
    (h : ∀ a, a ∈ op.args → ws[f a]? = vs[a]?) :
    performOp A ask point ws (op.mapArgs f) = performOp A ask point vs op := by
  have hval : evalOp A (fun _ _ => .error .malformed) point ws (op.mapArgs f) =
      evalOp A (fun _ _ => .error .malformed) point vs op := evalOp_mapArgs h
  cases op with
  | access s o => rfl
  | index d o => rfl
  | constant c => rfl
  | unary o a => exact congrArg given hval
  | binary o l r => exact congrArg given hval
  | call c as q => exact congrArg given hval

theorem performOps_of_unanswered {ops : List Op} {vs : Array α}
    (h : ∀ i, i < ops.length → answers (vs.size + i) = none) :
    performOps A ask answers point ops vs = performOps A ask unanswered point ops vs := by
  induction ops generalizing vs with
  | nil => rfl
  | cons op ops ih =>
    have hfirst : answers vs.size = none := h 0 (by simp)
    simp only [performOps, hfirst, unanswered, Option.getD_none]
    congr 1
    funext v
    apply ih
    intro i hi
    rw [Array.size_push, Nat.add_assoc, Nat.add_comm 1]
    exact h (i + 1) (by simpa using hi)

end Steps

section Laws

variable [Monad m] [LawfulMonad m] {A : Arithmetic α} {ask ask' : Asker m α} {answers : Answers m α}
  {point point' : Point}

@[simp] theorem given_ok_bind {γ : Type} (x : β) (f : β → ExceptT EvalError m γ) :
    given (.ok x) >>= f = f x := by
  ext
  simp [given, ExceptT.run_bind]

@[simp] theorem given_error_bind {γ : Type} (e : EvalError) (f : β → ExceptT EvalError m γ) :
    given (.error e) >>= f = given (.error e) := by
  ext
  simp [given, ExceptT.run_bind]

theorem given_bind {γ : Type} (x : Except EvalError β) (f : β → Except EvalError γ) :
    (given x >>= fun y => given (f y)) = (given (x >>= f) : ExceptT EvalError m γ) := by
  cases x with
  | error e => exact given_error_bind e _
  | ok y => exact given_ok_bind y _

theorem performOps_append (xs ys : List Op) (vs : Array α) :
    performOps A ask answers point (xs ++ ys) vs =
      performOps A ask answers point xs vs >>= performOps A ask answers point ys := by
  induction xs generalizing vs with
  | nil => simp [performOps]
  | cons op xs ih => simp only [List.cons_append, performOps, ih, bind_assoc]

/-- Two sequences whose operations agree step by step, the second under the renaming `f`, lead to the same
end if what follows them does for the same new values. -/
theorem performOps_rename {γ : Type} {f : Nat → Nat} {F : Op → Op} {ops : List Op} {vs ws : Array α}
    {next next' : Array α → ExceptT EvalError m γ}
    (hop : ∀ op : Op, op ∈ ops → ∀ vs' ws' : Array α, (∀ a, a ∈ op.args → ws'[f a]? = vs'[a]?) →
      performOp A ask' point' ws' (F op) = performOp A ask point vs' op)
    (hrel : ∀ v : Nat, ws[f v]? = vs[v]?) (hnext : ∀ k : Nat, f (vs.size + k) = ws.size + k)
    (hends : ∀ new : Array α, new.size = ops.length → next' (ws ++ new) = next (vs ++ new)) :
    performOps A ask' unanswered point' (ops.map F) ws >>= next' =
      performOps A ask unanswered point ops vs >>= next := by
  induction ops generalizing vs ws with
  | nil => simpa [performOps] using hends #[] rfl
  | cons op ops ih =>
    have hv := hop op (by simp) vs ws (fun a _ => hrel a)
    simp only [List.map_cons, performOps, unanswered, Option.getD_none, hv, bind_assoc]
    congr 1
    funext v
    apply ih (fun o ho => hop o (by simp [ho])) (getElem?_push_rename hrel hnext v)
    · intro k
      rw [Array.size_push, Array.size_push, Nat.add_assoc, hnext, Nat.add_assoc]
    · intro new hsize
      have hend := hends (#[v] ++ new) (by simp [hsize]; omega)
      rwa [← Array.append_assoc, ← Array.append_assoc, ← Array.push_eq_append,
        ← Array.push_eq_append] at hend

theorem performOps_bind_congr {γ : Type} {ops : List Op} {vs : Array α}
    {next next' : Array α → ExceptT EvalError m γ}
    (hends : ∀ new : Array α, new.size = ops.length → next' (vs ++ new) = next (vs ++ new)) :
    performOps A ask unanswered point ops vs >>= next' =
      performOps A ask unanswered point ops vs >>= next := by
  have hsame : performOps A ask unanswered point (ops.map fun op => op.mapArgs id) vs >>= next' =
      performOps A ask unanswered point ops vs >>= next :=
    performOps_rename (fun op _ _ _ hargs => performOp_mapArgs hargs) (fun _ => rfl) (fun _ => rfl) hends
  simpa [Op.mapArgs_id] using hsame

end Laws

section Memoryless

variable {A : Arithmetic α} {read read' : Reader α} {point point' : Point}

theorem performOp_given [Monad m] (vs : Array α) (op : Op) :
    performOp (m := m) A (fun s q => given (read s q)) point vs op =
      given (evalOp A read point vs op) := by
  cases op <;> rfl

theorem performOps_given [Monad m] [LawfulMonad m] (ops : List Op) (vs : Array α) :
    performOps (m := m) A (fun s q => given (read s q)) unanswered point ops vs =
      given (evalOps A read point ops vs) := by
  induction ops generalizing vs with
  | nil => rfl
  | cons op ops ih =>
    simp only [performOps, unanswered, Option.getD_none, performOp_given, evalOps]
    rw [← given_bind]
    congr 1
    funext v
    exact ih (vs.push v)

theorem perform_given [Monad m] [LawfulMonad m] (b : Body) :
    perform (m := m) A (fun s q => given (read s q)) unanswered b point =
      given (b.eval A read point) := by
  rw [perform, performOps_given, given_bind, eval]

theorem given_inj {x y : Except EvalError β} (h : (given x : ExceptT EvalError Id β) = given y) :
    x = y := h

theorem evalOps_behind {f : Nat → Nat} {F : Op → Op} {ops : List Op} {ws : Array α}
    (hop : ∀ op : Op, op ∈ ops → ∀ vs' ws' : Array α, (∀ a, a ∈ op.args → ws'[f a]? = vs'[a]?) →
      evalOp A read' point' ws' (F op) = evalOp A read point vs' op)
    (hf : ∀ v : Nat, f v = ws.size + v) :
    evalOps A read' point' (ops.map F) ws = (evalOps A read point ops #[]).map (ws ++ ·) := by
  have hrel : ∀ v : Nat, ws[f v]? = (#[] : Array α)[v]? := by
    intro v
    rw [hf, Array.getElem?_eq_none (by omega)]
    simp
  have hsame : performOps (m := Id) A (fun s q => given (read' s q)) unanswered point' (ops.map F) ws >>=
        (fun vs => given (pure vs)) =
      performOps A (fun s q => given (read s q)) unanswered point ops #[] >>=
        (fun vs => given (pure (ws ++ vs))) := by
    apply performOps_rename _ hrel
    · intro k
      simp [hf]
    · intro new _
      simp
    · intro op ho vs' ws' hargs
      rw [performOp_given, performOp_given, hop op ho vs' ws' hargs]
  rw [performOps_given, performOps_given, given_bind, given_bind, bind_pure, bind_pure_comp] at hsame
  exact given_inj hsame

end Memoryless

/-- The reads issued, oldest first. -/
abbrev Log := List (Nat × Point)

/-- Reads that are written down before they are answered, or not answered. -/
def logged (read : Reader α) : Asker (StateM Log) α := fun slot p => do
  modify (· ++ [(slot, p)])
  given (read slot p)

/-- How an activity ends, and the reads it has issued by then. -/
def outcome (x : ExceptT EvalError (StateM Log) β) : Except EvalError β × Log := Id.run (x.run.run [])

section Logged

variable {A : Arithmetic α} {read : Reader α} {point : Point}

def issued (point : Point) : Op → Log
  | .access slot o => [(slot, List.zipWith (· + ·) point o)]
  | _ => []

theorem readsFrom_cons_ok {op : Op} {vs : Array α} {v : α} (h : evalOp A read point vs op = .ok v)
    (ops : List Op) :
    readsFrom A read point (op :: ops) vs = issued point op ++
      readsFrom A read point ops (vs.push v) := by
  cases op <;> simp [readsFrom, issued, h]

theorem readsFrom_cons_error {op : Op} {vs : Array α} {e : EvalError}
    (h : evalOp A read point vs op = .error e)
    (ops : List Op) : readsFrom A read point (op :: ops) vs = issued point op := by
  cases op <;> simp [readsFrom, issued, h]

theorem run_performOp_logged (vs : Array α) (op : Op) (log : Log) :
    (performOp A (logged read) point vs op).run.run log =
      (evalOp A read point vs op, log ++ issued point op) := by
  cases op with
  | access s o => rfl
  | index d o => exact congrArg (fun l => (_, l)) (List.append_nil log).symm
  | constant c => exact congrArg (fun l => (_, l)) (List.append_nil log).symm
  | unary f a => exact congrArg (fun l => (_, l)) (List.append_nil log).symm
  | binary f l r => exact congrArg (fun l => (_, l)) (List.append_nil log).symm
  | call c as q => exact congrArg (fun l => (_, l)) (List.append_nil log).symm

theorem run_performOps_logged (ops : List Op) (vs : Array α) (log : Log) :
    (performOps A (logged read) unanswered point ops vs).run.run log =
      (evalOps A read point ops vs, log ++ readsFrom A read point ops vs) := by
  induction ops generalizing vs log with
  | nil => exact congrArg (fun l => (_, l)) (List.append_nil log).symm
  | cons op ops ih =>
    rw [performOps, unanswered, Option.getD_none, ExceptT.run_bind, StateT.run_bind, run_performOp_logged,
      evalOps]
    cases hop : evalOp A read point vs op with
    | error e => rw [readsFrom_cons_error hop, error_bind]; rfl
    | ok v =>
      rw [readsFrom_cons_ok hop, ok_bind, ← List.append_assoc]
      exact ih (vs.push v) (log ++ issued point op)

/-- With a log the activity of a body ends as its evaluation does, and leaves its reads. -/
theorem outcome_perform_logged (b : Body) :
    outcome (perform A (logged read) unanswered b point) = (b.eval A read point,
      b.reads A read point) := by
  rw [outcome, perform, ExceptT.run_bind, StateT.run_bind, run_performOps_logged, eval]
  cases evalOps A read point b.ops #[] <;> rfl

end Logged

end Stencil.Body
