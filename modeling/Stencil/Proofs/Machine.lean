import Stencil.Proofs.Lifting

/-! Inference on a machine. Every addition, subtraction, multiplication and division of inference is
left to a machine, which may trap or wrap around. On a machine with unbounded integers this is
inference itself. -/

set_option autoImplicit false

namespace Stencil

theorem Representable.div {a b : Int} (ha : Representable a) (hnonneg : 0 ≤ a) (hpos : 0 < b) :
    Representable (a / b) := by
  have hle := Int.ediv_le_self b hnonneg
  have hge := Int.ediv_nonneg hnonneg (Int.le_of_lt hpos)
  exact ⟨by omega, Int.le_trans hle ha.2⟩

/-- The integer operations of a machine; one that yields nothing traps. -/
structure Machine where
  add : Int → Int → Option Int
  sub : Int → Int → Option Int
  mul : Int → Int → Option Int
  div : Int → Int → Option Int

namespace Machine

def exact : Machine where
  add a b := some (a + b)
  sub a b := some (a - b)
  mul a b := some (a * b)
  div a b := some (a / b)

def representable? (x : Int) : Option Int := if Representable x then some x else none

/-- 64 bits, with a trap at every overflow. Division truncates. -/
def checked : Machine where
  add a b := representable? (a + b)
  sub a b := representable? (a - b)
  mul a b := representable? (a * b)
  div a b := if b = 0 then none else representable? (a.tdiv b)

def wrapping : Machine where
  add a b := some (Int64.ofInt a + Int64.ofInt b).toInt
  sub a b := some (Int64.ofInt a - Int64.ofInt b).toInt
  mul a b := some (Int64.ofInt a * Int64.ofInt b).toInt
  div a b := if b = 0 then none else some (Int64.ofInt a / Int64.ofInt b).toInt

/-- Operations are right when 64 bits hold their operands and their result. -/
structure Faithful (M : Machine) : Prop where
  add : ∀ {a b}, Representable a → Representable b → Representable (a + b) → M.add a b = some (a + b)
  sub : ∀ {a b}, Representable a → Representable b → Representable (a - b) → M.sub a b = some (a - b)
  mul : ∀ {a b}, Representable a → Representable b → Representable (a * b) → M.mul a b = some (a * b)
  div : ∀ {a b}, Representable a → Representable b → 0 ≤ a → 0 < b → M.div a b = some (a / b)

theorem representable?_eq {x : Int} (h : Representable x) : representable? x = some x := if_pos h

theorem faithful_checked : Faithful checked where
  add _ _ h := representable?_eq h
  sub _ _ h := representable?_eq h
  mul _ _ h := representable?_eq h
  div ha _ hnonneg hpos := by
    simp only [checked, if_neg (Int.ne_of_gt hpos), Int.tdiv_eq_ediv_of_nonneg hnonneg]
    exact representable?_eq (ha.div hnonneg hpos)

theorem toInt_ofInt {x : Int} (h : Representable x) : (Int64.ofInt x).toInt = x := by
  obtain ⟨hl, hu⟩ := h
  exact Int64.toInt_ofInt_of_le (by omega) (by omega)

theorem faithful_wrapping : Faithful wrapping where
  add _ _ h := by rw [← toInt_ofInt h, Int64.ofInt_add]; rfl
  sub _ _ h := by rw [← toInt_ofInt h, Int64.ofInt_sub]; rfl
  mul _ _ h := by rw [← toInt_ofInt h, Int64.ofInt_mul]; rfl
  div ha hb hnonneg hpos := by
    rw [← toInt_ofInt (ha.div hnonneg hpos), ← Int.tdiv_eq_ediv_of_nonneg hnonneg,
      Int64.ofInt_tdiv ha.1 ha.2 hb.1 hb.2]
    simp only [wrapping, if_neg (Int.ne_of_gt hpos)]

variable (M : Machine)

def extent (b : Box) (axis : Nat) : Option Int :=
  match b.lb[axis]?, b.ub[axis]? with
  | some l, some u => do return max (← M.sub u l) 0
  | _, _ => some 0

def addAll (xs : List Int) (o : Offset) : Option (List Int) := (xs.zip o).mapM fun x => M.add x.1 x.2

def shifted (b : Box) (o : Offset) : Option Box :=
  if b.isEmpty then some (.empty b.rank)
  else do
    let lb ← M.addAll b.lb o
    let ub ← M.addAll b.ub o
    return ⟨lb, ub⟩

/-- The operations of inference, with all arithmetic on the machine. -/
def primitives : Primitives Option :=
  { Primitives.total Option with
    add := M.add
    sub := M.sub
    mul := M.mul
    div := M.div
    extent := M.extent
    shifted := M.shifted }

/-- Inference with the operations of the machine. It yields nothing when an operation traps. -/
def run (f : Func) : Option Inference.Run := Inference.runIn M.primitives (some f.order) f

section Shifted

variable {M}

theorem shifted_eq {b : Box} {o : Offset}
    (h : ∀ x y, x ∈ b.lb ++ b.ub → y ∈ o → M.add x y = some (x + y)) :
    M.shifted b o = some (b.shifted o) := by
  have hall : ∀ xs, (∀ x, x ∈ xs → x ∈ b.lb ++ b.ub) →
      M.addAll xs o = some (List.zipWith (· + ·) xs o) := by
    intro xs hxs
    rw [addAll, ← List.map_uncurry_zip_eq_zipWith]
    apply (Agreement.returns Option).mapM
    rintro ⟨x, y⟩ hxy
    exact h x y (hxs x (List.of_mem_zip hxy).1) (List.of_mem_zip hxy).2
  unfold shifted Box.shifted
  split
  · rfl
  · rw [hall b.lb fun x hx => List.mem_append_left _ hx, hall b.ub fun x hx => List.mem_append_right _ hx]
    rfl

end Shifted

theorem exact_primitives : exact.primitives = .total Option := by
  have hextent : exact.extent = fun b axis => some (b.extent axis) := by
    funext b axis
    unfold extent Box.extent
    cases b.lb[axis]? with
    | none => rfl
    | some l => cases b.ub[axis]? <;> rfl
  have hshifted : exact.shifted = fun b o => some (b.shifted o) := by
    funext b o
    exact shifted_eq fun _ _ _ _ => rfl
  rw [primitives, hextent, hshifted]
  rfl

/-- On unbounded integers the machine does what inference does. -/
theorem exact_run (f : Func) : exact.run f = some (Inference.run f) := by
  rw [run, exact_primitives]
  exact Inference.agrees_total (.returns Option) f

end Machine

end Stencil
