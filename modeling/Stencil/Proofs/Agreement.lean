/-! Computations that agree with values. A computation that may fail is compared with the value it
should have; whatever is kept when computations are put in sequence is kept by the loops over
lists. -/

set_option autoImplicit false

namespace Stencil

/-- A way for computations to agree with values that is kept in sequence. -/
structure Agreement (m : Type → Type) [Monad m] where
  Agrees : ∀ {α : Type}, m α → α → Prop
  value : ∀ {α : Type} (a : α), Agrees (pure a) a
  next : ∀ {α β : Type} {x : m α} {a : α} {f : α → m β} {b : β}, Agrees x a → Agrees (f a) b →
    Agrees (x >>= f) b

namespace Agreement

/-- The computation returns the value. -/
def returns (m : Type → Type) [Monad m] [LawfulMonad m] : Agreement m where
  Agrees x a := x = pure a
  value _ := rfl
  next hx hf := by rw [hx, pure_bind, hf]

/-- The computation returns no other value. -/
def unlessNone : Agreement Option where
  Agrees x a := x = none ∨ x = some a
  value _ := .inr rfl
  next hx hf := by
    rcases hx with rfl | rfl
    · exact .inl rfl
    · exact hf

variable {m : Type → Type} [Monad m] (A : Agreement m) {β γ σ : Type}

theorem mapM [LawfulMonad m] {F : β → m γ} {G : β → γ} {xs : List β}
    (h : ∀ x, x ∈ xs → A.Agrees (F x) (G x)) :
    A.Agrees (xs.mapM F) (xs.map G) := by
  induction xs with
  | nil => exact A.value []
  | cons x xs ih =>
    rw [List.mapM_cons]
    exact A.next (h x List.mem_cons_self)
      (A.next (ih fun y hy => h y (List.mem_cons_of_mem _ hy)) (A.value _))

theorem allM {F : β → m Bool} {G : β → Bool} {xs : List β} (h : ∀ x, x ∈ xs → A.Agrees (F x) (G x)) :
    A.Agrees (xs.allM F) (xs.all G) := by
  induction xs with
  | nil => exact A.value true
  | cons x xs ih =>
    refine A.next (h x List.mem_cons_self) ?_
    rw [List.all_cons]
    cases G x with
    | false => exact A.value false
    | true => exact ih fun y hy => h y (List.mem_cons_of_mem _ hy)

theorem findSomeM? {F : β → m (Option γ)} {G : β → Option γ} {xs : List β}
    (h : ∀ x, x ∈ xs → A.Agrees (F x) (G x)) : A.Agrees (xs.findSomeM? F) (xs.findSome? G) := by
  induction xs with
  | nil => exact A.value none
  | cons x xs ih =>
    refine A.next (h x List.mem_cons_self) ?_
    rw [List.findSome?_cons]
    cases G x with
    | some y => exact A.value (some y)
    | none => exact ih fun y hy => h y (List.mem_cons_of_mem _ hy)

/-- What holds at the start and after every step of the value, and makes the next step agree, makes
all agree. -/
theorem foldlM {F : σ → β → m σ} {G : σ → β → σ} {Q : σ → Prop} {xs : List β}
    (h : ∀ s x, x ∈ xs → Q s → A.Agrees (F s x) (G s x) ∧ Q (G s x)) {s : σ} (hs : Q s) :
    A.Agrees (xs.foldlM F s) (xs.foldl G s) := by
  induction xs generalizing s with
  | nil => exact A.value s
  | cons x xs ih =>
    obtain ⟨hstep, hnext⟩ := h s x List.mem_cons_self hs
    rw [List.foldlM_cons]
    exact A.next hstep (ih (fun s y hy => h s y (List.mem_cons_of_mem _ hy)) hnext)

end Agreement

end Stencil
