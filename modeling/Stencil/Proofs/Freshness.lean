import Stencil.Proofs.Closure
import Stencil.Proofs.Unrolling

/-! Freshness is truthful. A function takes part in any series of analyses and rewritings, each of which
may fail; whenever its stamp is that of its structure, its annotations are those that a new inference
computes. The argument follows the stamp: it was given by an inference, and a function that still has it
is what that inference returned or has since lost or unrolled a region, which nothing undoes. -/

set_option autoImplicit false

namespace Stencil

namespace Inference

theorem infers_of_order {f : Func} {order : List RegionId} (hv : f.verified = .ok ())
    (ho : f.order = .ok order) (hb : firstOutOfBounds? (propagate f order).func order = none) :
    Infers f (propagate f order).func.recordStamp := by
  rw [Infers, run_def]
  simp [hv, ho, hb]

theorem propagate_congr {f g : Func} (h : f.SameStructure g) (order : List RegionId) :
    propagate f order = propagate g order := by
  rw [propagate_def, propagate_def, seed, seed, h.outputs_eq, show f.clearShapes = g.clearShapes from h]

theorem Infers.congr {f g k : Func} (h : Infers f k) (hsame : f.SameStructure g) : Infers g k := by
  obtain ⟨report, hok, rfl⟩ := h
  obtain ⟨order, hv, ho, hb, hfunc, _⟩ := run_done hok
  rw [propagate_congr hsame] at hb hfunc
  rw [hfunc]
  exact infers_of_order (hsame.verified hv) (hsame.order_eq ho) hb

theorem Infers.stamp_eq {f g : Func} (h : Infers f g) : g.stamp = some g.fingerprint.words := by
  obtain ⟨report, hok, rfl⟩ := h
  obtain ⟨order, _, _, _, hfunc, _⟩ := run_done hok
  rw [hfunc]
  rfl

theorem stamp_growTemp (p : Progress) (t : TempId) (b : Box) :
    (p.growTemp t b).func.stamp = p.func.stamp := by
  unfold Progress.growTemp
  split
  · rfl
  · simp only
    split <;> rfl

theorem stamp_growBuffer (p : Progress) (id : BufferId) (b : Box) :
    (p.growBuffer id b).func.stamp = p.func.stamp := by
  unfold Progress.growBuffer
  split
  · rfl
  · simp only
    split <;> rfl

theorem stamp_growRegion (p : Progress) (id : RegionId) (b : Box) :
    (p.growRegion id b).func.stamp = p.func.stamp := by
  unfold Progress.growRegion
  split
  · rfl
  · simp only
    split <;> rfl

theorem stamp_demandOperand (p : Progress) (operands : List Operand) (fp : Footprint) :
    (p.demandOperand operands fp).func.stamp = p.func.stamp := by
  unfold Progress.demandOperand
  split
  · unfold Progress.demandTemp
    split
    · rfl
    · split
      · rfl
      · unfold Progress.enqueue
        split <;> exact stamp_growTemp p _ _
  · exact stamp_growBuffer p _ _
  · rfl

theorem stamp_foldl {β : Type} {step : Progress → β → Progress}
    (hstep : ∀ p x, (step p x).func.stamp = p.func.stamp) (xs : List β) (p : Progress) :
    (xs.foldl step p).func.stamp = p.func.stamp := by
  induction xs generalizing p with
  | nil => rfl
  | cons x xs ih => rw [List.foldl_cons, ih, hstep]

theorem stamp_visit (p : Progress) (id : RegionId) : (visit p id).func.stamp = p.func.stamp := by
  rw [visit_def]
  split
  · rfl
  · split
    · rfl
    · rw [stamp_foldl (fun p fp => stamp_demandOperand p _ fp), stamp_growRegion]

theorem stamp_settle (fuel : Nat) (p : Progress) : (settle fuel p).func.stamp = p.func.stamp := by
  induction fuel generalizing p with
  | zero => rfl
  | succ fuel ih =>
    rw [settle_succ]
    split
    · rfl
    · rw [ih, stamp_visit]

/-- The annotations are cleared, with the stamp, before anything is demanded. -/
theorem stamp_propagate (f : Func) (order : List RegionId) : (propagate f order).func.stamp = none := by
  rw [propagate_def, stamp_settle, seed]
  exact stamp_foldl (fun p (o : OutputMark) => stamp_growTemp p o.temp o.domain) _ _

theorem run_cases (f : Func) :
    Infers f (run f).func ∨ (run f).func = f ∨ (run f).func.stamp = none := by
  unfold Infers
  have hran := ran_run f
  generalize run f = r at hran ⊢
  cases hran with
  | invalid hv => exact .inr (.inl rfl)
  | cyclic hv ho => exact .inr (.inl rfl)
  | outOfBounds hv ho hb => exact .inr (.inr (stamp_propagate f _))
  | done hv ho hb hcert hcodes => exact .inl ⟨_, rfl, rfl⟩

end Inference

namespace Func

/-- The annotations pass every check and are what inference computes for the present structure. -/
structure Truthful (f : Func) : Prop where
  verified : f.verified = .ok ()
  certified : (Inference.certificate f).allPass = true
  inferred : Inference.Infers f f

/-- Every pass that reads annotations refuses the function, which stays as it is. -/
structure Refused (f : Func) : Prop where
  inlining : Inlining.run f = (f, .error (.staleShapes "inlining"))
  unrolling : ∀ options, Unrolling.run options f = (f, .error (.staleShapes "unrolling"))
  evaluation : ∀ {α : Type} (A : Arithmetic α) (inputs : Evaluation.Inputs α),
    Evaluation.run A f inputs = .error .staleShapes

theorem truthful_of_infers {f g : Func} (h : Inference.Infers f g) : g.Truthful := by
  obtain ⟨hsame, order, hg⟩ := h.analysed
  refine ⟨h.verified, ?_, h.congr hsame⟩
  rw [certificate_eq hg.sound hg.annotated]
  rfl

theorem refused_of_stale {f : Func} (h : f.fresh = false) : f.Refused := by
  refine ⟨?_, ?_, ?_⟩
  · simp [Inlining.run, ensureFresh, h]
  · intro options
    simp [Unrolling.runIn, ensureFresh, h]
    rfl
  · intro α A inputs
    simp [Evaluation.run, h]

/-- A region that was not unrolled is gone or unrolled. -/
def Advanced (f g : Func) : Prop :=
  ∃ id r, f.region? id = some r ∧ r.unroll = none ∧ ∀ r', g.region? id = some r' → r'.unroll.isSome = true

theorem Advanced.not_sameStructure {f g : Func} (h : f.Advanced g) : ¬ f.SameStructure g := by
  intro hsame
  obtain ⟨id, r, hr, hnone, hgone⟩ := h
  obtain ⟨r', s, hr', rfl⟩ := hsame.symm.exists_region hr
  have hsome := hgone r' hr'
  rw [show r'.unroll = none from hnone] at hsome
  cases hsome

/-- What a series of rewritings can make of `f`: it loses the stamp, or nothing has changed, or the
structure has moved on. -/
def Follows (f g : Func) : Prop := g.stamp = none ∨ (g.stamp = f.stamp ∧ (g = f ∨ f.Advanced g))

theorem Follows.refl (f : Func) : f.Follows f := .inr ⟨rfl, .inl rfl⟩

theorem Follows.invalidate {f g : Func} (_ : f.Follows g) : f.Follows g.invalidate := .inl rfl

theorem Follows.unrollRegion {f g k : Func} (h : f.Follows g) {options : Unrolling.Options}
    {id : RegionId}
    (hk : Unrolling.unrollRegion options g id = .ok k) : f.Follows k := by
  obtain ⟨r, divisible, hr, hcheck, rfl⟩ := Unrolling.unrollRegionIn_eq_ok hk
  rcases h with hstamp | ⟨hstamp, rfl | ⟨id', r', hr', hnone, hgone⟩⟩
  · exact .inl hstamp
  · refine .inr ⟨rfl, .inr ⟨id, r, hr, (Unrolling.plain_of_check hcheck).1, ?_⟩⟩
    intro q hq
    rw [region?_modifyRegion_self hr] at hq
    cases hq
    rfl
  · refine .inr ⟨hstamp, .inr ⟨id', r', hr', hnone, ?_⟩⟩
    intro q hq
    rcases region_cases_modifyRegion hr hq with ⟨_, rfl⟩ | ⟨_, hq⟩
    · rfl
    · exact hgone q hq

theorem Follows.applySplice {f g : Func} (h : f.Follows g) (hg : g.Sound) {c : Inlining.Candidate}
    {P C : Region} {B : Body} {temp : TempId} {slot : Nat} {offset : Offset} {dP dC : Box}
    (S : Inlining.Spliceable g c P C B temp slot offset dP dC) :
    f.Follows (Inlining.applySplice g c) := by
  have hkeep : (Inlining.applySplice g c).stamp = g.stamp := by
    rw [S.applySplice_eq, removeRegion_eq S.region?_producer]
    rfl
  rcases h with hstamp | ⟨hstamp, rfl | ⟨id, r, hr, hnone, hgone⟩⟩
  · exact .inl (hkeep.trans hstamp)
  · refine .inr ⟨hkeep, .inr ⟨c.producer, P, S.producer, S.plain.1, ?_⟩⟩
    intro r' hr'
    exact absurd rfl (S.region_cases hr').1
  · refine .inr ⟨hkeep.trans hstamp, .inr ⟨id, r, hr, hnone, ?_⟩⟩
    intro r' hr'
    obtain ⟨_, ⟨rfl, rfl⟩ | ⟨_, hr'⟩⟩ := S.region_cases hr'
    · rw [(S.mergeRegion_frame hg).2.2.1]
      exact hgone C S.consumer
    · exact hgone r' hr'

theorem Follows.inlining {f : Func} (hf : f.Sound) : f.Follows (Inlining.run f).1 :=
  (Inlining.run_induction (fun S hg h => Follows.applySplice h hg S) Follows.invalidate hf
    (Follows.refl f)).2

theorem Follows.unrolling {f g : Func} (h : f.Follows g) (options : Unrolling.Options) :
    f.Follows (Unrolling.run options g).1 :=
  Unrolling.run_induction (fun hk h => Follows.unrollRegion h hk) Follows.invalidate h

end Func

/-- What can be asked of a function, each with its own options. -/
inductive Operation where
  | infer
  | inline
  | unroll (options : Unrolling.Options)
  | unrollRegion (options : Unrolling.Options) (id : RegionId)

namespace Operation

def apply : Operation → Func → Func
  | infer, f => (Inference.run f).func
  | inline, f => (Inlining.run f).1
  | unroll options, f => (Unrolling.run options f).1
  | unrollRegion options id, f =>
    match Unrolling.unrollRegion options f id with
    | .ok g => g
    | .error _ => f

/-- Every state of a function to which operations are applied in turn, the first and last included. -/
def states (f : Func) : List Operation → List Func
  | [] => [f]
  | o :: rest => f :: states (o.apply f) rest

/-- The stamp of a function comes from an inference among the states of which `P` holds. -/
def Stamped (P : Func → Prop) (f : Func) : Prop :=
  f.stamp = none ∨ ∃ f₀ g, P g ∧ Inference.Infers f₀ g ∧ g.Follows f

theorem Stamped.follow {P : Func → Prop} {f g : Func} (h : Stamped P f)
    (hstep : ∀ k : Func, k.Follows f → k.Follows g) : Stamped P g := by
  rcases h with h | ⟨f₀, k, hk, hinfers, h⟩
  · rcases hstep f (.refl f) with hg | ⟨hg, _⟩
    · exact .inl hg
    · exact .inl (hg.trans h)
  · exact .inr ⟨f₀, k, hk, hinfers, hstep k h⟩

section Stamped

variable {P : Func → Prop}
  (hdistinct : ∀ g k, P g → P k → g.fingerprint = k.fingerprint → g.SameStructure k)

include hdistinct

theorem Stamped.exists_infers {f : Func} (h : Stamped P f) (hf : P f) (hfresh : f.fresh = true) :
    ∃ f₀, Inference.Infers f₀ f := by
  rw [Func.fresh_iff] at hfresh
  rcases h with h | ⟨f₀, g, hg, hinfers, h | ⟨hsame, rfl | hadv⟩⟩
  · rw [h] at hfresh
    cases hfresh
  · rw [h] at hfresh
    cases hfresh
  · exact ⟨f₀, hinfers⟩
  · rw [hfresh, hinfers.stamp_eq, Option.some.injEq] at hsame
    have heq : g.fingerprint = f.fingerprint := (Sha256.State.words_injective hsame).symm
    exact absurd (hdistinct g f hg hf heq) hadv.not_sameStructure

theorem Stamped.step {f : Func} (h : Stamped P f) (hf : P f) {o : Operation} (ho : P (o.apply f)) :
    Stamped P (o.apply f) := by
  cases o with
  | infer =>
    rcases Inference.run_cases f with hrun | hrun | hrun
    · exact .inr ⟨f, _, ho, hrun, .refl _⟩
    · rw [Operation.apply, hrun]
      exact h
    · exact .inl hrun
  | inline =>
    cases hfresh : f.fresh with
    | false =>
      rw [Operation.apply, (Func.refused_of_stale hfresh).inlining]
      exact h
    | true =>
      -- only fresh functions are spliced, so `f` is what the inference returned, and sound
      obtain ⟨f₀, hinfers⟩ := h.exists_infers hdistinct hf hfresh
      obtain ⟨_, _, hfa⟩ := hinfers.analysed
      exact .inr ⟨f₀, f, hf, hinfers, .inlining hfa.sound⟩
  | unroll options => exact h.follow fun k hk => hk.unrolling options
  | unrollRegion options id =>
    cases hu : Unrolling.unrollRegion options f id with
    | error e =>
      rw [Operation.apply, hu]
      exact h
    | ok g =>
      rw [Operation.apply, hu]
      exact h.follow fun k hk => hk.unrollRegion hu

theorem Stamped.run {f : Func} (h : Stamped P f) {os : List Operation}
    (hP : ∀ g, g ∈ states f os → P g) : ∀ g, g ∈ states f os → Stamped P g := by
  induction os generalizing f with
  | nil =>
    intro g hg
    rw [List.mem_singleton.mp hg]
    exact h
  | cons o os ih =>
    have hfirst : ∀ g, g ∈ states g os := by
      intro g
      cases os <;> exact List.mem_cons_self
    have hnext : P (o.apply f) := hP _ (List.mem_cons_of_mem f (hfirst _))
    intro g hg
    rcases List.mem_cons.mp hg with rfl | hg
    · exact h
    · exact ih (h.step hdistinct (hP f List.mem_cons_self) hnext)
        (fun k hk => hP k (List.mem_cons_of_mem f hk)) g hg

end Stamped

/-- From a function without a stamp, however analyses and rewritings follow each other and wherever they
fail: at every moment, fresh annotations are true, and those that are not true are refused. -/
theorem fresh_states_truthful {f : Func} (hstamp : f.stamp = none) (os : List Operation)
    (hdistinct : ∀ g k, g ∈ states f os → k ∈ states f os → g.fingerprint = k.fingerprint →
      g.SameStructure k) :
    ∀ g, g ∈ states f os → (g.fresh = true → g.Truthful) ∧ (g.Truthful ∨ g.Refused) := by
  intro g hg
  have htrue : g.fresh = true → g.Truthful := by
    intro hfresh
    have hstamped : Stamped (· ∈ states f os) g := Stamped.run hdistinct (.inl hstamp) (fun _ h => h) g hg
    obtain ⟨_, hinfers⟩ := hstamped.exists_infers hdistinct hg hfresh
    exact Func.truthful_of_infers hinfers
  refine ⟨htrue, ?_⟩
  cases hfresh : g.fresh with
  | true => exact .inl (htrue hfresh)
  | false => exact .inr (Func.refused_of_stale hfresh)

def counted : Func where
  name := "f"
  rank := 1
  buffers := []
  temps := [some ⟨"t", .f64, 0, 0, .unknown⟩]
  regions := [some ⟨"r", [], .ofOps [.index 0 [0]] [0], none, [0], .unknown⟩]
  outputs := [⟨0, ⟨[0], [2]⟩⟩]
  stamp := none

/-- The structure of `counted` after its region was unrolled by two. -/
def countedTwice : Func where
  name := "f"
  rank := 1
  buffers := []
  temps := [some ⟨"t", .f64, 0, 0, .unknown⟩]
  regions := [some ⟨"r", [], ⟨[.index 0 [0], .index 0 [1]], ⟨[0, 1], some ⟨0, 2⟩⟩⟩, none, [0], .unknown⟩]
  outputs := [⟨0, ⟨[0], [2]⟩⟩]
  stamp := none

theorem fingerprint_counted : counted.fingerprint ≠ countedTwice.fingerprint := by decide +kernel

theorem sameStructure_of_classes {gs : List Func} {a b : Func} (hne : a.fingerprint ≠ b.fingerprint)
    (hclass : ∀ g, g ∈ gs → a.SameStructure g ∨ b.SameStructure g) {g k : Func} (hg : g ∈ gs)
    (hk : k ∈ gs) (h : g.fingerprint = k.fingerprint) : g.SameStructure k := by
  rcases hclass g hg with hg | hg <;> rcases hclass k hk with hk | hk
  · exact hg.symm.trans hk
  · exact absurd (hg.fingerprint_eq.trans (h.trans hk.fingerprint_eq.symm)) hne
  · exact absurd (hk.fingerprint_eq.trans (h.symm.trans hg.fingerprint_eq.symm)) hne
  · exact hg.symm.trans hk

/-- The region is unrolled behind the back of the stamp; inlining refuses, and a new inference repairs. -/
theorem fresh_states_truthful_counted :
    ∃ g₁ g₂ g₃, states counted [.infer, .unrollRegion {} 0, .inline, .infer] = [counted, g₁, g₂, g₂, g₃] ∧
      counted.stamp = none ∧
      (∀ g k, g ∈ [counted, g₁, g₂, g₂, g₃] → k ∈ [counted, g₁, g₂, g₂, g₃] →
        g.fingerprint = k.fingerprint → g.SameStructure k) ∧
      g₁.Truthful ∧ g₂.Refused ∧ g₃.Truthful := by
  obtain ⟨g₁, g₂, hinfer, hunroll, h₁, hsame₂, hstamp⟩ : ∃ g₁ g₂, Operation.apply .infer counted = g₁ ∧
      Operation.apply (.unrollRegion {} 0) g₁ = g₂ ∧ Inference.Infers counted g₁ ∧
      countedTwice.SameStructure g₂ ∧ g₂.stamp = g₁.stamp :=
    ⟨_, _, rfl, rfl, ⟨_, rfl, rfl⟩, rfl, rfl⟩
  obtain ⟨g₃, h₃⟩ : ∃ g₃, Inference.Infers g₂ g₃ := ⟨_, Inference.Infers.congr ⟨_, rfl, rfl⟩ hsame₂⟩
  obtain ⟨hsame₁, _, hg₁⟩ := h₁.analysed
  obtain ⟨hsame₃, _, hg₃⟩ := h₃.analysed
  have hstale : g₂.fresh = false := by
    rw [Bool.eq_false_iff]
    intro hfresh
    rw [Func.fresh_iff, hstamp, h₁.stamp_eq, Option.some.injEq] at hfresh
    apply fingerprint_counted
    rw [hsame₁.fingerprint_eq, hsame₂.fingerprint_eq, Sha256.State.words_injective hfresh]
  have hinline : Operation.apply .inline g₂ = g₂ :=
    congrArg Prod.fst (Func.refused_of_stale hstale).inlining
  have hagain : Operation.apply .infer g₂ = g₃ := h₃.choose_spec.2
  have hstates : states counted [.infer, .unrollRegion {} 0, .inline, .infer] =
      [counted, g₁, g₂, g₂, g₃] := by
    simp only [states, hinfer, hunroll, hinline, hagain]
  have hdistinct : ∀ g k, g ∈ [counted, g₁, g₂, g₂, g₃] → k ∈ [counted, g₁, g₂, g₂, g₃] →
      g.fingerprint = k.fingerprint → g.SameStructure k := by
    intro g k hg hk
    refine sameStructure_of_classes fingerprint_counted ?_ hg hk
    simp only [List.mem_cons, List.not_mem_nil, or_false]
    rintro g (rfl | rfl | rfl | rfl | rfl)
    · exact .inl rfl
    · exact .inl hsame₁
    · exact .inr hsame₂
    · exact .inr hsame₂
    · exact .inr (hsame₂.trans hsame₃)
  have htrue :=
    fresh_states_truthful rfl [.infer, .unrollRegion {} 0, .inline, .infer] (hstates ▸ hdistinct)
  rw [hstates] at htrue
  exact ⟨g₁, g₂, g₃, hstates, rfl, hdistinct, (htrue g₁ (by simp)).1 hg₁.fresh,
    Func.refused_of_stale hstale, (htrue g₃ (by simp)).1 hg₃.fresh⟩

end Operation

end Stencil
