import Stencil.Proofs.Loading
import Stencil.Proofs.Obligations

/-! What the resolution lets through is valid. A function is kept just when its own declaration has
no fault and its name is new, whatever becomes of the others, and a function that is kept has no
violation. -/

set_option autoImplicit false

namespace Stencil

theorem Func.Built.verified {f : Func} {d : FuncDecl} {declared : Resolution.Declared} {rs : List Region}
    (h : f.Built d declared rs) : f.verified = .ok () := by
  refine Func.verified_iff.mpr ⟨h.sound, ?_, ?_, ?_, ?_⟩
  · intro id r o hr ho
    exact h.operandLive ((h.placed hr).operands o ho)
  · intro id r b op hr hb hop
    exact (h.placed hr).inRange b hb op hop
  · intro b x hb hx
    exact (h.boxed.domain b hb x hx).wellFormed
  · intro o ho
    exact (h.outputs o ho).2.wellFormed

namespace Program

/-- Whatever a source says, each function of its program comes from the first declaration of its name,
which has no fault of its own, and meets every obligation. -/
theorem resolved_functions_valid {source : String} {d : ProgramDecl}
    (h : (Parsed.ofSource source).program = some d) (f : Func) :
    (f ∈ (ofDecl d).value.functions ↔ ∃ before e after, d.functions = before ++ e :: after ∧
      e.name.text ∉ before.map (·.name.text) ∧ Resolution.function e = pure (some f)) ∧
    (f ∈ (ofDecl d).value.functions → f.violations = []) := by
  constructor
  · have hkept : f ∈ (Resolution.functions [] d.functions).value ↔ _ := Resolution.mem_functions_iff
    simpa [ofDecl_functions] using hkept
  · intro hf
    obtain ⟨e, declared, rs, hbuilt⟩ := built_of_mem h hf
    exact Func.violations_eq_nil hbuilt.verified

/-- The first function marks what nobody computes; the second stands in no order, is unrolled and has
an epilogue; the third has its name. -/
def mixedSource : String :=
  "func a rank 1 \x7boutput %z [0:1]\x7d
  func k rank 1 \x7boutput %q [0:5] %q = apply r(%p)->f64 \x7b%w = access %p[0] return %w,%w unroll 0 by 2\x7d
  epilogue \x7b%w = access %p[1] return %w\x7d %p = apply p()->f64 \x7b%c = const 1 return %c\x7d\x7d
  func k rank 1 \x7b\x7d"

def forward : Func where
  name := "k"
  rank := 1
  buffers := []
  temps := [some ⟨"q", .f64, 0, 0, .unknown⟩, some ⟨"p", .f64, 1, 0, .unknown⟩]
  regions := [
    some ⟨"r", [.temp 1], ⟨[.access 0 [0]], [0, 0], some ⟨0, 2⟩⟩, some ⟨[.access 0 [1]], [0], none⟩, [0],
      .unknown⟩,
    some ⟨"p", [], ⟨[.constant ⟨0x3FF0000000000000⟩], [0], none⟩, none, [1], .unknown⟩]
  outputs := [⟨0, ⟨[0], [5]⟩⟩]
  stamp := none

theorem resolved_functions_valid_mixed :
    ∃ d, (Parsed.ofSource mixedSource).program = some d ∧ (ofDecl d).value.functions = [forward] ∧
      (ofDecl d).diagnostics ≠ [] ∧ forward.violations = [] := by
  have hread : ((Parsed.ofSource mixedSource).program.map fun d =>
      ((ofDecl d).value.functions, (ofDecl d).diagnostics.length)) = some ([forward], 2) := by
    decide +kernel
  obtain ⟨d, hd, heq⟩ := Option.map_eq_some_iff.mp hread
  have hfunctions : (ofDecl d).value.functions = [forward] := congrArg Prod.fst heq
  have hdiagnostics : (ofDecl d).diagnostics.length = 2 := congrArg Prod.snd heq
  refine ⟨d, hd, hfunctions, ?_, (resolved_functions_valid hd forward).2 ?_⟩
  · intro hnil
    simp [hnil] at hdiagnostics
  · rw [hfunctions]
    exact List.mem_singleton_self forward

end Program

end Stencil
