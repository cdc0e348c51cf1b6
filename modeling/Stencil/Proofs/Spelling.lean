import Stencil.Proofs.Parsing

/-! Names that were read can be written again: a declaration is written with the tokens it was read
from, and every token of a source can be written. -/

set_option autoImplicit false

namespace Stencil

open Lexer

def OpDecl.Spelled : OpDecl → Prop
  | .call callee _ _ => isIdent callee.text = true
  | _ => True

def BodyDecl.Spelled (d : BodyDecl) : Prop := ∀ s ∈ d.statements, s.op.Spelled

structure RegionDecl.Spelled (d : RegionDecl) : Prop where
  name : isIdent d.name.text = true
  results : d.results ≠ [] ∧ ∀ n ∈ d.results, isLocalName n.text = true
  body : d.body.Spelled
  epilogue : ∀ e, d.epilogue = some e → e.Spelled

def ItemDecl.Spelled : ItemDecl → Prop
  | .buffer d => isGlobalName d.name.text = true
  | .region d => d.Spelled
  | .output _ => True

structure FuncDecl.Spelled (d : FuncDecl) : Prop where
  name : isIdent d.name.text = true
  rank : intInRange d.rank = true
  items : ∀ i ∈ d.items, i.Spelled

def Writable (ts : List Token) : Prop := ∀ t ∈ ts, isWritable t = true

theorem Writable.subset {ts us : List Token} (h : Writable us) (hsub : ts ⊆ us) : Writable ts :=
  fun t ht => h t (hsub ht)

theorem OpDecl.spelled_of_writable {d : OpDecl} (h : Writable d.tokens) : d.Spelled := by
  cases d with
  | call callee args isPure => exact h (.ident callee.text) (by simp [OpDecl.tokens])
  | _ => trivial

theorem BodyDecl.spelled_of_writable {d : BodyDecl} (h : Writable d.tokens) : d.Spelled := by
  intro s hs
  refine OpDecl.spelled_of_writable (h.subset fun t ht => ?_)
  have hmem : t ∈ d.statements.flatMap StatementDecl.tokens :=
    List.mem_flatMap.mpr ⟨s, hs, by simp [StatementDecl.tokens, ht]⟩
  simp [BodyDecl.tokens, hmem]

theorem localName_mem_localTokens {ns : List Name} {n : Name} (h : n ∈ ns) :
    .localName n.text ∈ localTokens ns := by
  cases ns with
  | nil => cases h
  | cons m ns =>
    rw [localTokens, List.map_cons, Reading.commaTokens_cons, List.flatMap_map]
    rcases List.mem_cons.mp h with rfl | h
    · simp
    · exact List.mem_append_right _ (List.mem_flatMap.mpr ⟨n, h, by simp⟩)

theorem RegionDecl.spelled_of_writable {d : RegionDecl} (hd : d.Grammatical) (h : Writable d.tokens) :
    d.Spelled where
  name := h (.ident d.name.text) (by simp [RegionDecl.tokens])
  results := by
    refine ⟨hd.results, fun n hn => h (.localName n.text) ?_⟩
    exact List.mem_append_left _ (localName_mem_localTokens hn)
  body := BodyDecl.spelled_of_writable (h.subset fun t ht => by simp [RegionDecl.tokens, ht])
  epilogue := by
    intro e he
    refine BodyDecl.spelled_of_writable (h.subset fun t ht => ?_)
    simp [RegionDecl.tokens, he, BodyDecl.epilogue, ht]

theorem ItemDecl.spelled_of_writable {d : ItemDecl} (hd : d.Grammatical) (h : Writable d.tokens) :
    d.Spelled := by
  cases d with
  | buffer d => exact h (.globalName d.name.text) (by simp [ItemDecl.tokens, BufferDecl.tokens])
  | region d => exact RegionDecl.spelled_of_writable hd h
  | output d => trivial

theorem FuncDecl.spelled_of_writable {d : FuncDecl} (hd : d.Grammatical) (h : Writable d.tokens) :
    d.Spelled where
  name := h (.ident d.name.text) (by simp [FuncDecl.tokens])
  rank := h (.int d.rank) (by simp [FuncDecl.tokens])
  items := by
    intro i hi
    refine ItemDecl.spelled_of_writable (hd i hi) (h.subset fun t ht => ?_)
    have hmem : t ∈ d.items.flatMap ItemDecl.tokens := List.mem_flatMap.mpr ⟨i, hi, ht⟩
    simp [FuncDecl.tokens, hmem]

theorem Parsed.spelled_of_ofSource {source : String} {p : ProgramDecl}
    (h : (Parsed.ofSource source).program = some p) :
    ∀ d ∈ p.functions, d.Spelled := by
  simp only [ofSource] at h
  split at h
  · rename_i p' hread
    obtain rfl : p' = p := by simpa using h
    obtain ⟨hgood, htokens⟩ := ProgramDecl.grammatical_of_ofTokens hread
    intro d hd
    refine FuncDecl.spelled_of_writable (hgood d hd) fun t ht => ?_
    have hmem : t ∈ (lex source).1.map (·.token) := by
      rw [htokens]
      exact List.mem_flatMap.mpr ⟨d, hd, ht⟩
    obtain ⟨l, hl, rfl⟩ := List.mem_map.mp hmem
    exact isWritable_of_lex hl
  · cases h

end Stencil
