import Stencil.Printer
import Stencil.Resolution
import Stencil.Proofs.Literal
import Stencil.Proofs.Obligations

/-! The text of a function, token by token. What a function must satisfy to be written is stated
first: names that the lexer takes for names, numbers in range, operands that are there. The tokens
of each part follow, in the order in which its text writes them, and the text is cut into just
these. -/

set_option autoImplicit false

namespace Stencil

open Lexer

/-- A box that a declaration can have: well formed, and the one that stands for its empty boxes. -/
structure Box.Declarable (rank : Nat) (b : Box) : Prop where
  wellFormed : b.wellFormed rank = true
  canonical : b.Canonical

def Shape.Declarable (rank : Nat) (s : Shape) : Prop := ∀ b, s = .known b → b.Declarable rank

def Op.Legible : Op → Prop
  | .constant c => c.isFinite = true
  | .call callee _ _ => isIdent callee = true
  | _ => True

/-- What the text of a region shows apart from boxes and offsets. -/
structure Region.Legible (r : Region) : Prop where
  name : isIdent r.name = true
  ops : ∀ b ∈ r.bodies, ∀ op ∈ b.ops, Op.Legible op
  factor : ∀ u, r.unroll = some u → (u.factor : Int) ≤ Resolution.maxFactor
  operands : r.operands.Nodup
  results : r.results ≠ []

namespace Func

/-- Names can be written and tell their bearers apart. -/
structure Legible (f : Func) : Prop where
  name : isIdent f.name = true
  rank_pos : 0 < f.rank
  rank_le : intInRange f.rank = true
  buffer : ∀ b ∈ f.buffers, isGlobalName b.name = true
  temp : ∀ t x, f.temp? t = some x → isLocalName x.name = true
  region : ∀ id r, f.region? id = some r → r.Legible
  buffers_nodup : (f.buffers.map (·.name)).Nodup
  temps_inj : ∀ t u x y, f.temp? t = some x → f.temp? u = some y → x.name = y.name → t = u
  regions_inj :
  ∀ id id' r r', f.region? id = some r → f.region? id' = some r' → r.name = r'.name → id = id'

/-- Every box can be declared, and a region without one has results without one. -/
structure Boxed (f : Func) : Prop where
  domain : ∀ b ∈ f.buffers, ∀ d, b.domain = some d → d.Declarable f.rank
  required : ∀ b ∈ f.buffers, b.required.Declarable f.rank
  temp : ∀ t x, f.temp? t = some x → x.shape.Declarable f.rank
  region : ∀ id r, f.region? id = some r → r.shape.Declarable f.rank
  output : ∀ o ∈ f.outputs, o.domain.Declarable f.rank
  given : ∀ id r, f.region? id = some r → r.shape = .unknown → f.resultShape r = .unknown

structure Printable (f : Func) : Prop where
  legible : f.Legible
  sound : f.Sound
  closed : f.Closed
  inRange : f.InRange
  boxed : f.Boxed

end Func

def commaTokens (tss : List (List Token)) : List Token := (tss.intersperse [.symbol .comma]).flatten

def Offset.tokens (o : Offset) : List Token :=
  .symbol .lbracket :: (commaTokens (o.map fun z => [.int z]) ++ [.symbol .rbracket])

def rangeTokens (r : Int × Int) : List Token := [.int r.1, .symbol .colon, .int r.2]

def Box.tokens (b : Box) : List Token :=
  if b.isEmpty then [.keyword .empty]
  else .symbol .lbracket :: (commaTokens (b.ranges.map rangeTokens) ++ [.symbol .rbracket])

def Shape.tokens (words : List Token) : Shape → List Token
  | .unknown => []
  | .known b => words ++ b.tokens

/-- What one item of a function declares. -/
inductive Item where
  | buffer (b : Buffer)
  | region (r : Region)
  | output (o : OutputMark)

/-- Buffers come first, outputs last. -/
def Func.items (f : Func) : List Item :=
  f.buffers.map .buffer ++ (f.liveRegions.map (fun r => .region r.2) ++ f.outputs.map .output)

def valueToken (v : ValueId) : Token := .localName (natText v)

namespace Func

def tempToken (f : Func) (t : TempId) : Token := .localName (((f.temp? t).map (·.name)).getD "")

def operandToken (f : Func) : Operand → Token
  | .temp t => f.tempToken t
  | .buffer b => .globalName (((f.buffer? b).map (·.name)).getD "")

def opTokens (f : Func) (r : Region) : Op → List Token
  | .access slot o => .keyword .access :: (r.operands[slot]?.toList.map f.operandToken ++ Offset.tokens o)
  | .index dim o => .keyword .index :: .int dim :: Offset.tokens o
  | .constant c => [.keyword .const, .float c]
  | .unary op a => [.ident op.mnemonic, valueToken a]
  | .binary op l rhs => [.ident op.mnemonic, valueToken l, .symbol .comma, valueToken rhs]
  | .call callee as isPure =>
    .keyword .call :: ((if isPure then [] else [.keyword .impure]) ++
      .ident callee :: .symbol .lparen ::
        (commaTokens (as.map fun a => [valueToken a]) ++ [.symbol .rparen]))

def statementTokens (f : Func) (r : Region) (p : Op × Nat) : List Token :=
  valueToken p.2 :: .symbol .equals :: f.opTokens r p.1

def unrollTokens : Option Unroll → List Token
  | none => []
  | some u => [.keyword .unroll, .int u.axis, .keyword .byFactor, .int u.factor]

def returnTokens (r : Return) : List Token :=
  .keyword .returns :: (commaTokens (r.values.map fun v => [valueToken v]) ++ unrollTokens r.unroll)

def bodyTokens (f : Func) (r : Region) (b : Body) : List Token :=
  .symbol .lbrace ::
    (b.ops.zipIdx.flatMap (f.statementTokens r) ++ (returnTokens b.ret ++ [.symbol .rbrace]))

def epilogueTokens (f : Func) (r : Region) : Option Body → List Token
  | none => []
  | some e => .keyword .epilogue :: f.bodyTokens r e

def typeTokens (t : Temporary) : List Token := .ident t.elem.name :: t.shape.tokens []

/-- The box of a region, if its results do not give it away. -/
def overTokens (f : Func) (r : Region) : List Token :=
  if f.resultShape r = r.shape then [] else r.shape.tokens [.keyword .overBox]

def regionTokens (f : Func) (r : Region) : List Token :=
  commaTokens (r.results.map fun t => [f.tempToken t]) ++
    .symbol .equals :: .keyword .apply :: .ident r.name :: .symbol .lparen ::
      (commaTokens (r.operands.map fun o => [f.operandToken o]) ++ .symbol .rparen :: .symbol .arrow ::
        (commaTokens ((r.results.filterMap f.temp?).map typeTokens) ++
          (f.overTokens r ++ (f.bodyTokens r r.body ++ f.epilogueTokens r r.epilogue))))

def bufferTokens (b : Buffer) : List Token :=
  .keyword .buffer :: .globalName b.name :: .symbol .colon :: .ident b.elem.name ::
    ((Shape.ofOption b.domain).tokens [.keyword .domain] ++ b.required.tokens [.keyword .required])

def outputTokens (f : Func) (o : OutputMark) : List Token :=
  .keyword .output :: f.tempToken o.temp :: o.domain.tokens

def itemTokens (f : Func) : Item → List Token
  | .buffer b => bufferTokens b
  | .region r => f.regionTokens r
  | .output o => f.outputTokens o

def tokens (f : Func) : List Token :=
  .keyword .func :: .ident f.name :: .keyword .rank :: .int f.rank :: .symbol .lbrace ::
    (f.items.flatMap f.itemTokens ++ [.symbol .rbrace])

end Func

def Program.tokens (p : Program) : List Token := p.functions.flatMap Func.tokens

namespace Lexer

theorem spells_token {t : Token} (h : isWritable t = true) (hf : ∀ x, t = .float x → x.isFinite = true) :
    Spells t.text [t] := by
  cases t with
  | keyword k => exact spells_keyword k
  | symbol s => exact (opens_symbol s).spells
  | float x =>
    intro rest hr
    exact Scalar.scan_text (hf x rfl) hr
  | int z => exact spells_int h
  | localName n => exact spells_local h
  | globalName n => exact spells_global h
  | ident n => exact spells_ident h

theorem Opens.cast {s s' : String} {ts ts' : List Token} (h : Opens s ts) (hs : s = s') (ht : ts = ts') :
    Opens s' ts' := hs ▸ ht ▸ h

theorem Spells.padded {s : String} {ts : List Token} (h : Spells s ts) {before after : String}
    (hb : before.toList.all isBlank = true) (ha : after.toList.all isBlank = true)
    (hne : after.toList.isEmpty = false) : Opens (before ++ s ++ after) ts := by
  have hhead : after.toList.head?.any (fun c => !isNameChar c && c != '.') = true := by
    cases hs : after.toList with
    | nil => rw [hs] at hne; cases hne
    | cons c cs =>
      rw [hs, List.all_cons, Bool.and_eq_true] at ha
      obtain rfl | rfl | rfl | rfl := isBlank_cases ha.1 <;> rfl
  have := (((opens_blank hb).append_spells h).append_opens (opens_blank ha) hhead)
  simpa using this

theorem opens_keyword (k : Keyword) (before after : String) (hb : before.toList.all isBlank = true)
    (ha : after.toList.all isBlank = true) (hne : after.toList.isEmpty = false) :
    Opens (before ++ k.text ++ after) [.keyword k] := (spells_keyword k).padded hb ha hne

theorem opens_symbol_padded (s : Symbol) (before after : String) (hb : before.toList.all isBlank = true)
    (ha : after.toList.all isBlank = true) : Opens (before ++ s.text ++ after) [.symbol s] := by
  simpa using ((opens_blank hb).append (opens_symbol s)).append (opens_blank ha)

theorem opens_comma : Opens ", " [.symbol .comma] := opens_symbol_padded .comma "" " " rfl rfl

theorem spells_commas {α : Type} {l : List α} {text : α → String} {tokens : α → List Token}
    (h : ∀ a ∈ l, Spells (text a) (tokens a)) :
    Spells (joinWith ", " (l.map text)) (commaTokens (l.map tokens)) := by
  refine spells_joinWith opens_comma rfl ?_
  rw [List.forall₂_map_left_iff, List.forall₂_map_right_iff, List.forall₂_same]
  exact h

theorem opens_lines {α : Type} {l : List α} {text : α → String} {tokens : α → List Token}
    (h : ∀ a ∈ l, Opens (text a) (tokens a)) : Opens (String.join (l.map text)) (l.flatMap tokens) := by
  rw [List.flatMap]
  refine opens_join ?_
  rw [List.forall₂_map_left_iff, List.forall₂_map_right_iff, List.forall₂_same]
  exact h

theorem isLocalName_natText (n : Nat) : isLocalName (natText n) = true := by
  rw [isLocalName, natText, String.toList_ofList, Bool.and_eq_true, Bool.not_eq_true',
    List.isEmpty_eq_false_iff, List.all_eq_true]
  refine ⟨Numeral.digits_ne_nil n, fun c hc => ?_⟩
  simp [isNameChar, Numeral.isDigit_of_mem_digits hc]

theorem isIdent_mnemonic_unary (op : UnaryOp) : isIdent op.mnemonic = true := by cases op <;> decide

theorem isIdent_mnemonic_binary (op : BinaryOp) : isIdent op.mnemonic = true := by cases op <;> decide

theorem isIdent_elem (e : ElemType) : isIdent e.name = true := by cases e <;> decide

theorem intInRange_of_coordInRange {z : Int} (h : coordInRange z = true) : intInRange z = true := by
  simp only [coordInRange, intInRange, Bool.and_eq_true, decide_eq_true_eq] at h ⊢
  unfold maxCoord at h
  omega

end Lexer

theorem spells_value (v : ValueId) : Spells (valueText v) [valueToken v] :=
  spells_local (isLocalName_natText v)

theorem Offset.opens_text {o : Offset} (h : o.inRange = true) : Opens o.text o.tokens := by
  have hjoin : Spells (joinWith ", " (o.map intText)) (commaTokens (o.map fun z => [.int z])) := by
    refine spells_commas fun z hz => spells_int (intInRange_of_coordInRange ?_)
    exact List.all_eq_true.mp h z hz
  exact ((opens_symbol .lbracket).append_spells hjoin).append_opens (opens_symbol .rbracket) rfl

theorem Box.spells_text {b : Box} {rank : Nat} (h : b.wellFormed rank = true) :
    Spells b.text b.tokens := by
  unfold Box.text Box.tokens
  split
  · exact spells_keyword .empty
  · have hrange : ∀ r ∈ b.ranges, Spells (intText r.1 ++ ":" ++ intText r.2) (rangeTokens r) := by
      intro r hr
      simp only [wellFormed, Bool.and_eq_true, List.all_eq_true] at h
      obtain ⟨hl, hu⟩ := List.of_mem_zip (a := r.1) (b := r.2) hr
      have hl := spells_int (intInRange_of_coordInRange (h.2 r.1 (List.mem_append_left _ hl)))
      have hu := spells_int (intInRange_of_coordInRange (h.2 r.2 (List.mem_append_right _ hu)))
      exact (hl.append_opens (opens_symbol .colon) rfl).append_spells hu
    exact (((opens_symbol .lbracket).append_spells (spells_commas hrange)).append_opens
      (opens_symbol .rbracket) rfl).spells

namespace Func

theorem spells_shapeSuffix {word : String} {words : List Token} {s : Shape} {rank : Nat}
    (hword : Spells word words) (h : s.Declarable rank) :
    Spells (shapeSuffix word s) (s.tokens words) := by
  cases s with
  | unknown => exact opens_nil.spells
  | known b =>
    have hblank : Opens " " [] := opens_blank rfl
    have := (hword.append_opens hblank rfl).append_spells (Box.spells_text (h b rfl).wellFormed)
    simpa [shapeSuffix, Shape.tokens] using this

theorem boundary_shapeSuffix {word : String} (h : boundary word.toList = true) (s : Shape) :
    boundary (shapeSuffix word s).toList = true := by
  cases s with
  | unknown => rfl
  | known b =>
    simp only [shapeSuffix, String.toList_append, List.append_assoc]
    exact boundary_append h rfl

variable {f : Func} {id : RegionId} {r : Region}

theorem Legible.spells_tempName {t : TempId} {x : Temporary} (h : f.Legible) (hx : f.temp? t = some x) :
    Spells (f.tempName t) [f.tempToken t] := by
  simpa [tempName, tempToken, hx] using spells_local (h.temp t x hx)

theorem Legible.spells_operandName {o : Operand} (h : f.Legible) (ho : f.operandLive o = true) :
    Spells (f.operandName o) [f.operandToken o] := by
  cases o with
  | temp t =>
    obtain ⟨x, hx⟩ := Option.isSome_iff_exists.mp ho
    simpa [operandName, operandToken, tempToken, hx] using spells_local (h.temp t x hx)
  | buffer b =>
    obtain ⟨x, hx⟩ := Option.isSome_iff_exists.mp ho
    simpa [operandName, operandToken, hx] using spells_global (h.buffer x (List.mem_of_getElem? hx))

theorem Legible.spells_dim {d : Nat} (h : f.Legible) (hd : d < f.rank) : Spells (natText d) [.int d] := by
  have := h.rank_le
  simp only [intInRange, Bool.and_eq_true, decide_eq_true_eq] at this
  refine spells_nat ?_
  simp only [intInRange, Bool.and_eq_true, decide_eq_true_eq]
  omega

theorem Printable.spells_op {b : Body} {op : Op} (h : f.Printable) (hr : f.region? id = some r)
    (hb : b ∈ r.bodies) (hop : op ∈ b.ops) : Spells (f.opText r op) (f.opTokens r op) := by
  have hfits := ((h.sound.fits id r hr).mem_bodies hb).ops op hop
  have hlegible := (h.legible.region id r hr).ops b hb op hop
  have hrange := h.inRange id r b op hr hb hop
  cases op with
  | access slot o =>
    obtain ⟨x, hx, hlive⟩ := h.sound.reads id r b slot o hr hb hop
    have hword : Opens "access " [.keyword .access] := opens_keyword .access "" " " rfl rfl rfl
    have hname := (h.legible.spells_operandName hlive).append_opens (opens_blank (s := " ") rfl) rfl
    have := (hword.append hname).append (Offset.opens_text hrange)
    simpa [opText, opTokens, slotName, hx, String.append_assoc] using this.spells
  | index dim o =>
    have hword : Opens "index " [.keyword .index] := opens_keyword .index "" " " rfl rfl rfl
    have hdim := (h.legible.spells_dim hfits.1).append_opens (opens_blank (s := " ") rfl) rfl
    have := (hword.append hdim).append (Offset.opens_text hrange)
    simpa [opText, opTokens, String.append_assoc] using this.spells
  | constant c =>
    have hword : Opens "const " [.keyword .const] := opens_keyword .const "" " " rfl rfl rfl
    exact hword.append_spells (spells_token (t := .float c) rfl (by rintro x ⟨⟩; exact hlegible))
  | unary g a =>
    have hword := (spells_ident (isIdent_mnemonic_unary g)).append_opens (opens_blank (s := " ") rfl) rfl
    exact hword.append_spells (spells_value a)
  | binary g l rhs =>
    have hword := (spells_ident (isIdent_mnemonic_binary g)).append_opens (opens_blank (s := " ") rfl) rfl
    exact ((hword.append_spells (spells_value l)).append_opens opens_comma rfl).append_spells
      (spells_value rhs)
  | call callee as isPure =>
    have hword : Opens "call " [.keyword .call] := opens_keyword .call "" " " rfl rfl rfl
    have himpure :
        Opens (if isPure then "" else "impure ") (if isPure then [] else [.keyword .impure]) := by
      cases isPure
      · exact opens_keyword .impure "" " " rfl rfl rfl
      · exact opens_nil
    have hcallee := (spells_ident hlegible).append_opens (opens_symbol .lparen) rfl
    have hargs :=
      (spells_commas (l := as) fun a _ => spells_value a).append_opens (opens_symbol .rparen) rfl
    have := ((hword.append himpure).append hcallee).append hargs
    simpa [opText, opTokens, String.append_assoc, Symbol.text] using this.spells

theorem Legible.spells_return {ret : Return} (h : f.Legible)
    (hu : ∀ u, ret.unroll = some u → u.axis < f.rank ∧ (u.factor : Int) ≤ Resolution.maxFactor) :
    Spells (returnText ret) (returnTokens ret) := by
  obtain ⟨values, unroll⟩ := ret
  have hvalues : Spells (if values.isEmpty then "" else " " ++ joinWith ", " (values.map valueText))
      (commaTokens (values.map fun v => [valueToken v])) := by
    cases values with
    | nil => exact opens_nil.spells
    | cons v vs =>
      exact (opens_blank (s := " ") rfl).append_spells (spells_commas (l := v :: vs) fun v _ =>
        spells_value v)
  have hboundary : boundary
      (if values.isEmpty then "" else " " ++ joinWith ", " (values.map valueText)).toList = true := by
    cases values with
    | nil => rfl
    | cons v vs =>
      rw [List.isEmpty_cons, if_neg Bool.false_ne_true, String.toList_append]
      rfl
  have hfront := (spells_keyword .returns).append hvalues hboundary
  cases unroll with
  | none => simpa [returnText, returnTokens, unrollTokens, Keyword.text] using hfront
  | some u =>
    obtain ⟨haxis, hfactor⟩ := hu u rfl
    have hword : Opens " unroll " [.keyword .unroll] := opens_keyword .unroll " " " " rfl rfl rfl
    have hby : Opens " by " [.keyword .byFactor] := opens_keyword .byFactor " " " " rfl rfl rfl
    have hfactor : intInRange u.factor = true := by
      simp only [intInRange, Bool.and_eq_true, decide_eq_true_eq]
      unfold Resolution.maxFactor at hfactor
      omega
    have := (((hfront.append_opens hword rfl).append_spells (h.spells_dim haxis)).append_opens hby
      rfl).append_spells (spells_nat hfactor)
    simpa [returnText, returnTokens, unrollTokens, Keyword.text, String.append_assoc] using this

theorem Printable.unroll {u : Unroll} (h : f.Printable) (hr : f.region? id = some r)
    (hu : r.unroll = some u) :
    u.axis < f.rank ∧ (u.factor : Int) ≤ Resolution.maxFactor :=
  ⟨((h.sound.fits id r hr).unroll u hu).1, (h.legible.region id r hr).factor u hu⟩

theorem Printable.unroll_of_mem_bodies {b : Body} {u : Unroll} (h : f.Printable)
    (hr : f.region? id = some r)
    (hb : b ∈ r.bodies) (hu : b.ret.unroll = some u) : r.unroll = some u := by
  simp only [Region.bodies, List.mem_cons, Option.mem_toList] at hb
  rcases hb with rfl | hb
  · exact hu
  · have := ((h.sound.fits id r hr).epilogue b hb).2.1
    rw [this] at hu
    cases hu

theorem Printable.opens_body {b : Body} (h : f.Printable) (hr : f.region? id = some r)
    (hb : b ∈ r.bodies) :
    Opens (f.bodyText r b) (b.ops.zipIdx.flatMap (f.statementTokens r) ++ returnTokens b.ret) := by
  have hindent : Opens "    " [] := opens_blank rfl
  have hline : Opens "\n" [] := opens_blank rfl
  have hstatement : ∀ p ∈ b.ops.zipIdx,
      Opens ("    " ++ valueText p.2 ++ " = " ++ f.opText r p.1 ++ "\n") (f.statementTokens r p) := by
    intro p hp
    have hequals : Opens " = " [.symbol .equals] := opens_symbol_padded .equals " " " " rfl rfl
    have hop := h.spells_op hr hb (List.fst_mem_of_mem_zipIdx hp)
    have := ((((hindent.append_spells (spells_value p.2)).append_opens hequals rfl).append_spells
      hop).append_opens hline rfl)
    simpa [statementTokens] using this
  have hreturn := (hindent.append_spells (h.legible.spells_return fun u hu =>
    h.unroll hr (h.unroll_of_mem_bodies hr hb hu))).append_opens hline rfl
  have := (opens_lines hstatement).append hreturn
  rw [bodyText, List.mapIdx_eq_zipIdx_map]
  simpa [String.append_assoc] using this

theorem Sound.exists_temp {t : TempId} (h : f.Sound) (hr : f.region? id = some r) (ht : t ∈ r.results) :
    ∃ x, f.temp? t = some x := by
  obtain ⟨i, hi⟩ := List.mem_iff_getElem?.mp ht
  obtain ⟨x, hx, _⟩ := h.owned id r i t hr hi
  exact ⟨x, hx⟩

theorem Printable.spells_types (h : f.Printable) :
    Spells (joinWith ", " ((r.results.filterMap f.temp?).map fun t =>
      t.elem.name ++ shapeSuffix "" t.shape))
      (commaTokens ((r.results.filterMap f.temp?).map typeTokens)) := by
  refine spells_commas fun x hx => ?_
  obtain ⟨t, _, ht⟩ := List.mem_filterMap.mp hx
  have hshape := spells_shapeSuffix opens_nil.spells (h.boxed.temp t x ht)
  exact (spells_ident (isIdent_elem x.elem)).append hshape (boundary_shapeSuffix rfl _)

theorem Printable.spells_head (h : f.Printable) (hr : f.region? id = some r) :
    Spells (f.headText r)
      (commaTokens (r.results.map fun t => [f.tempToken t]) ++
        .symbol .equals :: .keyword .apply :: .ident r.name :: .symbol .lparen ::
          (commaTokens (r.operands.map fun o =>
            [f.operandToken o]) ++ .symbol .rparen :: .symbol .arrow ::
            (commaTokens ((r.results.filterMap f.temp?).map typeTokens) ++ f.overTokens r))) := by
  have hresults := spells_commas (l := r.results) fun t ht =>
    h.legible.spells_tempName (h.sound.exists_temp hr ht).choose_spec
  have hoperands :=
    spells_commas (l := r.operands) fun o ho => h.legible.spells_operandName (h.closed id r o hr ho)
  have happly : Opens " = apply " [.symbol .equals, .keyword .apply] :=
    ((opens_symbol_padded .equals " " " " rfl rfl).append (opens_keyword .apply "" " " rfl rfl rfl)).cast
      rfl rfl
  have harrow : Opens ") -> " [.symbol .rparen, .symbol .arrow] :=
    ((opens_symbol_padded .rparen "" " " rfl rfl).append (opens_symbol_padded .arrow "" " " rfl rfl)).cast
      rfl rfl
  have hword := (opens_blank (s := " ") rfl).append_spells (spells_keyword .overBox)
  have hover : Spells (if f.resultShape r = r.shape then "" else shapeSuffix " over" r.shape)
      (f.overTokens r) := by
    unfold overTokens
    split
    · exact opens_nil.spells
    · exact spells_shapeSuffix hword (h.boxed.region id r hr)
  have hboundary : boundary
      (if f.resultShape r = r.shape then "" else shapeSuffix " over" r.shape).toList = true := by
    split
    · rfl
    · exact boundary_shapeSuffix rfl _
  have hname := (spells_ident (h.legible.region id r hr).name).append_opens (opens_symbol .lparen) rfl
  have := ((((((opens_blank (s := "  ") rfl).append_spells hresults).append_opens happly rfl).append
    hname).append_spells hoperands).append_opens harrow rfl).append_spells
      ((h.spells_types (r := r)).append hover hboundary)
  simpa [headText, String.append_assoc, Symbol.text] using this

theorem Printable.opens_region (h : f.Printable) (hr : f.region? id = some r) :
    Opens (f.regionText r) (f.regionTokens r) := by
  have hlbrace : Opens " \x7b\n" [.symbol .lbrace] := opens_symbol_padded .lbrace " " "\n" rfl rfl
  have hrbrace : Opens "  \x7d\n" [.symbol .rbrace] := opens_symbol_padded .rbrace "  " "\n" rfl rfl
  have hbody := ((h.spells_head hr).append_opens hlbrace rfl).append
    (h.opens_body hr (b := r.body) (by simp [Region.bodies]))
  cases he : r.epilogue with
  | none =>
    have := hbody.append hrbrace
    simpa [regionText, regionTokens, he, epilogueTokens, bodyTokens, String.append_assoc] using this
  | some e =>
    have hword : Opens "  \x7d epilogue \x7b\n" [.symbol .rbrace, .keyword .epilogue, .symbol .lbrace] :=
      (((opens_symbol_padded .rbrace "  " " " rfl rfl).append (opens_keyword .epilogue "" " " rfl rfl
        rfl)).append
        (opens_symbol_padded .lbrace "" "\n" rfl rfl)).cast rfl rfl
    have := ((hbody.append hword).append (h.opens_body hr (b := e) (by simp [Region.bodies,
      he]))).append hrbrace
    simpa [regionText, regionTokens, he, epilogueTokens, bodyTokens, String.append_assoc] using this

theorem Printable.opens_buffer {b : Buffer} (h : f.Printable) (hb : b ∈ f.buffers) :
    Opens (bufferText b) (bufferTokens b) := by
  have hword : Opens "  buffer " [.keyword .buffer] := opens_keyword .buffer "  " " " rfl rfl rfl
  have hcolon : Opens " : " [.symbol .colon] := opens_symbol_padded .colon " " " " rfl rfl
  have hname : Spells ("  buffer @" ++ b.name) [.keyword .buffer, .globalName b.name] := by
    have := hword.append_spells (spells_global (h.legible.buffer b hb))
    rwa [← String.append_assoc] at this
  have hdomain : (Shape.ofOption b.domain).Declarable f.rank := by
    intro d hd
    cases hdomain : b.domain with
    | none => rw [hdomain] at hd; cases hd
    | some d' =>
      rw [hdomain] at hd
      cases hd
      exact h.boxed.domain b hb d hdomain
  have hdomain :=
    spells_shapeSuffix ((opens_blank (s := " ") rfl).append_spells (spells_keyword .domain)) hdomain
  have hrequired :=
    spells_shapeSuffix ((opens_blank (s := " ") rfl).append_spells (spells_keyword .required))
    (h.boxed.required b hb)
  have helem :=
    ((hname.append_opens hcolon rfl).append_spells (spells_ident (isIdent_elem b.elem))).append hdomain
    (boundary_shapeSuffix rfl _)
  have := (helem.append hrequired (boundary_shapeSuffix rfl _)).append_opens
    (opens_blank (s := "\n") rfl) rfl
  unfold bufferText
  simpa [bufferTokens, String.append_assoc, Keyword.text] using this

theorem Printable.opens_output {o : OutputMark} (h : f.Printable) (ho : o ∈ f.outputs) :
    Opens (f.outputText o) (f.outputTokens o) := by
  obtain ⟨x, hx⟩ := (h.sound.outputs o ho).1
  have hword : Opens "  output " [.keyword .output] := opens_keyword .output "  " " " rfl rfl rfl
  have hname :=
    (hword.append_spells (h.legible.spells_tempName hx)).append_opens (opens_blank (s := " ") rfl) rfl
  have := (hname.append_spells (Box.spells_text (h.boxed.output o ho).wellFormed)).append_opens
    (opens_blank (s := "\n") rfl) rfl
  unfold outputText
  simpa [outputTokens] using this

/-- The text of a function is cut into its tokens. -/
theorem Printable.opens_text (h : f.Printable) : Opens f.text f.tokens := by
  have hfunc : Opens "func " [.keyword .func] := opens_keyword .func "" " " rfl rfl rfl
  have hrank : Opens " rank " [.keyword .rank] := opens_keyword .rank " " " " rfl rfl rfl
  have hlbrace : Opens " \x7b\n" [.symbol .lbrace] := opens_symbol_padded .lbrace " " "\n" rfl rfl
  have hrbrace : Opens "\x7d\n" [.symbol .rbrace] := opens_symbol_padded .rbrace "" "\n" rfl rfl
  have hhead :=
    (((hfunc.append_spells (spells_ident h.legible.name)).append_opens hrank rfl).append_spells
    (spells_nat h.legible.rank_le)).append_opens hlbrace rfl
  have hbuffers := opens_lines fun b hb => h.opens_buffer (b := b) hb
  have hregions : Opens (String.join (f.liveRegions.map fun r => f.regionText r.2))
      (f.liveRegions.flatMap fun r => f.regionTokens r.2) :=
    opens_lines fun r hr => h.opens_region (mem_liveRegions.mp hr)
  have houtputs := opens_lines fun o ho => h.opens_output (o := o) ho
  have := (((hhead.append hbuffers).append hregions).append houtputs).append hrbrace
  unfold text
  simpa [tokens, items, itemTokens, List.flatMap_map, String.append_assoc] using this

end Func

theorem Program.spells_text {p : Program} (h : ∀ f ∈ p.functions, f.Printable) :
    Spells p.text p.tokens := by
  have hline : Opens "\n" [] := opens_blank rfl
  rw [text, tokens]
  generalize p.functions = fs at h
  induction fs with
  | nil => exact opens_nil.spells
  | cons f rest ih =>
    have hf := (h f (by simp)).opens_text
    cases rest with
    | nil => simpa [joinWith] using hf.spells
    | cons g rest =>
      have := (hf.append hline).append_spells (ih fun g hg => h g (List.mem_cons_of_mem f hg))
      simpa [joinWith, String.append_assoc] using this

end Stencil
