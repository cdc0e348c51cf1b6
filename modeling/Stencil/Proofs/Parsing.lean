import Stencil.Proofs.Declaring
import Stencil.Proofs.Lookahead

/-! Reading accepts exactly the token lists that some grammatical declarations are written with,
and gives these declarations back, up to their places in the source. -/

set_option autoImplicit false

namespace Stencil

open Reading

def Name.bare (n : Name) : Name := ⟨n.text, .nowhere⟩

def BoxDecl.bare (d : BoxDecl) : BoxDecl := ⟨d.ranges, .nowhere⟩

def OffsetDecl.bare (d : OffsetDecl) : OffsetDecl := ⟨d.values, .nowhere⟩

def OperandDecl.bare : OperandDecl → OperandDecl
  | .temp n => .temp n.bare
  | .buffer n => .buffer n.bare

def OpDecl.bare : OpDecl → OpDecl
  | .access o off => .access o.bare off.bare
  | .index dim _ off => .index dim .nowhere off.bare
  | .constant v => .constant v
  | .unary op a => .unary op a.bare
  | .binary op l r => .binary op l.bare r.bare
  | .call callee args isPure => .call callee.bare (args.map Name.bare) isPure

def StatementDecl.bare (d : StatementDecl) : StatementDecl := ⟨d.result.bare, d.op.bare, .nowhere⟩

def ReturnDecl.bare (d : ReturnDecl) : ReturnDecl := ⟨d.values.map Name.bare, d.unroll, .nowhere⟩

def BodyDecl.bare (d : BodyDecl) : BodyDecl := ⟨d.statements.map StatementDecl.bare, d.ret.bare, .nowhere⟩

def TypeDecl.bare (d : TypeDecl) : TypeDecl := ⟨d.elem.bare, d.shape.map BoxDecl.bare⟩

def BufferDecl.bare (d : BufferDecl) : BufferDecl :=
  ⟨d.name.bare, d.elem.bare, d.domain.map BoxDecl.bare, d.required.map BoxDecl.bare, .nowhere⟩

def RegionDecl.bare (d : RegionDecl) : RegionDecl :=
  ⟨d.results.map Name.bare, d.name.bare, d.operands.map OperandDecl.bare, d.types.map TypeDecl.bare,
    d.domain.map BoxDecl.bare, d.body.bare, d.epilogue.map BodyDecl.bare, .nowhere⟩

def OutputDecl.bare (d : OutputDecl) : OutputDecl := ⟨d.temp.bare, d.domain.bare, .nowhere⟩

def ItemDecl.bare : ItemDecl → ItemDecl
  | .buffer d => .buffer d.bare
  | .region d => .region d.bare
  | .output d => .output d.bare

def FuncDecl.bare (d : FuncDecl) : FuncDecl :=
  ⟨d.name.bare, d.rank, .nowhere, d.items.map ItemDecl.bare, .nowhere⟩

def ProgramDecl.bare (d : ProgramDecl) : ProgramDecl := ⟨d.functions.map FuncDecl.bare, .nowhere⟩

theorem Name.bare_eq_iff {m n : Name} : m.bare = n.bare ↔ m.text = n.text := by
  simp [Name.bare]

theorem map_bare_eq {α β : Type} {bare : α → β} {xs ys : List α}
    (h : List.Forall₂ (fun x y => bare x = bare y) xs ys) : xs.map bare = ys.map bare := by
  induction h with
  | nil => rfl
  | cons hx _ ih => rw [List.map_cons, List.map_cons, hx, ih]

theorem BoxDecl.Grammatical.reads {d : BoxDecl} (h : d.Grammatical) :
    Reads box d.tokens never (·.bare = d.bare) := by
  obtain ⟨ranges, span⟩ := d
  cases ranges with
  | none =>
    refine Reads.located (reads_peek ?_)
    rw [if_pos rfl]
    exact (reads_keyword .empty).last fun _ _ _ => rfl
  | some rs =>
    have hne : rs ≠ [] := fun hrs => h (congrArg some hrs)
    refine Reads.located (reads_peek ?_)
    rw [if_neg (by simp)]
    refine ((reads_separated hne (fun r _ => reads_range r) rfl).between .lbracket rfl).last
      fun xs hxs _ => ?_
    cases List.forall₂_eq_eq_eq ▸ hxs
    rfl

theorem BoxDecl.isBoxStart_head (d : BoxDecl) : ∃ t ts, d.tokens = t :: ts ∧ isBoxStart t = true := by
  obtain ⟨ranges, span⟩ := d
  cases ranges with
  | none => exact ⟨_, _, rfl, rfl⟩
  | some rs => exact ⟨_, _, rfl, rfl⟩

theorem reads_shape {o : Option BoxDecl} (h : ∀ b ∈ o, b.Grammatical) :
    Reads boxOrNone (BoxDecl.clause [] o) isBoxStart (·.map BoxDecl.bare = o.map BoxDecl.bare) := by
  cases o with
  | none =>
    refine reads_peek_nil fun t ht => ?_
    rw [if_neg (Bool.eq_false_iff.mp ht)]
    exact reads_pure rfl
  | some d =>
    have hbox : Reads (some <$> box) d.tokens never (·.map BoxDecl.bare = some d.bare) :=
      (h d rfl).reads.map fun x hx => congrArg some hx
    obtain ⟨t, ts, hts, ht⟩ := d.isBoxStart_head
    rw [BoxDecl.clause, List.nil_append, hts]
    refine reads_peek ?_
    rw [Option.any_some, if_pos ht, ← hts]
    exact hbox.of_never

theorem reads_clause {o : Option BoxDecl} (h : ∀ b ∈ o, b.Grammatical) (t : Token) :
    Reads (behind t box) (BoxDecl.clause [t] o) (· = t) (·.map BoxDecl.bare = o.map BoxDecl.bare) := by
  cases o with
  | none =>
    refine (reads_behind_none t box).mono (fun _ h => h) fun x hx => ?_
    rw [hx]
  | some d =>
    refine (reads_behind (h d rfl).reads).mono (fun _ h => by cases h) ?_
    rintro _ ⟨x, rfl, hx⟩
    exact congrArg some hx

theorem OffsetDecl.reads (d : OffsetDecl) : Reads Reading.offset d.tokens never (·.bare = d.bare) := by
  have hvalues : Reads (separatedOrNone isInt int) (commaTokens (d.values.map fun z => [.int z]))
      (fun t => isInt t || t = .symbol .comma || never t) (List.Forall₂ (· = ·) · d.values) :=
    reads_separatedOrNone (fun z _ => reads_int z) rfl fun _ _ => rfl
  refine Reads.located ((hvalues.between .lbracket rfl).last fun zs hzs _ => ?_)
  rw [OffsetDecl.bare, OffsetDecl.bare, show zs = d.values from List.forall₂_eq_eq_eq ▸ hzs]

theorem OperandDecl.reads (d : OperandDecl) : Reads operand [d.token] never (·.bare = d.bare) := by
  cases d with
  | temp n => exact reads_select fun s => ⟨.temp ⟨n.text, s⟩, rfl, rfl⟩
  | buffer n => exact reads_select fun s => ⟨.buffer ⟨n.text, s⟩, rfl, rfl⟩

theorem Literal.reads (v : Literal) : Reads literal [v.token] never (· = v) := by
  cases v with
  | float x => exact reads_select fun _ => ⟨.float x, rfl, rfl⟩
  | int z => exact reads_select fun _ => ⟨.int z, rfl, rfl⟩

theorem Name.reads_local (n : Name) : Reads localName [.localName n.text] never (·.bare = n.bare) :=
  reads_select fun s => ⟨⟨n.text, s⟩, rfl, rfl⟩

theorem Name.reads_ident (n : Name) : Reads ident [.ident n.text] never (·.bare = n.bare) :=
  reads_select fun s => ⟨⟨n.text, s⟩, rfl, rfl⟩

theorem reads_locals (ns : List Name) :
    Reads (separatedOrNone isLocal localName) (localTokens ns)
      (fun t => isLocal t || t = .symbol .comma || never t) (·.map Name.bare = ns.map Name.bare) :=
  (reads_separatedOrNone (fun n _ => n.reads_local) rfl fun _ _ => rfl).mono (fun _ h => h) fun _ h =>
    map_bare_eq h

theorem OpDecl.reads_call (callee : Name) (args : List Name) (isPure : Bool) :
    Reads Reading.call (OpDecl.call callee args isPure).tokens never
      (·.bare = (OpDecl.call callee args isPure).bare) := by
  have himpure : Reads (behind (.keyword .impure) (pure ())) (if isPure then [] else [.keyword .impure])
      (· = .keyword .impure) (fun x => x.isNone = isPure) := by
    cases isPure with
    | false =>
      refine (reads_behind (reads_pure (Q := fun _ => True) trivial)).mono (fun _ h => h) ?_
      rintro _ ⟨x, rfl, _⟩
      rfl
    | true => exact (reads_behind_none _ _).mono (fun _ h => h) fun x hx => by rw [hx]; rfl
  refine (reads_keyword .call).bind (fun _ _ => ?_) clear_never
  refine himpure.bind (fun x hx => ?_) rfl
  refine callee.reads_ident.bind (fun c hc => ?_) clear_never
  refine ((reads_locals args).between .lparen rfl).last fun ns hns => ?_
  rw [OpDecl.bare, OpDecl.bare, hc, hns, hx]

theorem OpDecl.reads (d : OpDecl) : Reads operation d.tokens (· = .symbol .comma) (·.bare = d.bare) := by
  cases d with
  | access o off =>
    have haccess : Reads Reading.access (OpDecl.access o off).tokens never
        (·.bare = (OpDecl.access o off).bare) := by
      refine (reads_keyword .access).bind (fun _ _ => ?_) clear_never
      refine o.reads.bind (fun x hx => ?_) clear_never
      refine off.reads.last fun y hy => ?_
      rw [OpDecl.bare, OpDecl.bare, hx, hy]
    exact reads_peek haccess.whole.of_never
  | index dim span off =>
    have hindex : Reads Reading.index (OpDecl.index dim span off).tokens never
        (·.bare = (OpDecl.index dim span off).bare) := by
      refine (reads_keyword .index).bind (fun _ _ => ?_) clear_never
      refine (reads_locatedInt dim).bind (fun x hx => ?_) clear_never
      refine off.reads.last fun y hy => ?_
      rw [OpDecl.bare, OpDecl.bare, hx, hy]
    exact reads_peek hindex.whole.of_never
  | constant v =>
    have hconstant :
        Reads Reading.constant (OpDecl.constant v).tokens never (·.bare = (OpDecl.constant v).bare) := by
      refine (reads_keyword .const).bind (fun _ _ => ?_) clear_never
      exact v.reads.last fun x hx => congrArg OpDecl.constant hx
    exact reads_peek hconstant.whole.of_never
  | unary g a =>
    have harith : Reads arithmetic (OpDecl.unary g a).tokens (· = .symbol .comma)
        (·.bare = (OpDecl.unary g a).bare) := by
      refine (reads_ident g.mnemonic).bind (fun m hm => ?_) clear_never
      refine a.reads_local.bind (fun x hx => ?_) clear_never
      refine reads_furtherOperands_nil.bind (fun more hmore => ?_) fun _ h => h
      subst hmore
      exact reads_lift (applied_unary hm x) (congrArg (OpDecl.unary g) hx)
    exact reads_peek harith
  | binary g l r =>
    have harith : Reads arithmetic (OpDecl.binary g l r).tokens (· = .symbol .comma)
        (·.bare = (OpDecl.binary g l r).bare) := by
      refine (reads_ident g.mnemonic).bind (fun m hm => ?_) clear_never
      refine l.reads_local.bind (fun x hx => ?_) clear_never
      refine (reads_furtherOperands_single r.text).bind (fun more hmore => ?_) fun _ h => h
      obtain ⟨y, rfl, hy⟩ := hmore
      exact reads_lift (applied_binary hm x y) (congrArg₂ (OpDecl.binary g) hx (Name.bare_eq_iff.mpr hy))
    exact reads_peek harith
  | call callee args isPure => exact reads_peek (OpDecl.reads_call callee args isPure).whole.of_never

theorem StatementDecl.reads (d : StatementDecl) :
    Reads statement d.tokens (· = .symbol .comma) (·.bare = d.bare) := by
  refine Reads.located (d.result.reads_local.bind (fun n hn => ?_) clear_never)
  refine (reads_symbol .equals).bind (fun _ _ => ?_) clear_never
  refine d.op.reads.last fun op hop _ => ?_
  rw [StatementDecl.bare, StatementDecl.bare, hn, hop]

theorem ReturnDecl.reads (d : ReturnDecl) :
    Reads returned d.tokens (fun t => isLocal t || t = .symbol .comma || t = .keyword .unroll)
      (·.bare = d.bare) := by
  obtain ⟨values, unroll, span⟩ := d
  have hunroll :
      Reads (behind (.keyword .unroll) unrolling) (unrollingTokens unroll) (· = .keyword .unroll)
      (· = unroll) := by
    cases unroll with
    | none => exact reads_behind_none _ _
    | some u =>
      refine (reads_behind (Func.reads_unrolling u.1 u.2)).mono (fun _ h => by cases h) ?_
      rintro _ ⟨x, rfl, rfl⟩
      rfl
  refine Reads.located ((reads_keyword .returns).bind (fun _ _ => ?_) clear_never)
  refine (reads_locals values).bind (fun ns hns => ?_) ?_
  · refine (hunroll.last fun u hu _ => ?_).mono (fun t ht => by simp [ht]) fun _ h => h
    rw [ReturnDecl.bare, ReturnDecl.bare, hns, hu]
  · cases unroll with
    | none =>
      intro t ht
      simp only [never, Bool.or_false] at ht
      simp only [ht, Bool.true_or]
    | some u => rfl

theorem BodyDecl.reads (d : BodyDecl) : Reads body d.tokens never (·.bare = d.bare) := by
  have hstatements : Reads (bounded (many isLocal statement)) (d.statements.flatMap StatementDecl.tokens)
      (fun t => isLocal t || t = .symbol .comma)
      (List.Forall₂ (fun x s => x.bare = s.bare) · d.statements) := by
    refine reads_bounded_many (fun s _ => s.reads) (fun _ _ => rfl) fun t ht => ?_
    cases t with
    | localName n => rfl
    | _ => cases ht
  refine Reads.located ((reads_symbol .lbrace).bind (fun _ _ => ?_) clear_never)
  refine hstatements.bind (fun ss hss => ?_) rfl
  refine d.ret.reads.bind (fun ret hret => ?_) rfl
  refine (reads_symbol .rbrace).last fun _ _ _ => ?_
  rw [BodyDecl.bare, BodyDecl.bare, map_bare_eq hss, hret]

theorem TypeDecl.Grammatical.reads {d : TypeDecl} (h : d.Grammatical) :
    Reads resultType d.tokens isBoxStart (·.bare = d.bare) := by
  refine d.elem.reads_ident.bind (fun n hn => ?_) clear_never
  refine (reads_shape h).last fun shape hshape => ?_
  rw [TypeDecl.bare, TypeDecl.bare, hn, hshape]

theorem BufferDecl.Grammatical.reads {d : BufferDecl} (h : d.Grammatical) :
    Reads buffer d.tokens (fun t => t = .keyword .domain || t = .keyword .required)
      (·.bare = d.bare) := by
  have hname : Reads globalName [.globalName d.name.text] never (·.bare = d.name.bare) :=
    reads_select fun s => ⟨⟨d.name.text, s⟩, rfl, rfl⟩
  refine Reads.located ((reads_keyword .buffer).bind (fun _ _ => ?_) clear_never)
  refine hname.bind (fun name hname => ?_) clear_never
  refine (reads_symbol .colon).bind (fun _ _ => ?_) clear_never
  refine d.elem.reads_ident.bind (fun elem helem => ?_) clear_never
  refine (reads_clause h.domain _).bind (fun domain hdomain => ?_) ?_
  · refine ((reads_clause h.required _).last fun required hrequired _ => ?_).mono
      (fun t ht => by simp [ht]) fun _ h => h
    rw [BufferDecl.bare, BufferDecl.bare, hname, helem, hdomain, hrequired]
  · cases d.required with
    | none => exact fun t ht => by simp [ht]
    | some b => rfl

theorem reads_epilogue (o : Option BodyDecl) :
    Reads (behind (.keyword .epilogue) body) (BodyDecl.epilogue o) (· = .keyword .epilogue)
      (·.map BodyDecl.bare = o.map BodyDecl.bare) := by
  cases o with
  | none =>
    refine (reads_behind_none _ _).mono (fun _ h => h) fun x hx => ?_
    rw [hx]
  | some d =>
    refine (reads_behind d.reads).mono (fun _ h => by cases h) ?_
    rintro _ ⟨x, rfl, hx⟩
    exact congrArg some hx

theorem RegionDecl.Grammatical.reads {d : RegionDecl} (h : d.Grammatical) :
    Reads region d.tokens (· = .keyword .epilogue) (·.bare = d.bare) := by
  have hresults := reads_separated h.results (fun n _ => n.reads_local) rfl
  refine Reads.located (hresults.bind (fun results hresults => ?_) rfl)
  refine (reads_symbol .equals).bind (fun _ _ => ?_) clear_never
  refine (reads_keyword .apply).bind (fun _ _ => ?_) clear_never
  refine d.name.reads_ident.bind (fun name hname => ?_) clear_never
  have hoperands :
      Reads (separatedOrNone isOperand operand) (commaTokens (d.operands.map fun o => [o.token]))
      (fun t => isOperand t || t = .symbol .comma || never t)
      (List.Forall₂ (fun x o => x.bare = o.bare) · d.operands) := by
    refine reads_separatedOrNone (fun o _ => o.reads) rfl fun o _ => ?_
    cases o <;> rfl
  refine hoperands.between_bind .lparen rfl fun operands hoperands => ?_
  refine (reads_symbol .arrow).bind (fun _ _ => ?_) clear_never
  refine (reads_separated h.types (fun t ht => (h.type t ht).reads) rfl).bind (fun types htypes => ?_) ?_
  · refine (reads_clause h.domain _).bind (fun domain hdomain => ?_) rfl
    refine d.body.reads.bind (fun main hmain => ?_) clear_never
    refine (reads_epilogue d.epilogue).last fun rest hrest _ => ?_
    rw [RegionDecl.bare, RegionDecl.bare, map_bare_eq hresults, hname, map_bare_eq hoperands,
      map_bare_eq htypes, hdomain, hmain, hrest]
  · cases d.domain with
    | none => rfl
    | some b => rfl

theorem RegionDecl.Grammatical.tokens_eq_cons {d : RegionDecl} (h : d.Grammatical) :
    ∃ n ts, d.tokens = .localName n :: ts := by
  cases hr : d.results with
  | nil => exact absurd hr h.results
  | cons n ns =>
    rw [RegionDecl.tokens, hr, localTokens, List.map_cons, commaTokens_cons]
    exact ⟨_, _, rfl⟩

theorem ItemDecl.Grammatical.reads {d : ItemDecl} (h : d.Grammatical) :
    Reads item d.tokens Func.isItemTail (·.bare = d.bare) := by
  cases d with
  | buffer d =>
    have hbuffer : Reads (ItemDecl.buffer <$> Reading.buffer) d.tokens
        (fun t => t = .keyword .domain || t = .keyword .required) (·.bare = (ItemDecl.buffer d).bare) :=
      (BufferDecl.Grammatical.reads h).map fun x hx => congrArg ItemDecl.buffer hx
    refine reads_peek (hbuffer.mono (fun t ht => ?_) fun _ h => h)
    simp only [Func.isItemTail, ht, Bool.true_or]
  | region d =>
    have hregion : Reads (ItemDecl.region <$> Reading.region) d.tokens (· = .keyword .epilogue)
        (·.bare = (ItemDecl.region d).bare) :=
      (RegionDecl.Grammatical.reads h).map fun x hx => congrArg ItemDecl.region hx
    obtain ⟨n, ts, hts⟩ := RegionDecl.Grammatical.tokens_eq_cons h
    rw [hts] at hregion
    rw [ItemDecl.tokens, hts]
    refine reads_peek (hregion.mono (fun t ht => ?_) fun _ h => h)
    simp only [Func.isItemTail, ht, Bool.or_true]
  | output d =>
    have houtput : Reads (ItemDecl.output <$> Reading.output) d.tokens never
        (·.bare = (ItemDecl.output d).bare) := by
      refine Reads.map (P := (·.bare = d.bare)) ?_ fun x hx => congrArg ItemDecl.output hx
      refine Reads.located ((reads_keyword .output).bind (fun _ _ => ?_) clear_never)
      refine d.temp.reads_local.bind (fun n hn => ?_) clear_never
      refine (BoxDecl.Grammatical.reads h).last fun b hb _ => ?_
      rw [OutputDecl.bare, OutputDecl.bare, hn, hb]
    exact reads_peek houtput.of_never

theorem ItemDecl.Grammatical.isItemStart_head {d : ItemDecl} (h : d.Grammatical) :
    d.tokens.head?.any isItemStart = true := by
  cases d with
  | buffer d => rfl
  | region d =>
    obtain ⟨n, ts, hts⟩ := RegionDecl.Grammatical.tokens_eq_cons h
    rw [ItemDecl.tokens, hts]
    rfl
  | output d => rfl

theorem isItemTail_of_isItemStart {t : Token} (h : isItemStart t = true) : Func.isItemTail t = false := by
  simp only [isItemStart, Bool.or_eq_true, decide_eq_true_eq] at h
  rcases h with (rfl | rfl) | h
  · rfl
  · rfl
  · cases t with
    | localName n => rfl
    | _ => cases h

theorem FuncDecl.Grammatical.reads {d : FuncDecl} (h : d.Grammatical) :
    Reads func d.tokens never (·.bare = d.bare) := by
  have hitems : Reads (bounded (many isItemStart item)) (d.items.flatMap ItemDecl.tokens)
      (fun t => isItemStart t || Func.isItemTail t)
        (List.Forall₂ (fun x i => x.bare = i.bare) · d.items) :=
    reads_bounded_many (fun i hi => (h i hi).reads) (fun i hi => (h i hi).isItemStart_head)
      fun t ht => isItemTail_of_isItemStart ht
  refine Reads.located ((reads_keyword .func).bind (fun _ _ => ?_) clear_never)
  refine d.name.reads_ident.bind (fun name hname => ?_) clear_never
  refine (reads_keyword .rank).bind (fun _ _ => ?_) clear_never
  refine (reads_locatedInt d.rank).bind (fun rank hrank => ?_) clear_never
  refine (hitems.between .lbrace rfl).last fun items hitems _ => ?_
  rw [FuncDecl.bare, FuncDecl.bare, hname, hrank, map_bare_eq hitems]

namespace ProgramDecl

theorem Grammatical.reads {d : ProgramDecl} (h : d.Grammatical) :
    Reads Reading.functions d.tokens (fun t => t = .keyword .func || never t)
      (·.map FuncDecl.bare = d.functions.map FuncDecl.bare) :=
  (reads_bounded_many (fun f hf => (h f hf).reads) (fun _ _ => rfl) fun _ _ => rfl).mono (fun _ h => h)
    fun _ hfs => map_bare_eq hfs

theorem ofTokens_eq_ok_iff {length : Nat} {ls : List Lexeme} {p : ProgramDecl} :
    ofTokens length ls = .ok p ↔ ∃ fs, Reading.functions ls = .ok (fs, []) ∧
      p = ofFunctions length ls fs := by
  unfold ofTokens
  split <;> rename_i h <;> simp [h, eq_comm]

theorem ofProductions_eq_some_iff {length : Nat} {ls : List Lexeme} {p : ProgramDecl} :
    ofProductions length ls = some p ↔
      ∃ fs, Rule.repeated Rule.func ls = some (fs, []) ∧ p = ofFunctions length ls fs := by
  unfold ofProductions
  split
  · next fs h => simp [h, eq_comm]
  · next h =>
    simp only [reduceCtorEq, false_iff, not_exists, not_and]
    intro fs hfs
    exact absurd hfs (h fs)

theorem grammatical_of_ofProductions {length : Nat} {ls : List Lexeme} {p : ProgramDecl}
    (h : ofProductions length ls = some p) : p.Grammatical ∧ ls.map (·.token) = p.tokens := by
  obtain ⟨fs, hfs, rfl⟩ := ofProductions_eq_some_iff.mp h
  obtain ⟨taken, rfl, htaken, hgood⟩ := (Rule.Parses.repeated Rule.parses_func) _ _ _ hfs
  rw [List.append_nil]
  exact ⟨hgood, htaken⟩

theorem Grammatical.exists_ofTokens {d : ProgramDecl} (h : d.Grammatical) (length : Nat)
    {ls : List Lexeme}
    (hls : ls.map (·.token) = d.tokens) : ∃ p, ofTokens length ls = .ok p ∧ p.bare = d.bare := by
  obtain ⟨fs, hread, hfs⟩ := h.reads ls [] hls rfl
  rw [List.append_nil] at hread
  refine ⟨_, ofTokens_eq_ok_iff.mpr ⟨fs, hread, rfl⟩, ?_⟩
  rw [ofFunctions, bare, bare, hfs]

theorem ofProductions_of_ofTokens {length : Nat} {ls : List Lexeme} {p : ProgramDecl}
    (h : ofTokens length ls = .ok p) : ofProductions length ls = some p := by
  obtain ⟨fs, hfs, rfl⟩ := ofTokens_eq_ok_iff.mp h
  exact ofProductions_eq_some_iff.mpr ⟨fs, Reading.follows_functions ls fs [] hfs, rfl⟩

theorem grammatical_of_ofTokens {length : Nat} {ls : List Lexeme} {p : ProgramDecl}
    (h : ofTokens length ls = .ok p) :
    p.Grammatical ∧ ls.map (·.token) = p.tokens :=
  grammatical_of_ofProductions (ofProductions_of_ofTokens h)

/-- Reading by the next token alone gives what the productions give. Where these apply, the tokens
are the ones of grammatical declarations, which are read too. -/
theorem ofProductions_eq (length : Nat) (ls : List Lexeme) :
    ofProductions length ls = (ofTokens length ls).toOption := by
  cases hread : ofTokens length ls with
  | ok p => exact ofProductions_of_ofTokens hread
  | error e =>
    change ofProductions length ls = none
    rw [Option.eq_none_iff_forall_ne_some]
    intro p hp
    obtain ⟨hgood, htokens⟩ := grammatical_of_ofProductions hp
    obtain ⟨p', hp', _⟩ := hgood.exists_ofTokens length htokens
    rw [hread] at hp'
    cases hp'

theorem Grammatical.exists_ofProductions {d : ProgramDecl} (h : d.Grammatical) (length : Nat)
    {ls : List Lexeme}
    (hls : ls.map (·.token) = d.tokens) : ∃ p, ofProductions length ls = some p ∧ p.bare = d.bare := by
  obtain ⟨p, hp, hbare⟩ := h.exists_ofTokens length hls
  exact ⟨p, ofProductions_of_ofTokens hp, hbare⟩

theorem Grammatical.bare_eq {d d' : ProgramDecl} (h : d.Grammatical) (h' : d'.Grammatical)
    (heq : d.tokens = d'.tokens) : d.bare = d'.bare := by
  have hls : (d.tokens.map (Lexeme.mk · .nowhere)).map (·.token) = d.tokens := by simp [Function.comp_def]
  obtain ⟨p, hp, hbare⟩ := h.exists_ofTokens 0 hls
  obtain ⟨p', hp', hbare'⟩ := h'.exists_ofTokens 0 (hls.trans heq)
  cases hp.symm.trans hp'
  exact hbare.symm.trans hbare'

/-- The productions accept exactly the grammar. With choices taken in order and repetitions as far
as they go, they give declarations just for the token lists that grammatical declarations are
written with; what they give is grammatical and written with all the tokens in their order; it is
the only thing they can be read as, up to places; and reading by the next token alone gives the
same. -/
theorem parsing_exact (length : Nat) (ls : List Lexeme) :
    ((∃ p, ofProductions length ls = some p) ↔ ∃ d : ProgramDecl, d.Grammatical ∧
      ls.map (·.token) = d.tokens) ∧
      (∀ p, ofProductions length ls = some p → p.Grammatical ∧ ls.map (·.token) = p.tokens ∧
        ∀ d : ProgramDecl, d.Grammatical → ls.map (·.token) = d.tokens → p.bare = d.bare) ∧
      ofProductions length ls = (ofTokens length ls).toOption := by
  refine ⟨⟨?_, ?_⟩, ?_, ofProductions_eq length ls⟩
  · rintro ⟨p, hp⟩
    exact ⟨p, grammatical_of_ofProductions hp⟩
  · rintro ⟨d, hd, hls⟩
    obtain ⟨p, hp, _⟩ := hd.exists_ofProductions length hls
    exact ⟨p, hp⟩
  · intro p hp
    obtain ⟨hgood, htokens⟩ := grammatical_of_ofProductions hp
    exact ⟨hgood, htokens, fun d hd hls => hgood.bare_eq hd (htokens.symm.trans hls)⟩

end ProgramDecl

end Stencil
