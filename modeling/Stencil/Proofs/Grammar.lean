import Stencil.Decl.Grammar
import Stencil.Proofs.Reading

/-! The grammar of declarations: the tokens that a declaration is written with, and which
declarations can be written. Whatever a reader makes of tokens can be written, and it is written
with just the tokens that were taken. -/

set_option autoImplicit false

namespace Stencil

namespace BoxDecl

def tokens (d : BoxDecl) : List Token :=
  match d.ranges with
  | none => [.keyword .empty]
  | some rs => .symbol .lbracket :: (commaTokens (rs.map rangeTokens) ++ [.symbol .rbracket])

/-- A box in brackets has a range. -/
def Grammatical (d : BoxDecl) : Prop := d.ranges ≠ some []

def clause (words : List Token) : Option BoxDecl → List Token
  | none => []
  | some d => words ++ d.tokens

end BoxDecl

def OffsetDecl.tokens (d : OffsetDecl) : List Token :=
  .symbol .lbracket :: (commaTokens (d.values.map fun z => [.int z]) ++ [.symbol .rbracket])

def localTokens (ns : List Name) : List Token := commaTokens (ns.map fun n => [.localName n.text])

def OpDecl.tokens : OpDecl → List Token
  | .access o off => .keyword .access :: o.token :: off.tokens
  | .index dim _ off => .keyword .index :: .int dim :: off.tokens
  | .constant v => [.keyword .const, v.token]
  | .unary op a => [.ident op.mnemonic, .localName a.text]
  | .binary op l r => [.ident op.mnemonic, .localName l.text, .symbol .comma, .localName r.text]
  | .call callee args isPure =>
    .keyword .call :: ((if isPure then [] else [.keyword .impure]) ++
      .ident callee.text :: .symbol .lparen :: (localTokens args ++ [.symbol .rparen]))

def StatementDecl.tokens (d : StatementDecl) : List Token :=
  .localName d.result.text :: .symbol .equals :: d.op.tokens

def unrollingTokens : Option (Int × Int) → List Token
  | none => []
  | some (axis, factor) => [.keyword .unroll, .int axis, .keyword .byFactor, .int factor]

def ReturnDecl.tokens (d : ReturnDecl) : List Token :=
  .keyword .returns :: (localTokens d.values ++ unrollingTokens d.unroll)

namespace BodyDecl

def tokens (d : BodyDecl) : List Token :=
  .symbol .lbrace :: (d.statements.flatMap StatementDecl.tokens ++ (d.ret.tokens ++ [.symbol .rbrace]))

def epilogue : Option BodyDecl → List Token
  | none => []
  | some d => .keyword .epilogue :: d.tokens

end BodyDecl

namespace TypeDecl

def tokens (d : TypeDecl) : List Token := .ident d.elem.text :: BoxDecl.clause [] d.shape

def Grammatical (d : TypeDecl) : Prop := ∀ b ∈ d.shape, b.Grammatical

end TypeDecl

namespace BufferDecl

def tokens (d : BufferDecl) : List Token :=
  .keyword .buffer :: .globalName d.name.text :: .symbol .colon :: .ident d.elem.text ::
    (BoxDecl.clause [.keyword .domain] d.domain ++ BoxDecl.clause [.keyword .required] d.required)

structure Grammatical (d : BufferDecl) : Prop where
  domain : ∀ b ∈ d.domain, b.Grammatical
  required : ∀ b ∈ d.required, b.Grammatical

end BufferDecl

namespace RegionDecl

def tokens (d : RegionDecl) : List Token :=
  localTokens d.results ++ .symbol .equals :: .keyword .apply :: .ident d.name.text :: .symbol .lparen ::
    (commaTokens (d.operands.map fun o => [o.token]) ++ .symbol .rparen :: .symbol .arrow ::
      (commaTokens (d.types.map TypeDecl.tokens) ++ (BoxDecl.clause [.keyword .overBox] d.domain ++
        (d.body.tokens ++ BodyDecl.epilogue d.epilogue))))

/-- A region has a result and a type. That there are as many of the one as of the other is not a
matter of grammar. -/
structure Grammatical (d : RegionDecl) : Prop where
  results : d.results ≠ []
  types : d.types ≠ []
  type : ∀ t ∈ d.types, t.Grammatical
  domain : ∀ b ∈ d.domain, b.Grammatical

end RegionDecl

def OutputDecl.tokens (d : OutputDecl) : List Token :=
  .keyword .output :: .localName d.temp.text :: d.domain.tokens

namespace ItemDecl

def tokens : ItemDecl → List Token
  | .buffer d => d.tokens
  | .region d => d.tokens
  | .output d => d.tokens

def Grammatical : ItemDecl → Prop
  | .buffer d => d.Grammatical
  | .region d => d.Grammatical
  | .output d => d.domain.Grammatical

end ItemDecl

namespace FuncDecl

def tokens (d : FuncDecl) : List Token :=
  .keyword .func :: .ident d.name.text :: .keyword .rank :: .int d.rank :: .symbol .lbrace ::
    (d.items.flatMap ItemDecl.tokens ++ [.symbol .rbrace])

def Grammatical (d : FuncDecl) : Prop := ∀ i ∈ d.items, i.Grammatical

end FuncDecl

namespace ProgramDecl

def tokens (d : ProgramDecl) : List Token := d.functions.flatMap FuncDecl.tokens

def Grammatical (d : ProgramDecl) : Prop := ∀ f ∈ d.functions, f.Grammatical

end ProgramDecl

theorem UnaryOp.mnemonic_of_ofMnemonic? {s : String} {g : UnaryOp} (h : ofMnemonic? s = some g) :
    g.mnemonic = s := by
  have hs := List.find?_some h
  exact of_decide_eq_true hs

theorem BinaryOp.mnemonic_of_ofMnemonic? {s : String} {g : BinaryOp} (h : ofMnemonic? s = some g) :
    g.mnemonic = s := by
  have hs := List.find?_some h
  exact of_decide_eq_true hs

namespace Rule

variable {α β : Type}

/-- Whatever the rule makes is made of tokens from the front, and has that property with them. -/
def Takes (p : Rule α) (Q : α → List Token → Prop) : Prop :=
  ∀ ls x rest, p ls = some (x, rest) → ∃ taken, ls = taken ++ rest ∧ Q x (taken.map (·.token))

/-- The rule makes only values with that property, and takes the tokens they are written with. -/
abbrev Parses (p : Rule α) (tokens : α → List Token) (good : α → Prop) : Prop :=
  Takes p fun x ts => ts = tokens x ∧ good x

theorem Takes.mono {p : Rule α} {P Q : α → List Token → Prop} (h : Takes p P)
    (hQ : ∀ x ts, P x ts → Q x ts) :
    Takes p Q := by
  intro ls x rest hx
  obtain ⟨taken, hls, hP⟩ := h ls x rest hx
  exact ⟨taken, hls, hQ _ _ hP⟩

theorem Takes.bind {p : Rule α} {f : α → Rule β} {P : α → List Token → Prop} {Q : β → List Token → Prop}
    (hp : Takes p P) (hf : ∀ x us, P x us → Takes (f x) fun y vs => Q y (us ++ vs)) :
    Takes (p >>= f) Q := by
  intro ls y rest hy
  obtain ⟨r, hr, hnext⟩ := Option.bind_eq_some_iff.mp hy
  obtain ⟨taken, rfl, hP⟩ := hp ls r.1 r.2 hr
  obtain ⟨more, hmore, hQ⟩ := hf r.1 _ hP r.2 y rest hnext
  refine ⟨taken ++ more, by rw [hmore, List.append_assoc], ?_⟩
  rwa [List.map_append]

theorem takes_pure {x : α} {Q : α → List Token → Prop} (h : Q x []) : Takes (pure x) Q := by
  intro ls y rest hy
  cases hy
  exact ⟨[], rfl, h⟩

theorem Takes.last {p : Rule α} {g : α → β} {P : α → List Token → Prop} {Q : β → List Token → Prop}
    (h : Takes p P) (hQ : ∀ x us, P x us → Q (g x) us) : Takes (p >>= fun x => pure (g x)) Q := by
  refine h.bind fun x us hx => takes_pure ?_
  rw [List.append_nil]
  exact hQ x us hx

theorem Takes.map {p : Rule α} {g : α → β} {P : α → List Token → Prop} {Q : β → List Token → Prop}
    (h : Takes p P) (hQ : ∀ x us, P x us → Q (g x) us) : Takes (g <$> p) Q := h.last hQ

theorem takes_select (c : Terminal α) : Takes (select c) fun x ts => ts = [c.token x] := by
  intro ls x rest hx
  cases ls with
  | nil => cases hx
  | cons l ls =>
    obtain ⟨y, hy, hx⟩ := Option.map_eq_some_iff.mp hx
    cases hx
    exact ⟨[l], rfl, congrArg (fun t => [t]) (c.token_eq hy)⟩

theorem takes_just (t : Token) : Takes (just t) fun _ ts => ts = [t] := takes_select (.just t)

theorem takes_choice {ps : List (Rule α)} {Q : α → List Token → Prop} (h : ∀ p ∈ ps, Takes p Q) :
    Takes (choice ps) Q := by
  intro ls x rest hx
  obtain ⟨p, hp, hpx⟩ := List.exists_of_findSome?_eq_some hx
  exact h p hp ls x rest hpx

theorem Takes.orNot {p : Rule α} {P : α → List Token → Prop} (h : Takes p P) :
    Takes (orNot p) fun o ts => match o with
      | none => ts = []
      | some x => P x ts := by
  intro ls o rest ho
  unfold Rule.orNot at ho
  split at ho
  · next x rest' hx =>
    cases ho
    exact h ls x rest hx
  · cases ho
    exact ⟨[], rfl, rfl⟩

theorem Takes.located {p : Rule (Span → α)} {Q : α → List Token → Prop}
    (h : Takes p fun g ts => ∀ s, Q (g s) ts) :
    Takes (located p) Q := by
  intro ls x rest hx
  obtain ⟨r, hr, hx⟩ := Option.map_eq_some_iff.mp hx
  cases hx
  obtain ⟨taken, hls, hQ⟩ := h ls r.1 r.2 hr
  exact ⟨taken, hls, hQ _⟩

theorem Takes.tryMap {p : Rule α} {f : α → Option β} {P : α → List Token → Prop}
    {Q : β → List Token → Prop}
    (h : Takes p P) (hQ : ∀ x y us, f x = some y → P x us → Q y us) : Takes (tryMap f p) Q := by
  intro ls y rest hy
  obtain ⟨r, hr, hy⟩ := Option.bind_eq_some_iff.mp hy
  obtain ⟨y', hf, hy⟩ := Option.bind_eq_some_iff.mp hy
  cases hy
  obtain ⟨taken, hls, hP⟩ := h ls r.1 r.2 hr
  exact ⟨taken, hls, hQ r.1 y _ hf hP⟩

theorem Takes.delimited {p : Rule α} {P : α → List Token → Prop} (h : Takes p P) (first last : Symbol) :
    Takes (delimited first last p) fun x ts => ∃ us, ts = .symbol first :: (us ++ [.symbol last]) ∧
      P x us := by
  refine (takes_just _).bind fun _ ts hts => h.bind fun x us hus => (takes_just _).last fun _ vs hvs => ?_
  refine ⟨us, ?_, hus⟩
  rw [hts, hvs]
  rfl

theorem Takes.clause {p : Rule α} {P : α → List Token → Prop} (h : Takes p P) (t : Token) :
    Takes (Rule.orNot (behind t p)) fun o ts => match o with
      | none => ts = []
      | some x => ∃ us, ts = t :: us ∧ P x us := by
  refine Takes.orNot ((takes_just t).bind fun _ us hus => h.mono fun x vs hx => ⟨vs, ?_, hx⟩)
  rw [hus]
  rfl

section Repetition

variable {p : Rule α} {tokens : α → List Token} {good : α → Prop}

theorem Parses.repeated (h : Parses p tokens good) :
    Parses (repeated p) (·.flatMap tokens) fun xs => ∀ x ∈ xs, good x := by
  intro ls xs rest hxs
  replace hxs : items p ls = (xs, rest) := Option.some.inj hxs
  fun_induction items p ls generalizing xs with
  | case1 ls =>
    cases hxs
    exact ⟨[], rfl, rfl, by simp⟩
  | case2 ls x more hx hlt later ih =>
    obtain ⟨rfl, hrest⟩ := Prod.mk.inj hxs
    obtain ⟨taken, rfl, htaken, hgood⟩ := h _ _ _ hx
    obtain ⟨taken', hmore, htaken', hgood'⟩ := ih later.1 (Prod.ext rfl hrest)
    refine ⟨taken ++ taken', by rw [hmore, List.append_assoc], ?_,
      List.forall_mem_cons.mpr ⟨hgood, hgood'⟩⟩
    rw [List.map_append, htaken, htaken']
    exact List.flatMap_cons.symm
  | case3 ls x more hx hlt =>
    cases hxs
    exact ⟨[], rfl, rfl, by simp⟩

theorem Parses.comma (h : Parses p tokens good) :
    Parses (do just (.symbol .comma); p) (fun x => .symbol .comma :: tokens x) good := by
  refine (takes_just _).bind fun _ us hus => h.mono fun x vs hx => ?_
  rw [hus, hx.1]
  exact ⟨rfl, hx.2⟩

theorem Parses.separated (h : Parses p tokens good) :
    Parses (separated p) (fun xs => commaTokens (xs.map tokens)) fun xs => xs ≠ [] ∧
      ∀ x ∈ xs, good x := by
  refine h.bind fun x us hx => (Parses.repeated (Parses.comma h)).last fun xs vs hxs => ?_
  refine ⟨?_, List.cons_ne_nil _ _, List.forall_mem_cons.mpr ⟨hx.2, hxs.2⟩⟩
  rw [hx.1, hxs.1]
  simp only [List.map_cons, Reading.commaTokens_cons, List.flatMap_map]

theorem Parses.separatedOrNone (h : Parses p tokens good) :
    Parses (separatedOrNone p) (fun xs => commaTokens (xs.map tokens)) fun xs => ∀ x ∈ xs, good x := by
  refine takes_choice fun q hq => ?_
  rcases List.mem_pair.mp hq with rfl | rfl
  · exact (Parses.separated h).mono fun xs ts hxs => ⟨hxs.1, hxs.2.2⟩
  · exact takes_pure ⟨rfl, by simp⟩

end Repetition

theorem parses_select (c : Terminal α) : Parses (select c) (fun x => [c.token x]) fun _ => True :=
  (takes_select c).mono fun _ _ h => ⟨h, trivial⟩

theorem takes_values : Takes values fun ns ts => ts = localTokens ns :=
  (Parses.separatedOrNone (parses_select .localName)).mono fun _ _ h => h.1

theorem takes_operand : Takes operand fun o ts => ts = [o.token] := by
  refine takes_choice fun q hq => ?_
  rcases List.mem_pair.mp hq with rfl | rfl
  · exact (takes_select .localName).map fun _ _ h => h
  · exact (takes_select .globalName).map fun _ _ h => h

theorem takes_locatedInt : Takes locatedInt fun z ts => ts = [.int z.1] :=
  Takes.located ((takes_select .int).last fun _ _ h _ => h)

theorem parses_range : Parses range rangeTokens fun _ => True := by
  refine (takes_select .int).bind fun l us hl => (takes_just _).bind fun _ vs hv => ?_
  refine (takes_select .int).last fun u ws hw => ?_
  rw [hl, hv, hw]
  exact ⟨rfl, trivial⟩

theorem parses_box : Parses box BoxDecl.tokens BoxDecl.Grammatical := by
  refine takes_choice fun q hq => ?_
  rcases List.mem_pair.mp hq with rfl | rfl
  · refine Takes.located ((takes_just _).last fun _ us hus _ => ⟨hus, ?_⟩)
    rintro ⟨⟩
  · refine Takes.located (((Parses.separated parses_range).delimited _ _).last ?_)
    rintro rs _ ⟨us, rfl, rfl, hne, _⟩ s
    exact ⟨rfl, fun h => hne (Option.some.inj h)⟩

theorem takes_box_clause (t : Token) :
    Takes (orNot (behind t box)) fun o ts => ts = BoxDecl.clause [t] o ∧ ∀ b ∈ o, b.Grammatical := by
  refine (parses_box.clause t).mono fun o ts h => ?_
  cases o with
  | none => exact ⟨h, by simp⟩
  | some b =>
    obtain ⟨us, rfl, rfl, hb⟩ := h
    refine ⟨rfl, ?_⟩
    rintro _ ⟨⟩
    exact hb

theorem takes_offset : Takes offset fun d ts => ts = d.tokens := by
  refine Takes.located (((Parses.separatedOrNone (parses_select .int)).delimited _ _).last ?_)
  rintro zs _ ⟨us, rfl, rfl, _⟩ s
  rfl

theorem takes_access : Takes access fun d ts => ts = d.tokens := by
  refine (takes_just _).bind fun _ us hus => takes_operand.bind fun o vs hvs => ?_
  refine takes_offset.last fun off ws hws => ?_
  rw [hus, hvs, hws]
  rfl

theorem takes_index : Takes index fun d ts => ts = d.tokens := by
  refine (takes_just _).bind fun _ us hus => takes_locatedInt.bind fun dim vs hvs => ?_
  refine takes_offset.last fun off ws hws => ?_
  rw [hus, hvs, hws]
  rfl

theorem takes_constant : Takes constant fun d ts => ts = d.tokens := by
  refine (takes_just _).bind fun _ us hus => (takes_select .literal).last fun v vs hvs => ?_
  rw [hus, hvs]
  rfl

theorem takes_call : Takes call fun d ts => ts = d.tokens := by
  have himpure : Takes (orNot (just (.keyword .impure))) fun o ts =>
      ts = if o.isNone then [] else [.keyword .impure] := by
    refine (takes_just _).orNot.mono fun o ts h => ?_
    cases o with
    | none => exact h
    | some _ => exact h
  refine (takes_just _).bind fun _ us hus => himpure.bind fun impure vs hvs => ?_
  refine (takes_select .ident).bind fun callee ws hws => (takes_values.delimited _ _).last ?_
  rintro args _ ⟨as, rfl, rfl⟩
  rw [hus, hvs, hws]
  rfl

theorem tokens_of_applied {m : Name} {args : List Name} {d : OpDecl} (h : OpDecl.applied m args = .ok d) :
    .ident m.text :: localTokens args = d.tokens := by
  unfold OpDecl.applied at h
  split at h <;> cases h
  · rename_i g hg
    rw [← UnaryOp.mnemonic_of_ofMnemonic? hg]
    rfl
  · rename_i g l r _ hg
    rw [← BinaryOp.mnemonic_of_ofMnemonic? hg]
    rfl

theorem takes_arithmetic : Takes arithmetic fun d ts => ts = d.tokens := by
  have hparts : Takes (do let m ← ident; let args ← separated localName; pure (m, args)) fun x ts =>
      ts = .ident x.1.text :: localTokens x.2 := by
    refine (takes_select .ident).bind fun m us hus =>
      (Parses.separated (parses_select .localName)).last ?_
    rintro args _ ⟨rfl, _⟩
    rw [hus]
    rfl
  refine hparts.tryMap fun x d us hd hus => ?_
  rw [hus]
  cases happlied : OpDecl.applied x.1 x.2 with
  | error e => rw [happlied] at hd; cases hd
  | ok d' =>
    rw [happlied] at hd
    cases hd
    exact tokens_of_applied happlied

theorem parses_statement : Parses statement StatementDecl.tokens fun _ => True := by
  have hop : Takes (choice [access, index, constant, call, arithmetic]) fun d ts => ts = d.tokens := by
    refine takes_choice fun q hq => ?_
    simp only [List.mem_cons, List.not_mem_nil, or_false] at hq
    rcases hq with rfl | rfl | rfl | rfl | rfl
    exacts [takes_access, takes_index, takes_constant, takes_call, takes_arithmetic]
  refine Takes.located ((takes_select .localName).bind fun n us hus =>
    (takes_just _).bind fun _ vs hvs => ?_)
  refine hop.last fun op ws hws _ => ?_
  rw [hus, hvs, hws]
  exact ⟨rfl, trivial⟩

theorem takes_returned : Takes returned fun d ts => ts = d.tokens := by
  have hunrolling : Takes unrolling fun u ts => ts = [.int u.1, .keyword .byFactor, .int u.2] := by
    refine (takes_select .int).bind fun axis us hus => (takes_just _).bind fun _ vs hvs => ?_
    refine (takes_select .int).last fun factor ws hws => ?_
    rw [hus, hvs, hws]
    rfl
  have hunroll :
      Takes (orNot (behind (.keyword .unroll) unrolling)) fun o ts => ts = unrollingTokens o := by
    refine (hunrolling.clause _).mono fun o ts h => ?_
    cases o with
    | none => exact h
    | some u =>
      obtain ⟨us, rfl, rfl⟩ := h
      rfl
  refine Takes.located ((takes_just _).bind fun _ us hus => takes_values.bind fun values vs hvs => ?_)
  refine hunroll.last fun unroll ws hws _ => ?_
  rw [hus, hvs, hws]
  rfl

theorem takes_body : Takes body fun d ts => ts = d.tokens := by
  refine Takes.located ((takes_just _).bind fun _ us hus =>
    (Parses.repeated parses_statement).bind fun ss vs hss => ?_)
  refine takes_returned.bind fun ret ws hws => (takes_just _).last fun _ xs hxs _ => ?_
  rw [hus, hss.1, hws, hxs]
  rfl

theorem parses_resultType : Parses resultType TypeDecl.tokens TypeDecl.Grammatical := by
  refine (takes_select .ident).bind fun elem us hus => parses_box.orNot.last fun shape vs hshape => ?_
  rw [hus]
  cases shape with
  | none =>
    rw [hshape]
    exact ⟨rfl, by simp [TypeDecl.Grammatical]⟩
  | some b =>
    rw [hshape.1]
    refine ⟨rfl, ?_⟩
    rintro _ ⟨⟩
    exact hshape.2

theorem parses_buffer : Parses buffer BufferDecl.tokens BufferDecl.Grammatical := by
  refine Takes.located ((takes_just _).bind fun _ us hus =>
    (takes_select .globalName).bind fun name vs hvs => ?_)
  refine (takes_just _).bind fun _ ws hws => (takes_select .ident).bind fun elem xs hxs => ?_
  refine (takes_box_clause _).bind fun domain ds hdomain =>
    (takes_box_clause _).last fun required rs hrequired _ => ?_
  rw [hus, hvs, hws, hxs, hdomain.1, hrequired.1]
  exact ⟨rfl, hdomain.2, hrequired.2⟩

theorem parses_region : Parses region RegionDecl.tokens RegionDecl.Grammatical := by
  have hoperand : Parses operand (fun o => [o.token]) fun _ => True :=
    takes_operand.mono fun _ _ h => ⟨h, trivial⟩
  have hepilogue :
      Takes (orNot (behind (.keyword .epilogue) body)) fun o ts => ts = BodyDecl.epilogue o := by
    refine (takes_body.clause _).mono fun o ts h => ?_
    cases o with
    | none => exact h
    | some d =>
      obtain ⟨us, rfl, rfl⟩ := h
      rfl
  refine Takes.located ((Parses.separated (parses_select .localName)).bind fun results rs hresults => ?_)
  refine (takes_just _).bind fun _ us hus => (takes_just _).bind fun _ vs hvs => ?_
  refine (takes_select .ident).bind fun name ns hns =>
    ((Parses.separatedOrNone hoperand).delimited _ _).bind ?_
  rintro operands _ ⟨os, rfl, rfl, _⟩
  refine (takes_just _).bind fun _ as has =>
    (Parses.separated parses_resultType).bind fun types ts htypes => ?_
  refine (takes_box_clause _).bind fun domain ds hdomain => takes_body.bind fun main bs hbs => ?_
  refine hepilogue.last fun epilogue es hes _ => ⟨?_, hresults.2.1, htypes.2.1, htypes.2.2, hdomain.2⟩
  rw [hresults.1, hus, hvs, hns, has, htypes.1, hdomain.1, hbs, hes]
  simp [RegionDecl.tokens, localTokens, Terminal.localName, Terminal.ident]

theorem parses_output : Parses output OutputDecl.tokens fun d => d.domain.Grammatical := by
  refine Takes.located ((takes_just _).bind fun _ us hus =>
    (takes_select .localName).bind fun n vs hvs => ?_)
  refine parses_box.last fun d ws hd _ => ?_
  rw [hus, hvs, hd.1]
  exact ⟨rfl, hd.2⟩

theorem parses_item : Parses item ItemDecl.tokens ItemDecl.Grammatical := by
  refine takes_choice fun q hq => ?_
  simp only [List.mem_cons, List.not_mem_nil, or_false] at hq
  rcases hq with rfl | rfl | rfl
  · exact parses_buffer.map fun _ _ h => h
  · exact parses_region.map fun _ _ h => h
  · exact parses_output.map fun _ _ h => h

theorem parses_func : Parses func FuncDecl.tokens FuncDecl.Grammatical := by
  refine Takes.located ((takes_just _).bind fun _ us hus =>
    (takes_select .ident).bind fun name ns hns => ?_)
  refine (takes_just _).bind fun _ vs hvs => takes_locatedInt.bind fun rank rs hrs => ?_
  refine ((Parses.repeated parses_item).delimited _ _).last ?_
  rintro items _ ⟨is, rfl, rfl, hitems⟩ _
  rw [hus, hns, hvs, hrs]
  exact ⟨rfl, hitems⟩

end Rule

end Stencil
