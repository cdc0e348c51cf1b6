import Stencil.Decl.Parser
import Stencil.Proofs.Grammar

/-! One token of lookahead. A rule that applies starts with one of a few tokens, so the next token
tells which alternative of a choice can apply and whether a repetition goes on. Reading by that
token alone, without ever going back, makes of the tokens what the productions make of them. -/

set_option autoImplicit false

namespace Stencil

variable {α β : Type}

def Lexeme.next? (ls : List Lexeme) : Option Token := ls.head?.map (·.token)

namespace Rule

/-- The rule applies only where one of these tokens is next. -/
def Needs (q : Rule α) (starts : Token → Bool) : Prop :=
  ∀ ls r, q ls = some r → (Lexeme.next? ls).any starts = true

theorem Needs.eq_none {q : Rule α} {starts : Token → Bool} (h : q.Needs starts) {ls : List Lexeme}
    (hls : (Lexeme.next? ls).any starts = false) : q ls = none := by
  cases hq : q ls with
  | none => rfl
  | some r =>
    have := h ls r hq
    rw [hls] at this
    cases this

theorem Needs.mono {q : Rule α} {starts starts' : Token → Bool} (h : q.Needs starts)
    (hstarts : ∀ t, starts t = true → starts' t = true) : q.Needs starts' := by
  intro ls r hr
  have hnext := h ls r hr
  cases hl : Lexeme.next? ls with
  | none => rw [hl] at hnext; cases hnext
  | some t =>
    rw [hl] at hnext
    exact hstarts t hnext

theorem Needs.bind {p : Rule α} {starts : Token → Bool} (h : p.Needs starts) (f : α → Rule β) :
    (p >>= f).Needs starts := by
  intro ls r hr
  obtain ⟨r', hp, _⟩ := Option.bind_eq_some_iff.mp hr
  exact h ls r' hp

theorem Needs.map {p : Rule α} {starts : Token → Bool} (h : p.Needs starts) (f : α → β) :
    (f <$> p).Needs starts :=
  h.bind fun x => pure (f x)

theorem Needs.located {p : Rule (Span → α)} {starts : Token → Bool} (h : p.Needs starts) :
    (located p).Needs starts := by
  intro ls r hr
  obtain ⟨r', hp, _⟩ := Option.map_eq_some_iff.mp hr
  exact h ls r' hp

theorem Needs.tryMap {p : Rule α} {starts : Token → Bool} (h : p.Needs starts) (f : α → Option β) :
    (tryMap f p).Needs starts := by
  intro ls r hr
  obtain ⟨r', hp, _⟩ := Option.bind_eq_some_iff.mp hr
  exact h ls r' hp

theorem needs_choice {qs : List (Rule α)} {starts : Token → Bool} (h : ∀ q ∈ qs, q.Needs starts) :
    (choice qs).Needs starts := by
  intro ls r hr
  obtain ⟨q, hq, hr⟩ := List.exists_of_findSome?_eq_some hr
  exact h q hq ls r hr

theorem needs_select {c : Terminal α} {starts : Token → Bool} (h : ∀ x, starts (c.token x) = true) :
    (select c).Needs starts := by
  intro ls r hr
  cases ls with
  | nil => cases hr
  | cons l ls =>
    obtain ⟨x, hx, _⟩ := Option.map_eq_some_iff.mp hr
    rw [Lexeme.next?, List.head?_cons, Option.map_some, Option.any_some, c.token_eq hx]
    exact h x

theorem needs_just (t : Token) : (just t).Needs (· = t) := needs_select fun _ => decide_eq_true rfl

theorem Needs.separated {q : Rule α} {starts : Token → Bool} (h : q.Needs starts) :
    (separated q).Needs starts :=
  h.bind _

theorem bind_of_some {p : Rule α} {f : α → Rule β} {ls rest : List Lexeme} {x : α}
    (h : p ls = some (x, rest)) :
    (p >>= f) ls = f x rest := by
  change ((p ls).bind fun r => f r.1 r.2) = f x rest
  rw [h, Option.bind_some]

theorem choice_cons (q : Rule α) (qs : List (Rule α)) (ls : List Lexeme) :
    choice (q :: qs) ls = (q ls).or (choice qs ls) := by
  rw [choice, List.findSome?_cons]
  cases q ls <;> rfl

theorem choice_of_none {q : Rule α} {qs : List (Rule α)} {ls : List Lexeme} (h : q ls = none) :
    choice (q :: qs) ls = choice qs ls := by
  rw [choice_cons, h, Option.none_or]

/-- A rule that is written with at least one token leaves fewer than there were. -/
theorem Parses.length_lt {q : Rule α} {tokens : α → List Token} {good : α → Prop}
    (h : q.Parses tokens good)
    (hne : ∀ x, tokens x ≠ []) {ls rest : List Lexeme} {x : α} (hx : q ls = some (x, rest)) :
    rest.length < ls.length := by
  obtain ⟨taken, rfl, htokens, _⟩ := h ls x rest hx
  have hpos : 0 < (taken.map (·.token)).length := List.length_pos_of_ne_nil (htokens ▸ hne x)
  rw [List.length_map] at hpos
  rw [List.length_append]
  omega

end Rule

namespace Reading

open Rule (Needs)

/-- What the reader reads, the rule makes of the same tokens. -/
def Follows (p : Reading α) (q : Rule α) : Prop :=
  ∀ ls x rest, p ls = .ok (x, rest) → q ls = some (x, rest)

theorem bind_eq_ok {p : Reading α} {f : α → Reading β} {ls rest : List Lexeme} {y : β}
    (h : (p >>= f) ls = .ok (y, rest)) : ∃ x mid, p ls = .ok (x, mid) ∧ f x mid = .ok (y, rest) := by
  change (p ls >>= fun r => f r.1 r.2) = .ok (y, rest) at h
  cases hp : p ls with
  | error e => rw [hp] at h; cases h
  | ok r =>
    rw [hp] at h
    exact ⟨r.1, r.2, rfl, h⟩

theorem Follows.bind {p : Reading α} {q : Rule α} {f : α → Reading β} {g : α → Rule β} (h : p.Follows q)
    (hf : ∀ x, (f x).Follows (g x)) : (p >>= f).Follows (q >>= g) := by
  intro ls y rest hy
  obtain ⟨x, mid, hx, hy⟩ := bind_eq_ok hy
  rw [Rule.bind_of_some (h ls x mid hx), hf x mid y rest hy]

theorem follows_pure (x : α) : Follows (pure x) (pure x) := by
  intro ls y rest hy
  cases hy
  rfl

theorem Follows.map {p : Reading α} {q : Rule α} (h : p.Follows q) (g : α → β) :
    (g <$> p).Follows (g <$> q) :=
  h.bind fun x => follows_pure (g x)

theorem follows_select (c : Terminal α) : (select c).Follows (.select c) := by
  intro ls x rest hx
  cases ls with
  | nil => cases hx
  | cons l ls =>
    rw [select] at hx
    cases hc : c.meaning? l with
    | none => rw [hc] at hx; cases hx
    | some y =>
      rw [hc] at hx
      cases hx
      rw [Rule.select, hc, Option.map_some]

theorem follows_expect (t : Token) : (expect t).Follows (.just t) := follows_select _

theorem Follows.located {p : Reading (Span → α)} {q : Rule (Span → α)} (h : p.Follows q) :
    (located p).Follows (.located q) := by
  intro ls x rest hx
  unfold Reading.located at hx
  cases hp : p ls with
  | error e => rw [hp] at hx; cases hx
  | ok r =>
    rw [hp] at hx
    cases hx
    rw [Rule.located, h ls r.1 r.2 hp, Option.map_some]

theorem Follows.between {p : Reading α} {q : Rule α} (h : p.Follows q) (first last : Symbol) :
    (between first last p).Follows (.delimited first last q) :=
  (follows_expect _).bind fun _ => h.bind fun _ => (follows_expect _).bind fun _ => follows_pure _

theorem Follows.whole {p : Reading α} {q : Rule α} (h : p.Follows q) : (whole p).Follows q := by
  intro ls x rest hx
  unfold Reading.whole at hx
  split at hx
  · next r hr =>
    cases hx
    exact h ls x rest hr
  · cases hx

theorem peek_bind (f : Option Token → Reading α) (ls : List Lexeme) :
    (peek >>= f) ls = f (Lexeme.next? ls) ls := rfl

theorem Follows.behind {p : Reading α} {q : Rule α} (h : p.Follows q) (t : Token) :
    (Reading.behind t p).Follows (.orNot (.behind t q)) := by
  intro ls o rest ho
  rw [Reading.behind, peek_bind] at ho
  split at ho
  · obtain ⟨u, mid, hu, ho⟩ := bind_eq_ok ho
    obtain ⟨x, mid', hx, ho⟩ := bind_eq_ok (f := fun x => pure (some x)) ho
    cases ho
    have hrule : Rule.behind t q ls = some (x, rest) := by
      rw [Rule.behind, Rule.bind_of_some (follows_expect t ls u mid hu), h mid x rest hx]
    rw [Rule.orNot, hrule]
  · next hne =>
    cases ho
    have hneeds : (Rule.behind t q).Needs (· = t) := (Rule.needs_just t).bind fun _ => q
    rw [Rule.orNot, hneeds.eq_none]
    cases hl : Lexeme.next? ls with
    | none => rfl
    | some u => simpa [hl] using hne

section Repetition

variable {item : Reading α} {q : Rule α} {tokens : α → List Token} {good : α → Prop}
    {starts : Token → Bool}

theorem Follows.many (h : item.Follows q) (hneeds : q.Needs starts) (hparses : q.Parses tokens good)
    (hne : ∀ x, tokens x ≠ []) (fuel : Nat) : (Reading.many starts item fuel).Follows (.repeated q) := by
  induction fuel with
  | zero =>
    intro ls xs rest hxs
    cases hxs
  | succ fuel ih =>
    intro ls xs rest hxs
    rw [Reading.many, peek_bind] at hxs
    split at hxs
    · obtain ⟨x, mid, hx, hxs⟩ := bind_eq_ok hxs
      obtain ⟨more, mid', hmore, hxs⟩ := bind_eq_ok hxs
      cases hxs
      have hq := h ls x mid hx
      have hitems := Option.some.inj (ih mid more rest hmore)
      rw [Rule.repeated, Rule.items, hq]
      simp only [if_pos (hparses.length_lt hne hq), hitems]
    · next hno =>
      cases hxs
      rw [Rule.repeated, Rule.items, hneeds.eq_none (Bool.eq_false_iff.mpr hno)]

theorem Follows.bounded_many (h : item.Follows q) (hneeds : q.Needs starts)
    (hparses : q.Parses tokens good)
    (hne : ∀ x, tokens x ≠ []) : (bounded (Reading.many starts item)).Follows (.repeated q) := by
  intro ls
  exact h.many hneeds hparses hne (ls.length + 1) ls

theorem Follows.separated (h : item.Follows q) (hparses : q.Parses tokens good) :
    (Reading.separated item).Follows (.separated q) := by
  have hcomma : (do symbol .comma; item).Follows (do Rule.just (.symbol .comma); q) :=
    (follows_expect _).bind fun _ => h
  have hmore := hcomma.bounded_many ((Rule.needs_just _).bind fun _ => q) (Rule.Parses.comma hparses)
    fun _ => List.cons_ne_nil _ _
  exact h.bind fun _ => hmore.bind fun _ => follows_pure _

theorem Follows.separatedOrNone (h : item.Follows q) (hneeds : q.Needs starts)
    (hparses : q.Parses tokens good) :
    (Reading.separatedOrNone starts item).Follows (.separatedOrNone q) := by
  intro ls xs rest hxs
  rw [Reading.separatedOrNone, peek_bind] at hxs
  split at hxs
  · rw [Rule.separatedOrNone, Rule.choice_cons, h.separated hparses ls xs rest hxs, Option.some_or]
  · next hno =>
    cases hxs
    rw [Rule.separatedOrNone, Rule.choice_of_none (hneeds.separated.eq_none (Bool.eq_false_iff.mpr hno))]
    rfl

end Repetition

theorem follows_values : (Reading.separatedOrNone isLocal localName).Follows .values :=
  (follows_select .localName).separatedOrNone (Rule.needs_select fun _ => rfl) (Rule.parses_select _)

theorem follows_operand : operand.Follows .operand := by
  intro ls o rest ho
  cases ls with
  | nil => cases ho
  | cons l ls =>
    obtain ⟨t, s⟩ := l
    cases t <;> cases ho <;> rfl

theorem follows_locatedInt : locatedInt.Follows .locatedInt :=
  Follows.located ((follows_select .int).bind fun _ => follows_pure _)

theorem follows_range : range.Follows .range :=
  (follows_select .int).bind fun _ => (follows_expect _).bind fun _ =>
    (follows_select .int).bind fun _ => follows_pure _

theorem needs_emptyBox : Rule.emptyBox.Needs (· = .keyword .empty) :=
  Needs.located ((Rule.needs_just _).bind _)

theorem follows_box : box.Follows .box := by
  have hempty : (located do keyword .empty; pure fun s => (⟨none, s⟩ : BoxDecl)).Follows .emptyBox :=
    Follows.located ((follows_expect _).bind fun _ => follows_pure _)
  have hranges : (located do
      let ranges ← Reading.between .lbracket .rbracket (Reading.separated range)
      pure fun s => (⟨some ranges, s⟩ : BoxDecl)).Follows .rangeBox :=
    Follows.located (((follows_range.separated Rule.parses_range).between _ _).bind fun _ =>
      follows_pure _)
  intro ls d rest hd
  rw [box, Reading.located, peek_bind] at hd
  split at hd
  · rw [Rule.box, Rule.choice_cons, hempty ls d rest hd, Option.some_or]
  · next hne =>
    have hnone : Rule.emptyBox ls = none := by
      refine needs_emptyBox.eq_none ?_
      cases hl : Lexeme.next? ls with
      | none => rfl
      | some u => simpa [hl] using hne
    rw [Rule.box, Rule.choice_of_none hnone, Rule.choice_cons, hranges ls d rest hd, Option.some_or]

theorem needs_box : Rule.box.Needs isBoxStart := by
  refine Rule.needs_choice fun q hq => ?_
  rcases List.mem_pair.mp hq with rfl | rfl
  · exact Needs.located ((Rule.needs_select fun _ => rfl).bind _)
  · exact Needs.located (((Rule.needs_select fun _ => rfl).bind _).bind _)

theorem follows_boxOrNone : boxOrNone.Follows (.orNot .box) := by
  intro ls o rest ho
  rw [boxOrNone, peek_bind] at ho
  split at ho
  · obtain ⟨x, mid, hx, ho⟩ := bind_eq_ok (f := fun x => pure (some x)) ho
    cases ho
    rw [Rule.orNot, follows_box ls x rest hx]
  · next hno =>
    cases ho
    rw [Rule.orNot, needs_box.eq_none (Bool.eq_false_iff.mpr hno)]

theorem follows_offset : Reading.offset.Follows .offset := by
  have hvalues : (Reading.separatedOrNone isInt int).Follows (.separatedOrNone .int) :=
    (follows_select .int).separatedOrNone (Rule.needs_select fun _ => rfl) (Rule.parses_select .int)
  exact Follows.located ((hvalues.between _ _).bind fun _ => follows_pure _)

theorem follows_access : access.Follows .access :=
  (follows_expect _).bind fun _ => follows_operand.bind fun _ => follows_offset.bind fun _ =>
    follows_pure _

theorem follows_index : index.Follows .index :=
  (follows_expect _).bind fun _ => follows_locatedInt.bind fun _ => follows_offset.bind fun _ =>
    follows_pure _

theorem follows_constant : constant.Follows .constant :=
  (follows_expect _).bind fun _ => (follows_select .literal).bind fun _ => follows_pure _

theorem follows_call : call.Follows .call := by
  have himpure :
      (Reading.behind (.keyword .impure) (pure ())).Follows (.orNot (.just (.keyword .impure))) := by
    rw [← bind_pure (Rule.just (.keyword .impure))]
    exact (follows_pure ()).behind _
  exact (follows_expect _).bind fun _ => himpure.bind fun _ => (follows_select .ident).bind fun _ =>
    (follows_values.between _ _).bind fun _ => follows_pure _

theorem follows_furtherOperands :
    furtherOperands.Follows (.repeated do Rule.just (.symbol .comma); Rule.localName) := by
  have hparses := Rule.Parses.comma (Rule.parses_select .localName)
  intro ls ns rest h
  rw [Rule.repeated, ← show moreOperands ls = (ns, rest) from Except.ok.inj h]
  clear h
  fun_induction moreOperands ls with
  | case1 s n s' ls more ih =>
    have hq : (do Rule.just (.symbol .comma); Rule.localName : Rule Name)
        (⟨.symbol .comma, s⟩ :: ⟨.localName n, s'⟩ :: ls) = some (⟨n, s'⟩, ls) := rfl
    rw [Rule.items, hq]
    simp only [if_pos (hparses.length_lt (fun _ => List.cons_ne_nil _ _) hq), Option.some.inj ih]
    rfl
  | case2 ls hno =>
    have hq : (do Rule.just (.symbol .comma); Rule.localName : Rule Name) ls = none := by
      rw [Option.eq_none_iff_forall_not_mem]
      intro r hr
      obtain ⟨taken, hls, htokens, _⟩ := hparses ls r.1 r.2 hr
      obtain ⟨⟨_, s⟩, behind, rfl, rfl, hbehind⟩ := List.map_eq_cons_iff.mp htokens
      obtain ⟨⟨_, s'⟩, behind, rfl, rfl, _⟩ := List.map_eq_cons_iff.mp hbehind
      exact hno s r.1.text s' (behind ++ r.2) hls
    rw [Rule.items, hq]

theorem follows_arithmetic : arithmetic.Follows .arithmetic := by
  intro ls d rest hd
  obtain ⟨mnemonic, behind₁, hmnemonic, hd⟩ := bind_eq_ok hd
  obtain ⟨first, behind₂, hfirst, hd⟩ := bind_eq_ok hd
  obtain ⟨more, behind₃, hmore, hd⟩ := bind_eq_ok hd
  have hargs : Rule.separated Rule.localName behind₁ = some (first :: more, behind₃) := by
    have hlocal : Rule.localName behind₁ = some (first, behind₂) := follows_select .localName _ _ _ hfirst
    rw [Rule.separated, Rule.bind_of_some hlocal, Rule.bind_of_some (follows_furtherOperands _ _ _ hmore)]
    rfl
  have hparts : (do let m ← Rule.ident; let args ← Rule.separated Rule.localName; pure (m, args) :
      Rule (Name × List Name)) ls = some ((mnemonic, first :: more), behind₃) := by
    have hident : Rule.ident ls = some (mnemonic, behind₁) := follows_select .ident _ _ _ hmnemonic
    rw [Rule.bind_of_some hident, Rule.bind_of_some hargs]
    rfl
  cases happlied : OpDecl.applied mnemonic (first :: more) with
  | error e => rw [happlied] at hd; cases hd
  | ok d' =>
    rw [happlied] at hd
    cases hd
    rw [Rule.arithmetic, Rule.tryMap, hparts]
    simp [happlied, Except.toOption]

theorem eq_none_of_next? {q : Rule α} {k : Keyword} (hq : q.Needs (· = .keyword k)) {ls : List Lexeme}
    {next : Option Token} (hl : Lexeme.next? ls = next) (hk : next = some (.keyword k) → False) :
    q ls = none := by
  refine hq.eq_none ?_
  rw [hl]
  cases next with
  | none => rfl
  | some t => simpa using hk

theorem follows_operation :
    operation.Follows (.choice [.access, .index, .constant, .call, .arithmetic]) := by
  have haccess : Rule.access.Needs (· = .keyword .access) := (Rule.needs_just _).bind _
  have hindex : Rule.index.Needs (· = .keyword .index) := (Rule.needs_just _).bind _
  have hconstant : Rule.constant.Needs (· = .keyword .const) := (Rule.needs_just _).bind _
  have hcall : Rule.call.Needs (· = .keyword .call) := (Rule.needs_just _).bind _
  intro ls d rest hd
  rw [operation, peek_bind] at hd
  generalize hl : Lexeme.next? ls = next at hd
  revert hd
  fun_cases operationBy next with
  | case1 =>
    intro hd
    rw [Rule.choice_cons, follows_access.whole ls d rest hd, Option.some_or]
  | case2 =>
    intro hd
    rw [Rule.choice_of_none (eq_none_of_next? haccess hl (by simp)), Rule.choice_cons,
      follows_index.whole ls d rest hd, Option.some_or]
  | case3 =>
    intro hd
    rw [Rule.choice_of_none (eq_none_of_next? haccess hl (by simp)),
      Rule.choice_of_none (eq_none_of_next? hindex hl (by simp)), Rule.choice_cons,
      follows_constant.whole ls d rest hd, Option.some_or]
  | case4 =>
    intro hd
    rw [Rule.choice_of_none (eq_none_of_next? haccess hl (by simp)),
      Rule.choice_of_none (eq_none_of_next? hindex hl (by simp)),
      Rule.choice_of_none (eq_none_of_next? hconstant hl (by simp)), Rule.choice_cons,
      follows_call.whole ls d rest hd, Option.some_or]
  | case5 _ h₁ h₂ h₃ h₄ =>
    intro hd
    rw [Rule.choice_of_none (eq_none_of_next? haccess hl h₁),
      Rule.choice_of_none (eq_none_of_next? hindex hl h₂), Rule.choice_of_none
      (eq_none_of_next? hconstant hl h₃), Rule.choice_of_none (eq_none_of_next? hcall hl h₄),
      Rule.choice_cons, follows_arithmetic ls d rest hd, Option.some_or]

theorem follows_statement : statement.Follows .statement :=
  Follows.located ((follows_select .localName).bind fun _ => (follows_expect _).bind fun _ =>
    follows_operation.bind fun _ => follows_pure _)

theorem needs_statement :
    Rule.statement.Needs isLocal := Needs.located ((Rule.needs_select fun _ => rfl).bind _)

theorem follows_returned : returned.Follows .returned := by
  have hunrolling : unrolling.Follows .unrolling :=
    (follows_select .int).bind fun _ => (follows_expect _).bind fun _ =>
      (follows_select .int).bind fun _ => follows_pure _
  exact Follows.located ((follows_expect _).bind fun _ => follows_values.bind fun _ =>
    (hunrolling.behind _).bind fun _ => follows_pure _)

theorem follows_body : body.Follows .body := by
  have hstatements := follows_statement.bounded_many needs_statement Rule.parses_statement
    fun _ => List.cons_ne_nil _ _
  exact Follows.located ((follows_expect _).bind fun _ => hstatements.bind fun _ =>
      follows_returned.bind fun _ =>
    (follows_expect _).bind fun _ => follows_pure _)

theorem follows_buffer : buffer.Follows .buffer :=
  Follows.located ((follows_expect _).bind fun _ => (follows_select .globalName).bind fun _ =>
    (follows_expect _).bind fun _ => (follows_select .ident).bind fun _ =>
      (follows_box.behind _).bind fun _ =>
    (follows_box.behind _).bind fun _ => follows_pure _)

theorem follows_resultType : resultType.Follows .resultType :=
  (follows_select .ident).bind fun _ => follows_boxOrNone.bind fun _ => follows_pure _

theorem follows_region : region.Follows .region := by
  have hresults := (follows_select .localName).separated (Rule.parses_select _)
  have hoperands : (Reading.separatedOrNone isOperand operand).Follows (.separatedOrNone .operand) := by
    refine follows_operand.separatedOrNone (Rule.needs_choice fun q hq => ?_)
      (Rule.takes_operand.mono fun _ _ h => ⟨h, trivial⟩)
    rcases List.mem_pair.mp hq with rfl | rfl
    · exact (Rule.needs_select fun _ => rfl).map _
    · exact (Rule.needs_select fun _ => rfl).map _
  exact Follows.located (hresults.bind fun _ => (follows_expect _).bind fun _ =>
      (follows_expect _).bind fun _ =>
    (follows_select .ident).bind fun _ => (hoperands.between _ _).bind fun _ =>
      (follows_expect _).bind fun _ =>
    (follows_resultType.separated Rule.parses_resultType).bind fun _ =>
      (follows_box.behind _).bind fun _ =>
    follows_body.bind fun _ => (follows_body.behind _).bind fun _ => follows_pure _)

theorem follows_output : output.Follows .output :=
  Follows.located ((follows_expect _).bind fun _ => (follows_select .localName).bind fun _ =>
    follows_box.bind fun _ => follows_pure _)

theorem needs_buffer :
    Rule.buffer.Needs (· = .keyword .buffer) := Needs.located ((Rule.needs_just _).bind _)

theorem needs_region : Rule.region.Needs isLocal :=
  Needs.located ((Needs.separated (Rule.needs_select fun _ => rfl)).bind _)

theorem needs_output :
    Rule.output.Needs (· = .keyword .output) := Needs.located ((Rule.needs_just _).bind _)

theorem follows_item : item.Follows .item := by
  intro ls d rest hd
  rw [item, peek_bind] at hd
  generalize hl : Lexeme.next? ls = next at hd
  revert hd
  fun_cases itemBy next with
  | case1 =>
    intro hd
    rw [Rule.item, Rule.choice_cons, follows_buffer.map ItemDecl.buffer ls d rest hd, Option.some_or]
  | case2 =>
    intro hd
    have hregion : (ItemDecl.region <$> Rule.region) ls = none :=
      (needs_region.map _).eq_none (by rw [hl]; rfl)
    rw [Rule.item, Rule.choice_of_none (eq_none_of_next? (needs_buffer.map _) hl (by simp)),
      Rule.choice_of_none hregion, Rule.choice_cons, follows_output.map ItemDecl.output ls d rest hd,
      Option.some_or]
  | case3 _ hbuffer houtput =>
    intro hd
    rw [Rule.item, Rule.choice_of_none (eq_none_of_next? (needs_buffer.map _) hl hbuffer),
      Rule.choice_cons, follows_region.map ItemDecl.region ls d rest hd, Option.some_or]

theorem needs_item : Rule.item.Needs isItemStart := by
  refine Rule.needs_choice fun q hq => ?_
  simp only [List.mem_cons, List.not_mem_nil, or_false] at hq
  rcases hq with rfl | rfl | rfl
  · exact (needs_buffer.map _).mono fun t ht => by simp [isItemStart, of_decide_eq_true ht]
  · exact (needs_region.map _).mono fun t ht => by simp [isItemStart, ht]
  · exact (needs_output.map _).mono fun t ht => by simp [isItemStart, of_decide_eq_true ht]

theorem follows_func : func.Follows .func := by
  have hne : ∀ d : ItemDecl, d.tokens ≠ [] := by
    intro d
    cases d with
    | buffer d => exact List.cons_ne_nil _ _
    | region d => exact List.append_ne_nil_of_right_ne_nil _ (List.cons_ne_nil _ _)
    | output d => exact List.cons_ne_nil _ _
  have hitems := follows_item.bounded_many needs_item Rule.parses_item hne
  exact Follows.located ((follows_expect _).bind fun _ => (follows_select .ident).bind fun _ =>
    (follows_expect _).bind fun _ => follows_locatedInt.bind fun _ => (hitems.between _ _).bind fun _ =>
    follows_pure _)

theorem follows_functions : functions.Follows (.repeated .func) :=
  follows_func.bounded_many (Needs.located ((Rule.needs_just _).bind _)) Rule.parses_func
    fun _ => List.cons_ne_nil _ _

end Reading

end Stencil
