import Stencil.Proofs.Resolving

/-! Reading declarations from the tokens of a function. A reader is described by the tokens it
takes, by the tokens that must not come next, and by what it makes of them; the description of a
form is put together from those of its parts. What a declaration stands for is said without its
places in the source, so that it does not matter where the tokens stand. -/

set_option autoImplicit false

namespace Stencil

namespace Reading

variable {α β γ : Type}

/-- The reader takes just these tokens, unless one that stops it comes next, and makes a value with
that property of them. -/
def Reads (p : Reading α) (ts : List Token) (stop : Token → Bool) (Q : α → Prop) : Prop :=
  ∀ ls rest : List Lexeme, ls.map (·.token) = ts → rest.head?.any (fun l => stop l.token) = false →
    ∃ x, p (ls ++ rest) = .ok (x, rest) ∧ Q x

def never : Token → Bool := fun _ => false

theorem bind_of_ok {p : Reading α} {f : α → Reading β} {ls rest : List Lexeme} {x : α}
    (h : p ls = .ok (x, rest)) :
    (p >>= f) ls = f x rest := by
  change (p ls >>= fun r => f r.1 r.2) = f x rest
  rw [h]
  rfl

theorem Reads.mono {p : Reading α} {ts : List Token} {stop stop' : Token → Bool} {P Q : α → Prop}
    (h : Reads p ts stop P) (hstop : ∀ t, stop t = true → stop' t = true) (hQ : ∀ x, P x → Q x) :
    Reads p ts stop' Q := by
  intro ls rest hls hrest
  obtain ⟨x, hx, hP⟩ := h ls rest hls (by
    cases rest with
    | nil => rfl
    | cons l rest =>
      simp only [List.head?_cons, Option.any_some] at hrest ⊢
      cases hs : stop l.token with
      | false => rfl
      | true => rw [hstop _ hs] at hrest; cases hrest)
  exact ⟨x, hx, hQ x hP⟩

theorem Reads.of_never {p : Reading α} {ts : List Token} {stop : Token → Bool} {P : α → Prop}
    (h : Reads p ts never P) :
    Reads p ts stop P := h.mono (fun _ ht => by cases ht) fun _ hx => hx

/-- Nothing that stops the first reader comes next, whatever may follow the second one. -/
def Clear (stop : Token → Bool) (ts : List Token) (stop' : Token → Bool) : Prop :=
  match ts with
  | [] => ∀ t, stop t = true → stop' t = true
  | t :: _ => stop t = false

theorem clear_never {ts : List Token} {stop : Token → Bool} : Clear never ts stop := by
  cases ts with
  | nil => exact fun t h => by cases h
  | cons t ts => rfl

theorem Clear.append {stop stop' : Token → Bool} {ts us : List Token}
    (ht : ∀ t ∈ ts.head?, stop t = false) (hu : Clear stop us stop') : Clear stop (ts ++ us) stop' := by
  cases ts with
  | nil => exact hu
  | cons t ts => exact ht t rfl

theorem Reads.bind {p : Reading α} {f : α → Reading β} {ts us : List Token} {stop stop' : Token → Bool}
    {P : α → Prop} {Q : β → Prop} (hp : Reads p ts stop P) (hf : ∀ x, P x → Reads (f x) us stop' Q)
    (hclear : Clear stop us stop') : Reads (p >>= f) (ts ++ us) stop' Q := by
  intro ls rest hls hrest
  obtain ⟨ls₁, ls₂, rfl, h₁, h₂⟩ := List.map_eq_append_iff.mp hls
  have hnext : (ls₂ ++ rest).head?.any (fun l => stop l.token) = false := by
    cases ls₂ with
    | nil =>
      subst h₂
      cases rest with
      | nil => rfl
      | cons l rest =>
        simp only [List.nil_append, List.head?_cons, Option.any_some] at hrest ⊢
        cases hs : stop l.token with
        | false => rfl
        | true => rw [hclear _ hs] at hrest; cases hrest
    | cons l ls₂ =>
      subst h₂
      exact hclear
  obtain ⟨x, hx, hP⟩ := hp ls₁ (ls₂ ++ rest) h₁ hnext
  obtain ⟨y, hy, hQ⟩ := hf x hP ls₂ rest h₂ hrest
  refine ⟨y, ?_, hQ⟩
  rw [List.append_assoc, bind_of_ok hx, hy]

theorem reads_pure {x : α} {stop : Token → Bool} {Q : α → Prop} (h : Q x) : Reads (pure x) [] stop Q := by
  intro ls rest hls _
  cases List.map_eq_nil_iff.mp hls
  exact ⟨x, rfl, h⟩

theorem reads_lift {e : Except Stuck α} {x : α} {stop : Token → Bool} {Q : α → Prop} (he : e = .ok x)
    (h : Q x) :
    Reads (liftM e) [] stop Q := by
  subst he
  exact reads_pure h

theorem Reads.last {p : Reading α} {g : α → β} {ts : List Token} {stop : Token → Bool} {P : α → Prop}
    {Q : β → Prop}
    (h : Reads p ts stop P) (hQ : ∀ x, P x → Q (g x)) : Reads (p >>= fun x => pure (g x)) ts stop Q := by
  rw [← List.append_nil ts]
  exact h.bind (fun x hx => reads_pure (hQ x hx)) fun _ ht => ht

theorem Reads.map {p : Reading α} {g : α → β} {ts : List Token} {stop : Token → Bool} {P : α → Prop}
    {Q : β → Prop}
    (h : Reads p ts stop P) (hQ : ∀ x, P x → Q (g x)) : Reads (g <$> p) ts stop Q := h.last hQ

theorem reads_select {c : Terminal α} {t : Token} {Q : α → Prop}
    (h : ∀ s, ∃ x, c.meaning? ⟨t, s⟩ = some x ∧ Q x) :
    Reads (select c) [t] never Q := by
  intro ls rest hls _
  obtain ⟨⟨_, s⟩, ls, rfl, rfl, hnil⟩ := List.map_eq_cons_iff.mp hls
  cases List.map_eq_nil_iff.mp hnil
  obtain ⟨x, hx, hQ⟩ := h s
  refine ⟨x, ?_, hQ⟩
  rw [List.cons_append, select, hx]
  rfl

theorem reads_expect (t : Token) : Reads (expect t) [t] never fun _ => True :=
  reads_select fun _ => ⟨(), if_pos rfl, trivial⟩

theorem reads_keyword (k : Keyword) : Reads (keyword k) [.keyword k] never fun _ => True := reads_expect _

theorem reads_symbol (s : Symbol) : Reads (symbol s) [.symbol s] never fun _ => True := reads_expect _

theorem reads_ident (n : String) :
    Reads ident [.ident n] never (·.text = n) := reads_select fun s => ⟨⟨n, s⟩, rfl, rfl⟩

theorem reads_localName (n : String) : Reads localName [.localName n] never (·.text = n) :=
  reads_select fun s => ⟨⟨n, s⟩, rfl, rfl⟩

theorem reads_int (z : Int) : Reads int [.int z] never (· = z) := reads_select fun _ => ⟨z, rfl, rfl⟩

theorem Reads.located {p : Reading (Span → α)} {ts : List Token} {stop : Token → Bool} {Q : α → Prop}
    (h : Reads p ts stop fun g => ∀ s, Q (g s)) : Reads (located p) ts stop Q := by
  intro ls rest hls hrest
  obtain ⟨g, hg, hQ⟩ := h ls rest hls hrest
  refine ⟨g (Lexeme.extentUpTo (ls ++ rest) rest), ?_, hQ _⟩
  rw [Reading.located, hg]
  rfl

theorem Reads.between {p : Reading α} {ts : List Token} {stop : Token → Bool} {Q : α → Prop}
    {last : Symbol}
    (h : Reads p ts stop Q) (first : Symbol) (hlast : stop (.symbol last) = false) :
    Reads (between first last p) (.symbol first :: (ts ++ [.symbol last])) never Q := by
  refine (reads_symbol first).bind (fun _ _ => ?_) clear_never
  refine h.bind (fun x hx => ?_) hlast
  exact (reads_symbol last).last fun _ _ => hx

theorem Reads.between_bind {p : Reading α} {f : α → Reading β} {ts us : List Token}
    {stop stop' : Token → Bool}
    {P : α → Prop} {Q : β → Prop} {last : Symbol} (h : Reads p ts stop P) (first : Symbol)
    (hlast : stop (.symbol last) = false) (hf : ∀ x, P x → Reads (f x) us stop' Q) :
    Reads (Reading.between first last p >>= f) (.symbol first :: (ts ++ .symbol last :: us)) stop' Q := by
  rw [List.append_cons, ← List.cons_append]
  exact (h.between first hlast).bind hf clear_never

theorem reads_locatedInt (z : Int) : Reads locatedInt [.int z] never (·.1 = z) :=
  Reads.located ((reads_int z).last fun _ hx _ => hx)

theorem reads_peek {f : Option Token → Reading α} {t : Token} {ts : List Token} {stop : Token → Bool}
    {Q : α → Prop}
    (h : Reads (f (some t)) (t :: ts) stop Q) : Reads (peek >>= f) (t :: ts) stop Q := by
  intro ls rest hls hrest
  obtain ⟨l, ls, rfl, rfl, hts⟩ := List.map_eq_cons_iff.mp hls
  exact h (l :: ls) rest hls hrest

theorem reads_peek_nil {f : Option Token → Reading α} {stop : Token → Bool} {Q : α → Prop}
    (h : ∀ t, t.any stop = false → Reads (f t) [] stop Q) : Reads (peek >>= f) [] stop Q := by
  intro ls rest hls hrest
  cases List.map_eq_nil_iff.mp hls
  refine h (rest.head?.map (·.token)) ?_ [] rest rfl hrest
  rw [Option.any_map]
  exact hrest

theorem reads_behind {t : Token} {p : Reading α} {ts : List Token} {stop : Token → Bool} {P : α → Prop}
    (h : Reads p ts stop P) : Reads (behind t p) (t :: ts) stop fun o => ∃ x, o = some x ∧ P x := by
  refine reads_peek ?_
  rw [if_pos rfl]
  exact (reads_expect t).bind (fun _ _ => h.map fun x hx => ⟨x, rfl, hx⟩) clear_never

theorem reads_behind_none (t : Token) (p : Reading α) :
    Reads (behind t p) [] (· = t) fun o => o = none := by
  refine reads_peek_nil fun u hu => ?_
  rw [if_neg]
  · exact reads_pure rfl
  · rintro rfl
    simp at hu

theorem Reads.whole {p : Reading α} {ts : List Token} {stop : Token → Bool} {P : α → Prop}
    (h : Reads p ts stop P) :
    Reads (whole p) ts stop P := by
  intro ls rest hls hrest
  obtain ⟨x, hx, hP⟩ := h ls rest hls hrest
  refine ⟨x, ?_, hP⟩
  unfold Reading.whole
  rw [hx]

section Repetition

variable {item : Reading α} {as : List β} {tokens : β → List Token} {stop : Token → Bool}
    {R : α → β → Prop}

theorem reads_many {starts : Token → Bool} (hitem : ∀ a ∈ as, Reads item (tokens a) stop (R · a))
    (hstart : ∀ a ∈ as, (tokens a).head?.any starts = true) (hstop : ∀ t, starts t = true →
      stop t = false)
    {fuel : Nat} (hfuel : as.length < fuel) :
    Reads (many starts item fuel) (as.flatMap tokens) (fun t => starts t || stop t)
      (List.Forall₂ R · as) := by
  induction as generalizing fuel with
  | nil =>
    obtain ⟨fuel, rfl⟩ := Nat.exists_eq_add_of_lt hfuel
    rw [many]
    refine reads_peek_nil fun t ht => ?_
    rw [if_neg (by cases t <;> simp_all)]
    exact reads_pure .nil
  | cons a as ih =>
    obtain ⟨fuel, rfl⟩ : ∃ n, fuel = n + 1 := ⟨fuel - 1, by omega⟩
    have ha := hstart a (by simp)
    obtain ⟨t, ts, hts⟩ : ∃ t ts, tokens a = t :: ts := by
      cases h : tokens a with
      | nil => rw [h] at ha; cases ha
      | cons t ts => exact ⟨t, ts, rfl⟩
    rw [many, List.flatMap_cons, hts, List.cons_append]
    refine reads_peek ?_
    rw [hts, List.head?_cons, Option.any_some] at ha
    rw [Option.any_some, if_pos ha, ← List.cons_append, ← hts]
    have hrest : Reads (many starts item fuel) (as.flatMap tokens) (fun t => starts t || stop t)
        (List.Forall₂ R · as) :=
      ih (fun b hb => hitem b (List.mem_cons_of_mem a hb)) (fun b hb =>
        hstart b (List.mem_cons_of_mem a hb))
        (by simpa using hfuel)
    refine (hitem a (by simp)).bind (fun x hx => ?_) ?_
    · exact hrest.last fun xs hxs => .cons hx hxs
    · cases as with
      | nil => exact fun t h => by simp [h]
      | cons b bs =>
        have hb := hstart b (by simp)
        cases h : tokens b with
        | nil => rw [h] at hb; cases hb
        | cons u us =>
          rw [h, List.head?_cons, Option.any_some] at hb
          rw [List.flatMap_cons, h]
          exact hstop u hb

theorem reads_bounded_many {starts : Token → Bool} (hitem : ∀ a ∈ as, Reads item (tokens a) stop (R · a))
    (hstart : ∀ a ∈ as, (tokens a).head?.any starts = true) (hstop : ∀ t, starts t = true →
      stop t = false) :
    Reads (bounded (many starts item)) (as.flatMap tokens) (fun t => starts t || stop t)
      (List.Forall₂ R · as) := by
  intro ls rest hls hrest
  refine reads_many hitem hstart hstop (Nat.lt_succ_of_le ?_) ls rest hls hrest
  -- every item takes a token
  have hlen : as.length ≤ (as.flatMap tokens).length := by
    clear hls hitem
    induction as with
    | nil => simp
    | cons a as ih =>
      have ha := hstart a (by simp)
      have hpos : 0 < (tokens a).length := by
        cases h : tokens a with
        | nil => rw [h] at ha; cases ha
        | cons t ts => simp
      have := ih fun b hb => hstart b (List.mem_cons_of_mem a hb)
      simp only [List.flatMap_cons, List.length_append, List.length_cons]
      omega
  rw [← hls, List.length_map] at hlen
  simp only [List.length_append]
  omega

theorem commaTokens_cons (ts : List Token) (tss : List (List Token)) :
    commaTokens (ts :: tss) = ts ++ tss.flatMap (.symbol .comma :: ·) := by
  induction tss generalizing ts with
  | nil => simp [commaTokens]
  | cons us tss ih =>
    have := ih us
    simp only [commaTokens, List.intersperse_cons_cons, List.flatten_cons, List.flatMap_cons] at this ⊢
    rw [this]
    simp

theorem reads_separated (hne : as ≠ []) (hitem : ∀ a ∈ as, Reads item (tokens a) stop (R · a))
    (hcomma : stop (.symbol .comma) = false) :
    Reads (separated item) (commaTokens (as.map tokens)) (fun t => t = .symbol .comma || stop t)
      (List.Forall₂ R · as) := by
  cases as with
  | nil => exact absurd rfl hne
  | cons a as =>
    rw [List.map_cons, commaTokens_cons, List.flatMap_map]
    have hmore : ∀ b ∈ as, Reads (do symbol .comma; item) (.symbol .comma :: tokens b) stop (R · b) := by
      intro b hb
      exact (reads_symbol .comma).bind (fun _ _ => hitem b (List.mem_cons_of_mem a hb)) clear_never
    have hrest : Reads (bounded (commaItems item)) (as.flatMap fun b => .symbol .comma :: tokens b)
        (fun t => t = .symbol .comma || stop t) (List.Forall₂ R · as) := by
      refine reads_bounded_many hmore (fun _ _ => by simp) fun t ht => ?_
      rw [of_decide_eq_true ht]
      exact hcomma
    refine (hitem a (by simp)).bind (fun x hx => ?_) ?_
    · exact hrest.last fun xs hxs => .cons hx hxs
    · cases as with
      | nil => exact fun t h => by simp [h]
      | cons b bs => exact hcomma

theorem reads_separatedOrNone {starts : Token → Bool}
    (hitem : ∀ a ∈ as, Reads item (tokens a) stop (R · a))
    (hcomma : stop (.symbol .comma) = false) (hstart : ∀ a ∈ as, (tokens a).head?.any starts = true) :
    Reads (separatedOrNone starts item) (commaTokens (as.map tokens))
      (fun t => starts t || t = .symbol .comma || stop t) (List.Forall₂ R · as) := by
  cases as with
  | nil =>
    refine reads_peek_nil fun t ht => ?_
    rw [if_neg (by cases t <;> simp_all)]
    exact reads_pure .nil
  | cons a as =>
    have hsep := reads_separated (List.cons_ne_nil a as) hitem hcomma
    have ha := hstart a (by simp)
    rw [List.map_cons, commaTokens_cons] at hsep ⊢
    cases h : tokens a with
    | nil => rw [h] at ha; cases ha
    | cons t ts =>
      rw [h, List.head?_cons, Option.any_some] at ha
      rw [h] at hsep
      refine reads_peek ?_
      rw [Option.any_some, if_pos ha]
      exact hsep.mono (fun t h => by simp only [Bool.or_eq_true] at h ⊢; tauto) fun _ h => h

end Repetition

end Reading

end Stencil
