import Stencil.Func.Structure
import Stencil.Proofs.Literal

/-! Texts that can be read in one way only. A text is clear when what it says and where it ends can
be told from any longer text that goes on with something else than a word; records, lists and
options of clear texts are clear again. Numbers and scalars are clear, and so are quotations. None
of them has the character NUL. -/

set_option autoImplicit false

namespace Stencil

/-- The scalar, with one NaN for all. -/
def Scalar.quieted (x : Scalar) : Scalar := if x.isNaN then ⟨0x7FF8000000000000⟩ else x

namespace Text

/-- The characters of numbers and names. -/
def isWordChar (c : Char) : Bool := Lexer.isNameChar c || c = '-' || c = '.'

def Stops (rest : List Char) : Prop := rest.head?.all (fun c => !isWordChar c) = true

theorem stops_nil : Stops [] := rfl

def Free (s : String) : Prop := '\x00' ∉ s.toList

instance (s : String) : Decidable (Free s) := inferInstanceAs (Decidable (¬ _))

def Closes (s : String) : Prop := Free s ∧ Stops s.toList

instance (s : String) : Decidable (Closes s) := inferInstanceAs (Decidable (_ ∧ _ = _))

theorem Closes.stops {s : String} (h : Closes s) {rest : List Char} (hr : Stops rest) :
    Stops (s.toList ++ rest) := by
  have hs := h.2
  unfold Stops at hs ⊢
  cases hl : s.toList with
  | nil => exact hr
  | cons c cs =>
    rw [hl] at hs
    exact hs

variable {α β γ κ ι μ : Type} {key : α → κ} {t : α → String} {key' : β → ι} {u : β → String}

/-- The texts have no NUL, and from a longer text the key and what follows can be told. -/
structure Clear (key : α → κ) (t : α → String) : Prop where
  free : ∀ x, Free (t x)
  reads : ∀ {x y rest rest'}, Stops rest → Stops rest' →
    (t x).toList ++ rest = (t y).toList ++ rest' → key x = key y ∧ rest = rest'

theorem Clear.key_eq (h : Clear key t) {x y : α} (heq : t x = t y) : key x = key y :=
  (h.reads stops_nil stops_nil (by rw [heq])).1

theorem Free.append {s s' : String} (h : Free s) (h' : Free s') : Free (s ++ s') := by
  unfold Free at h h' ⊢
  rw [String.toList_append, List.mem_append]
  exact not_or_intro h h'

def Begins (s : String) : Prop := s.toList.head?.any isWordChar = true

instance (s : String) : Decidable (Begins s) := inferInstanceAs (Decidable (_ = _))

theorem Begins.append {s : String} (h : Begins s) (s' : String) : Begins (s ++ s') := by
  unfold Begins at h ⊢
  rw [String.toList_append]
  cases hl : s.toList with
  | nil =>
    rw [hl] at h
    exact absurd h Bool.false_ne_true
  | cons c cs =>
    rw [hl] at h
    exact h

theorem begins_wrapped {name : String} (h : Begins name) (value : String) : Begins (wrapped name value) :=
  ((h.append _).append _).append _

theorem Clear.comap (h : Clear key t) (f : γ → α) {key'' : γ → μ}
    (hkey : ∀ x y, key (f x) = key (f y) → key'' x = key'' y) : Clear key'' fun x => t (f x) where
  free x := h.free (f x)
  reads hr hr' heq := by
    obtain ⟨hxy, hrest⟩ := h.reads hr hr' heq
    exact ⟨hkey _ _ hxy, hrest⟩

theorem Clear.within (h : Clear key t) (pre post : String) (hpre : Free pre) (hpost : Closes post) :
    Clear key fun x => pre ++ t x ++ post where
  free x := (hpre.append (h.free x)).append hpost.1
  reads hr hr' heq := by
    simp only [String.toList_append, List.append_assoc, List.append_cancel_left_eq] at heq
    obtain ⟨hxy, hrest⟩ := h.reads (hpost.stops hr) (hpost.stops hr') heq
    exact ⟨hxy, List.append_cancel_left hrest⟩

theorem Clear.seq (h : Clear key t) (h' : Clear key' u) (mid : String) (hmid : Closes mid)
    (hne : mid.toList ≠ []) :
    Clear (Prod.map key key') fun x => t x.1 ++ mid ++ u x.2 where
  free x := ((h.free _).append hmid.1).append (h'.free _)
  reads := by
    rintro ⟨x, x'⟩ ⟨y, y'⟩ rest rest' hr hr' heq
    have hstops : ∀ cs, Stops (mid.toList ++ cs) := by
      intro cs
      have hs := hmid.2
      unfold Stops at hs ⊢
      cases hl : mid.toList with
      | nil => exact absurd hl hne
      | cons c ds =>
        rw [hl] at hs
        exact hs
    simp only [String.toList_append, List.append_assoc] at heq
    obtain ⟨hxy, hmore⟩ := h.reads (hstops _) (hstops _) heq
    obtain ⟨hxy', hrest⟩ := h'.reads hr hr' (List.append_cancel_left hmore)
    exact ⟨Prod.ext hxy hxy', hrest⟩

theorem Clear.field (h : Clear key t) {label : String} (hlabel : Free label) :
    Clear key fun x => label ++ ": " ++ t x := by
  have hempty := h.within (label ++ ": ") "" (hlabel.append (by decide)) (by decide)
  simpa only [String.append_empty] using hempty

theorem Clear.wrapped (h : Clear key t) {name : String} (hname : Free name) :
    Clear key fun x => Stencil.wrapped name (t x) :=
  h.within (name ++ "(") ")" (hname.append (by decide)) (by decide)

theorem Clear.record₂ (h : Clear key t) (h' : Clear key' u) {name a b : String} (hname : Free name)
    (ha : Free a)
    (hb : Free b) : Clear (Prod.map key key') fun x => recordText name [(a, t x.1), (b, u x.2)] :=
  ((h.field ha).seq (h'.field hb) ", " (by decide) (by decide)).within (name ++ " \x7b ") " \x7d"
    (hname.append (by decide)) (by decide)

theorem Clear.record₃ {key'' : γ → μ} {v : γ → String} (h : Clear key t) (h' : Clear key' u)
    (h'' : Clear key'' v)
    {name a b c : String} (hname : Free name) (ha : Free a) (hb : Free b) (hc : Free c) :
    Clear (Prod.map key (Prod.map key' key''))
      fun x => recordText name [(a, t x.1), (b, u x.2.1), (c, v x.2.2)] :=
  ((h.field ha).seq ((h'.field hb).seq (h''.field hc) ", " (by decide) (by decide)) ", " (by decide)
    (by decide)).within (name ++ " \x7b ") " \x7d" (hname.append (by decide)) (by decide)

/-- The rest of a list behind one of its items, with what follows it. -/
def behind (t : α → String) : List α → List Char → List Char
  | [], rest => ']' :: rest
  | x :: xs, rest => ',' :: ' ' :: ((t x).toList ++ behind t xs rest)

theorem stops_behind (t : α → String) (xs : List α) (rest : List Char) : Stops (behind t xs rest) := by
  cases xs <;> rfl

theorem joinWith_behind (t : α → String) (x : α) (xs : List α) (rest : List Char) :
    (joinWith ", " ((x :: xs).map t)).toList ++ ']' :: rest = (t x).toList ++ behind t xs rest := by
  induction xs generalizing x with
  | nil => rfl
  | cons y xs ih =>
    have hstep : joinWith ", " ((x :: y :: xs).map t) = t x ++ ", " ++ joinWith ", " ((y :: xs).map t) :=
      rfl
    rw [hstep, String.toList_append, String.toList_append, List.append_assoc, List.append_assoc,
      ih y, behind]
    rfl

theorem Clear.reads_cons (h : Clear key t) {x y : α} {xs ys : List α} {rest rest' : List Char}
    (hmore : behind t xs rest = behind t ys rest' → xs.map key = ys.map key ∧ rest = rest')
    (heq : (t x).toList ++ behind t xs rest = (t y).toList ++ behind t ys rest') :
    (x :: xs).map key = (y :: ys).map key ∧ rest = rest' := by
  obtain ⟨hxy, hbehind⟩ := h.reads (stops_behind t xs rest) (stops_behind t ys rest') heq
  obtain ⟨hxys, hrest⟩ := hmore hbehind
  rw [List.map_cons, List.map_cons, hxy, hxys]
  exact ⟨rfl, hrest⟩

theorem Clear.reads_behind (h : Clear key t) {xs ys : List α} {rest rest' : List Char}
    (heq : behind t xs rest = behind t ys rest') : xs.map key = ys.map key ∧ rest = rest' := by
  induction xs generalizing ys with
  | nil =>
    cases ys with
    | nil => exact ⟨rfl, (List.cons.inj heq).2⟩
    | cons y ys => exact absurd (List.cons.inj heq).1 (by decide)
  | cons x xs ih =>
    cases ys with
    | nil => exact absurd (List.cons.inj heq).1 (by decide)
    | cons y ys => exact h.reads_cons ih (List.cons.inj (List.cons.inj heq).2).2

theorem free_joinWith {sep : String} (hsep : Free sep) {items : List String}
    (h : ∀ s, s ∈ items → Free s) :
    Free (joinWith sep items) := by
  induction items with
  | nil => exact List.not_mem_nil
  | cons s items ih =>
    have hs := h s List.mem_cons_self
    have hrest := ih fun s' hs' => h s' (List.mem_cons_of_mem _ hs')
    cases items with
    | nil => exact hs
    | cons s' items => exact (hs.append hsep).append hrest

theorem Begins.ne_bracket {s : String} (h : Begins s) {cs ds : List Char} :
    s.toList ++ cs ≠ ']' :: ds := by
  intro heq
  unfold Begins at h
  cases hl : s.toList with
  | nil => simp [hl] at h
  | cons c more =>
    rw [hl, List.cons_append] at heq
    rw [hl, (List.cons.inj heq).1] at h
    exact Bool.false_ne_true h

/-- A list in brackets, of texts that begin with words and so not with a bracket. -/
theorem Clear.bracketed (h : Clear key t) (hword : ∀ x, Begins (t x)) :
    Clear (List.map key) fun xs => Stencil.bracketed (xs.map t) where
  free xs := by
    refine (Free.append (by decide : Free "[") (free_joinWith (by decide) ?_)).append (by decide)
    intro s hs
    obtain ⟨x, -, rfl⟩ := List.mem_map.mp hs
    exact h.free x
  reads {xs ys rest rest'} _ _ heq := by
    have hopen : ∀ (zs : List α) (r : List Char), (Stencil.bracketed (zs.map t)).toList ++ r =
        '[' :: ((joinWith ", " (zs.map t)).toList ++ ']' :: r) := by
      intro zs r
      simp [Stencil.bracketed]
    rw [hopen, hopen] at heq
    have hbody := (List.cons.inj heq).2
    cases xs with
    | nil =>
      cases ys with
      | nil => exact ⟨rfl, (List.cons.inj hbody).2⟩
      | cons y ys =>
        rw [joinWith_behind] at hbody
        exact absurd hbody.symm (hword y).ne_bracket
    | cons x xs =>
      rw [joinWith_behind] at hbody
      cases ys with
      | nil => exact absurd hbody (hword x).ne_bracket
      | cons y ys =>
        rw [joinWith_behind] at hbody
        exact h.reads_cons h.reads_behind hbody

theorem Clear.option (h : Clear key t) : Clear (Option.map key) (optionStructure t) where
  free o := by
    cases o with
    | none => exact (by decide : Free "None")
    | some x => exact (h.wrapped (by decide : Free "Some")).free x
  reads {o o' rest rest'} hr hr' heq := by
    have hne : ∀ (x : α) (r r' : List Char),
        (optionStructure t none).toList ++ r ≠ (optionStructure t (some x)).toList ++ r' := by
      intro x r r' h
      have hhead := congrArg List.head? h
      simp [optionStructure, Stencil.wrapped] at hhead
    cases o with
    | none =>
      cases o' with
      | none => exact ⟨rfl, List.append_cancel_left heq⟩
      | some y => exact absurd heq (hne y rest rest')
    | some x =>
      cases o' with
      | none => exact absurd heq.symm (hne x rest' rest)
      | some y =>
        obtain ⟨hxy, hrest⟩ := (h.wrapped (by decide : Free "Some")).reads hr hr' heq
        exact ⟨congrArg some hxy, hrest⟩

theorem takeWhile_word {w rest : List Char} (hw : w.all isWordChar = true) (hr : Stops rest) :
    (w ++ rest).takeWhile isWordChar = w :=
  (Lexer.takeWhile_append_eq hw hr).1

theorem takeWhile_wrapped {name : String} (h : name.toList.all isWordChar = true) (value : String)
    (rest : List Char) :
    ((wrapped name value).toList ++ rest).takeWhile isWordChar = name.toList := by
  simp only [wrapped, String.toList_append, List.append_assoc]
  exact takeWhile_word h rfl

theorem takeWhile_recordText {name : String} (h : name.toList.all isWordChar = true)
    (fields : List (String × String)) (rest : List Char) :
    ((recordText name fields).toList ++ rest).takeWhile isWordChar = name.toList := by
  simp only [recordText, String.toList_append, List.append_assoc]
  exact takeWhile_word h rfl

theorem begins_of_takeWhile {s word : String} (h : (s.toList ++ []).takeWhile isWordChar = word.toList)
    (hne : word.toList ≠ []) : Begins s := by
  rw [List.append_nil] at h
  unfold Begins
  cases hl : s.toList with
  | nil =>
    rw [hl] at h
    exact absurd h.symm hne
  | cons c cs =>
    rw [hl, List.takeWhile_cons] at h
    split at h
    · next hc => exact hc
    · exact absurd h.symm hne

theorem not_mem_of_word {w : List Char} (hw : w.all isWordChar = true) : '\x00' ∉ w :=
  fun hmem => absurd (List.all_eq_true.mp hw _ hmem) (by decide)

theorem clear_word
    (hw : ∀ x, (t x).toList.all isWordChar = true) (hkey : ∀ x y, t x = t y → key x = key y) :
    Clear key t where
  free x := not_mem_of_word (hw x)
  reads {x y rest rest'} hr hr' heq := by
    have hsame : (t x).toList = (t y).toList := by
      rw [← takeWhile_word (hw x) hr, heq, takeWhile_word (hw y) hr']
    exact ⟨hkey x y (String.toList_injective hsame), List.append_cancel_left (hsame ▸ heq)⟩

theorem isWordChar_of_isDigit {c : Char} (h : Lexer.isDigit c = true) : isWordChar c = true := by
  simp [isWordChar, Lexer.isNameChar, h]

theorem all_isWordChar_digits (n : Nat) : (Numeral.digits n).all isWordChar = true := by
  rw [List.all_eq_true]
  intro c hc
  exact isWordChar_of_isDigit (Numeral.isDigit_of_mem_digits hc)

theorem all_isWordChar_ofInt (z : Int) : (Numeral.ofInt z).all isWordChar = true := by
  cases z with
  | ofNat n => exact all_isWordChar_digits n
  | negSucc n => simp [Numeral.ofInt, all_isWordChar_digits, show isWordChar '-' = true from rfl]

theorem ofInt_injective {a b : Int} (h : Numeral.ofInt a = Numeral.ofInt b) : a = b := by
  have hsign : ∀ (m n : Nat), Numeral.digits m ≠ '-' :: Numeral.digits n := by
    intro m n hmn
    have hmem : '-' ∈ Numeral.digits m := by simp [hmn]
    exact absurd (Numeral.isDigit_of_mem_digits hmem) (by decide)
  cases a with
  | ofNat m =>
    cases b with
    | ofNat n => rw [Numeral.digits_injective h]
    | negSucc n => exact absurd h (hsign m (n + 1))
  | negSucc m =>
    cases b with
    | ofNat n => exact absurd h.symm (hsign n (m + 1))
    | negSucc n =>
      have hmn := Numeral.digits_injective (List.cons.inj h).2
      rw [Nat.succ.inj hmn]

theorem clear_natText : Clear id natText :=
  clear_word (fun n => by rw [natText, String.toList_ofList]; exact all_isWordChar_digits n)
    fun _ _ h => natText_injective h

theorem clear_intText : Clear id intText :=
  clear_word (fun z => by rw [intText, String.toList_ofList]; exact all_isWordChar_ofInt z)
    fun _ _ h => ofInt_injective (String.ofList_injective h)

theorem begins_intText (z : Int) : Begins (intText z) := by
  rw [Begins, intText, String.toList_ofList]
  have hword := all_isWordChar_ofInt z
  have hne : Numeral.ofInt z ≠ [] := by
    cases z with
    | ofNat n => exact Numeral.digits_ne_nil n
    | negSucc n => exact List.cons_ne_nil _ _
  cases hl : Numeral.ofInt z with
  | nil => exact absurd hl hne
  | cons c cs =>
    rw [hl, List.all_cons, Bool.and_eq_true] at hword
    exact hword.1

theorem all_isWordChar_of_digits {cs : List Char} (h : cs.all Lexer.isDigit = true) :
    cs.all isWordChar = true := by
  rw [List.all_eq_true] at h ⊢
  exact fun c hc => isWordChar_of_isDigit (h c hc)

theorem any_isDigit {cs : List Char} (hne : cs ≠ []) (h : cs.all Lexer.isDigit = true) :
    cs.any Lexer.isDigit = true := by
  obtain ⟨c, hc⟩ := List.exists_mem_of_ne_nil cs hne
  exact List.any_eq_true.mpr ⟨c, hc, List.all_eq_true.mp h c hc⟩

def Numerical (cs : List Char) : Prop := cs.all isWordChar = true ∧ cs.any Lexer.isDigit = true

theorem numerical_positional {ds : List Char} (e : Int) (hne : ds ≠ [])
    (hd : ds.all Lexer.isDigit = true) :
    Numerical (Scalar.positional ds e) := by
  obtain ⟨whole, places, heq, hw, hwd, -, hpd, -⟩ := Scalar.positional_spec e hne hd
  rw [Numerical, heq, List.all_append, List.all_cons, List.any_append, any_isDigit hw hwd,
    all_isWordChar_of_digits hwd, all_isWordChar_of_digits hpd]
  exact ⟨rfl, rfl⟩

theorem numerical_scientific {ds : List Char} (e : Int) (hne : ds ≠ [])
    (hd : ds.all Lexer.isDigit = true) :
    Numerical (Scalar.scientific false ds e) := by
  obtain ⟨whole, places, heq, hw, hwd, hpd, -, -⟩ := Scalar.scientific_spec e hne hd
  have hpoint : (if places = [] then [] else '.' :: places).all isWordChar = true := by
    split
    · rfl
    · rw [List.all_cons, all_isWordChar_of_digits hpd]
      rfl
  rw [Numerical, heq, List.all_append, List.all_append, List.all_cons, List.any_append, List.any_append,
    any_isDigit hw hwd, all_isWordChar_of_digits hwd, hpoint, all_isWordChar_ofInt]
  exact ⟨rfl, rfl⟩

theorem numerical_layout (x : Scalar) : Numerical (Scalar.layout .program x) := by
  have hsigned : ∀ {cs}, Numerical cs → Numerical ((if x.negative then ['-'] else []) ++ cs) := by
    intro cs hcs
    rw [Numerical, List.all_append, List.any_append, hcs.1, hcs.2]
    cases x.negative <;> exact ⟨rfl, rfl⟩
  unfold Scalar.layout
  simp only
  split
  · exact hsigned ⟨rfl, rfl⟩
  · next hm =>
    have hcoeff := Scalar.shortest_coefficient_ne_zero hm Scalar.Layout.program.tie
    obtain ⟨hne, hall, -⟩ := Scalar.stripped_spec hcoeff rfl (x.shortest Scalar.Layout.program.tie).power
    apply hsigned
    split
    · exact numerical_positional _ hne hall
    · exact numerical_scientific _ hne hall

theorem text_of_not_isFinite {x : Scalar} (hfin : x.isFinite = false) :
    x.text = if x.isNaN then "NaN" else if x.negative then "-inf" else "inf" := by
  rw [Scalar.text, hfin]
  rfl

theorem all_isWordChar_text (x : Scalar) : x.text.toList.all isWordChar = true := by
  cases hfin : x.isFinite with
  | true =>
    rw [Scalar.toList_text hfin]
    exact (numerical_layout x).1
  | false =>
    rw [text_of_not_isFinite hfin]
    cases x.isNaN <;> cases x.negative <;> decide

theorem any_isDigit_text (x : Scalar) : x.text.toList.any Lexer.isDigit = x.isFinite := by
  cases hfin : x.isFinite with
  | true =>
    rw [Scalar.toList_text hfin]
    exact (numerical_layout x).2
  | false =>
    rw [text_of_not_isFinite hfin]
    cases x.isNaN <;> cases x.negative <;> decide

theorem nonfinite_injective : ∀ a m b n : Bool,
    (if a then "NaN" else if m then "-inf" else "inf") =
      (if b then "NaN" else if n then "-inf" else "inf") →
      a = b ∧ (a = false → m = n) := by
  decide

theorem eq_of_infinite {x y : Scalar} (hx : x.isNaN = false) (hy : y.isNaN = false)
    (hxf : x.isFinite = false)
    (hyf : y.isFinite = false) (h : x.negative = y.negative) : x = y := by
  simp only [Scalar.isNaN, Scalar.isFinite, Scalar.exponentField, Scalar.fraction, Bool.and_eq_false_iff,
    bne_eq_false_iff_eq, beq_eq_false_iff_ne, Nat.pow_eq] at hx hy hxf hyf
  have hx' := hx.resolve_left (not_not_intro hxf)
  have hy' := hy.resolve_left (not_not_intro hyf)
  have hxb := x.bits.toNat_lt
  have hyb := y.bits.toNat_lt
  simp only [Scalar.negative, decide_eq_decide, Nat.pow_eq] at h
  have hbits : x.bits.toNat = y.bits.toNat := by omega
  cases x
  cases y
  exact congrArg Scalar.mk (UInt64.toNat_inj.mp hbits)

theorem quieted_eq_of_text {x y : Scalar} (h : x.text = y.text) : x.quieted = y.quieted := by
  have hfin : x.isFinite = y.isFinite := by rw [← any_isDigit_text, h, any_isDigit_text]
  cases hyf : y.isFinite with
  | true =>
    have hend : Lexer.boundary [] = true := rfl
    have hscan := Scalar.scan_text (hfin.trans hyf) hend
    rw [h, Scalar.scan_text hyf hend] at hscan
    injection hscan with hhead _
    injection hhead with htoken
    injection htoken with hxy
    rw [hxy]
  | false =>
    have hxf := hfin.trans hyf
    rw [text_of_not_isFinite hxf, text_of_not_isFinite hyf] at h
    obtain ⟨hnan, hsign⟩ := nonfinite_injective _ _ _ _ h
    cases hx : x.isNaN with
    | true => rw [Scalar.quieted, Scalar.quieted, ← hnan, hx]; rfl
    | false => rw [eq_of_infinite hx (hnan.symm.trans hx) hxf hyf (hsign hx)]

theorem clear_scalarText : Clear Scalar.quieted Scalar.text :=
  clear_word all_isWordChar_text fun _ _ h => quieted_eq_of_text h

theorem hexDigit_injective :
    ∀ d, d < 16 → ∀ e, e < 16 → Numeral.hexDigit d = Numeral.hexDigit e → d = e := by decide

theorem isWordChar_hexDigit : ∀ d, d < 16 → isWordChar (Numeral.hexDigit d) = true := by decide

theorem all_isWordChar_hex (n : Nat) : (Numeral.hex n).all isWordChar = true := by
  refine List.all_eq_true.mpr fun c hc => ?_
  obtain ⟨d, hd, rfl⟩ := Numeral.exists_of_mem_inBase (by decide) hc
  exact isWordChar_hexDigit d hd

theorem clear_hex : Clear id fun n => String.ofList (Numeral.hex n) :=
  clear_word (fun n => by rw [String.toList_ofList]; exact all_isWordChar_hex n)
    fun _ _ h => Numeral.inBase_injective (by decide) hexDigit_injective (String.ofList_injective h)

/-- The characters that have an escape of one character, with that character. -/
def shortEscapes : List (Char × Char) :=
  [('\x00', '0'), ('\t', 't'), ('\r', 'r'), ('\n', 'n'), ('\\', '\\'), ('"', '"')]

/-- A character stands by itself, or behind a backslash by a sign or by number. -/
theorem escape_cases (c : Char) :
    (escape c = [c] ∧ c ≠ '\\' ∧ c ≠ '"' ∧ c ≠ '\x00') ∨
      (∃ k, (c, k) ∈ shortEscapes ∧ escape c = ['\\', k]) ∨
      escape c = '\\' :: 'u' :: '{' :: (Numeral.hex c.toNat ++ ['}']) := by
  unfold escape
  split
  · next h => exact .inr (.inl ⟨'0', by simp [shortEscapes, h], rfl⟩)
  split
  · next h => exact .inr (.inl ⟨'t', by simp [shortEscapes, h], rfl⟩)
  split
  · next h => exact .inr (.inl ⟨'r', by simp [shortEscapes, h], rfl⟩)
  split
  · next h => exact .inr (.inl ⟨'n', by simp [shortEscapes, h], rfl⟩)
  split
  · next h => exact .inr (.inl ⟨'\\', by simp [shortEscapes, h], rfl⟩)
  split
  · next h => exact .inr (.inl ⟨'"', by simp [shortEscapes, h], rfl⟩)
  split
  · exact .inr (.inr rfl)
  · next hnul _ _ _ hback hquote _ => exact .inl ⟨rfl, hback, hquote, hnul⟩

theorem shortEscapes_injective :
    ∀ p, p ∈ shortEscapes → ∀ q, q ∈ shortEscapes → p.2 = q.2 → p.1 = q.1 := by decide

theorem shortEscapes_ne : ∀ p, p ∈ shortEscapes → p.2 ≠ 'u' ∧ p.2 ≠ '\x00' := by decide

theorem escape_reads {c d : Char} {rest rest' : List Char} (h : escape c ++ rest = escape d ++ rest') :
    c = d ∧ rest = rest' := by
  rcases escape_cases c with ⟨hc, hback, -, -⟩ | ⟨k, hk, hc⟩ | hc
  · rcases escape_cases d with ⟨hd, -, -, -⟩ | ⟨l, hl, hd⟩ | hd
    · rw [hc, hd] at h
      exact ⟨(List.cons.inj h).1, (List.cons.inj h).2⟩
    · rw [hc, hd] at h
      exact absurd (List.cons.inj h).1 hback
    · rw [hc, hd] at h
      exact absurd (List.cons.inj h).1 hback
  · rcases escape_cases d with ⟨hd, hback, -, -⟩ | ⟨l, hl, hd⟩ | hd
    · rw [hc, hd] at h
      exact absurd (List.cons.inj h).1.symm hback
    · rw [hc, hd] at h
      obtain ⟨hkl, hrest⟩ := List.cons.inj (List.cons.inj h).2
      exact ⟨shortEscapes_injective _ hk _ hl hkl, hrest⟩
    · rw [hc, hd] at h
      exact absurd (List.cons.inj (List.cons.inj h).2).1 (shortEscapes_ne _ hk).1
  · rcases escape_cases d with ⟨hd, hback, -, -⟩ | ⟨l, hl, hd⟩ | hd
    · rw [hc, hd] at h
      exact absurd (List.cons.inj h).1.symm hback
    · rw [hc, hd] at h
      exact absurd (List.cons.inj (List.cons.inj h).2).1.symm (shortEscapes_ne _ hl).1
    · rw [hc, hd] at h
      have hnumber : (String.ofList (Numeral.hex c.toNat)).toList ++ '}' :: rest =
          (String.ofList (Numeral.hex d.toNat)).toList ++ '}' :: rest' := by simpa using h
      have hbrace : ∀ cs, Stops ('}' :: cs) := fun _ => rfl
      obtain ⟨hsame, hrest⟩ := clear_hex.reads (hbrace rest) (hbrace rest') hnumber
      exact ⟨Char.toNat_inj.mp hsame, (List.cons.inj hrest).2⟩

theorem escape_ne_quote {c : Char} {rest rest' : List Char} : escape c ++ rest ≠ '"' :: rest' := by
  intro h
  rcases escape_cases c with ⟨hc, -, hquote, -⟩ | ⟨k, -, hc⟩ | hc
  · rw [hc] at h
    exact hquote (List.cons.inj h).1
  · rw [hc] at h
    exact absurd (List.cons.inj h).1 (by decide)
  · rw [hc] at h
    exact absurd (List.cons.inj h).1 (by decide)

theorem escapes_reads {cs ds rest rest' : List Char}
    (h : cs.flatMap escape ++ '"' :: rest = ds.flatMap escape ++ '"' :: rest') :
    cs = ds ∧ rest = rest' := by
  induction cs generalizing ds with
  | nil =>
    cases ds with
    | nil => exact ⟨rfl, (List.cons.inj h).2⟩
    | cons d ds =>
      rw [List.flatMap_cons, List.append_assoc] at h
      exact absurd h.symm escape_ne_quote
  | cons c cs ih =>
    cases ds with
    | nil =>
      rw [List.flatMap_cons, List.append_assoc] at h
      exact absurd h escape_ne_quote
    | cons d ds =>
      rw [List.flatMap_cons, List.flatMap_cons, List.append_assoc, List.append_assoc] at h
      obtain ⟨rfl, hmore⟩ := escape_reads h
      obtain ⟨rfl, hrest⟩ := ih hmore
      exact ⟨rfl, hrest⟩

theorem free_escape (c : Char) : '\x00' ∉ escape c := by
  rcases escape_cases c with ⟨hc, -, -, hnul⟩ | ⟨k, hk, hc⟩ | hc
  · simpa [hc] using hnul.symm
  · simpa [hc] using (shortEscapes_ne _ hk).2.symm
  · simpa [hc] using not_mem_of_word (all_isWordChar_hex c.toNat)

theorem clear_quote : Clear id quote where
  free s := by
    rw [Free, quote, String.toList_ofList]
    simp [free_escape]
  reads {s s' rest rest'} _ _ heq := by
    rw [quote, quote, String.toList_ofList, String.toList_ofList] at heq
    simp only [List.cons_append, List.append_assoc, List.nil_append, List.cons.injEq, true_and] at heq
    obtain ⟨hsame, hrest⟩ := escapes_reads heq
    exact ⟨String.toList_injective hsame, hrest⟩

end Text

end Stencil
