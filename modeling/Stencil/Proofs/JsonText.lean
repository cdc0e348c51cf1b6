import Mathlib.Data.List.DropRight
import Stencil.Json.Decode
import Stencil.Json.Reader
import Stencil.Json.Writer
import Stencil.Proofs.Literal

/-! JSON text reads back: a value whose numbers and strings denote something is what its text is
read as, whatever stands behind the text. -/

set_option autoImplicit false

namespace Stencil

namespace Json

open Lexer (takeWhile_append_eq)

/-- Nothing at the front could continue a number. -/
def endsNumber (cs : List Char) : Bool :=
  cs.head?.all fun c => !isDigit c && c ≠ '.' && c ≠ 'e' && c ≠ 'E'

theorem not_digit_of_endsNumber {cs : List Char} (h : endsNumber cs = true) :
    cs.head?.all (fun c => !isDigit c) = true := by
  cases cs with
  | nil => rfl
  | cons c cs =>
    simp only [endsNumber, List.head?_cons, Option.all_some, Bool.and_eq_true] at h ⊢
    exact h.1.1.1

namespace NumberText

def fractionChars : List Char → List Char
  | [] => []
  | d :: ds => '.' :: d :: ds

def exponentChars : Option (Bool × List Char) → List Char
  | none => []
  | some (negative, ds) => 'e' :: (if negative then '-' else '+') :: ds

def chars (t : NumberText) : List Char :=
  (if t.negative then ['-'] else []) ++
    (t.whole ++ (fractionChars t.fraction ++ exponentChars t.exponent))

/-- The parts of a number are digits, and its first digit is no zero unless it is the only one. -/
structure Proper (t : NumberText) : Prop where
  whole_ne : t.whole ≠ []
  whole : t.whole.all isDigit = true
  zero : t.whole.head? = some '0' → t.whole = ['0']
  fraction : t.fraction.all isDigit = true
  exponent : ∀ e ∈ t.exponent, e.2 ≠ [] ∧ e.2.all isDigit = true

end NumberText

theorem wholeDigits_append {ds rest : List Char} (hne : ds ≠ []) (hd : ds.all isDigit = true)
    (hzero : ds.head? = some '0' → ds = ['0']) (hrest : rest.head?.all (fun c => !isDigit c) = true) :
    wholeDigits (ds ++ rest) = some (ds, rest) := by
  obtain ⟨htake, hdrop⟩ := takeWhile_append_eq hd hrest
  unfold wholeDigits
  simp only [htake, hdrop]
  split
  · exact absurd rfl hne
  · cases hzero rfl
  · rfl

theorem someDigits_append {ds rest : List Char} (hne : ds ≠ []) (hd : ds.all isDigit = true)
    (hrest : rest.head?.all (fun c => !isDigit c) = true) :
    someDigits (ds ++ rest) = some (ds, rest) := by
  obtain ⟨htake, hdrop⟩ := takeWhile_append_eq hd hrest
  unfold someDigits
  simp only [htake, hdrop]
  rw [if_neg (by simpa using hne)]

theorem exponentText_append {e : Option (Bool × List Char)}
    (he : ∀ x ∈ e, x.2 ≠ [] ∧ x.2.all isDigit = true)
    {rest : List Char} (hrest : endsNumber rest = true) :
    exponentText (NumberText.exponentChars e ++ rest) = some (e, rest) := by
  cases e with
  | none =>
    cases rest with
    | nil => rfl
    | cons c rest =>
      simp only [endsNumber, List.head?_cons, Option.all_some, Bool.and_eq_true,
        decide_eq_true_eq] at hrest
      simp [NumberText.exponentChars, exponentText, hrest]
  | some x =>
    obtain ⟨negative, ds⟩ := x
    obtain ⟨hne, hd⟩ := he _ rfl
    have hds := someDigits_append hne hd (not_digit_of_endsNumber hrest)
    cases negative
    · simp [NumberText.exponentChars, exponentText, exponentSign, hds]
    · simp [NumberText.exponentChars, exponentText, exponentSign, hds]

theorem fractionText_append {ds rest : List Char} (hd : ds.all isDigit = true)
    (hdigit : rest.head?.all (fun c => !isDigit c) = true) (hpoint : rest.head? ≠ some '.') :
    fractionText (NumberText.fractionChars ds ++ rest) = some (ds, rest) := by
  cases ds with
  | nil =>
    rw [NumberText.fractionChars, List.nil_append]
    unfold fractionText
    split
    · exact absurd rfl hpoint
    · rfl
  | cons d ds => exact someDigits_append (List.cons_ne_nil d ds) hd hdigit

theorem head_exponentChars (e : Option (Bool × List Char)) {rest : List Char}
    (hrest : endsNumber rest = true) :
    (NumberText.exponentChars e ++ rest).head?.all (fun c => !isDigit c) = true ∧
      (NumberText.exponentChars e ++ rest).head? ≠ some '.' := by
  cases e with
  | none =>
    refine ⟨not_digit_of_endsNumber hrest, fun h => ?_⟩
    rw [NumberText.exponentChars, List.nil_append] at h
    simp [endsNumber, h] at hrest
  | some x => exact ⟨rfl, nofun⟩

def unsignedText (negative : Bool) (cs : List Char) : Option (NumberText × List Char) := do
  let (whole, cs) ← wholeDigits cs
  let (fraction, cs) ← fractionText cs
  let (exponent, cs) ← exponentText cs
  some (⟨negative, whole, fraction, exponent⟩, cs)

theorem numberText_minus (cs : List Char) : numberText ('-' :: cs) = unsignedText true cs := rfl

theorem numberText_of_head {cs : List Char} (h : cs.head? ≠ some '-') :
    numberText cs = unsignedText false cs := by
  unfold numberText
  split
  rename_i negative cs' heq
  split at heq
  · exact absurd rfl h
  · cases heq
    rfl

namespace NumberText

variable {t : NumberText}

theorem Proper.exists_digit (h : t.Proper) : ∃ d ds, t.whole = d :: ds ∧ isDigit d = true := by
  obtain ⟨d, ds, hds⟩ := List.exists_cons_of_ne_nil h.whole_ne
  have hall := h.whole
  rw [hds] at hall
  exact ⟨d, ds, hds, (Bool.and_eq_true_iff.mp hall).1⟩

theorem Proper.numberText_append (h : t.Proper) (rest : List Char) (hrest : endsNumber rest = true) :
    numberText (t.chars ++ rest) = some (t, rest) := by
  obtain ⟨hdigit, hpoint⟩ := head_exponentChars t.exponent hrest
  have hfraction := fractionText_append h.fraction hdigit hpoint
  have hexponent := exponentText_append h.exponent hrest
  have hbehind :
      (fractionChars t.fraction ++ (exponentChars t.exponent ++ rest)).head?.all (fun c => !isDigit c) =
      true := by
    cases t.fraction with
    | nil => exact hdigit
    | cons d ds => rfl
  have hwhole := wholeDigits_append h.whole_ne h.whole h.zero hbehind
  have hunsigned : unsignedText t.negative
    (t.whole ++ (fractionChars t.fraction ++ (exponentChars t.exponent ++ rest))) =
      some (t, rest) := by
    simp only [unsignedText, hwhole, hfraction, hexponent, Option.bind_eq_bind, Option.bind_some]
  have happend : t.chars ++ rest = (if t.negative then ['-'] else []) ++
      (t.whole ++ (fractionChars t.fraction ++ (exponentChars t.exponent ++ rest))) := by
    simp only [chars, List.append_assoc]
  rw [happend]
  cases hnegative : t.negative with
  | true =>
    rw [hnegative] at hunsigned
    exact (numberText_minus _).trans hunsigned
  | false =>
    rw [hnegative] at hunsigned
    refine (numberText_of_head ?_).trans hunsigned
    obtain ⟨d, ds, hds, hd⟩ := h.exists_digit
    rw [hds]
    rintro ⟨⟩
    cases hd

def isStart (c : Char) : Bool := c = '-' || isDigit c

theorem Proper.exists_start (h : t.Proper) : ∃ c cs, t.chars = c :: cs ∧ isStart c = true := by
  cases hnegative : t.negative with
  | true => exact ⟨'-', _, by rw [chars, hnegative]; rfl, rfl⟩
  | false =>
    obtain ⟨d, ds, hds, hd⟩ := h.exists_digit
    exact ⟨d, _, by rw [chars, hnegative, hds]; rfl, by simp [isStart, hd]⟩

def ofInt (z : Int) : NumberText := ⟨z < 0, Numeral.digits z.natAbs, [], none⟩

theorem chars_ofInt (z : Int) : (ofInt z).chars = Numeral.ofInt z := by
  cases z with
  | ofNat n => simp [ofInt, chars, fractionChars, exponentChars, Numeral.ofInt]
  | negSucc n => simp [ofInt, chars, fractionChars, exponentChars, Numeral.ofInt]

end NumberText

theorem head_digits {n : Nat} (h : (Numeral.digits n).head? = some '0') : n = 0 := by
  induction n using Nat.strongRecOn with
  | ind n ih =>
    rw [Numeral.digits_eq] at h
    split at h
    · rename_i hn
      rw [List.head?_cons, Option.some.injEq] at h
      rw [← Numeral.digitValue_digit n hn, h]
      rfl
    · rename_i hn
      rw [List.head?_append_of_ne_nil _ (Numeral.digits_ne_nil _)] at h
      have := ih (n / 10) (by omega) h
      omega

theorem all_isDigit_digits (n : Nat) :
    (Numeral.digits n).all isDigit = true := Scalar.all_isDigit_digits n

theorem NumberText.proper_ofInt (z : Int) : (NumberText.ofInt z).Proper where
  whole_ne := Numeral.digits_ne_nil _
  whole := all_isDigit_digits _
  zero := by
    intro h
    have hzero := head_digits h
    rw [ofInt, hzero]
    rfl
  fraction := rfl
  exponent := nofun

def isReadable (z : Int) : Bool := -9223372036854775808 ≤ z && z ≤ 18446744073709551615

theorem NumberText.number_ofInt {z : Int} (h : isReadable z = true) :
    (NumberText.ofInt z).number = some (.int z) := by
  simp only [isReadable, Bool.and_eq_true, decide_eq_true_eq] at h
  simp only [number, ofInt, List.isEmpty_nil, Option.isNone_none, Bool.and_self, if_true,
    Numeral.value_digits]
  split
  · rename_i hneg
    rw [decide_eq_true_eq] at hneg
    rw [if_pos (by simp; omega)]
    congr 2
    omega
  · rename_i hneg
    rw [decide_eq_true_eq] at hneg
    rw [if_pos (by simp [maxMantissa]; omega)]
    congr 2
    omega

theorem whole_of_positional {ds whole places : List Char} {e : Int} (hhead : ds.head? ≠ some '0')
    (hne : ds ≠ [])
    (hall : whole.all isDigit = true) (h : Scalar.positional ds e = whole ++ '.' :: places) :
    whole.head? = some '0' → whole = ['0'] := by
  intro hzero
  obtain ⟨c, cs, rfl⟩ : ∃ c cs, whole = c :: cs := by
    cases whole with
    | nil => cases hzero
    | cons c cs => exact ⟨c, cs, rfl⟩
  obtain ⟨d, ds, rfl⟩ := List.exists_cons_of_ne_nil hne
  unfold Scalar.positional at h
  split at h
  · cases cs with
    | nil => cases hzero; rfl
    | cons c' cs =>
      simp only [List.cons_append, List.cons.injEq] at h
      rw [← h.2.1] at hall
      simp [isDigit] at hall
  · -- the first digit stays the first
    have hd : c = d := by
      simp only at h
      split at h <;> simp only [List.cons_append, List.take_succ_cons,
        List.cons.injEq] at h <;> exact h.1.symm
    rw [List.head?_cons, hd] at hzero
    exact absurd hzero hhead

theorem exponentChars_ofInt (e : Int) :
    NumberText.exponentChars (some (decide (e < 0), Numeral.digits e.natAbs)) =
      (if true && 0 ≤ e then ['e', '+'] else ['e']) ++ Numeral.ofInt e := by
  cases e with
  | ofNat n => simp [NumberText.exponentChars, Numeral.ofInt]
  | negSucc n => simp [NumberText.exponentChars, Numeral.ofInt]

/-- A number with a fraction or an exponent. -/
def IsFloat (cs : List Char) : Prop :=
  ∃ t : NumberText, t.Proper ∧ t.chars = cs ∧ (t.fraction.isEmpty && t.exponent.isNone) = false

theorem isFloat_zero (negative : Bool) : IsFloat ((if negative then ['-'] else []) ++ ['0', '.', '0']) :=
  ⟨⟨negative, ['0'], ['0'], none⟩, ⟨by simp, rfl, fun _ => rfl, rfl, by simp⟩, rfl, rfl⟩

section Digits

variable {ds : List Char} (hne : ds ≠ []) (hall : ds.all isDigit = true) (negative : Bool) (e : Int)

include hne hall

theorem isFloat_positional (hhead : ds.head? ≠ some '0') :
    IsFloat ((if negative then ['-'] else []) ++ Scalar.positional ds e) := by
  obtain ⟨whole, places, heq, hw, hwd, hp, hpd, -⟩ := Scalar.positional_spec e hne hall
  obtain ⟨p, ps, rfl⟩ := List.exists_cons_of_ne_nil hp
  refine ⟨⟨negative, whole, p :: ps, none⟩, ⟨hw, hwd, whole_of_positional hhead hne hwd heq,
    hpd, by simp⟩, ?_, rfl⟩
  rw [heq, NumberText.chars]
  simp [NumberText.fractionChars, NumberText.exponentChars]

theorem isFloat_scientific :
    IsFloat ((if negative then ['-'] else []) ++ Scalar.scientific true ds e) := by
  have hexponent : ∀ y ∈ some (decide (e < 0), Numeral.digits e.natAbs), y.2 ≠ [] ∧
      y.2.all isDigit = true := by
    rintro _ ⟨⟩
    exact ⟨Numeral.digits_ne_nil _, all_isDigit_digits _⟩
  obtain ⟨c, ds, rfl⟩ := List.exists_cons_of_ne_nil hne
  obtain ⟨hc, hrest⟩ := Bool.and_eq_true_iff.mp hall
  refine ⟨⟨negative, [c], ds, some (decide (e < 0), Numeral.digits e.natAbs)⟩,
    ⟨by simp, Bool.and_eq_true_iff.mpr ⟨hc, rfl⟩, ?_, hrest, hexponent⟩, ?_, by simp⟩
  · rintro ⟨⟩
    rfl
  · rw [NumberText.chars, exponentChars_ofInt]
    cases ds with
    | nil => simp [Scalar.scientific, NumberText.fractionChars]
    | cons r rs => simp [Scalar.scientific, NumberText.fractionChars]

end Digits

theorem isFloat_layout (x : Scalar) : IsFloat (x.layout .json) := by
  unfold Scalar.layout
  simp only
  split
  · exact isFloat_zero x.negative
  · next hm =>
    have hcoeff := Scalar.shortest_coefficient_ne_zero hm Scalar.Layout.json.tie
    generalize x.shortest Scalar.Layout.json.tie = d at hcoeff ⊢
    generalize hds : ((Numeral.digits d.coefficient).reverse.dropWhile (· = '0')).reverse = ds
    obtain ⟨hne, hall, -⟩ := Scalar.stripped_spec hcoeff hds d.power
    have hhead : ds.head? ≠ some '0' := by
      intro hzero
      have hstrip := Scalar.strip_zeros (Numeral.digits d.coefficient)
      rw [hds] at hstrip
      refine hcoeff (head_digits ?_)
      rw [hstrip, List.head?_append_of_ne_nil _ hne, hzero]
    generalize d.power + (Numeral.digits d.coefficient).length - 1 = e
    have hpositional := isFloat_positional hne hall x.negative e hhead
    have hscientific := isFloat_scientific hne hall x.negative e
    generalize (if x.negative = true then ['-'] else []) = sign at hpositional hscientific ⊢
    split
    · exact hpositional
    · exact hscientific

def withPart (p : StringPart) (r : List StringPart × List Char) : List StringPart × List Char :=
  (p :: r.1, r.2)

theorem stringParts_short {e c : Char} (he : shortEscape? e = some c) (cs : List Char) :
    stringParts ('\\' :: e :: cs) = (stringParts cs).map (withPart (.char c)) := by
  rw [stringParts.eq_def]
  split
  · rename_i heq
    cases heq
  · rename_i heq
    cases heq
  · rename_i heq
    cases heq
    cases he
  · rename_i heq
    cases heq
    rw [he]
    cases stringParts cs <;> rfl
  · rename_i hshort heq
    cases heq
    exact absurd rfl (hshort e cs rfl)

theorem stringParts_unit {a b c d : Char} {n : Nat} (h : hexUnit? a b c d = some n) (cs : List Char) :
    stringParts ('\\' :: 'u' :: a :: b :: c :: d :: cs) =
      (stringParts cs).map (withPart (partOfUnit n)) := by
  rw [stringParts, h]
  cases stringParts cs <;> rfl

theorem stringParts_plain {c : Char} (hquote : c ≠ '"') (hslash : c ≠ '\\') (hcontrol : ¬ c.toNat < 32)
    (cs : List Char) : stringParts (c :: cs) = (stringParts cs).map (withPart (.char c)) := by
  rw [stringParts.eq_def]
  split
  · rename_i heq
    cases heq
  · rename_i heq
    cases heq
    exact absurd rfl hquote
  · rename_i heq
    cases heq
    exact absurd rfl hslash
  · rename_i heq
    cases heq
    exact absurd rfl hslash
  · rename_i heq
    cases heq
    rw [if_neg (by simp [hslash, hcontrol])]
    cases stringParts cs <;> rfl

/-- Whether four digits stand for the character of that number. -/
def isUnitOf (n : Nat) : List Char → Bool
  | [a, b, c, d] => hexUnit? a b c d = some n && partOfUnit n = .char (Char.ofNat n)
  | _ => false

theorem isUnitOf_hexPadded : ∀ n < 32, isUnitOf n (Numeral.hexPadded 4 n) = true := by decide

theorem stringParts_control {c : Char} (h : c.toNat < 32) (cs : List Char) :
    stringParts ('\\' :: 'u' :: Numeral.hexPadded 4 c.toNat ++ cs) =
      (stringParts cs).map (withPart (.char c)) := by
  have hunit := isUnitOf_hexPadded c.toNat h
  unfold isUnitOf at hunit
  split at hunit
  · rename_i heq
    simp only [Bool.and_eq_true, decide_eq_true_eq] at hunit
    rw [heq]
    refine (stringParts_unit hunit.1 cs).trans ?_
    rw [hunit.2, Char.ofNat_toNat]
  · cases hunit

theorem stringParts_escapeChar (c : Char) (cs : List Char) :
    stringParts (escapeChar c ++ cs) = (stringParts cs).map (withPart (.char c)) := by
  unfold escapeChar
  split
  · rename_i h; subst h; exact stringParts_short rfl cs
  split
  · rename_i h; subst h; exact stringParts_short rfl cs
  split
  · rename_i h; subst h; exact stringParts_short rfl cs
  split
  · rename_i h; subst h; exact stringParts_short rfl cs
  split
  · rename_i h; subst h; exact stringParts_short rfl cs
  split
  · rename_i h; subst h; exact stringParts_short rfl cs
  split
  · rename_i h; subst h; exact stringParts_short rfl cs
  split
  · rename_i h; exact stringParts_control h cs
  · rename_i hquote hslash _ _ _ _ _ hcontrol
    exact stringParts_plain hquote hslash hcontrol cs

theorem stringParts_escape (cs rest : List Char) :
    stringParts (cs.flatMap escapeChar ++ '"' :: rest) = some (cs.map .char, rest) := by
  induction cs with
  | nil => rfl
  | cons c cs ih =>
    rw [List.flatMap_cons, List.append_assoc, stringParts_escapeChar, ih]
    rfl

theorem joinParts_chars (cs : List Char) : joinParts (cs.map .char) = some cs := by
  induction cs with
  | nil => rfl
  | cons c cs ih =>
    rw [List.map_cons, joinParts, ih]
    rfl

theorem stringText_escape (s : String) (rest : List Char) :
    stringText (s.toList.flatMap escapeChar ++ '"' :: rest) = some (some s, rest) := by
  rw [stringText, stringParts_escape]
  simp [joinParts_chars]

theorem skipBlank_cons {c : Char} (h : isBlank c = false) (cs : List Char) :
    skipBlank (c :: cs) = c :: cs := by
  simp [skipBlank, h]

theorem skipBlank_newLine (indent : Nat) (cs : List Char) :
    skipBlank (newLine indent ++ cs) = skipBlank cs := by
  rw [newLine, List.cons_append, skipBlank, List.dropWhile_cons_of_pos rfl]
  induction indent with
  | zero => rfl
  | succ n ih =>
    rw [List.replicate_succ, List.cons_append, List.dropWhile_cons_of_pos rfl, ih]

theorem skipBlank_skipBlank (cs : List Char) : skipBlank (skipBlank cs) = skipBlank cs :=
  List.dropWhile_idempotent _ _

theorem readValue_skipBlank (fuel : Nat) (cs : List Char) :
    readValue fuel (skipBlank cs) = readValue fuel cs := by
  cases fuel with
  | zero => rfl
  | succ fuel => rw [readValue, readValue, skipBlank_skipBlank]

theorem readItems_skipBlank (fuel : Nat) (cs : List Char) :
    readItems fuel (skipBlank cs) = readItems fuel cs := by
  cases fuel with
  | zero => rfl
  | succ fuel => rw [readItems, readItems, readValue_skipBlank]

theorem NumberText.not_blank_of_isStart {c : Char} (hc : isStart c = true) : isBlank c = false := by
  cases hblank : isBlank c with
  | false => rfl
  | true =>
    simp only [isBlank, Bool.or_eq_true, decide_eq_true_eq] at hblank
    rcases hblank with ((rfl | rfl) | rfl) | rfl <;> cases hc

theorem readFields_skipBlank (fuel : Nat) (cs : List Char) :
    readFields fuel (skipBlank cs) = readFields fuel cs := by
  cases fuel with
  | zero => rfl
  | succ fuel => rw [readFields, readFields, skipBlank_skipBlank]

theorem readValue_number {c : Char} {cs rest : List Char} {t : NumberText}
    (hc : NumberText.isStart c = true)
    (h : numberText (c :: cs) = some (t, rest)) (fuel : Nat) :
    readValue (fuel + 1) (c :: cs) = some (num t.number, rest) := by
  rw [readValue, skipBlank_cons (NumberText.not_blank_of_isStart hc)]
  split
  · rename_i heq; cases heq; cases hc
  · rename_i heq; cases heq; cases hc
  · rename_i heq; cases heq; cases hc
  · rename_i heq; cases heq; cases hc
  · rename_i heq; cases heq; cases hc
  · rename_i heq; cases heq; cases hc
  · rw [h]
    rfl

/-- The JSON text of the scalar reads back to it. -/
def Rereads (x : Scalar) : Prop := (read (ofScalar x).compact).bind toScalar? = some x

instance : DecidablePred Rereads := fun _ => inferInstanceAs (Decidable (_ = _))

theorem read_numberText {t : NumberText} (h : t.Proper) :
    read (String.ofList t.chars) = some (num t.number) := by
  obtain ⟨c, cs, hcs, hc⟩ := h.exists_start
  have hread := h.numberText_append [] rfl
  rw [List.append_nil, hcs] at hread
  rw [read]
  simp only [String.toList_ofList]
  rw [hcs, readValue_number hc hread]
  rfl

theorem read_null : read null.compact = some null := by
  rw [read, compact, String.toList_ofList]
  rfl

theorem Rereads.exists_numberText {x : Scalar} (h : Rereads x) : ∃ t : NumberText, t.Proper ∧
    t.chars = numberChars (some (.float x)) ∧ t.number = some (.float x) := by
  obtain ⟨t, ht, hchars, hfloat⟩ := isFloat_layout x
  have hfin : x.isFinite = true := by
    cases hfin : x.isFinite with
    | true => rfl
    | false =>
      rw [Rereads, ofScalar, if_neg (by simp [hfin]), read_null] at h
      cases h
  rw [Rereads, ofScalar, if_pos hfin, compact, compactChars, numberChars, if_pos hfin, ← hchars,
    read_numberText ht] at h
  refine ⟨t, ht, by rw [hchars, numberChars, if_pos hfin], ?_⟩
  have hnumber : t.number = t.magnitude.map fun y => Number.float (NumberText.signed t.negative y) := by
    rw [NumberText.number, if_neg (by simp [hfloat])]
  rw [hnumber] at h ⊢
  cases hm : t.magnitude with
  | none => rw [hm] at h; cases h
  | some y =>
    rw [hm] at h
    exact congrArg (some ∘ Number.float) (Option.some.inj h)

/-- Values that denote something throughout: their numbers read back, and no string is broken. -/
inductive Legible : Json → Prop
  | null : Legible null
  | bool (b : Bool) : Legible (bool b)
  | int {z : Int} (h : isReadable z = true) : Legible (ofInt z)
  | float {x : Scalar} (h : Rereads x) : Legible (num (some (.float x)))
  | str (s : String) : Legible (ofString s)
  | arr {xs : List Json} (h : ∀ x ∈ xs, Legible x) : Legible (arr xs)
  | obj {fs : List (Option String × Json)} (hkeys : ∀ f ∈ fs, f.1.isSome = true)
    (h : ∀ f ∈ fs, Legible f.2) :
    Legible (obj fs)

theorem Legible.exists_numberText {n : Option Number} (h : Legible (num n)) :
    ∃ t : NumberText, t.Proper ∧ t.chars = numberChars n ∧ t.number = n := by
  cases h with
  | int h =>
    exact ⟨.ofInt _, NumberText.proper_ofInt _, NumberText.chars_ofInt _, NumberText.number_ofInt h⟩
  | float h => exact h.exists_numberText

theorem Legible.exists_head {j : Json} (h : Legible j) (indent : Nat) :
    ∃ c cs, j.prettyChars indent = c :: cs ∧ isBlank c = false ∧ c ≠ ']' := by
  cases j with
  | null => exact ⟨_, _, rfl, rfl, by decide⟩
  | bool b => cases b <;> exact ⟨_, _, rfl, rfl, by decide⟩
  | num n =>
    obtain ⟨t, ht, hchars, _⟩ := h.exists_numberText
    obtain ⟨c, cs, hcs, hc⟩ := ht.exists_start
    refine ⟨c, cs, by rw [prettyChars, ← hchars, hcs], NumberText.not_blank_of_isStart hc, ?_⟩
    rintro rfl
    cases hc
  | str s =>
    cases h
    exact ⟨_, _, rfl, rfl, by decide⟩
  | arr xs => cases xs <;> exact ⟨_, _, rfl, rfl, by decide⟩
  | obj fs => cases fs <;> exact ⟨_, _, rfl, rfl, by decide⟩

/-- The text of the value, with anything behind it that cannot continue a number, is read as the
value. -/
def ReadsBack (j : Json) : Prop := ∀ (indent fuel : Nat) (rest : List Char), endsNumber rest = true →
  2 * (j.prettyChars indent).length ≤ fuel →
    readValue fuel (j.prettyChars indent ++ rest) = some (j, rest)

theorem readValue_newLine (fuel indent : Nat) (cs : List Char) :
    readValue fuel (newLine indent ++ cs) = readValue fuel cs := by
  rw [← readValue_skipBlank, skipBlank_newLine, readValue_skipBlank]

theorem length_newLine (indent : Nat) : (newLine indent).length = indent + 1 := by simp [newLine]

section Nested

variable (inner indent : Nat) (rest : List Char)

theorem readItems_pretty {xs : List Json} (hne : xs ≠ []) (hxs : ∀ x ∈ xs, ReadsBack x) {fuel : Nat}
    (hfuel : 2 * (prettyItems inner xs).length ≤ fuel) :
    readItems fuel (prettyItems inner xs ++ (newLine indent ++ ']' :: rest)) = some (xs, rest) := by
  induction xs generalizing fuel with
  | nil => exact absurd rfl hne
  | cons x xs ih =>
    cases xs with
    | nil =>
      simp only [prettyItems, List.length_append, length_newLine] at hfuel
      obtain ⟨fuel, rfl⟩ : ∃ n, fuel = n + 1 := ⟨fuel - 1, by omega⟩
      have hx := hxs x (by simp) inner fuel (newLine indent ++ ']' :: rest) rfl (by omega)
      rw [readItems, prettyItems, List.append_assoc, readValue_newLine, hx]
      simp only [Option.bind_eq_bind, Option.bind_some, skipBlank_newLine]
      rfl
    | cons y ys =>
      simp only [prettyItems, List.length_append, List.length_cons, length_newLine] at hfuel
      obtain ⟨fuel, rfl⟩ : ∃ n, fuel = n + 1 := ⟨fuel - 1, by omega⟩
      have hx := hxs x (by simp) inner fuel
        (',' :: (prettyItems inner (y :: ys) ++ (newLine indent ++ ']' :: rest)))
        rfl (by omega)
      have hys : readItems fuel (prettyItems inner (y :: ys) ++ (newLine indent ++ ']' :: rest)) =
          some (y :: ys, rest) :=
        ih (List.cons_ne_nil y ys) (fun z hz => hxs z (List.mem_cons_of_mem x hz)) (by omega)
      rw [readItems, prettyItems, List.append_assoc, List.append_assoc, readValue_newLine,
        List.cons_append, hx]
      simp only [Option.bind_eq_bind, Option.bind_some]
      rw [skipBlank_cons rfl]
      simp only [hys, Option.bind_some]

theorem readFields_key (k : String) {x : Json} {fuel : Nat} {cs behind : List Char}
    (hx : readValue fuel cs = some (x, behind)) :
    (∀ rest, skipBlank behind = '}' :: rest →
      readFields (fuel + 1) (newLine inner ++ stringChars (some k) ++ ':' :: ' ' :: cs) =
        some ([(some k, x)], rest)) ∧
    ∀ more fs rest, skipBlank behind = ',' :: more → readFields fuel more = some (fs, rest) →
      readFields (fuel + 1) (newLine inner ++ stringChars (some k) ++ ':' :: ' ' :: cs) =
        some ((some k, x) :: fs, rest) := by
  have htext : skipBlank (newLine inner ++ stringChars (some k) ++ ':' :: ' ' :: cs) =
      '"' :: (k.toList.flatMap escapeChar ++ '"' :: ':' :: ' ' :: cs) := by
    rw [List.append_assoc, skipBlank_newLine, stringChars, quoteChars]
    simp only [List.cons_append, List.append_assoc, List.nil_append]
    exact skipBlank_cons rfl _
  have hvalue : readValue fuel (' ' :: cs) = some (x, behind) := by
    rw [← readValue_skipBlank, ← hx, ← readValue_skipBlank fuel cs]
    rfl
  constructor
  · intro rest hend
    rw [readFields, htext]
    simp only [stringText_escape, Option.bind_eq_bind, Option.bind_some]
    rw [skipBlank_cons rfl]
    simp only [hvalue, Option.bind_some, hend]
  · intro more fs rest hcomma hmore
    rw [readFields, htext]
    simp only [stringText_escape, Option.bind_eq_bind, Option.bind_some]
    rw [skipBlank_cons rfl]
    simp only [hvalue, Option.bind_some, hcomma, hmore]

theorem readFields_pretty {fs : List (Option String × Json)} (hne : fs ≠ [])
    (hkeys : ∀ f ∈ fs, f.1.isSome = true)
    (hfs : ∀ f ∈ fs, ReadsBack f.2) {fuel : Nat} (hfuel : 2 * (prettyFields inner fs).length ≤ fuel) :
    readFields fuel (prettyFields inner fs ++ (newLine indent ++ '}' :: rest)) = some (fs, rest) := by
  induction fs generalizing fuel with
  | nil => exact absurd rfl hne
  | cons f fs ih =>
    obtain ⟨k, x⟩ := f
    obtain ⟨k, rfl⟩ := Option.isSome_iff_exists.mp (hkeys (k, x) (by simp))
    have hback : ReadsBack x := hfs (some k, x) (by simp)
    cases fs with
    | nil =>
      simp only [prettyFields, List.length_append, List.length_cons, length_newLine] at hfuel
      obtain ⟨fuel, rfl⟩ : ∃ n, fuel = n + 1 := ⟨fuel - 1, by omega⟩
      have hx := hback inner fuel (newLine indent ++ '}' :: rest) rfl (by omega)
      have hfield := (readFields_key inner k hx).1 rest (skipBlank_newLine indent _)
      simpa only [prettyFields, List.append_assoc, List.cons_append] using hfield
    | cons g gs =>
      simp only [prettyFields, List.length_append, List.length_cons, length_newLine] at hfuel
      obtain ⟨fuel, rfl⟩ : ∃ n, fuel = n + 1 := ⟨fuel - 1, by omega⟩
      have hx := hback inner fuel
        (',' :: (prettyFields inner (g :: gs) ++ (newLine indent ++ '}' :: rest))) rfl (by omega)
      have hgs : readFields fuel (prettyFields inner (g :: gs) ++ (newLine indent ++ '}' :: rest)) =
          some (g :: gs, rest) :=
        ih (List.cons_ne_nil g gs) (fun h hh => hkeys h (List.mem_cons_of_mem _ hh))
          (fun h hh => hfs h (List.mem_cons_of_mem _ hh)) (by omega)
      have hfield := (readFields_key inner k hx).2 _ _ _ (skipBlank_cons rfl _) hgs
      simpa only [prettyFields, List.append_assoc, List.cons_append] using hfield

end Nested

theorem readsBack_num {n : Option Number} (h : Legible (num n)) : ReadsBack (num n) := by
  intro indent fuel rest hrest hfuel
  obtain ⟨t, ht, hchars, hnumber⟩ := h.exists_numberText
  obtain ⟨c, cs, hcs, hc⟩ := ht.exists_start
  have hread := ht.numberText_append rest hrest
  rw [prettyChars, ← hchars, hcs] at hfuel ⊢
  rw [hcs, List.cons_append] at hread
  obtain ⟨fuel, rfl⟩ : ∃ n, fuel = n + 1 := ⟨fuel - 1, by rw [List.length_cons] at hfuel; omega⟩
  rw [List.cons_append, readValue_number hc hread, hnumber]

theorem exists_head_prettyItems {x : Json} {xs : List Json} (h : Legible x) (inner : Nat)
    (behind : List Char) :
    ∃ c cs, skipBlank (prettyItems inner (x :: xs) ++ behind) = c :: cs ∧ c ≠ ']' := by
  obtain ⟨c, cs, hcs, hblank, hc⟩ := h.exists_head inner
  cases xs with
  | nil =>
    refine ⟨c, cs ++ behind, ?_, hc⟩
    rw [prettyItems, List.append_assoc, skipBlank_newLine, hcs]
    exact skipBlank_cons hblank _
  | cons y ys =>
    refine ⟨c, cs ++ ',' :: (prettyItems inner (y :: ys) ++ behind), ?_, hc⟩
    rw [prettyItems, List.append_assoc, List.append_assoc, skipBlank_newLine, hcs]
    exact skipBlank_cons hblank _

theorem readsBack_arr {xs : List Json} (h : ∀ x ∈ xs, Legible x) (hxs : ∀ x ∈ xs, ReadsBack x) :
    ReadsBack (arr xs) := by
  intro indent fuel rest _ hfuel
  obtain ⟨fuel, rfl⟩ : ∃ n, fuel = n + 1 :=
    ⟨fuel - 1, by cases xs <;> simp [prettyChars] at hfuel <;> omega⟩
  cases xs with
  | nil => rfl
  | cons x xs =>
    simp only [prettyChars, List.length_append, List.length_cons, length_newLine] at hfuel
    have hitems : readItems fuel (prettyItems (indent + 2) (x :: xs) ++ (newLine indent ++ ']' :: rest)) =
        some (x :: xs, rest) := readItems_pretty _ _ _ (List.cons_ne_nil x xs) hxs (by omega)
    obtain ⟨c, cs, hskip, hc⟩ := exists_head_prettyItems (h x List.mem_cons_self) (indent + 2)
      (newLine indent ++ ']' :: rest)
    rw [← readItems_skipBlank, hskip] at hitems
    rw [prettyChars, List.append_assoc, List.append_assoc, List.cons_append, List.singleton_append,
      readValue, skipBlank_cons rfl]
    simp only [hskip]
    split
    · rename_i heq
      cases heq
      exact absurd rfl hc
    · rw [hitems]
      rfl

theorem exists_head_prettyFields {f : Option String × Json} {fs : List (Option String × Json)}
    (h : f.1.isSome = true) (inner : Nat) (behind : List Char) :
    ∃ cs, skipBlank (prettyFields inner (f :: fs) ++ behind) = '"' :: cs := by
  obtain ⟨k, x⟩ := f
  obtain ⟨k, rfl⟩ := Option.isSome_iff_exists.mp h
  cases fs with
  | nil =>
    rw [prettyFields, List.append_assoc, List.append_assoc, skipBlank_newLine]
    exact ⟨_, skipBlank_cons rfl _⟩
  | cons g gs =>
    rw [prettyFields, List.append_assoc, List.append_assoc, List.append_assoc, skipBlank_newLine]
    exact ⟨_, skipBlank_cons rfl _⟩

theorem readsBack_obj {fs : List (Option String × Json)} (hkeys : ∀ f ∈ fs, f.1.isSome = true)
    (hfs : ∀ f ∈ fs, ReadsBack f.2) : ReadsBack (obj fs) := by
  intro indent fuel rest _ hfuel
  obtain ⟨fuel, rfl⟩ : ∃ n, fuel = n + 1 :=
    ⟨fuel - 1, by cases fs <;> simp [prettyChars] at hfuel <;> omega⟩
  cases fs with
  | nil => rfl
  | cons f fs =>
    simp only [prettyChars, List.length_append, List.length_cons, length_newLine] at hfuel
    have hfields :
        readFields fuel (prettyFields (indent + 2) (f :: fs) ++ (newLine indent ++ '}' :: rest)) =
        some (f :: fs, rest) := readFields_pretty _ _ _ (List.cons_ne_nil f fs) hkeys hfs (by omega)
    obtain ⟨cs, hskip⟩ := exists_head_prettyFields (hkeys f List.mem_cons_self) (indent + 2)
      (newLine indent ++ '}' :: rest)
    rw [← readFields_skipBlank, hskip] at hfields
    rw [prettyChars, List.append_assoc, List.append_assoc, List.cons_append, List.singleton_append,
      readValue, skipBlank_cons rfl]
    simp only [hskip]
    exact congrArg (Option.map fun r => (obj r.1, r.2)) hfields

theorem Legible.readsBack {j : Json} (h : Legible j) : ReadsBack j := by
  induction h with
  | null =>
    intro indent fuel rest _ hfuel
    obtain ⟨fuel, rfl⟩ : ∃ n, fuel = n + 1 := ⟨fuel - 1, by simp [prettyChars] at hfuel; omega⟩
    rfl
  | bool b =>
    intro indent fuel rest _ hfuel
    obtain ⟨fuel, rfl⟩ : ∃ n, fuel = n + 1 :=
      ⟨fuel - 1, by cases b <;> simp [prettyChars, boolChars] at hfuel <;> omega⟩
    cases b <;> rfl
  | int h => exact readsBack_num (.int h)
  | float h => exact readsBack_num (.float h)
  | str s =>
    intro indent fuel rest _ hfuel
    obtain ⟨fuel, rfl⟩ : ∃ n, fuel = n + 1 :=
      ⟨fuel - 1, by simp [ofString, prettyChars, stringChars, quoteChars] at hfuel; omega⟩
    rw [ofString, prettyChars, stringChars, quoteChars, List.append_assoc, List.cons_append, readValue,
      skipBlank_cons rfl]
    simp only [List.singleton_append, stringText_escape]
    rfl
  | arr h ih => exact readsBack_arr h ih
  | obj hkeys h ih => exact readsBack_obj hkeys ih

theorem Legible.read_pretty {j : Json} (h : Legible j) : read j.pretty = some j := by
  have hread := h.readsBack 0 (2 * (j.prettyChars 0).length + 2) [] rfl (by omega)
  rw [List.append_nil] at hread
  rw [read, pretty]
  simp only [String.toList_ofList, hread]
  rfl

end Json

end Stencil
