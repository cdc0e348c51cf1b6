import Mathlib.Computability.Language
import Stencil.Proofs.Lexing

/-! The patterns of tokens as languages. What the lexer cuts off the front of a text is the longest
text there that matches a pattern; where it refuses a character, nothing matches. -/

set_option autoImplicit false

open Computability

namespace Stencil

namespace Lexer

def one (p : Char → Bool) : Language Char := {w | ∃ c, p c = true ∧ w = [c]}

def run (p : Char → Bool) : Language Char := one p * (one p)∗

def perhaps (L : Language Char) : Language Char := 1 + L

def minus : Language Char := one (· = '-')

def fraction : Language Char := one (· = '.') * run isDigit

def exponent : Language Char :=
  one (fun c => c = 'e' || c = 'E') * perhaps (one fun c => c = '+' || c = '-') * run isDigit

inductive Pattern where
  | keyword (k : Keyword)
  | symbol (s : Symbol)
  | pointFloat
  | exponentFloat
  | int
  | localName
  | globalName
  | ident
  deriving DecidableEq, Repr

namespace Pattern

def language : Pattern → Language Char
  | keyword k => {k.text.toList}
  | symbol s => {s.text.toList}
  | pointFloat => perhaps minus * run isDigit * (fraction * perhaps exponent)
  | exponentFloat => perhaps minus * run isDigit * exponent
  | int => perhaps minus * run isDigit
  | localName => one (· = '%') * run isNameChar
  | globalName => one (· = '@') * (one isLetter * (one isNameChar)∗)
  | ident => one isLetter * (one isNameChar)∗

def integer : List Char → Int
  | '-' :: ds => -(Numeral.value ds)
  | ds => Numeral.value ds

def isExponentMark (c : Char) : Bool := c = 'e' || c = 'E'

/-- The nearest scalar to the number that the text of a float denotes. -/
def decimal (w : List Char) : Scalar :=
  let mantissa := w.takeWhile fun c => !isExponentMark c
  let places := (mantissa.dropWhile (· ≠ '.')).drop 1
  Scalar.ofDecimal (w.head? = some '-') (Numeral.value (mantissa.filter isDigit))
    (exponentValue (w.dropWhile fun c => !isExponentMark c) - places.length)

/-- What a text that matches stands for. Only an integer can be out of range. -/
def token? : Pattern → List Char → Option Token
  | keyword k, _ => some (.keyword k)
  | symbol s, _ => some (.symbol s)
  | pointFloat, w | exponentFloat, w => some (.float (decimal w))
  | int, w => if intInRange (integer w) then some (.int (integer w)) else none
  | localName, w => some (.localName (String.ofList (w.drop 1)))
  | globalName, w => some (.globalName (String.ofList (w.drop 1)))
  | ident, w => some (.ident (String.ofList w))

end Pattern

def Pattern.piece (q : Pattern) (w : List Char) : Piece :=
  match q.token? w with
  | some t => .token w t
  | none => .refused w

/-- A text at the front of `cs` is what the pattern makes of it: no pattern matches a longer one, and
an identifier is no keyword. -/
structure Munches (q : Pattern) (w cs : List Char) : Prop where
  fits : w ∈ q.language
  front : w <+: cs
  longest : ∀ q' v, v ∈ Pattern.language q' → v <+: cs → v.length ≤ w.length
  keyword : q = .ident → ∀ k, w ∉ (Pattern.keyword k).language

def Unmatched (cs : List Char) : Prop := ∀ q v, v ∈ Pattern.language q → ¬ v <+: cs

theorem mem_star {p : Char → Bool} {w : List Char} : w ∈ (one p)∗ ↔ w.all p = true := by
  rw [Language.mem_kstar]
  constructor
  · rintro ⟨ws, rfl, hws⟩
    rw [List.all_eq_true]
    intro c hc
    obtain ⟨v, hv, hcv⟩ := List.mem_flatten.mp hc
    obtain ⟨d, hd, rfl⟩ := hws v hv
    cases List.mem_singleton.mp hcv
    exact hd
  · intro hw
    refine ⟨w.map ([·]), ?_, ?_⟩
    · rw [← List.flatMap_def, List.flatMap_singleton']
    · intro v hv
      obtain ⟨c, hc, rfl⟩ := List.mem_map.mp hv
      exact ⟨c, List.all_eq_true.mp hw c hc, rfl⟩

theorem mem_run {p : Char → Bool} {w : List Char} : w ∈ run p ↔ w ≠ [] ∧ w.all p = true := by
  simp only [run, Language.mem_mul, mem_star]
  constructor
  · rintro ⟨_, ⟨c, hc, rfl⟩, v, hv, rfl⟩
    exact ⟨List.cons_ne_nil _ _, by simp [hc, hv]⟩
  · rintro ⟨hne, hall⟩
    obtain ⟨c, v, rfl⟩ := List.exists_cons_of_ne_nil hne
    rw [List.all_cons, Bool.and_eq_true] at hall
    exact ⟨[c], ⟨c, hall.1, rfl⟩, v, hall.2, rfl⟩

theorem mem_perhaps {L : Language Char} {w : List Char} : w ∈ perhaps L ↔ w = [] ∨ w ∈ L := by
  rw [perhaps, Language.mem_add, Language.mem_one]

theorem mem_minus {w : List Char} : w ∈ minus ↔ w = ['-'] := by
  constructor
  · rintro ⟨c, hc, rfl⟩
    rw [of_decide_eq_true hc]
  · rintro rfl
    exact ⟨'-', rfl, rfl⟩

theorem mem_one_mul {p : Char → Bool} {L : Language Char} {w : List Char} :
    w ∈ one p * L ↔ ∃ c v, p c = true ∧ v ∈ L ∧ w = c :: v := by
  rw [Language.mem_mul]
  constructor
  · rintro ⟨_, ⟨c, hc, rfl⟩, v, hv, rfl⟩
    exact ⟨c, v, hc, hv, rfl⟩
  · rintro ⟨c, v, hc, hv, rfl⟩
    exact ⟨[c], ⟨c, hc, rfl⟩, v, hv, rfl⟩

theorem mem_fraction {w : List Char} : w ∈ fraction ↔ ∃ ds, ds ∈ run isDigit ∧ w = '.' :: ds := by
  rw [fraction, mem_one_mul]
  constructor
  · rintro ⟨c, ds, hc, hds, rfl⟩
    rw [of_decide_eq_true hc]
    exact ⟨ds, hds, rfl⟩
  · rintro ⟨ds, hds, rfl⟩
    exact ⟨'.', ds, rfl, hds, rfl⟩

def isExponentSign (s : List Char) : Prop := s = [] ∨ s = ['+'] ∨ s = ['-']

theorem mem_exponent {w : List Char} : w ∈ exponent ↔
    ∃ e s ds, Pattern.isExponentMark e = true ∧ isExponentSign s ∧ ds ∈ run isDigit ∧
      w = e :: (s ++ ds) := by
  rw [exponent, mul_assoc, mem_one_mul]
  have hsign : ∀ s, s ∈ perhaps (one fun c => c = '+' || c = '-') ↔ isExponentSign s := by
    intro s
    rw [mem_perhaps]
    constructor
    · rintro (rfl | ⟨c, hc, rfl⟩)
      · exact .inl rfl
      · rcases (by simpa using hc : c = '+' ∨ c = '-') with rfl | rfl
        · exact .inr (.inl rfl)
        · exact .inr (.inr rfl)
    · rintro (rfl | rfl | rfl)
      · exact .inl rfl
      · exact .inr ⟨'+', rfl, rfl⟩
      · exact .inr ⟨'-', rfl, rfl⟩
  constructor
  · rintro ⟨e, v, he, hv, rfl⟩
    obtain ⟨s, hs, ds, hds, rfl⟩ := Language.mem_mul.mp hv
    exact ⟨e, s, ds, he, (hsign s).mp hs, hds, rfl⟩
  · rintro ⟨e, s, ds, he, hs, hds, rfl⟩
    exact ⟨e, s ++ ds, he, Language.mem_mul.mpr ⟨s, (hsign s).mpr hs, ds, hds, rfl⟩, rfl⟩

theorem length_le_takeWhile {p : Char → Bool} {v cs : List Char} (hv : v.all p = true) (h : v <+: cs) :
    v.length ≤ (cs.takeWhile p).length := by
  obtain ⟨r, rfl⟩ := h
  rw [List.takeWhile_append_of_pos (List.all_eq_true.mp hv), List.length_append]
  exact Nat.le_add_right _ _

theorem takeWhile_mem_run {p : Char → Bool} {cs : List Char} (h : (cs.takeWhile p).isEmpty = false) :
    cs.takeWhile p ∈ run p := by
  refine mem_run.mpr ⟨?_, List.all_takeWhile⟩
  rintro hnil
  rw [hnil] at h
  cases h

theorem cons_takeWhile_front (p : Char → Bool) (c : Char) (cs : List Char) :
    c :: cs.takeWhile p <+: c :: cs := by
  rw [List.prefix_cons_inj]
  exact List.takeWhile_prefix p

theorem isDigit_eq_false_of_mark {e : Char} (h : Pattern.isExponentMark e = true) :
    isDigit e = false ∧ e ≠ '.' := by
  rcases (by simpa [Pattern.isExponentMark] using h : e = 'e' ∨
    e = 'E') with rfl | rfl <;> exact ⟨rfl, by decide⟩

theorem fractionPart_front (cs : List Char) :
    fractionPart cs ∈ perhaps fraction ∧ fractionPart cs <+: cs := by
  rw [mem_perhaps]
  cases cs with
  | nil => exact ⟨.inl rfl, List.prefix_rfl⟩
  | cons c cs =>
    by_cases hc : c = '.'
    · subst hc
      rw [fractionPart]
      split
      · exact ⟨.inl rfl, List.nil_prefix⟩
      · next hne =>
        have hrun := takeWhile_mem_run (Bool.eq_false_iff.mpr hne)
        exact ⟨.inr (mem_fraction.mpr ⟨_, hrun, rfl⟩), cons_takeWhile_front _ _ _⟩
    · have hnil : fractionPart (c :: cs) = [] := by
        unfold fractionPart
        split
        · next heq =>
          cases heq
          exact absurd rfl hc
        · rfl
      rw [hnil]
      exact ⟨.inl rfl, List.nil_prefix⟩

theorem fractionPart_longest {v : List Char} (hv : v ∈ fraction) (r : List Char) :
    v.length ≤ (fractionPart (v ++ r)).length := by
  obtain ⟨ds, hds, rfl⟩ := mem_fraction.mp hv
  obtain ⟨hne, hall⟩ := mem_run.mp hds
  rw [List.cons_append, fractionPart, List.takeWhile_append_of_pos (List.all_eq_true.mp hall)]
  simp [hne]

theorem exponentDigits_front (mark cs : List Char) :
    exponentDigits mark cs = [] ∨
      ∃ ds, ds ∈ run isDigit ∧ exponentDigits mark cs = mark ++ ds ∧ ds <+: cs := by
  unfold exponentDigits
  simp only
  split
  · exact .inl rfl
  · next hne =>
    exact .inr ⟨_, takeWhile_mem_run (Bool.eq_false_iff.mpr hne), rfl, List.takeWhile_prefix _⟩

theorem exponentPart_cons {e : Char} (he : Pattern.isExponentMark e = true) {s : List Char}
    (hs : isExponentSign s) {cs : List Char} (hcs : s = [] → cs.head? ≠ some '+' ∧ cs.head? ≠ some '-') :
    exponentPart (e :: (s ++ cs)) = exponentDigits (e :: s) cs := by
  unfold exponentPart
  simp only [if_pos (show (e = 'e' || e = 'E') = true from he)]
  rcases hs with rfl | rfl | rfl
  · obtain ⟨hplus, hminus⟩ := hcs rfl
    rw [List.nil_append]
    split
    · exact absurd rfl hplus
    · exact absurd rfl hminus
    · rfl
  · rfl
  · rfl

theorem exists_exponentSign (cs : List Char) : ∃ s rest, isExponentSign s ∧ cs = s ++ rest ∧
    (s = [] → rest.head? ≠ some '+' ∧ rest.head? ≠ some '-') := by
  cases cs with
  | nil => exact ⟨[], [], .inl rfl, rfl, fun _ => ⟨nofun, nofun⟩⟩
  | cons c cs =>
    by_cases hplus : c = '+'
    · exact ⟨['+'], cs, .inr (.inl rfl), by rw [hplus]; rfl, nofun⟩
    · by_cases hminus : c = '-'
      · exact ⟨['-'], cs, .inr (.inr rfl), by rw [hminus]; rfl, nofun⟩
      · exact ⟨[], c :: cs, .inl rfl, rfl, fun _ => ⟨by simpa using hplus, by simpa using hminus⟩⟩

theorem exponentPart_front (cs : List Char) :
    exponentPart cs ∈ perhaps exponent ∧ exponentPart cs <+: cs := by
  rw [mem_perhaps]
  cases cs with
  | nil => exact ⟨.inl rfl, List.prefix_rfl⟩
  | cons e cs =>
    by_cases he : Pattern.isExponentMark e = true
    · obtain ⟨s, rest, hs, rfl, hrest⟩ := exists_exponentSign cs
      rw [exponentPart_cons he hs hrest]
      rcases exponentDigits_front (e :: s) rest with hnil | ⟨ds, hds, heq, hfront⟩
      · rw [hnil]
        exact ⟨.inl rfl, List.nil_prefix⟩
      · rw [heq]
        refine ⟨.inr (mem_exponent.mpr ⟨e, s, ds, he, hs, hds, rfl⟩), ?_⟩
        exact (List.prefix_append_right_inj (e :: s)).mpr hfront
    · have hnil : exponentPart (e :: cs) = [] := if_neg he
      rw [hnil]
      exact ⟨.inl rfl, List.nil_prefix⟩

theorem exponentPart_longest {v : List Char} (hv : v ∈ exponent) (r : List Char) :
    v.length ≤ (exponentPart (v ++ r)).length := by
  obtain ⟨e, s, ds, he, hs, hds, rfl⟩ := mem_exponent.mp hv
  obtain ⟨hne, hall⟩ := mem_run.mp hds
  obtain ⟨d, ds, rfl⟩ := List.exists_cons_of_ne_nil hne
  have hd : isDigit d = true := (Bool.and_eq_true_iff.mp hall).1
  have hsign : d ≠ '+' ∧ d ≠ '-' := by
    constructor
    · rintro rfl
      cases hd
    · rintro rfl
      cases hd
  rw [List.cons_append, List.append_assoc, exponentPart_cons he hs fun _ => by simpa using hsign]
  unfold exponentDigits
  simp only [List.takeWhile_append_of_pos (List.all_eq_true.mp hall)]
  simp

/-- The text of a number behind its sign: digits, and perhaps a fraction and an exponent. -/
def numberEnd (cs : List Char) : List Char :=
  let rest := cs.dropWhile isDigit
  fractionPart rest ++ exponentPart (rest.drop (fractionPart rest).length)

theorem number_text (sign cs : List Char) :
    (number sign cs).text = sign ++ (cs.takeWhile isDigit ++ numberEnd cs) := by
  have hassoc :
      ∀ {w : List Char}, w = sign ++ cs.takeWhile isDigit ++ fractionPart (cs.dropWhile isDigit) ++
      exponentPart ((cs.dropWhile isDigit).drop (fractionPart (cs.dropWhile isDigit)).length) →
      w = sign ++ (cs.takeWhile isDigit ++ numberEnd cs) := by
    rintro w rfl
    simp only [numberEnd, List.append_assoc]
  unfold number
  simp only
  generalize (if (!sign.isEmpty) = true then -(Numeral.value (cs.takeWhile isDigit) : Int)
    else (Numeral.value (cs.takeWhile isDigit) : Int)) = z
  split
  · split <;> exact hassoc rfl
  · exact hassoc rfl

theorem drop_of_front {v cs : List Char} (h : v <+: cs) : cs = v ++ cs.drop v.length := by
  obtain ⟨r, rfl⟩ := h
  rw [List.drop_left]

theorem number_front (cs : List Char) : cs.takeWhile isDigit ++ numberEnd cs <+: cs := by
  have hfraction := (fractionPart_front (cs.dropWhile isDigit)).2
  have hexponent := (exponentPart_front ((cs.dropWhile isDigit).drop
    (fractionPart (cs.dropWhile isDigit)).length)).2
  conv_rhs => rw [← List.takeWhile_append_dropWhile (p := isDigit) (l := cs)]
  rw [List.prefix_append_right_inj, numberEnd]
  conv_rhs => rw [drop_of_front hfraction]
  exact (List.prefix_append_right_inj _).mpr hexponent

theorem exponent_stops {e : List Char} (he : e ∈ exponent) (r : List Char) :
    (e ++ r).head?.all (fun c => !isDigit c) = true ∧ fractionPart (e ++ r) = [] := by
  obtain ⟨c, s, es, hc, _, _, rfl⟩ := mem_exponent.mp he
  obtain ⟨hdigit, hpoint⟩ := isDigit_eq_false_of_mark hc
  refine ⟨by simp [hdigit], ?_⟩
  unfold fractionPart
  split
  · next heq =>
    cases heq
    exact absurd rfl hpoint
  · rfl

theorem takeWhile_digit_of_end {ds f e r : List Char} (hall : ds.all isDigit = true)
    (hf : f ∈ perhaps fraction)
    (he : e ∈ perhaps exponent) :
    f ++ e = [] ∨ (ds ++ (f ++ e ++ r)).takeWhile isDigit = ds ∧
      (ds ++ (f ++ e ++ r)).dropWhile isDigit = f ++ e ++ r := by
  rcases mem_perhaps.mp hf with rfl | hf
  · rcases mem_perhaps.mp he with rfl | he
    · exact .inl rfl
    · exact .inr (takeWhile_append_eq hall (exponent_stops he r).1)
  · obtain ⟨fs, _, rfl⟩ := mem_fraction.mp hf
    exact .inr (takeWhile_append_eq hall rfl)

theorem length_le_end {f e : List Char} (hf : f ∈ perhaps fraction) (he : e ∈ perhaps exponent)
    (r : List Char) :
    f.length + e.length ≤ (fractionPart (f ++ e ++ r)).length +
      (exponentPart ((f ++ e ++ r).drop (fractionPart (f ++ e ++ r)).length)).length := by
  rcases mem_perhaps.mp hf with rfl | hf
  · rcases mem_perhaps.mp he with rfl | he
    · exact Nat.zero_le _
    · simpa [(exponent_stops he r).2] using exponentPart_longest he r
  · rcases mem_perhaps.mp he with rfl | he
    · have hlen := fractionPart_longest hf r
      simp only [List.append_nil, List.length_nil, Nat.add_zero]
      omega
    · obtain ⟨fs, hfs, rfl⟩ := mem_fraction.mp hf
      obtain ⟨hfne, hfall⟩ := mem_run.mp hfs
      have hpart : fractionPart ('.' :: fs ++ e ++ r) = '.' :: fs := by
        rw [List.append_assoc]
        exact fractionPart_append hfne hfall (exponent_stops he r).1
      rw [hpart, List.append_assoc, List.drop_left]
      exact Nat.add_le_add_left (exponentPart_longest he r) _

/-- No text that looks like a number, with or without its sign, is longer than the one that is cut off. -/
theorem number_longest {ds v : List Char} (hds : ds ∈ run isDigit)
    (hv : v ∈ perhaps fraction * perhaps exponent) {cs : List Char} (h : ds ++ v <+: cs) :
    (ds ++ v).length ≤ (cs.takeWhile isDigit ++ numberEnd cs).length := by
  obtain ⟨f, hf, e, he, rfl⟩ := Language.mem_mul.mp hv
  obtain ⟨_, hall⟩ := mem_run.mp hds
  obtain ⟨r, rfl⟩ := h
  rw [List.append_assoc]
  rcases takeWhile_digit_of_end (r := r) hall hf he with hnil | ⟨htake, hdrop⟩
  · rw [hnil, List.append_nil, List.nil_append, List.takeWhile_append_of_pos (List.all_eq_true.mp hall)]
    simp only [List.length_append]
    omega
  · rw [htake, numberEnd, hdrop]
    simp only [List.length_append, Nat.add_le_add_iff_left]
    exact length_le_end hf he r

theorem head?_takeWhile_digit {cs : List Char} (hd : cs.head?.any isDigit = true) :
    (cs.takeWhile isDigit).head?.any isDigit = true := by
  cases cs with
  | nil => cases hd
  | cons c cs =>
    have hc : isDigit c = true := hd
    simp [hc]

theorem integer_eq {sign whole : List Char} (hsign : sign = [] ∨ sign = ['-'])
    (hw : whole.head?.any isDigit = true) :
    Pattern.integer (sign ++ whole) =
      if (!sign.isEmpty) = true then -(Numeral.value whole : Int) else (Numeral.value whole : Int) := by
  rcases hsign with rfl | rfl
  · rw [List.nil_append]
    unfold Pattern.integer
    split
    · cases hw
    · rfl
  · rfl

theorem other_of_isDigit {c : Char} (h : isDigit c = true) :
    Pattern.isExponentMark c = false ∧ c ≠ '.' ∧ c ≠ '-' := by
  refine ⟨?_, ?_, ?_⟩
  · cases hm : Pattern.isExponentMark c with
    | false => rfl
    | true => rw [(isDigit_eq_false_of_mark hm).1] at h; cases h
  · rintro rfl
    cases h
  · rintro rfl
    cases h

theorem exists_places {fractional : List Char} (hf : fractional ∈ perhaps fraction) :
    fractional = [] ∨ ∃ places, fractional = '.' :: places ∧ places.all isDigit = true := by
  refine (mem_perhaps.mp hf).imp_right fun hf => ?_
  obtain ⟨ds, hds, rfl⟩ := mem_fraction.mp hf
  exact ⟨ds, rfl, (mem_run.mp hds).2⟩

section Parts

variable {sign whole fractional : List Char} (hsign : sign = [] ∨ sign = ['-'])
    (hw : whole.all isDigit = true)
  (hf : fractional ∈ perhaps fraction)

include hsign hw hf

theorem filter_digits : (sign ++ whole ++ fractional).filter isDigit = whole ++ fractional.drop 1 := by
  have hself : ∀ {ds : List Char}, ds.all isDigit = true → ds.filter isDigit = ds := fun h =>
    List.filter_eq_self.mpr (List.all_eq_true.mp h)
  have hsigned : sign.filter isDigit = [] := by rcases hsign with rfl | rfl <;> rfl
  rw [List.filter_append, List.filter_append, hself hw, hsigned]
  rcases exists_places hf with rfl | ⟨places, rfl, hplaces⟩
  · rfl
  · rw [List.filter_cons_of_neg (by decide), hself hplaces]
    rfl

theorem drop_point : ((sign ++ whole ++ fractional).dropWhile (· ≠ '.')).drop 1 = fractional.drop 1 := by
  have hfront : (sign ++ whole).all (· ≠ '.') = true := by
    rw [List.all_append, Bool.and_eq_true]
    refine ⟨?_, List.all_eq_true.mpr fun c hc => ?_⟩
    · rcases hsign with rfl | rfl <;> rfl
    · exact decide_eq_true (other_of_isDigit (List.all_eq_true.mp hw c hc)).2.1
  rw [List.dropWhile_append_of_pos (List.all_eq_true.mp hfront)]
  rcases exists_places hf with rfl | ⟨places, rfl, _⟩ <;> rfl

theorem takeWhile_mark {exponential : List Char} (he : exponential ∈ perhaps exponent) :
    (sign ++ whole ++ fractional ++ exponential).takeWhile (fun c => !Pattern.isExponentMark c) =
        sign ++ whole ++ fractional ∧
      (sign ++ whole ++ fractional ++ exponential).dropWhile (fun c => !Pattern.isExponentMark c) =
        exponential := by
  have hdigits : ∀ {ds : List Char}, ds.all isDigit = true →
      ds.all (fun c => !Pattern.isExponentMark c) = true :=
    fun hds => List.all_eq_true.mpr fun c hc => by
      rw [(other_of_isDigit (List.all_eq_true.mp hds c hc)).1]
      rfl
  apply takeWhile_append_eq
  · rw [List.all_append, List.all_append, hdigits hw, Bool.and_true, Bool.and_eq_true]
    constructor
    · rcases hsign with rfl | rfl <;> rfl
    · rcases exists_places hf with rfl | ⟨places, rfl, hplaces⟩
      · rfl
      · rw [List.all_cons, hdigits hplaces]
        rfl
  · rcases mem_perhaps.mp he with rfl | he
    · rfl
    · obtain ⟨e, s, ds, hmark, _, _, rfl⟩ := mem_exponent.mp he
      simp [hmark]

end Parts

theorem head?_eq_minus_iff {sign whole rest : List Char} (hsign : sign = [] ∨ sign = ['-'])
    (hw : whole ∈ run isDigit) : (sign ++ whole ++ rest).head? = some '-' ↔ sign ≠ [] := by
  rcases hsign with rfl | rfl
  · obtain ⟨hne, hall⟩ := mem_run.mp hw
    obtain ⟨c, cs, rfl⟩ := List.exists_cons_of_ne_nil hne
    simpa using (other_of_isDigit (Bool.and_eq_true_iff.mp hall).1).2.2
  · simp

theorem decimal_eq {sign whole fractional exponential : List Char} (hsign : sign = [] ∨ sign = ['-'])
    (hw : whole ∈ run isDigit) (hf : fractional ∈ perhaps fraction)
    (he : exponential ∈ perhaps exponent) :
    Pattern.decimal (sign ++ whole ++ fractional ++ exponential) =
      Scalar.ofDecimal (!sign.isEmpty) (Numeral.value (whole ++ fractional.drop 1))
        (exponentValue exponential - (fractional.drop 1).length) := by
  have hall := (mem_run.mp hw).2
  obtain ⟨htake, hrest⟩ := takeWhile_mark hsign hall hf he
  have hnegative : ((sign ++ whole ++ fractional ++ exponential).head? = some '-') ↔ sign ≠ [] := by
    rw [List.append_assoc]
    exact head?_eq_minus_iff hsign hw
  unfold Pattern.decimal
  simp only [htake, hrest, filter_digits hsign hall hf, drop_point hsign hall hf, hnegative]
  congr 1
  cases sign <;> rfl

/-- The pattern of a number with such a fraction and exponent. -/
def numberPattern (fractional exponential : List Char) : Pattern :=
  if fractional.isEmpty then if exponential.isEmpty then .int else .exponentFloat else .pointFloat

theorem mem_numberPattern {sign whole fractional exponential : List Char}
    (hsign : sign = [] ∨ sign = ['-'])
    (hw : whole ∈ run isDigit) (hf : fractional ∈ perhaps fraction)
    (he : exponential ∈ perhaps exponent) :
    sign ++ whole ++ fractional ++ exponential ∈ (numberPattern fractional exponential).language := by
  have hfront : sign ++ whole ∈ perhaps minus * run isDigit := by
    refine Language.mem_mul.mpr ⟨sign, mem_perhaps.mpr ?_, whole, hw, rfl⟩
    rcases hsign with rfl | rfl
    · exact .inl rfl
    · exact .inr (mem_minus.mpr rfl)
  unfold numberPattern
  cases fractional with
  | nil =>
    cases exponential with
    | nil => simpa [Pattern.language] using hfront
    | cons e es =>
      have he' := (mem_perhaps.mp he).resolve_left (List.cons_ne_nil _ _)
      simpa [Pattern.language] using Language.mem_mul.mpr ⟨_, hfront, _, he', rfl⟩
  | cons c fs =>
    have hf' := (mem_perhaps.mp hf).resolve_left (List.cons_ne_nil _ _)
    have htail := Language.mem_mul.mpr ⟨_, hf', _, he, rfl⟩
    simpa [Pattern.language, List.append_assoc] using Language.mem_mul.mpr ⟨_, hfront, _, htail, rfl⟩

/-- A number is cut off with its pattern: it is a token of that pattern, or an integer out of range. -/
theorem number_cases {sign cs : List Char} (hsign : sign = [] ∨ sign = ['-'])
    (hd : cs.head?.any isDigit = true) :
    ∃ q, (number sign cs).text ∈ Pattern.language q ∧ q ≠ .ident ∧
      number sign cs = q.piece (number sign cs).text := by
  have hwhole := head?_takeWhile_digit hd
  have hrun : cs.takeWhile isDigit ∈ run isDigit := by
    refine mem_run.mpr ⟨?_, List.all_takeWhile⟩
    rintro hnil
    rw [hnil] at hwhole
    cases hwhole
  have hf := (fractionPart_front (cs.dropWhile isDigit)).1
  have he := (exponentPart_front ((cs.dropWhile isDigit).drop
    (fractionPart (cs.dropWhile isDigit)).length)).1
  have htext :
      (number sign cs).text = sign ++ cs.takeWhile isDigit ++ fractionPart (cs.dropWhile isDigit) ++
      exponentPart ((cs.dropWhile isDigit).drop (fractionPart (cs.dropWhile isDigit)).length) := by
    rw [number_text, numberEnd]
    simp only [List.append_assoc]
  have hdecimal := decimal_eq hsign hrun hf he
  refine ⟨numberPattern _ _, htext ▸ mem_numberPattern hsign hrun hf he, ?_, ?_⟩
  · unfold numberPattern
    split
    · split <;> simp
    · simp
  · rw [htext]
    clear htext
    unfold number
    simp only
    generalize fractionPart (cs.dropWhile isDigit) = fractional at *
    generalize exponentPart ((cs.dropWhile isDigit).drop fractional.length) = exponential at *
    have hfloat :=
      congrArg (fun x => Piece.token (sign ++ cs.takeWhile isDigit ++ fractional ++ exponential)
      (.float x)) hdecimal.symm
    cases fractional with
    | nil =>
      cases exponential with
      | nil =>
        have hint := integer_eq hsign hwhole
        simp only [List.append_nil, List.isEmpty_nil, Bool.and_self, if_true, numberPattern,
          Pattern.piece, Pattern.token?, hint]
        generalize (if (!sign.isEmpty) = true then -(Numeral.value (cs.takeWhile isDigit) : Int)
          else (Numeral.value (cs.takeWhile isDigit) : Int)) = z
        cases intInRange z <;> rfl
      | cons e es => exact hfloat
    | cons c fs => exact hfloat

/-- Whether a text that matches the pattern may start with the character. -/
def Pattern.starts : Pattern → Char → Bool
  | keyword _, c | ident, c => isLetter c
  | symbol s, c => s.text.toList.head? = some c
  | pointFloat, c | exponentFloat, c | int, c => c = '-' || isDigit c
  | localName, c => c = '%'
  | globalName, c => c = '@'

def Pattern.isNumeral : Pattern → Bool
  | pointFloat | exponentFloat | int => true
  | _ => false

theorem numeral_of_mem {q : Pattern} (hq : q.isNumeral = true) {v : List Char}
    (hv : v ∈ q.language) : ∃ s ds t, (s = [] ∨ s = ['-']) ∧ ds ∈ run isDigit ∧
      t ∈ perhaps fraction * perhaps exponent ∧ v = s ++ (ds ++ t) := by
  have hnone : ∀ L : Language Char, [] ∈ perhaps L := fun L => mem_perhaps.mpr (.inl rfl)
  have hsigned : ∀ {w t : List Char}, w ∈ perhaps minus * run isDigit →
    t ∈ perhaps fraction * perhaps exponent →
      ∃ s ds t', (s = [] ∨ s = ['-']) ∧ ds ∈ run isDigit ∧ t' ∈ perhaps fraction * perhaps exponent ∧
        w ++ t = s ++ (ds ++ t') := by
    intro w t hw ht
    obtain ⟨s, hs, ds, hds, rfl⟩ := Language.mem_mul.mp hw
    exact ⟨s, ds, t, (mem_perhaps.mp hs).imp id mem_minus.mp, hds, ht, List.append_assoc _ _ _⟩
  cases q with
  | pointFloat =>
    obtain ⟨w, hw, t, ht, rfl⟩ := Language.mem_mul.mp hv
    obtain ⟨f, hf, e, he, rfl⟩ := Language.mem_mul.mp ht
    exact hsigned hw (Language.mem_mul.mpr ⟨f, mem_perhaps.mpr (.inr hf), e, he, rfl⟩)
  | exponentFloat =>
    obtain ⟨w, hw, e, he, rfl⟩ := Language.mem_mul.mp hv
    exact hsigned hw (Language.mem_mul.mpr ⟨[], hnone _, e, mem_perhaps.mpr (.inr he), rfl⟩)
  | int =>
    have h := hsigned hv (Language.mem_mul.mpr ⟨[], hnone _, [], hnone _, rfl⟩)
    simpa only [List.append_nil] using h
  | _ => cases hq

theorem exists_digit_of_mem_run {ds : List Char} (h : ds ∈ run isDigit) :
    ∃ d ds', ds = d :: ds' ∧ isDigit d = true := by
  obtain ⟨hne, hall⟩ := mem_run.mp h
  obtain ⟨d, ds, rfl⟩ := List.exists_cons_of_ne_nil hne
  exact ⟨d, ds, rfl, (Bool.and_eq_true_iff.mp hall).1⟩

theorem exists_cons_of_mem {q : Pattern} {v : List Char} (hv : v ∈ q.language) :
    ∃ c u, v = c :: u ∧ q.starts c = true := by
  have hnumber : q.isNumeral = true →
      ∃ c u, v = c :: u ∧ (c = '-' || isDigit c) = true := by
    intro hq
    obtain ⟨s, ds, t, hs, hds, _, rfl⟩ := numeral_of_mem hq hv
    obtain ⟨d, ds, rfl, hd⟩ := exists_digit_of_mem_run hds
    rcases hs with rfl | rfl
    · exact ⟨d, ds ++ t, rfl, by simp [hd]⟩
    · exact ⟨'-', d :: ds ++ t, rfl, rfl⟩
  cases q with
  | keyword k =>
    cases (Set.mem_singleton_iff.mp hv : v = k.text.toList)
    cases k <;> exact ⟨_, _, rfl, rfl⟩
  | symbol s =>
    cases (Set.mem_singleton_iff.mp hv : v = s.text.toList)
    cases s <;> exact ⟨_, _, rfl, rfl⟩
  | pointFloat | exponentFloat | int => exact hnumber rfl
  | localName | globalName | ident =>
    obtain ⟨c, u, hc, _, rfl⟩ := mem_one_mul.mp hv
    exact ⟨c, u, rfl, hc⟩

theorem starts_of_front {q : Pattern} {v : List Char} (hv : v ∈ q.language) {c : Char} {cs : List Char}
    (h : v <+: c :: cs) : q.starts c = true := by
  obtain ⟨d, u, rfl, hd⟩ := exists_cons_of_mem hv
  cases (List.cons_prefix_cons.mp h).1
  exact hd

theorem mem_word {c : Char} (hc : isLetter c = true) (cs : List Char) :
    c :: cs.takeWhile isNameChar ∈ one isLetter * (one isNameChar)∗ :=
  mem_one_mul.mpr ⟨c, _, hc, mem_star.mpr List.all_takeWhile, rfl⟩

theorem word_cases {w : List Char} (hw : w ∈ one isLetter * (one isNameChar)∗) :
    ∃ q : Pattern, w ∈ q.language ∧ (q = .ident → ∀ k, w ∉ (Pattern.keyword k).language) ∧
      q.token? w = some (word w) := by
  unfold word
  simp only
  cases hk : Keyword.ofText? (String.ofList w) with
  | some k =>
    have htext : k.text = String.ofList w := by simpa using List.find?_some hk
    have hmem : w = k.text.toList := by rw [htext, String.toList_ofList]
    exact ⟨.keyword k, Set.mem_singleton_iff.mpr hmem, nofun, rfl⟩
  | none =>
    refine ⟨.ident, hw, ?_, rfl⟩
    rintro - k hmem
    have htext : w = k.text.toList := hmem
    rw [htext, String.ofList_toList] at hk
    cases k <;> cases hk

theorem all_isNameChar_of_letter {q : Pattern} {v : List Char} (hv : v ∈ q.language) {c : Char}
    {cs : List Char}
    (h : v <+: c :: cs) (hc : isLetter c = true) : v.all isNameChar = true := by
  have hstart := starts_of_front hv h
  have hword : ∀ {u : List Char}, u ∈ one isLetter * (one isNameChar)∗ → u.all isNameChar = true := by
    intro u hu
    obtain ⟨d, more, hd, hmore, rfl⟩ := mem_one_mul.mp hu
    rw [List.all_cons, Bool.and_eq_true]
    exact ⟨by simp [isNameChar, hd], mem_star.mp hmore⟩
  have hother : isDigit c = false := by
    cases hd : isDigit c with
    | false => rfl
    | true => rw [(not_letter_of_isDigit hd).2.2] at hc; cases hc
  cases q with
  | keyword k =>
    cases (Set.mem_singleton_iff.mp hv : v = k.text.toList)
    cases k <;> decide
  | symbol s =>
    have hhead : s.text.toList.head? = some c := of_decide_eq_true hstart
    cases s <;> cases hhead <;> cases hc
  | pointFloat | exponentFloat | int =>
    rcases (by simpa [Pattern.starts, hother] using hstart : c = '-') with rfl
    cases hc
  | localName | globalName =>
    cases of_decide_eq_true hstart
    cases hc
  | ident => exact hword hv

theorem numeral_of_front {sign : List Char} (hsign : sign = [] ∨ sign = ['-']) {d : Char}
    (hd : isDigit d = true)
    {cs : List Char} {q : Pattern} {v : List Char} (hv : v ∈ q.language) (h : v <+: sign ++ d :: cs) :
    q.isNumeral = true := by
  rcases hsign with rfl | rfl
  · have hstart := starts_of_front hv h
    cases q with
    | keyword | ident => rw [Pattern.starts, (not_letter_of_isDigit hd).2.2] at hstart; cases hstart
    | symbol s =>
      have hhead : s.text.toList.head? = some d := of_decide_eq_true hstart
      cases s <;> cases hhead <;> cases hd
    | localName | globalName =>
      cases of_decide_eq_true hstart
      cases hd
    | _ => rfl
  · have hstart := starts_of_front hv h
    cases q with
    | symbol s =>
      have hhead : s.text.toList.head? = some '-' := of_decide_eq_true hstart
      cases s <;> cases hhead
      cases (Set.mem_singleton_iff.mp hv : v = ['-', '>'])
      cases (List.cons_prefix_cons.mp (List.cons_prefix_cons.mp h).2).1
      cases hd
    | pointFloat | exponentFloat | int => rfl
    | _ => cases hstart

theorem length_le_number {sign cs : List Char} (hsign : sign = [] ∨ sign = ['-'])
    (hd : cs.head?.any isDigit = true) {q : Pattern} {v : List Char} (hv : v ∈ q.language)
    (h : v <+: sign ++ cs) : v.length ≤ (number sign cs).text.length := by
  obtain ⟨d, cs, rfl⟩ : ∃ d cs', cs = d :: cs' := by
    cases cs with
    | nil => cases hd
    | cons d cs => exact ⟨d, cs, rfl⟩
  have hd : isDigit d = true := hd
  obtain ⟨s, ds, t, hs, hds, ht, rfl⟩ := numeral_of_mem (numeral_of_front hsign hd hv h) hv
  obtain ⟨e, es, rfl, he⟩ := exists_digit_of_mem_run hds
  -- the signs agree, since digits come after them
  have hsame : s = sign := by
    rcases hs with rfl | rfl <;> rcases hsign with rfl | rfl
    · rfl
    · cases (List.cons_prefix_cons.mp h).1
      cases he
    · exact absurd (List.cons_prefix_cons.mp h).1.symm (other_of_isDigit hd).2.2
    · rfl
  subst hsame
  have hlen := number_longest hds ht ((List.prefix_append_right_inj s).mp h)
  simp only [number_text, List.length_append] at hlen ⊢
  omega

/-- What may stand between tokens: blanks, or a comment up to the end of its line. -/
def IsGap (w rest : List Char) : Prop :=
  w ≠ [] ∧ w.all isBlank = true ∨
    ∃ u, w = '#' :: u ∧ '\n' ∉ u ∧ (rest = [] ∨ rest.head? = some '\n')

/-- Why a piece is cut off in front of the rest of a text. -/
def Justified : Piece → List Char → Prop
  | .blank w, rest => IsGap w rest
  | .token w t, rest => ∃ q, Munches q w (w ++ rest) ∧ q.token? w = some t
  | .refused w, rest =>
    (∃ c, w = [c]) ∧ Unmatched (w ++ rest) ∨ ∃ q, Munches q w (w ++ rest) ∧ q.token? w = none

/-- The piece is the front of the text, takes something of it and is cut off for a reason. -/
def CutsOff (cs : List Char) (p : Piece) : Prop :=
  ∃ rest, cs = p.text ++ rest ∧ p.text ≠ [] ∧ Justified p rest

theorem cutsOff_refused {c : Char} {cs : List Char} (h : Unmatched (c :: cs)) :
    CutsOff (c :: cs) (.refused [c]) :=
  ⟨cs, rfl, List.cons_ne_nil _ _, .inl ⟨⟨c, rfl⟩, h⟩⟩

/-- The longest match is cut off as the piece that its pattern makes of it. -/
theorem cutsOff_of_longest {cs : List Char} {q : Pattern} {w : List Char} (hfits : w ∈ q.language)
    (hfront : w <+: cs)
    (hlong : ∀ q' v, v ∈ Pattern.language q' → v <+: cs → v.length ≤ w.length)
    (hkey : q = .ident → ∀ k, w ∉ (Pattern.keyword k).language) : CutsOff cs (q.piece w) := by
  obtain ⟨rest, rfl⟩ := hfront
  have hmunch : Munches q w (w ++ rest) := ⟨hfits, List.prefix_append _ _, hlong, hkey⟩
  have hne : w ≠ [] := by
    obtain ⟨c, u, rfl, _⟩ := exists_cons_of_mem hfits
    exact List.cons_ne_nil c u
  unfold Pattern.piece
  cases ht : q.token? w with
  | some t => exact ⟨rest, rfl, hne, q, hmunch, ht⟩
  | none => exact ⟨rest, rfl, hne, .inr ⟨q, hmunch, ht⟩⟩

theorem cutsOff_blank {c : Char} (hc : isBlank c = true) (cs : List Char) :
    CutsOff (c :: cs) (.blank (c :: cs.takeWhile isBlank)) := by
  refine ⟨cs.dropWhile isBlank, ?_, List.cons_ne_nil _ _, .inl ⟨List.cons_ne_nil _ _, ?_⟩⟩
  · rw [Piece.text, List.cons_append, List.takeWhile_append_dropWhile]
  · rw [List.all_cons, hc, List.all_takeWhile, Bool.and_self]

theorem cutsOff_comment (cs : List Char) :
    CutsOff ('#' :: cs) (.blank ('#' :: cs.takeWhile (· ≠ '\n'))) := by
  refine ⟨cs.dropWhile (· ≠ '\n'), ?_, List.cons_ne_nil _ _, .inr ⟨_, rfl, ?_, ?_⟩⟩
  · rw [Piece.text, List.cons_append, List.takeWhile_append_dropWhile]
  · intro hmem
    have := List.all_eq_true.mp (List.all_takeWhile (l := cs) (p := (· ≠ '\n'))) _ hmem
    simp at this
  · cases hd : cs.dropWhile (· ≠ '\n') with
    | nil => exact .inl rfl
    | cons d ds =>
      have hhead := List.head?_dropWhile_not (fun c => decide (c ≠ '\n')) cs
      rw [hd] at hhead
      exact .inr (by simpa using hhead)

theorem cutsOff_word {c : Char} (hc : isLetter c = true) (cs : List Char) :
    CutsOff (c :: cs) (.token (c :: cs.takeWhile isNameChar) (word (c :: cs.takeWhile isNameChar))) := by
  obtain ⟨q, hfits, hkey, htoken⟩ := word_cases (mem_word hc cs)
  have hname : isNameChar c = true := by simp [isNameChar, hc]
  have htake : (c :: cs).takeWhile isNameChar = c :: cs.takeWhile isNameChar := by simp [hname]
  have hpiece : q.piece (c :: cs.takeWhile isNameChar) =
      .token (c :: cs.takeWhile isNameChar) (word (c :: cs.takeWhile isNameChar)) := by
    rw [Pattern.piece, htoken]
  rw [← hpiece]
  exact cutsOff_of_longest hfits (cons_takeWhile_front _ _ _)
    (fun q' v hv hfront =>
      htake ▸ length_le_takeWhile (all_isNameChar_of_letter hv hfront hc) hfront) hkey

theorem cutsOff_number {sign cs : List Char} (hsign : sign = [] ∨ sign = ['-'])
    (hd : cs.head?.any isDigit = true) :
    CutsOff (sign ++ cs) (number sign cs) := by
  obtain ⟨q, hfits, hident, hpiece⟩ := number_cases hsign hd
  have hfront : (number sign cs).text <+: sign ++ cs := by
    rw [number_text, List.prefix_append_right_inj]
    exact number_front cs
  rw [hpiece]
  exact cutsOff_of_longest hfits hfront (fun q' v hv hv' => length_le_number hsign hd hv hv') fun h =>
    absurd h hident

theorem starts_percent {q : Pattern} (h : q.starts '%' = true) : q = .localName := by
  cases q with
  | symbol s => cases s <;> cases h
  | localName => rfl
  | _ => cases h

theorem starts_at {q : Pattern} (h : q.starts '@' = true) : q = .globalName := by
  cases q with
  | symbol s => cases s <;> cases h
  | globalName => rfl
  | _ => cases h

theorem starts_symbol {c : Char} {s : Symbol} (hc : symbol? c = some s) {q : Pattern}
    (h : q.starts c = true) :
    q = .symbol s := by
  unfold symbol? at hc
  split at hc <;> cases hc <;> cases q with
    | symbol t => cases t <;> cases h; rfl
    | _ => cases h

theorem local_longest (cs : List Char) {q : Pattern} {v : List Char} (hv : v ∈ q.language)
    (h : v <+: '%' :: cs) :
    2 ≤ v.length ∧ v.length ≤ (cs.takeWhile isNameChar).length + 1 := by
  cases starts_percent (starts_of_front hv h)
  obtain ⟨c, u, _, hu, rfl⟩ := mem_one_mul.mp hv
  obtain ⟨hne, hall⟩ := mem_run.mp hu
  have hlen := length_le_takeWhile hall (List.cons_prefix_cons.mp h).2
  have hpos := List.length_pos_iff.mpr hne
  rw [List.length_cons]
  omega

theorem global_longest (cs : List Char) {q : Pattern} {v : List Char} (hv : v ∈ q.language)
    (h : v <+: '@' :: cs) :
    cs.head?.any isLetter = true ∧ v.length ≤ (cs.takeWhile isNameChar).length + 1 := by
  cases starts_at (starts_of_front hv h)
  obtain ⟨c, u, _, hu, rfl⟩ := mem_one_mul.mp hv
  obtain ⟨d, more, hd, hmore, rfl⟩ := mem_one_mul.mp hu
  have hfront := (List.cons_prefix_cons.mp h).2
  have hall : (d :: more).all isNameChar = true := by
    rw [List.all_cons, Bool.and_eq_true]
    exact ⟨by simp [isNameChar, hd], mem_star.mp hmore⟩
  refine ⟨?_, by simpa using length_le_takeWhile hall hfront⟩
  obtain ⟨rest, rfl⟩ := hfront
  simpa using hd

theorem dash_cases (cs : List Char) {q : Pattern} {v : List Char} (hv : v ∈ q.language)
    (h : v <+: '-' :: cs) :
    v = ['-', '>'] ∧ cs.head? = some '>' ∨ cs.head?.any isDigit = true := by
  have hstart := starts_of_front hv h
  have hnumber : q.isNumeral = true → cs.head?.any isDigit = true := by
    intro hq
    obtain ⟨s, ds, t, hs, hds, _, rfl⟩ := numeral_of_mem hq hv
    obtain ⟨d, ds, rfl, hd⟩ := exists_digit_of_mem_run hds
    rcases hs with rfl | rfl
    · cases (List.cons_prefix_cons.mp h).1
      cases hd
    · obtain ⟨rest, rfl⟩ := (List.cons_prefix_cons.mp h).2
      simpa using hd
  cases q with
  | symbol s =>
    have hhead : s.text.toList.head? = some '-' := of_decide_eq_true hstart
    cases s <;> cases hhead
    cases (Set.mem_singleton_iff.mp hv : v = ['-', '>'])
    obtain ⟨rest, rfl⟩ := (List.cons_prefix_cons.mp h).2
    exact .inl ⟨rfl, rfl⟩
  | pointFloat | exponentFloat | int => exact .inr (hnumber rfl)
  | _ => cases hstart

theorem starts_eq_false {c : Char} (hletter : isLetter c = false) (hdigit : isDigit c = false)
    (hpercent : c ≠ '%')
    (hat : c ≠ '@') (hminus : c ≠ '-') (hsymbol : symbol? c = none) (q : Pattern) :
    q.starts c = false := by
  cases q with
  | keyword k => exact hletter
  | ident => exact hletter
  | symbol s =>
    refine decide_eq_false ?_
    intro hhead
    cases s with
    | arrow =>
      cases hhead
      exact hminus rfl
    | _ =>
      cases hhead
      cases hsymbol
  | localName => exact decide_eq_false hpercent
  | globalName => exact decide_eq_false hat
  | _ => simp [Pattern.starts, hminus, hdigit]

theorem first_local (cs : List Char) : first '%' cs =
    if (cs.takeWhile isNameChar).isEmpty then .refused ['%']
    else .token ('%' :: cs.takeWhile isNameChar) (.localName (String.ofList (cs.takeWhile isNameChar))) :=
  rfl

theorem cutsOff_percent (cs : List Char) : CutsOff ('%' :: cs) (first '%' cs) := by
  rw [first_local]
  split
  · next hempty =>
    refine cutsOff_refused fun q v hv hfront => ?_
    have hlen := local_longest cs hv hfront
    rw [List.isEmpty_iff.mp hempty, List.length_nil] at hlen
    omega
  · next hne =>
    have hfits : '%' :: cs.takeWhile isNameChar ∈ Pattern.localName.language :=
      mem_one_mul.mpr ⟨'%', _, rfl, takeWhile_mem_run (Bool.eq_false_iff.mpr hne), rfl⟩
    exact cutsOff_of_longest hfits (cons_takeWhile_front _ _ _)
      (fun q v hv hfront => (local_longest _ hv hfront).2) nofun

theorem head?_takeWhile_name (cs : List Char) :
    (cs.takeWhile isNameChar).head?.any isLetter = cs.head?.any isLetter := by
  cases cs with
  | nil => rfl
  | cons c cs =>
    cases hc : isNameChar c with
    | true => simp [hc]
    | false =>
      have hletter : isLetter c = false := (Bool.or_eq_false_iff.mp hc).1
      simp [hc, hletter]

theorem cutsOff_at (cs : List Char) : CutsOff ('@' :: cs) (first '@' cs) := by
  have hrefused : cs.head?.any isLetter = false → CutsOff ('@' :: cs) (.refused ['@']) := by
    refine fun hhead => cutsOff_refused fun q v hv hfront => ?_
    rw [(global_longest cs hv hfront).1] at hhead
    cases hhead
  have hhead := head?_takeWhile_name cs
  rw [first_global]
  split
  · next d ds htake =>
    rw [htake] at hhead
    split
    · next hd =>
      have hfits : '@' :: cs.takeWhile isNameChar ∈ Pattern.globalName.language := by
        have hall := List.all_takeWhile (l := cs) (p := isNameChar)
        rw [htake, List.all_cons, Bool.and_eq_true] at hall
        rw [htake]
        exact mem_one_mul.mpr ⟨'@', _, rfl, mem_one_mul.mpr ⟨d, ds, hd, mem_star.mpr hall.2, rfl⟩, rfl⟩
      exact cutsOff_of_longest hfits (cons_takeWhile_front _ _ _)
        (fun q v hv hfront => (global_longest _ hv hfront).2) nofun
    · next hd => exact hrefused (hhead.symm.trans (Bool.eq_false_iff.mpr hd))
  · next htake =>
    rw [htake] at hhead
    exact hrefused hhead.symm

theorem first_dash (cs : List Char) : first '-' cs = match cs with
    | '>' :: _ => .token ['-', '>'] (.symbol .arrow)
    | d :: _ => if isDigit d then number ['-'] cs else .refused ['-']
    | [] => .refused ['-'] := rfl

theorem cutsOff_dash (cs : List Char) : CutsOff ('-' :: cs) (first '-' cs) := by
  have hrefused : cs.head? ≠ some '>' → cs.head?.any isDigit = false →
      CutsOff ('-' :: cs) (.refused ['-']) := by
    refine fun hgt hdigit => cutsOff_refused fun q v hv hfront => ?_
    rcases dash_cases cs hv hfront with ⟨-, h⟩ | h
    · exact hgt h
    · rw [hdigit] at h
      cases h
  rw [first_dash]
  split
  · next ds =>
    have hfits : ['-', '>'] ∈ (Pattern.symbol .arrow).language := Set.mem_singleton_iff.mpr rfl
    have hlong : ∀ q v, v ∈ Pattern.language q → v <+: '-' :: '>' :: ds → v.length ≤ 2 := by
      intro q v hv hfront
      rcases dash_cases _ hv hfront with ⟨rfl, -⟩ | h
      · exact Nat.le_refl 2
      · cases h
    exact cutsOff_of_longest hfits ⟨ds, rfl⟩ hlong nofun
  · next d ds hgt =>
    split
    · next hd => exact cutsOff_number (.inr rfl : ['-'] = [] ∨ ['-'] = ['-']) hd
    · next hd =>
      refine hrefused ?_ (Bool.eq_false_iff.mpr hd)
      intro hhead
      cases hhead
      exact hgt rfl
  · exact hrefused nofun rfl

theorem cutsOff_symbol {c : Char} {s : Symbol} (hc : symbol? c = some s) (cs : List Char) :
    CutsOff (c :: cs) (.token [c] (.symbol s)) := by
  have htext : s.text.toList = [c] := by
    unfold symbol? at hc
    split at hc <;> cases hc <;> rfl
  have hlong : ∀ q v, v ∈ Pattern.language q → v <+: c :: cs → v.length ≤ 1 := by
    intro q v hv hfront
    cases starts_symbol hc (starts_of_front hv hfront)
    cases (Set.mem_singleton_iff.mp hv : v = s.text.toList)
    rw [htext]
    exact Nat.le_refl 1
  exact cutsOff_of_longest (q := .symbol s) (Set.mem_singleton_iff.mpr htext.symm) ⟨cs, rfl⟩ hlong nofun

/-- The lexer cuts off the longest match, or refuses a character at which nothing matches. -/
theorem cutsOff_first (c : Char) (cs : List Char) : CutsOff (c :: cs) (first c cs) := by
  unfold first
  split
  · next hc => exact cutsOff_blank hc cs
  split
  · next hc =>
    subst hc
    exact cutsOff_comment cs
  split
  · next hc => exact cutsOff_word hc cs
  next hletter =>
  split
  · next hc => exact cutsOff_number (.inl rfl : [] = [] ∨ [] = ['-']) hc
  next hdigit =>
  split
  · next hc =>
    subst hc
    exact cutsOff_percent cs
  next hpercent =>
  split
  · next hc =>
    subst hc
    exact cutsOff_at cs
  next hat =>
  split
  · next hc =>
    subst hc
    exact cutsOff_dash cs
  next hminus =>
  split
  · next s hs => exact cutsOff_symbol hs cs
  · next hs =>
    refine cutsOff_refused fun q v hv hfront => ?_
    have hstart := starts_of_front hv hfront
    rw [starts_eq_false (Bool.eq_false_iff.mpr hletter) (Bool.eq_false_iff.mpr hdigit) hpercent hat hminus
      hs] at hstart
    cases hstart

end Lexer

end Stencil
