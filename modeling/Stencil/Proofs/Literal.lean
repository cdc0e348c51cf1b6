import Stencil.Proofs.Decimal
import Stencil.Proofs.Lexing

/-! Scalars in program text: the written form of a finite scalar is one token, and that token is the
scalar. -/

set_option autoImplicit false

namespace Stencil

namespace Scalar

theorem all_isDigit_digits (n : Nat) : (Numeral.digits n).all Lexer.isDigit = true := by
  rw [List.all_eq_true]
  exact fun c hc => Numeral.isDigit_of_mem_digits hc

theorem value_append_zeros (ds : List Char) (k : Nat) :
    Numeral.value (ds ++ List.replicate k '0') = Numeral.value ds * 10 ^ k := by
  rw [Numeral.value_append, Numeral.value_replicate_zero, List.length_replicate, Nat.add_zero]

theorem value_zeros_append (k : Nat) (ds : List Char) :
    Numeral.value (List.replicate k '0' ++ ds) = Numeral.value ds := by
  rw [Numeral.value_append, Numeral.value_replicate_zero, Nat.zero_mul, Nat.zero_add]

theorem strip_zeros (all : List Char) :
    all = (all.reverse.dropWhile (· = '0')).reverse ++
      List.replicate (all.length - (all.reverse.dropWhile (· = '0')).reverse.length) '0' := by
  have hsplit := List.takeWhile_append_dropWhile (p := (· = '0')) (l := all.reverse)
  have hzeros : all.reverse.takeWhile (· = '0') =
      List.replicate (all.reverse.takeWhile (· = '0')).length '0' := by
    rw [List.eq_replicate_iff]
    refine ⟨rfl, ?_⟩
    intro c hc
    simpa using List.all_eq_true.mp (List.all_takeWhile (l := all.reverse) (p := (· = '0'))) c hc
  have hlen : all.length - (all.reverse.dropWhile (· = '0')).reverse.length =
      (all.reverse.takeWhile (· = '0')).length := by
    have := congrArg List.length hsplit
    simp only [List.length_append, List.length_reverse] at this ⊢
    omega
  rw [hlen, ← List.reverse_inj, List.reverse_append, List.reverse_reverse, List.reverse_replicate,
    ← hzeros, hsplit]

theorem positional_spec {ds : List Char} (e : Int) (hne : ds ≠ []) (hd : ds.all Lexer.isDigit = true) :
    ∃ whole places, positional ds e = whole ++ '.' :: places ∧
      whole ≠ [] ∧ whole.all Lexer.isDigit = true ∧ places ≠ [] ∧ places.all Lexer.isDigit = true ∧
      (Numeral.value (whole ++ places) : ℚ) * 10 ^ (0 - (places.length : ℤ)) =
        Numeral.value ds * 10 ^ (e + 1 - ds.length) := by
  have hzeros : ∀ k, (List.replicate k '0').all Lexer.isDigit = true := by
    intro k
    rw [List.all_eq_true]
    intro c hc
    rw [List.eq_of_mem_replicate hc]
    decide
  have hpos : 1 ≤ ds.length := List.length_pos_of_ne_nil hne
  unfold positional
  split
  · next he =>
    refine ⟨['0'], List.replicate ((-e).toNat - 1) '0' ++ ds, by simp, by simp, by decide, by simp [hne],
      by simp [List.all_append, hzeros, hd], ?_⟩
    have hval :
        Numeral.value (['0'] ++ (List.replicate ((-e).toNat - 1) '0' ++ ds)) = Numeral.value ds := by
      rw [← List.append_assoc]
      exact value_zeros_append ((-e).toNat - 1 + 1) ds
    rw [hval, List.length_append, List.length_replicate]
    congr 2
    push_cast
    omega
  · next he =>
    simp only
    split
    · next hlen =>
      refine ⟨ds ++ List.replicate (e.toNat + 1 - ds.length) '0', ['0'], by simp, by simp [hne],
        by simp [List.all_append, hzeros, hd], by simp, by decide, ?_⟩
      have hval : Numeral.value (ds ++ List.replicate (e.toNat + 1 - ds.length) '0' ++ ['0']) =
          Numeral.value ds * 10 ^ (e.toNat + 1 - ds.length + 1) := by
        rw [List.append_assoc, ← List.replicate_succ']
        exact value_append_zeros ds _
      rw [hval]
      push_cast
      rw [mul_assoc, ← zpow_natCast, ← zpow_add₀ (by norm_num)]
      congr 2
      rw [List.length_singleton]
      omega
    · next hlen =>
      refine ⟨ds.take (e.toNat + 1), ds.drop (e.toNat + 1), by simp, ?_, ?_, ?_, ?_, ?_⟩
      · simp [hne]
      · rw [List.all_eq_true] at hd ⊢
        exact fun c hc => hd c (List.mem_of_mem_take hc)
      · simp only [ne_eq, List.drop_eq_nil_iff]
        omega
      · rw [List.all_eq_true] at hd ⊢
        exact fun c hc => hd c (List.mem_of_mem_drop hc)
      · rw [List.take_append_drop, List.length_drop]
        congr 2
        omega

theorem scientific_spec {ds : List Char} (e : Int) (hne : ds ≠ []) (hd : ds.all Lexer.isDigit = true) :
    ∃ whole places, scientific false ds e =
        whole ++ (if places = [] then [] else '.' :: places) ++ 'e' :: Numeral.ofInt e ∧
      whole ≠ [] ∧ whole.all Lexer.isDigit = true ∧ places.all Lexer.isDigit = true ∧
      whole ++ places = ds ∧ places.length + 1 = ds.length := by
  match ds, hne, hd with
  | [d], _, hd => exact ⟨[d], [], by simp [scientific], by simp, hd, rfl, rfl, rfl⟩
  | d :: r :: rest, _, hd =>
    simp only [List.all_cons, Bool.and_eq_true] at hd
    refine ⟨[d], r :: rest, by simp [scientific], by simp, by simp [hd.1], by simp [hd.2], rfl, rfl⟩

end Scalar

namespace Lexer

theorem exponentPart_digit {c : Char} (h : isDigit c = true) (cs : List Char) :
    exponentPart ('e' :: c :: cs) = exponentDigits ['e'] (c :: cs) := by
  unfold exponentPart
  simp only [decide_true, Bool.true_or, if_true]
  split
  · next heq =>
    cases heq
    cases h
  · next heq =>
    cases heq
    cases h
  · rfl

theorem exponentValue_digit {c : Char} (h : isDigit c = true) (cs : List Char) :
    exponentValue ('e' :: c :: cs) = Numeral.value (c :: cs) := by
  unfold exponentValue
  split
  · next heq =>
    cases heq
    cases h
  · next heq =>
    cases heq
    cases h
  · next heq =>
    cases heq
    rfl
  · next heq => cases heq

theorem exists_digits_eq (n : Nat) : ∃ c cs, Numeral.digits n = c :: cs ∧ isDigit c = true := by
  cases hcs : Numeral.digits n with
  | nil => exact absurd hcs (Numeral.digits_ne_nil n)
  | cons c cs => exact ⟨c, cs, rfl, Numeral.isDigit_of_mem_digits (by rw [hcs]; exact List.mem_cons_self)⟩

theorem exponentPart_ofInt (e : Int) {rest : List Char} (hr : boundary rest = true) :
    exponentPart ('e' :: Numeral.ofInt e ++ rest) = 'e' :: Numeral.ofInt e := by
  have hdigits : ∀ n (front : List Char), exponentDigits front (Numeral.digits n ++ rest) =
      front ++ Numeral.digits n := by
    intro n front
    rw [exponentDigits, (takeWhile_append_eq (Scalar.all_isDigit_digits n) (boundary.digit hr)).1]
    simp [Numeral.digits_ne_nil]
  cases e with
  | negSucc n => exact hdigits (n + 1) ['e', '-']
  | ofNat n =>
    obtain ⟨c, cs, hcs, hc⟩ := exists_digits_eq n
    have hd := hdigits n ['e']
    rw [Numeral.ofInt]
    rw [hcs] at hd ⊢
    exact (exponentPart_digit hc _).trans hd

theorem exponentValue_ofInt (e : Int) : exponentValue ('e' :: Numeral.ofInt e) = e := by
  cases e with
  | negSucc n => simp [Numeral.ofInt, exponentValue, Numeral.value_digits, Int.negSucc_eq]
  | ofNat n =>
    obtain ⟨c, cs, hcs, hc⟩ := exists_digits_eq n
    rw [Numeral.ofInt, hcs, exponentValue_digit hc, ← hcs, Numeral.value_digits]
    rfl

theorem head_of_digits {w : List Char} (hne : w ≠ []) (hw : w.all isDigit = true) (rest : List Char) :
    (w ++ rest).head?.any isDigit = true := by
  cases w with
  | nil => exact absurd rfl hne
  | cons c w => exact (Bool.and_eq_true_iff.mp hw).1

theorem scan_positional {sign whole places rest : List Char} (hsign : sign = [] ∨ sign = ['-'])
    (hne : whole ≠ []) (hw : whole.all isDigit = true) (hpne : places ≠ [])
    (hp : places.all isDigit = true)
    (hr : boundary rest = true) :
    scan (sign ++ (whole ++ '.' :: places) ++ rest) =
      some (.float (Scalar.ofDecimal (!sign.isEmpty) (Numeral.value (whole ++ places))
        (0 - (places.length : Int)))) :: scan rest := by
  have h := number_float sign ('.' :: places) [] rest hw rfl
    (by rw [List.append_nil]; exact fractionPart_append hpne hp (boundary.digit hr))
    (exponentPart_of_boundary hr) (.inl (List.cons_ne_nil _ _))
  simp only [List.append_nil] at h
  exact scan_number hsign (head_of_digits hne hw _) (h.trans (by simp [exponentValue]))

theorem scan_scientific {sign whole places rest : List Char} {e : Int} (hsign : sign = [] ∨ sign = ['-'])
    (hne : whole ≠ []) (hw : whole.all isDigit = true) (hp : places.all isDigit = true)
    (hr : boundary rest = true) :
    scan (sign ++ (whole ++ (if places = [] then [] else '.' :: places) ++ 'e' :: Numeral.ofInt e)
      ++ rest) =
      some (.float (Scalar.ofDecimal (!sign.isEmpty) (Numeral.value (whole ++ places))
        (e - (places.length : Int)))) :: scan rest := by
  by_cases hpne : places = []
  · subst hpne
    have h := number_float sign [] ('e' :: Numeral.ofInt e) rest hw rfl rfl (exponentPart_ofInt e hr)
      (.inr (List.cons_ne_nil _ _))
    refine scan_number hsign (head_of_digits (by simpa using hne) (by simpa using hw) _) ?_
    simpa [exponentValue_ofInt] using h
  · have h := number_float sign ('.' :: places) ('e' :: Numeral.ofInt e) rest hw rfl
      (by rw [List.append_assoc]; exact fractionPart_append hpne hp rfl)
      (exponentPart_ofInt e hr) (.inl (List.cons_ne_nil _ _))
    refine scan_number hsign ?_ ?_
    · rw [if_neg hpne, List.append_assoc]
      exact head_of_digits hne hw _
    · rw [if_neg hpne]
      simpa [exponentValue_ofInt] using h

end Lexer

namespace Scalar

theorem ofDecimal_zero (negative : Bool) (e : Int) : ofDecimal negative 0 e = ofField negative 0 := by
  simp [ofDecimal]

theorem eq_ofField_zero {x : Scalar} (hfin : x.isFinite = true) (hm : x.mantissa = 0) :
    ofField x.negative 0 = x := by
  have hexp : x.exponent = -1074 := by
    by_contra hne
    have := mantissa_ge hne
    omega
  have h := ofField_eq hfin
  rwa [hexp, hm] at h

theorem stripped_spec {n : Nat} {ds : List Char} (hn : n ≠ 0)
    (hds : ((Numeral.digits n).reverse.dropWhile (· = '0')).reverse = ds) (power : Int) :
    ds ≠ [] ∧ ds.all Lexer.isDigit = true ∧
      (Numeral.value ds : ℚ) * 10 ^ (power + (Numeral.digits n).length - 1 + 1 - ds.length) =
        n * 10 ^ power := by
  have hstrip := strip_zeros (Numeral.digits n)
  rw [hds] at hstrip
  have hvalue : n = Numeral.value ds * 10 ^ ((Numeral.digits n).length - ds.length) := by
    conv_lhs => rw [← Numeral.value_digits n, hstrip, value_append_zeros]
  have hle : ds.length ≤ (Numeral.digits n).length := by
    have := congrArg List.length hstrip
    rw [List.length_append] at this
    omega
  refine ⟨?_, ?_, ?_⟩
  · rintro rfl
    exact hn (hvalue.trans (Nat.zero_mul _))
  · rw [List.all_eq_true]
    intro c hc
    apply Numeral.isDigit_of_mem_digits (n := n)
    rw [hstrip]
    exact List.mem_append_left _ hc
  · generalize (Numeral.digits n).length = len at hvalue hle ⊢
    conv_rhs => rw [hvalue]
    push_cast
    rw [mul_assoc, ← zpow_natCast, ← zpow_add₀ (by norm_num)]
    congr 2
    omega

theorem shortest_coefficient_ne_zero {x : Scalar} (hm : x.mantissa ≠ 0) (tie : Tie) :
    (x.shortest tie).coefficient ≠ 0 := by
  intro hzero
  obtain ⟨hlow, _⟩ := (shortest_holds hm tie).range hm
  rw [hzero, Nat.cast_zero, zero_mul] at hlow
  exact absurd hlow (not_le.mpr (by positivity))

theorem toList_text {x : Scalar} (hfin : x.isFinite = true) : x.text.toList = layout .program x := by
  have hnan : x.isNaN = false := by
    have := exponentField_lt hfin
    simp only [isNaN, Bool.and_eq_false_iff, beq_eq_false_iff_ne]
    exact .inl this.ne
  rw [text, if_neg (by simp [hnan]), if_neg (by simp [hfin]), String.toList_ofList]

/-- The text of a finite scalar is scanned as that scalar. -/
theorem scan_text {x : Scalar} (hfin : x.isFinite = true) {rest : List Char}
    (hr : Lexer.boundary rest = true) :
    Lexer.scan (x.text.toList ++ rest) = some (.float x) :: Lexer.scan rest := by
  have hsign : (if x.negative then ['-'] else []) = [] ∨ (if x.negative then ['-'] else []) = ['-'] := by
    cases x.negative
    · exact .inl rfl
    · exact .inr rfl
  have hneg : (!(if x.negative then ['-'] else []).isEmpty) = x.negative := by cases x.negative <;> rfl
  rw [toList_text hfin]
  unfold layout
  simp only
  generalize (if x.negative then ['-'] else []) = sign at hsign hneg ⊢
  by_cases hm : x.mantissa = 0
  · rw [if_pos hm]
    have hzero : ['0'] ≠ [] ∧ ['0'].all Lexer.isDigit = true := by decide
    have h := Lexer.scan_positional hsign hzero.1 hzero.2 hzero.1 hzero.2 hr
    rw [hneg] at h
    refine h.trans ?_
    rw [show Numeral.value (['0'] ++ ['0']) = 0 from rfl, ofDecimal_zero, eq_ofField_zero hfin hm]
  · rw [if_neg hm]
    have hholds := shortest_holds hm Layout.program.tie
    have hcoeff := shortest_coefficient_ne_zero hm Layout.program.tie
    generalize x.shortest Layout.program.tie = d at hholds hcoeff ⊢
    generalize hds : ((Numeral.digits d.coefficient).reverse.dropWhile (· = '0')).reverse = ds
    obtain ⟨hne, hall, hsame⟩ := stripped_spec hcoeff hds d.power
    rw [← hsame] at hholds
    generalize (Numeral.digits d.coefficient).length = n at hholds ⊢
    split
    · obtain ⟨whole, places, heq, hw, hwd, hp, hpd, hval⟩ := positional_spec (d.power + n - 1) hne hall
      rw [heq, Lexer.scan_positional hsign hw hwd hp hpd hr, hneg]
      rw [← hval] at hholds
      rw [ofDecimal_eq hfin hm hholds]
    · obtain ⟨whole, places, heq, hw, hwd, hpd, happ, hlen⟩ := scientific_spec (d.power + n - 1) hne hall
      rw [show Layout.program.plus = false from rfl, heq, Lexer.scan_scientific hsign hw hwd hpd hr, hneg]
      have hexp : d.power + n - 1 - (places.length : ℤ) = d.power + n - 1 + 1 - ds.length := by
        rw [← hlen]
        push_cast
        ring
      rw [happ, hexp, ofDecimal_eq hfin hm hholds]

end Scalar

end Stencil
