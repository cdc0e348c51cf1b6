import Stencil.Proofs.Printing
import Stencil.Proofs.Segmentation

/-! Tokens in their own words. The text of a token is cut into that token again, with one exception: a
literal half a unit or more above the largest scalar becomes an infinity, and the text of an infinity is
a name. -/

set_option autoImplicit false

namespace Stencil

/-- A rounded quotient reaches an even number half a unit before it. -/
theorem le_roundDiv_iff {num den k : Nat} (hden : 0 < den) (heven : k % 2 = 0) :
    k ≤ roundDiv num den ↔ 2 * (k * den) ≤ 2 * num + den := by
  have hdiv := Nat.div_add_mod' num den
  have hmod := Nat.mod_lt num hden
  unfold roundDiv
  generalize num / den = q at hdiv ⊢
  generalize num % den = r at hdiv hmod ⊢
  simp only
  rcases Nat.lt_trichotomy k (q + 1) with hlt | rfl | hgt
  · have hmul : k * den ≤ q * den := Nat.mul_le_mul_right _ (by omega)
    refine iff_of_true ?_ (by omega)
    split
    · omega
    · split
      · omega
      · split <;> omega
  · rw [Nat.add_mul, Nat.one_mul]
    split
    · omega
    · split
      · omega
      · rw [if_neg (by omega)]
        omega
  · have hmul : (q + 2) * den ≤ k * den := Nat.mul_le_mul_right _ (by omega)
    rw [Nat.add_mul] at hmul
    refine iff_of_false ?_ (by omega)
    split
    · omega
    · split
      · omega
      · split <;> omega

namespace Scalar

theorem le_roundScaled_iff {num den k : Nat} {q : Int} (hden : 0 < den) (heven : k % 2 = 0) :
    (k ≤ if 0 ≤ q then roundDiv num (den * 2 ^ q.toNat) else roundDiv (num * 2 ^ (-q).toNat) den) ↔
      ((k : ℚ) - 1 / 2) * 2 ^ q ≤ num / den := by
  have hpos : (0 : ℚ) < den := by exact_mod_cast hden
  have hcast : ∀ {a b : Nat}, 2 * (k * b) ≤ 2 * a + b ↔ ((k : ℚ) - 1 / 2) * b ≤ a := by
    intro a b
    rw [← Nat.cast_le (α := ℚ)]
    push_cast
    constructor <;> intro h <;> linarith
  have hz := zpow_eq_div 2 q
  push_cast at hz
  rw [hz, le_div_iff₀ hpos]
  split
  · next hq =>
    have hneg : (-q).toNat = 0 := by omega
    rw [le_roundDiv_iff (by positivity) heven, hcast, hneg]
    push_cast
    rw [pow_zero, div_one, mul_assoc, mul_comm (den : ℚ)]
  · next hq =>
    have hzero : q.toNat = 0 := by omega
    rw [le_roundDiv_iff hden heven, hcast, hzero]
    push_cast
    rw [pow_zero, mul_one_div, div_mul_eq_mul_div, div_le_iff₀ (by positivity)]

/-- The least magnitude that is rounded to an infinity: half a unit above the largest scalar. -/
def infinityThreshold : ℚ := (2 ^ 54 - 1) * 2 ^ 970

theorem infinityThreshold_eq : infinityThreshold = (((2 ^ 53 : Nat) : ℚ) - 1 / 2) * 2 ^ (971 : ℤ) := by
  have hpow : (2 : ℚ) ^ (971 : ℤ) = 2 * 2 ^ 970 := by
    rw [show (971 : ℤ) = ((970 + 1 : Nat) : ℤ) from rfl, zpow_natCast, pow_succ']
  rw [infinityThreshold, hpow]
  generalize (2 : ℚ) ^ 970 = unit
  push_cast
  ring

theorem infinityThreshold_between :
    (2 : ℚ) ^ (1023 : ℤ) ≤ infinityThreshold ∧ infinityThreshold ≤ 2 ^ (1024 : ℤ) := by
  have hpos : (0 : ℚ) ≤ 2 ^ 970 := by positivity
  have hlow : (2 : ℚ) ^ (1023 : ℤ) = 2 ^ 53 * 2 ^ 970 := by
    rw [show (1023 : ℤ) = ((53 + 970 : Nat) : ℤ) from rfl, zpow_natCast, pow_add]
  have hhigh : (2 : ℚ) ^ (1024 : ℤ) = 2 ^ 54 * 2 ^ 970 := by
    rw [show (1024 : ℤ) = ((54 + 970 : Nat) : ℤ) from rfl, zpow_natCast, pow_add]
  rw [hlow, hhigh, infinityThreshold]
  constructor
  · exact mul_le_mul_of_nonneg_right (by norm_num) hpos
  · exact mul_le_mul_of_nonneg_right (by norm_num) hpos

theorem infinityField_eq : infinityField = 2047 * 2 ^ 52 := rfl

theorem toNat_bits_ofField (negative : Bool) (field : Nat) :
    (ofField negative field).bits.toNat = (if negative then 2 ^ 63 else 0) + min field infinityField := by
  rw [ofField, Nat.pow_eq, UInt64.toNat_ofNat', infinityField_eq]
  apply Nat.mod_eq_of_lt
  cases negative
  · simp only [Bool.false_eq_true, if_false]
    omega
  · simp only [if_true]
    omega

theorem isFinite_ofField (negative : Bool) (field : Nat) :
    (ofField negative field).isFinite = true ↔ field < infinityField := by
  have hbits := toNat_bits_ofField negative field
  rw [infinityField_eq] at hbits ⊢
  rw [isFinite, bne_iff_ne, exponentField_eq, hbits]
  cases negative
  · simp only [Bool.false_eq_true, if_false]
    omega
  · simp only [if_true]
    omega

theorem isNaN_ofField (negative : Bool) (field : Nat) : (ofField negative field).isNaN = false := by
  have hbits := toNat_bits_ofField negative field
  rw [infinityField_eq] at hbits
  rw [isNaN, Bool.and_eq_false_iff, beq_eq_false_iff_ne, bne_eq_false_iff_eq, exponentField_eq,
    fraction_eq, hbits]
  cases negative
  · simp only [Bool.false_eq_true, if_false]
    omega
  · simp only [if_true]
    omega

theorem exists_ofField_ofRatio (negative : Bool) (num den : Nat) :
    ∃ field, ofRatio negative num den = ofField negative field := by
  unfold ofRatio
  split
  · exact ⟨0, rfl⟩
  · exact ⟨_, rfl⟩

theorem isNaN_ofDecimal (negative : Bool) (m : Nat) (e : Int) :
    (ofDecimal negative m e).isNaN = false := by
  have hratio : ∀ num den, (ofRatio negative num den).isNaN = false := by
    intro num den
    obtain ⟨field, hfield⟩ := exists_ofField_ofRatio negative num den
    rw [hfield, isNaN_ofField]
  unfold ofDecimal
  simp only
  split
  · exact isNaN_ofField _ _
  · split
    · exact isNaN_ofField _ _
    · split
      · exact hratio _ _
      · exact hratio _ _

/-- Ratios below the threshold, and no others, are rounded to finite scalars. -/
theorem isFinite_ofRatio (negative : Bool) {num den : Nat} (hnum : num ≠ 0) (hden : den ≠ 0) :
    (ofRatio negative num den).isFinite = true ↔ (num : ℚ) / den < infinityThreshold := by
  have hpos := Nat.pos_of_ne_zero hden
  obtain ⟨hlow, hhigh⟩ := log2Ratio_spec hnum hden
  unfold ofRatio
  rw [if_neg hnum]
  simp only [Nat.pow_eq]
  rw [isFinite_ofField, infinityField_eq]
  generalize log2Ratio num den = k at hlow hhigh ⊢
  -- the binary logarithm of the ratio says how near the end of the range it is
  rcases lt_trichotomy k 1023 with hk | rfl | hk
  · have hround : ¬ (2 ^ 53 + 2) ≤ if 0 ≤ max (k - 52) (-1074) then
        roundDiv num (den * 2 ^ (max (k - 52) (-1074)).toNat)
        else roundDiv (num * 2 ^ (-max (k - 52) (-1074)).toNat) den := by
      rw [le_roundScaled_iff hpos (by norm_num), not_le]
      calc (num : ℚ) / den < 2 ^ (k + 1) := hhigh
        _ ≤ 2 ^ (53 + max (k - 52) (-1074)) := zpow_le_zpow_right₀ (by norm_num) (by omega)
        _ = 2 ^ (53 : ℤ) * 2 ^ max (k - 52) (-1074) := zpow_add₀ (by norm_num) _ _
        _ ≤ (((2 ^ 53 + 2 : Nat) : ℚ) - 1 / 2) * 2 ^ max (k - 52) (-1074) := by
          apply mul_le_mul_of_nonneg_right _ (by positivity)
          norm_num
    have hratio : (num : ℚ) / den < infinityThreshold := by
      calc (num : ℚ) / den < 2 ^ (k + 1) := hhigh
        _ ≤ 2 ^ (1023 : ℤ) := zpow_le_zpow_right₀ (by norm_num) (by omega)
        _ ≤ infinityThreshold := infinityThreshold_between.1
    refine iff_of_true ?_ hratio
    generalize (if 0 ≤ max (k - 52) (-1074) then _ else _) = m at hround ⊢
    omega
  · have hq : max ((1023 : ℤ) - 52) (-1074) = 971 := by decide
    have hfield : ∀ m : Nat, ((971 : ℤ) + 1074).toNat * 2 ^ 52 + m < 2047 * 2 ^ 52 ↔ ¬ 2 ^ 53 ≤ m := by
      intro m
      omega
    rw [hq, hfield, le_roundScaled_iff hpos (by norm_num), not_le, ← infinityThreshold_eq]
  · have hround : 2 ^ 52 ≤ if 0 ≤ max (k - 52) (-1074) then
        roundDiv num (den * 2 ^ (max (k - 52) (-1074)).toNat)
        else roundDiv (num * 2 ^ (-max (k - 52) (-1074)).toNat) den := by
      rw [le_roundScaled_iff hpos (by norm_num)]
      calc (((2 ^ 52 : Nat) : ℚ) - 1 / 2) * 2 ^ max (k - 52) (-1074)
          ≤ 2 ^ (52 : ℤ) * 2 ^ max (k - 52) (-1074) := by
            apply mul_le_mul_of_nonneg_right _ (by positivity)
            norm_num
        _ = 2 ^ (52 + max (k - 52) (-1074)) := (zpow_add₀ (by norm_num) _ _).symm
        _ = 2 ^ k := by
          congr 1
          omega
        _ ≤ num / den := hlow
    have hratio : ¬ (num : ℚ) / den < infinityThreshold := by
      rw [not_lt]
      calc infinityThreshold ≤ 2 ^ (1024 : ℤ) := infinityThreshold_between.2
        _ ≤ 2 ^ k := zpow_le_zpow_right₀ (by norm_num) (by omega)
        _ ≤ num / den := hlow
    refine iff_of_false ?_ hratio
    generalize (if 0 ≤ max (k - 52) (-1074) then _ else _) = m at hround ⊢
    omega

theorem isFinite_ofDecimal (negative : Bool) (m : Nat) (e : Int) :
    (ofDecimal negative m e).isFinite = true ↔ (m : ℚ) * 10 ^ e < infinityThreshold := by
  have hone : (1 : ℚ) ≤ infinityThreshold :=
    (one_le_zpow₀ (by norm_num) (by norm_num)).trans infinityThreshold_between.1
  have hzero : (ofField negative 0).isFinite = true := (isFinite_ofField _ _).mpr (by decide)
  have hten : (0 : ℚ) < 10 ^ e := by positivity
  by_cases hm : m = 0
  · subst hm
    rw [ofDecimal_zero, Nat.cast_zero, zero_mul]
    exact iff_of_true hzero (by linarith)
  have hlen := Numeral.length_digits m
  have hz := zpow_eq_div 10 e
  push_cast at hz
  unfold ofDecimal
  simp only [hlen, Nat.pow_eq, hm, decide_false, Bool.false_or, decide_eq_true_eq]
  obtain ⟨hlow, hhigh⟩ := size_spec hm e
  split
  · next hsmall =>
    refine iff_of_true hzero (lt_of_lt_of_le (hhigh.trans_le ?_) hone)
    exact zpow_le_one_of_nonpos₀ (by norm_num) (by omega)
  · split
    · next hlarge =>
      refine iff_of_false (fun h => absurd ((isFinite_ofField _ _).mp h) (Nat.lt_irrefl _))
        (not_lt.mpr ?_)
      calc infinityThreshold ≤ 2 ^ (1024 : ℤ) := infinityThreshold_between.2
        _ ≤ 10 ^ (400 : ℤ) := (two_zpow_lt_ten_zpow (by norm_num)).le
        _ ≤ 10 ^ ((Nat.log 10 m : ℤ) + e) :=
          zpow_le_zpow_right₀ (by norm_num) (by push_cast at hlarge; omega)
        _ ≤ m * 10 ^ e := hlow
    · split
      · next he =>
        have hneg : (-e).toNat = 0 := by omega
        rw [isFinite_ofRatio negative (by positivity) one_ne_zero, hz, hneg]
        push_cast
        rw [pow_zero, div_one, div_one]
      · next he =>
        have hnat : e.toNat = 0 := by omega
        rw [isFinite_ofRatio negative hm (by positivity), hz, hnat]
        push_cast
        rw [pow_zero, mul_one_div]

end Scalar

def Token.isInfinite : Token → Bool
  | .float v => !v.isFinite
  | _ => false

theorem Scalar.text_of_infinite {v : Scalar} (hnan : v.isNaN = false) (hinf : v.isFinite = false) :
    v.text = if v.negative then "-inf" else "inf" := by
  simp only [text, hnan, hinf, Bool.false_eq_true, if_false, Bool.not_false, if_true]

namespace Lexer

namespace Pattern

/-- The number that the text of a float denotes, its sign aside. -/
def magnitude (w : List Char) : ℚ :=
  let mantissa := w.takeWhile fun c => !isExponentMark c
  let places := (mantissa.dropWhile (· ≠ '.')).drop 1
  Numeral.value (mantissa.filter isDigit) *
    10 ^ (exponentValue (w.dropWhile fun c => !isExponentMark c) - places.length)

theorem isFinite_decimal (w : List Char) :
    (decimal w).isFinite = true ↔ magnitude w < Scalar.infinityThreshold :=
  Scalar.isFinite_ofDecimal _ _ _

theorem isNaN_decimal (w : List Char) : (decimal w).isNaN = false := Scalar.isNaN_ofDecimal _ _ _

theorem eq_decimal_of_token? {q : Pattern} {w : List Char} {v : Scalar}
    (h : q.token? w = some (.float v)) :
    v = decimal w := by
  cases q with
  | pointFloat => cases h; rfl
  | exponentFloat => cases h; rfl
  | int =>
    rw [token?] at h
    split at h <;> cases h
  | _ => cases h

end Pattern

theorem Spells.lex {s : String} {ts : List Token} (h : Spells s ts) :
    (lex s).1.map (·.token) = ts ∧ (lex s).2 = [] := by
  apply lex_of_scan
  have hscan := h [] rfl
  rwa [List.append_nil, scan_nil, List.append_nil] at hscan

theorem exists_text_of_lex {source : String} {l : Lexeme} (h : l ∈ (lex source).1) :
    ∃ q w rest, Occupies source l.span w rest ∧ Pattern.token? q w = some l.token := by
  obtain ⟨⟨span, p⟩, hp, hl⟩ := List.mem_filterMap.mp h
  obtain ⟨rest, hocc, hjust⟩ := occupies_of_mem_placed hp
  cases p <;> cases hl
  obtain ⟨q, hq⟩ := hjust
  exact ⟨q, _, rest, hocc, hq.2⟩

theorem lex_text_of_infinite {v : Scalar} (hnan : v.isNaN = false) (hinf : v.isFinite = false) :
    lex v.text = if v.negative then ([⟨.ident "inf", ⟨1, 4⟩⟩], [⟨⟨0, 1⟩, ['-']⟩])
      else ([⟨.ident "inf", ⟨0, 3⟩⟩], []) := by
  rw [Scalar.text_of_infinite hnan hinf]
  cases v.negative
  · decide +kernel
  · decide +kernel

/-- Tokens read back. The text of a token of a source is cut into that one token, with nothing
refused, unless the token is an infinity. An infinity is a float whose digits denote a number from
half a unit above the largest scalar on, and its text is read as the name `inf`. -/
theorem tokens_reread_unless_infinite {source : String} {l : Lexeme} (h : l ∈ (lex source).1) :
    (((lex l.token.text).1.map (·.token) = [l.token] ∧ (lex l.token.text).2 = []) ↔
      l.token.isInfinite = false) ∧
    (∃ w rest, Occupies source l.span w rest ∧
      (l.token.isInfinite = true ↔ (∃ v, l.token = .float v) ∧
        Scalar.infinityThreshold ≤ Pattern.magnitude w)) ∧
    (l.token.isInfinite = true → (lex l.token.text).1.map (·.token) = [.ident "inf"]) := by
  obtain ⟨q, w, rest, hocc, htoken⟩ := exists_text_of_lex h
  have hname : l.token.isInfinite = true → (lex l.token.text).1.map (·.token) = [.ident "inf"] := by
    intro hinf
    generalize l.token = t at htoken hinf ⊢
    cases t with
    | float v =>
      cases Pattern.eq_decimal_of_token? htoken
      have hlex := lex_text_of_infinite (Pattern.isNaN_decimal w) (by simpa [Token.isInfinite] using hinf)
      rw [Token.text, hlex]
      split <;> rfl
    | _ => cases hinf
  refine ⟨⟨?_, ?_⟩, ⟨w, rest, hocc, ?_⟩, hname⟩
  · rintro ⟨hsame, _⟩
    by_contra hinf
    rw [Bool.not_eq_false] at hinf
    rw [hname hinf, List.cons.injEq] at hsame
    rw [← hsame.1] at hinf
    cases hinf
  · intro hfin
    refine (spells_token (isWritable_of_lex h) fun v hv => ?_).lex
    rw [hv] at hfin
    simpa [Token.isInfinite] using hfin
  · generalize l.token = t at htoken ⊢
    cases t with
    | float v =>
      cases Pattern.eq_decimal_of_token? htoken
      rw [Token.isInfinite, Bool.not_eq_true', ← Bool.not_eq_true, Pattern.isFinite_decimal, not_lt]
      exact ⟨fun hle => ⟨⟨_, rfl⟩, hle⟩, fun hle => hle.2⟩
    | _ => simp [Token.isInfinite]

/-- The last digits on either side of the threshold. -/
def edgeSource : String := "1.7976931348623158e308 -1.7976931348623159e308"

theorem tokens_reread_unless_infinite_edge :
    (lex edgeSource).1 =
      [⟨.float ⟨0x7FEFFFFFFFFFFFFF⟩, ⟨0, 22⟩⟩, ⟨.float ⟨0xFFF0000000000000⟩, ⟨23, 46⟩⟩] ∧
    ((lex (Token.text (.float ⟨0x7FEFFFFFFFFFFFFF⟩))).1.map (·.token) = [.float ⟨0x7FEFFFFFFFFFFFFF⟩] ∧
      (lex (Token.text (.float ⟨0x7FEFFFFFFFFFFFFF⟩))).2 = []) ∧
    (lex (Token.text (.float ⟨0xFFF0000000000000⟩))).1.map (·.token) = [.ident "inf"] := by
  have hlex : (lex edgeSource).1 =
      [⟨.float ⟨0x7FEFFFFFFFFFFFFF⟩, ⟨0, 22⟩⟩, ⟨.float ⟨0xFFF0000000000000⟩, ⟨23, 46⟩⟩] := by
    decide +kernel
  have hlargest : ⟨.float ⟨0x7FEFFFFFFFFFFFFF⟩, ⟨0, 22⟩⟩ ∈ (lex edgeSource).1 := by
    rw [hlex]
    exact List.mem_cons_self
  have hinfinity : ⟨.float ⟨0xFFF0000000000000⟩, ⟨23, 46⟩⟩ ∈ (lex edgeSource).1 := by
    rw [hlex]
    exact List.mem_cons_of_mem _ List.mem_cons_self
  exact ⟨hlex, (tokens_reread_unless_infinite hlargest).1.mpr (by decide +kernel),
    (tokens_reread_unless_infinite hinfinity).2.2 (by decide +kernel)⟩

/-- An infinity is written as a name. -/
theorem infinity_not_reread :
    (lex "1e400").1 = [⟨.float ⟨0x7FF0000000000000⟩, ⟨0, 5⟩⟩] ∧ (lex "1e400").2 = [] ∧
    lex (Token.text (.float ⟨0x7FF0000000000000⟩)) = ([⟨.ident "inf", ⟨0, 3⟩⟩], []) ∧
    ¬ ∀ (source : String) (l : Lexeme), l ∈ (lex source).1 →
      (lex l.token.text).1.map (·.token) = [l.token] ∧ (lex l.token.text).2 = [] := by
  have hlex : lex "1e400" = ([⟨.float ⟨0x7FF0000000000000⟩, ⟨0, 5⟩⟩], []) := by decide +kernel
  have htext : lex (Token.text (.float ⟨0x7FF0000000000000⟩)) = ([⟨.ident "inf", ⟨0, 3⟩⟩], []) := by
    decide +kernel
  refine ⟨congrArg Prod.fst hlex, congrArg Prod.snd hlex, htext, ?_⟩
  intro hall
  obtain ⟨hsame, _⟩ :=
    hall "1e400" ⟨.float ⟨0x7FF0000000000000⟩, ⟨0, 5⟩⟩ (by rw [hlex]; exact List.mem_cons_self)
  rw [htext] at hsame
  cases hsame

end Lexer

end Stencil
