import Mathlib.Algebra.Order.Field.Power
import Mathlib.Data.Rat.Lemmas
import Mathlib.Tactic.FieldSimp
import Mathlib.Tactic.Linarith
import Mathlib.Tactic.NormNum
import Mathlib.Tactic.Positivity
import Mathlib.Tactic.Ring
import Stencil.Scalar.Shortest

/-! Rounding to scalars: every rational in the interval of a scalar rounds to it. -/

set_option autoImplicit false

namespace Stencil

theorem roundDiv_eq_of_le {num den k : Nat} (hden : 0 < den) (hlow : 2 * (k * den) ≤ 2 * num + den)
    (hhigh : 2 * num ≤ 2 * (k * den) + den) (hup : 2 * (k * den) = 2 * num + den → k % 2 = 0)
    (hdown : 2 * num = 2 * (k * den) + den → k % 2 = 0) : roundDiv num den = k := by
  have hdiv := Nat.div_add_mod' num den
  have hmod := Nat.mod_lt num hden
  unfold roundDiv
  generalize num / den = q at hdiv ⊢
  generalize num % den = r at hdiv hmod ⊢
  -- the quotient is `k` or one less
  have hq : q = k ∨ q + 1 = k := by
    have hbelow : k < q + 2 := by
      by_contra hc
      have hmul : (q + 2) * den ≤ k * den := Nat.mul_le_mul_right _ (by omega)
      rw [Nat.add_mul] at hmul
      omega
    have habove : q < k + 1 := by
      by_contra hc
      have hmul : (k + 1) * den ≤ q * den := Nat.mul_le_mul_right _ (by omega)
      rw [Nat.add_mul] at hmul
      omega
    omega
  rcases hq with rfl | rfl
  · simp only
    split
    · rfl
    · split
      · omega
      · rw [if_pos (hdown (by omega))]
  · rw [Nat.add_mul] at hlow hhigh hup
    simp only
    split
    · omega
    · split
      · rfl
      · have := hup (by omega)
        rw [if_neg (by omega)]

/-- A natural number within half a unit is the rounded quotient; at half a unit it has to be even. -/
theorem roundDiv_eq {num den k : Nat} (hden : 0 < den) (h : |(num : ℚ) / den - k| ≤ 1 / 2)
    (heven : |(num : ℚ) / den - k| = 1 / 2 → k % 2 = 0) : roundDiv num den = k := by
  have hpos : (0 : ℚ) < den := by exact_mod_cast hden
  have hscale : 2 * ((num : ℚ) / den - k) * den = 2 * num - 2 * (k * den) := by
    field_simp
  obtain ⟨hlow, hhigh⟩ := abs_le.mp h
  apply roundDiv_eq_of_le hden
  · have : 2 * ((k : ℚ) * den) ≤ 2 * num + den := by
      have := mul_le_mul_of_nonneg_right hlow hpos.le
      linarith
    exact_mod_cast this
  · have : 2 * (num : ℚ) ≤ 2 * (k * den) + den := by
      have := mul_le_mul_of_nonneg_right hhigh hpos.le
      linarith
    exact_mod_cast this
  · intro he
    apply heven
    have he' : 2 * ((k : ℚ) * den) = 2 * num + den := by exact_mod_cast he
    have hhalf : (num : ℚ) / den - k = -(1 / 2) := mul_right_cancel₀ hpos.ne' (by linarith)
    rw [hhalf, abs_neg, abs_of_pos (by norm_num)]
  · intro he
    apply heven
    have he' : 2 * (num : ℚ) = 2 * (k * den) + den := by exact_mod_cast he
    have hhalf : (num : ℚ) / den - k = 1 / 2 := mul_right_cancel₀ hpos.ne' (by linarith)
    rw [hhalf, abs_of_pos (by norm_num)]

namespace Scalar

theorem zpow_eq_div (b : Nat) (e : Int) :
    (b : ℚ) ^ e = ((b ^ e.toNat : Nat) : ℚ) / ((b ^ (-e).toNat : Nat) : ℚ) := by
  push_cast
  rcases Int.le_total 0 e with he | he
  · have hneg : (-e).toNat = 0 := by omega
    rw [hneg, pow_zero, div_one, ← zpow_natCast, Int.toNat_of_nonneg he]
  · have hpos : e.toNat = 0 := by omega
    rw [hpos, pow_zero, one_div, ← zpow_natCast, Int.toNat_of_nonneg (by omega), zpow_neg, inv_inv]

theorem roundScaled_eq {num den k : Nat} {q : Int} (hden : 0 < den)
    (h : |(num : ℚ) / den / 2 ^ q - k| ≤ 1 / 2)
    (heven : |(num : ℚ) / den / 2 ^ q - k| = 1 / 2 → k % 2 = 0) :
    (if 0 ≤ q then roundDiv num (den * 2 ^ q.toNat) else roundDiv (num * 2 ^ (-q).toNat) den) = k := by
  have hz := zpow_eq_div 2 q
  push_cast at hz
  rw [hz] at h heven
  split
  · next hq =>
    have hneg : (-q).toNat = 0 := by omega
    rw [hneg, pow_zero, div_one, div_div] at h heven
    exact roundDiv_eq (by positivity) (by exact_mod_cast h) (by exact_mod_cast heven)
  · next hq =>
    have hpos : q.toNat = 0 := by omega
    have hunit : (num : ℚ) / den / (1 / 2 ^ (-q).toNat) = (num * 2 ^ (-q).toNat : ℚ) / den := by
      rw [div_div_eq_mul_div, div_one, div_mul_eq_mul_div]
    rw [hpos, pow_zero, hunit] at h heven
    exact roundDiv_eq hden (by exact_mod_cast h) (by exact_mod_cast heven)

theorem zpow_two_le_iff {num den : Nat} (hden : den ≠ 0) (e : Int) :
    (if 0 ≤ e then den * 2 ^ e.toNat ≤ num else den ≤ num * 2 ^ (-e).toNat) ↔
    (2 : ℚ) ^ e ≤ num / den := by
  have hpos : (0 : ℚ) < den := by exact_mod_cast Nat.pos_of_ne_zero hden
  have hz := zpow_eq_div 2 e
  push_cast at hz
  rw [hz, div_le_div_iff₀ (by positivity) hpos]
  split
  · next hle =>
    have hneg : (-e).toNat = 0 := by omega
    rw [hneg, pow_zero, mul_one, mul_comm]
    exact_mod_cast Iff.rfl
  · next hle =>
    have hzero : e.toNat = 0 := by omega
    rw [hzero, pow_zero, one_mul]
    exact_mod_cast Iff.rfl

theorem log2Ratio_eq {num den : Nat} (hden : den ≠ 0) :
    log2Ratio num den = if (2 : ℚ) ^ ((num.log2 : ℤ) - den.log2) ≤ num / den
      then (num.log2 : ℤ) - den.log2 else (num.log2 : ℤ) - den.log2 - 1 := by
  unfold log2Ratio
  simp only [Nat.pow_eq, zpow_two_le_iff hden]

theorem zpow_log2_le {n : Nat} (h : n ≠ 0) : (2 : ℚ) ^ (n.log2 : ℤ) ≤ n := by
  rw [zpow_natCast]
  exact_mod_cast Nat.log2_self_le h

theorem lt_zpow_log2 (n : Nat) : (n : ℚ) < 2 ^ ((n.log2 : ℤ) + 1) := by
  have h : n < 2 ^ (n.log2 + 1) := Nat.lt_log2_self
  exact_mod_cast h

theorem log2Ratio_spec {num den : Nat} (hnum : num ≠ 0) (hden : den ≠ 0) :
    (2 : ℚ) ^ log2Ratio num den ≤ num / den ∧ (num : ℚ) / den < 2 ^ (log2Ratio num den + 1) := by
  have hpos : (0 : ℚ) < den := by exact_mod_cast Nat.pos_of_ne_zero hden
  have hupper : (num : ℚ) / den < 2 ^ ((num.log2 : ℤ) - den.log2 + 1) := by
    rw [div_lt_iff₀ hpos]
    calc (num : ℚ) < 2 ^ ((num.log2 : ℤ) + 1) := lt_zpow_log2 num
      _ = 2 ^ ((num.log2 : ℤ) - den.log2 + 1) * 2 ^ (den.log2 : ℤ) := by
        rw [← zpow_add₀ (by norm_num)]
        congr 1
        omega
      _ ≤ 2 ^ ((num.log2 : ℤ) - den.log2 + 1) * den :=
        mul_le_mul_of_nonneg_left (zpow_log2_le hden) (by positivity)
  have hlower : (2 : ℚ) ^ ((num.log2 : ℤ) - den.log2 - 1) ≤ num / den := by
    rw [le_div_iff₀ hpos]
    calc (2 : ℚ) ^ ((num.log2 : ℤ) - den.log2 - 1) * den
        ≤ 2 ^ ((num.log2 : ℤ) - den.log2 - 1) * 2 ^ ((den.log2 : ℤ) + 1) :=
          mul_le_mul_of_nonneg_left (lt_zpow_log2 den).le (by positivity)
      _ = 2 ^ (num.log2 : ℤ) := by
        rw [← zpow_add₀ (by norm_num)]
        congr 1
        omega
      _ ≤ num := zpow_log2_le hnum
  rw [log2Ratio_eq hden]
  split
  · next hc => exact ⟨hc, hupper⟩
  · next hc =>
    rw [sub_add_cancel]
    exact ⟨hlower, not_le.mp hc⟩

section Fields

variable {x : Scalar}

theorem exponentField_eq (x : Scalar) : x.exponentField = x.bits.toNat / 2 ^ 52 % 2 ^ 11 := rfl

theorem fraction_eq (x : Scalar) : x.fraction = x.bits.toNat % 2 ^ 52 := rfl

theorem mantissa_eq (x : Scalar) :
    x.mantissa = if x.exponentField = 0 then x.fraction else x.fraction + 2 ^ 52 := rfl

theorem fraction_lt (x : Scalar) : x.fraction < 2 ^ 52 := Nat.mod_lt _ (by norm_num)

theorem mantissa_lt (x : Scalar) : x.mantissa < 2 ^ 53 := by
  have := x.fraction_lt
  rw [mantissa_eq]
  split <;> omega

theorem exponentField_lt (h : x.isFinite = true) : x.exponentField < 2047 := by
  have hne : x.exponentField ≠ 2047 := by simpa [isFinite] using h
  have hlt : x.exponentField < 2 ^ 11 := Nat.mod_lt _ (by norm_num)
  omega

theorem exponent_ge (x : Scalar) : -1074 ≤ x.exponent := by
  unfold exponent
  omega

theorem mantissa_ge (h : x.exponent ≠ -1074) : 2 ^ 52 ≤ x.mantissa := by
  have hne : x.exponentField ≠ 0 := by
    intro h0
    apply h
    unfold exponent
    omega
  rw [mantissa_eq, if_neg hne]
  omega

theorem exponentField_of_lt (h : x.exponent ≠ -1074) : 1 < x.exponentField := by
  unfold exponent at h
  omega

theorem ofField_eq (h : x.isFinite = true) :
    ofField x.negative ((x.exponent + 1074).toNat * 2 ^ 52 + x.mantissa) = x := by
  have hfin := exponentField_lt h
  have hfrac := x.fraction_lt
  have hbits := x.bits.toNat_lt
  have hfield : (x.exponent + 1074).toNat * 2 ^ 52 + x.mantissa = x.bits.toNat % 2 ^ 63 := by
    rw [exponentField_eq] at hfin
    rw [mantissa_eq, exponent, exponentField_eq, fraction_eq]
    split <;> omega
  have hmin : min (x.bits.toNat % 2 ^ 63) infinityField = x.bits.toNat % 2 ^ 63 := by
    apply Nat.min_eq_left
    have hmax : infinityField = 2047 * 2 ^ 52 := rfl
    rw [exponentField_eq] at hfin
    omega
  have hsum : (if x.negative then 2 ^ 63 else 0) + x.bits.toNat % 2 ^ 63 = x.bits.toNat := by
    unfold negative
    split
    · next hneg =>
      have hge : 2 ^ 63 ≤ x.bits.toNat := of_decide_eq_true hneg
      omega
    · next hneg =>
      have hlt : ¬ 2 ^ 63 ≤ x.bits.toNat := fun hc => hneg (decide_eq_true hc)
      omega
  rw [hfield, ofField, hmin, Nat.pow_eq, hsum, UInt64.ofNat_toNat]

end Fields

def Interval.Holds (i : Interval) (r : ℚ) : Prop :=
  if i.closed then i.low * 2 ^ i.scale ≤ r ∧ r ≤ i.high * 2 ^ i.scale
  else i.low * 2 ^ i.scale < r ∧ r < i.high * 2 ^ i.scale

theorem quarter (n : ℚ) (e : ℤ) : n * 2 ^ (e - 2) = n / 4 * 2 ^ e := by
  rw [zpow_sub₀ (by norm_num)]
  norm_num
  ring

section Positive

variable {x : Scalar} (hm : x.mantissa ≠ 0)

include hm

/-- The bounds of the interval in units of the last place, and when they can be met. -/
theorem holds_iff {r : ℚ} : x.interval.Holds r ↔
    (if x.mantissa % 2 = 0 then
      (if x.mantissa = 2 ^ 52 ∧
        1 < x.exponentField then (x.mantissa - 1 / 4 : ℚ) else x.mantissa - 1 / 2) ≤
          r / 2 ^ x.exponent ∧ r / 2 ^ x.exponent ≤ x.mantissa + 1 / 2
    else (x.mantissa - 1 / 2 : ℚ) < r / 2 ^ x.exponent ∧ r / 2 ^ x.exponent < x.mantissa + 1 / 2) := by
  have hpos : (0 : ℚ) < 2 ^ x.exponent := by positivity
  have hone : 1 ≤ x.mantissa := Nat.one_le_iff_ne_zero.mpr hm
  have hlow : ((x.interval.low : ℕ) : ℚ) * 2 ^ x.interval.scale =
      (if x.mantissa = 2 ^ 52 ∧ 1 < x.exponentField then (x.mantissa - 1 / 4 : ℚ)
        else x.mantissa - 1 / 2) * 2 ^ x.exponent := by
    simp only [interval, quarter]
    by_cases hn : x.mantissa = 2 ^ 52 ∧ 1 < x.exponentField
    · rw [if_pos hn, if_pos (by simpa using hn), Nat.cast_sub (by omega)]
      push_cast
      ring
    · rw [if_neg hn, if_neg (by simpa using hn), Nat.cast_sub (by omega)]
      push_cast
      ring
  have hhigh : ((x.interval.high : ℕ) : ℚ) * 2 ^ x.interval.scale =
      (x.mantissa + 1 / 2) * 2 ^ x.exponent := by
    simp only [interval, quarter]
    push_cast
    ring
  unfold Interval.Holds
  rw [hlow, hhigh]
  by_cases he : x.mantissa % 2 = 0
  · rw [if_pos he, if_pos (by simpa [interval] using he), le_div_iff₀ hpos, div_le_iff₀ hpos]
  · have hodd : ¬ (x.mantissa = 2 ^ 52 ∧ 1 < x.exponentField) := by
      rintro ⟨h, _⟩
      rw [h] at he
      exact he (by norm_num)
    rw [if_neg he, if_neg (by simpa [interval] using he), if_neg hodd, lt_div_iff₀ hpos, div_lt_iff₀ hpos]

end Positive

theorem Interval.Holds.near {x : Scalar} (hm : x.mantissa ≠ 0) {r : ℚ} (h : x.interval.Holds r) :
    |r / 2 ^ x.exponent - x.mantissa| ≤ 1 / 2 ∧
      (|r / 2 ^ x.exponent - x.mantissa| = 1 / 2 → x.mantissa % 2 = 0) ∧
      (x.mantissa = 2 ^ 52 → 1 < x.exponentField → (x.mantissa : ℚ) - 1 / 4 ≤ r / 2 ^ x.exponent) := by
  have h := (holds_iff hm).mp h
  split at h
  · next he =>
    refine ⟨?_, fun _ => he, ?_⟩
    · rw [abs_le]
      split at h
      · constructor <;> linarith [h.1, h.2]
      · constructor <;> linarith [h.1, h.2]
    · intro h52 hef
      rw [if_pos ⟨h52, hef⟩] at h
      exact h.1
  · next he =>
    have hlt : |r / 2 ^ x.exponent - x.mantissa| < 1 / 2 := by
      rw [abs_lt]
      constructor <;> linarith [h.1, h.2]
    refine ⟨hlt.le, fun heq => absurd heq hlt.ne, ?_⟩
    intro h52
    exact absurd (by rw [h52]; norm_num) he

theorem log2Ratio_lt {num den : Nat} (hnum : num ≠ 0) (hden : den ≠ 0) {e : Int}
    (h : (num : ℚ) / den < 2 ^ e) : log2Ratio num den < e :=
  (zpow_lt_zpow_iff_right₀ (by norm_num)).mp ((log2Ratio_spec hnum hden).1.trans_lt h)

theorem le_log2Ratio {num den : Nat} (hnum : num ≠ 0) (hden : den ≠ 0) {e : Int}
    (h : (2 : ℚ) ^ e ≤ num / den) : e ≤ log2Ratio num den := by
  have := (zpow_lt_zpow_iff_right₀ (by norm_num)).mp (h.trans_lt (log2Ratio_spec hnum hden).2)
  omega

theorem ofRatio_of_unit {negative : Bool} {num den k : Nat} {q : Int} (hnum : num ≠ 0) (hden : den ≠ 0)
    (hq : max (log2Ratio num den - 52) (-1074) = q) (h : |(num : ℚ) / den / 2 ^ q - k| ≤ 1 / 2)
    (heven : |(num : ℚ) / den / 2 ^ q - k| = 1 / 2 → k % 2 = 0) :
    ofRatio negative num den = ofField negative ((q + 1074).toNat * 2 ^ 52 + k) := by
  unfold ofRatio
  rw [if_neg hnum]
  simp only [hq, Nat.pow_eq]
  rw [roundScaled_eq (Nat.pos_of_ne_zero hden) h heven]

/-- A ratio in the interval of a scalar rounds to it. -/
theorem ofRatio_eq {x : Scalar} (hfin : x.isFinite = true) (hm : x.mantissa ≠ 0) {num den : Nat}
    (hnum : num ≠ 0) (hden : den ≠ 0) (h : x.interval.Holds (num / den)) :
    ofRatio x.negative num den = x := by
  obtain ⟨hnear, htie, hnarrow⟩ := h.near hm
  have hpos : (0 : ℚ) < 2 ^ x.exponent := by positivity
  have hge := x.exponent_ge
  obtain ⟨hlow, hhigh⟩ := abs_le.mp hnear
  by_cases hcase : (2 : ℚ) ^ (52 : ℤ) ≤ num / den / 2 ^ x.exponent ∨ x.exponent = -1074
  · -- the units are those of the scalar
    have hq : max (log2Ratio num den - 52) (-1074) = x.exponent := by
      have hlt : log2Ratio num den < 53 + x.exponent := by
        have hmlt : (x.mantissa : ℚ) + 1 ≤ 2 ^ 53 := by exact_mod_cast x.mantissa_lt
        apply log2Ratio_lt hnum hden
        rw [zpow_add₀ (by norm_num), ← div_lt_iff₀ hpos]
        norm_num at hmlt ⊢
        linarith
      rcases hcase with hfull | hleast
      · have : 52 + x.exponent ≤ log2Ratio num den := by
          apply le_log2Ratio hnum hden
          rwa [zpow_add₀ (by norm_num), ← le_div_iff₀ hpos]
        omega
      · omega
    rw [ofRatio_of_unit hnum hden hq hnear htie]
    exact ofField_eq hfin
  · -- the ratio is just below the power of two that the scalar is
    rw [not_or, not_le] at hcase
    obtain ⟨hbelow, hexp⟩ := hcase
    have h52 : x.mantissa = 2 ^ 52 := by
      have hfull := mantissa_ge hexp
      have hlt : (x.mantissa : ℚ) < 2 ^ 52 + 1 := by
        have hbelow' : (num : ℚ) / den / 2 ^ x.exponent < 2 ^ 52 := hbelow
        linarith
      have : x.mantissa < 2 ^ 52 + 1 := by exact_mod_cast hlt
      omega
    have hquarter := hnarrow h52 (exponentField_of_lt hexp)
    rw [h52] at hquarter
    have hq : max (log2Ratio num den - 52) (-1074) = x.exponent - 1 := by
      have hle : 51 + x.exponent ≤ log2Ratio num den := by
        apply le_log2Ratio hnum hden
        rw [zpow_add₀ (by norm_num), ← le_div_iff₀ hpos]
        norm_num at hquarter ⊢
        linarith
      have hlt : log2Ratio num den < 52 + x.exponent := by
        apply log2Ratio_lt hnum hden
        rwa [zpow_add₀ (by norm_num), ← div_lt_iff₀ hpos]
      omega
    have hhalved : (num : ℚ) / den / 2 ^ (x.exponent - 1) = 2 * (num / den / 2 ^ x.exponent) := by
      rw [zpow_sub₀ (by norm_num), zpow_one, div_div_eq_mul_div]
      ring
    have hfield : (x.exponent - 1 + 1074).toNat * 2 ^ 52 + 2 ^ 53 =
        (x.exponent + 1074).toNat * 2 ^ 52 + x.mantissa := by
      rw [h52]
      omega
    rw [ofRatio_of_unit (k := 2 ^ 53) hnum hden hq, hfield, ofField_eq hfin]
    · rw [hhalved, abs_le]
      norm_num at hquarter hbelow ⊢
      constructor <;> linarith
    · intro _
      norm_num

end Scalar

end Stencil
