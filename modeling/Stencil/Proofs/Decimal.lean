import Stencil.Proofs.Numeral
import Stencil.Proofs.Rounding

/-! Decimals of scalars: the search finds a decimal in the interval of the scalar, and every way to
write a number of that interval reads back as the scalar. -/

set_option autoImplicit false

namespace Stencil.Scalar

namespace Interval

theorem exists_unit (i : Interval) (power : Int) : ∃ unit : ℚ, 0 < unit ∧
    ((scaleRatio i.scale power).1 : ℚ) = 2 ^ i.scale * unit ∧
    ((scaleRatio i.scale power).2 : ℚ) = 10 ^ power * unit := by
  have h2 := zpow_eq_div 2 i.scale
  have h10 := zpow_eq_div 10 power
  push_cast at h2 h10
  refine ⟨2 ^ (-i.scale).toNat * 10 ^ (-power).toNat, by positivity, ?_, ?_⟩
  · simp only [scaleRatio, Nat.pow_eq]
    rw [h2]
    push_cast
    field_simp
  · simp only [scaleRatio, Nat.pow_eq]
    rw [h10]
    push_cast
    field_simp

def inside (i : Interval) (power : Int) (n : Nat) : Bool :=
  let (a, b) := scaleRatio i.scale power
  if i.closed then i.low * a ≤ n * b && n * b ≤ i.high * a
  else i.low * a < n * b && n * b < i.high * a

theorem inside_iff {i : Interval} {power : Int} {n : Nat} :
    i.inside power n = true ↔ i.Holds (n * 10 ^ power) := by
  obtain ⟨unit, hunit, ha, hb⟩ := i.exists_unit power
  unfold inside Holds
  generalize scaleRatio i.scale power = ab at ha hb ⊢
  obtain ⟨a, b⟩ := ab
  simp only at ha hb ⊢
  have hle : ∀ k k' : Nat, (k * a ≤ k' * b ↔ (k : ℚ) * 2 ^ i.scale ≤ k' * 10 ^ power) ∧
      (k' * b ≤ k * a ↔ (k' : ℚ) * 10 ^ power ≤ k * 2 ^ i.scale) := by
    intro k k'
    have h1 : ((k * a : Nat) : ℚ) = k * 2 ^ i.scale * unit := by rw [Nat.cast_mul, ha, mul_assoc]
    have h2 : ((k' * b : Nat) : ℚ) = k' * 10 ^ power * unit := by rw [Nat.cast_mul, hb, mul_assoc]
    constructor
    · rw [← Nat.cast_le (α := ℚ), h1, h2, mul_le_mul_iff_of_pos_right hunit]
    · rw [← Nat.cast_le (α := ℚ), h1, h2, mul_le_mul_iff_of_pos_right hunit]
  by_cases hc : i.closed = true
  · simp [hc, (hle i.low n).1, (hle i.high n).2]
  · simp only [hc, Bool.false_eq_true, if_false, Bool.and_eq_true, decide_eq_true_eq]
    rw [← not_le, ← not_le, (hle i.low n).2, (hle i.high n).1, not_le, not_le]

def floor (i : Interval) (power : Int) : Nat :=
  i.centre * (scaleRatio i.scale power).1 / (scaleRatio i.scale power).2

theorem pick_eq (i : Interval) (tie : Tie) (power : Int) :
    ∃ both : Option Nat, (both = some (i.floor power) ∨ both = some (i.floor power + 1)) ∧
      i.pick tie power = match i.inside power (i.floor power), i.inside power (i.floor power + 1) with
        | true, true => both
        | true, false => some (i.floor power)
        | false, true => some (i.floor power + 1)
        | false, false => none := by
  refine ⟨_, ?_, rfl⟩
  split
  · exact .inl rfl
  · split
    · exact .inr rfl
    · split
      · exact .inl rfl
      · exact .inr rfl

theorem pick_cases (i : Interval) (tie : Tie) (power : Int) :
    (∃ n, i.pick tie power = some n ∧ i.inside power n = true) ∨
      (i.pick tie power = none ∧ i.inside power (i.floor power) = false ∧
        i.inside power (i.floor power + 1) = false) := by
  obtain ⟨both, hboth, heq⟩ := i.pick_eq tie power
  rw [heq]
  cases h0 : i.inside power (i.floor power) with
  | true =>
    cases h1 : i.inside power (i.floor power + 1) with
    | true =>
      rcases hboth with rfl | rfl
      · exact .inl ⟨_, rfl, h0⟩
      · exact .inl ⟨_, rfl, h1⟩
    | false => exact .inl ⟨_, rfl, h0⟩
  | false =>
    cases h1 : i.inside power (i.floor power + 1) with
    | true => exact .inl ⟨_, rfl, h1⟩
    | false => exact .inr ⟨rfl, rfl, rfl⟩

theorem floor_spec (i : Interval) (power : Int) :
    (i.floor power : ℚ) * 10 ^ power ≤ i.centre * 2 ^ i.scale ∧
      (i.centre : ℚ) * 2 ^ i.scale < (i.floor power + 1) * 10 ^ power := by
  obtain ⟨unit, hunit, ha, hb⟩ := i.exists_unit power
  have hpos : 0 < (scaleRatio i.scale power).2 := by
    simp only [scaleRatio, Nat.pow_eq]
    positivity
  have hdiv := Nat.div_mul_le_self (i.centre * (scaleRatio i.scale power).1) (scaleRatio i.scale power).2
  have hlt := Nat.lt_div_mul_add (a := i.centre * (scaleRatio i.scale power).1) hpos
  rw [← Nat.cast_le (α := ℚ)] at hdiv
  rw [← Nat.cast_lt (α := ℚ)] at hlt
  push_cast at hdiv hlt
  rw [ha, hb] at hdiv hlt
  rw [floor]
  constructor
  · apply le_of_mul_le_mul_right _ hunit
    linarith
  · apply lt_of_mul_lt_mul_right _ hunit.le
    linarith

/-- On a grid finer than the interval a decimal is found. -/
theorem exists_pick {i : Interval} {power : Int} (tie : Tie) (hlow : i.low < i.centre)
    (hhigh : i.centre < i.high) (h : (10 : ℚ) ^ power < (i.high - i.low) * 2 ^ i.scale) :
    ∃ n, i.pick tie power = some n ∧ i.Holds (n * 10 ^ power) := by
  rcases i.pick_cases tie power with ⟨n, hn, hin⟩ | ⟨_, h0, h1⟩
  · exact ⟨n, hn, inside_iff.mp hin⟩
  -- otherwise one neighbour is not above the interval and the other not below it
  exfalso
  obtain ⟨hf0, hf1⟩ := i.floor_spec power
  have hs : (0 : ℚ) < 2 ^ i.scale := by positivity
  have hl : (i.low : ℚ) * 2 ^ i.scale < i.centre * 2 ^ i.scale :=
    mul_lt_mul_of_pos_right (by exact_mod_cast hlow) hs
  have hh : (i.centre : ℚ) * 2 ^ i.scale < i.high * 2 ^ i.scale :=
    mul_lt_mul_of_pos_right (by exact_mod_cast hhigh) hs
  have hout : ∀ n, i.inside power n = false → ¬ i.Holds (n * 10 ^ power) := by
    intro n hn hholds
    rw [inside_iff.mpr hholds] at hn
    cases hn
  have hbelow : (i.floor power : ℚ) * 10 ^ power ≤ i.low * 2 ^ i.scale := by
    by_contra hc
    apply hout _ h0
    unfold Holds
    split <;> constructor <;> linarith
  have habove : (i.high : ℚ) * 2 ^ i.scale ≤ (i.floor power + 1) * 10 ^ power := by
    by_contra hc
    apply hout _ h1
    push_cast
    unfold Holds
    split <;> constructor <;> linarith
  linarith

theorem search_holds {i : Interval} {tie : Tie} {count : Nat} {power : Int}
    (h : ∃ j : Nat, j < count ∧ ∃ n, i.pick tie (power - j) = some n) :
    i.Holds ((i.search tie count power).coefficient * 10 ^ (i.search tie count power).power) := by
  induction count generalizing power with
  | zero =>
    obtain ⟨j, hj, _⟩ := h
    omega
  | succ count ih =>
    unfold search
    rcases i.pick_cases tie power with ⟨n, hn, hin⟩ | ⟨hnone, _⟩
    · rw [hn]
      exact inside_iff.mp hin
    · rw [hnone]
      apply ih
      obtain ⟨j, hj, n, hn⟩ := h
      cases j with
      | zero =>
        rw [Nat.cast_zero, sub_zero, hnone] at hn
        cases hn
      | succ j =>
        refine ⟨j, by omega, n, ?_⟩
        rw [← hn]
        congr 1
        push_cast
        ring

theorem ten_pow_log10_le {i : Interval} (h : (10 : ℚ) ^ (-400 : ℤ) ≤ i.centre * 2 ^ i.scale) :
    (10 : ℚ) ^ i.log10 ≤ i.centre * 2 ^ i.scale := by
  obtain ⟨hle, hlt⟩ := i.floor_spec (-400)
  have hne : i.floor (-400) ≠ 0 := by
    intro h0
    rw [h0, Nat.cast_zero, zero_add, one_mul] at hlt
    exact absurd h (not_le.mpr hlt)
  have hlog : i.log10 = (Nat.log 10 (i.floor (-400)) : ℤ) - 400 := by
    have hlen := Numeral.length_digits (i.floor (-400))
    unfold floor at hlen
    simp only [log10, hlen, floor]
    push_cast
    ring
  have hpow : ((10 ^ Nat.log 10 (i.floor (-400)) : Nat) : ℚ) ≤ i.floor (-400) := by
    exact_mod_cast Nat.pow_log_le_self 10 hne
  calc (10 : ℚ) ^ i.log10 = ((10 ^ Nat.log 10 (i.floor (-400)) : Nat) : ℚ) * 10 ^ (-400 : ℤ) := by
        rw [hlog, zpow_sub₀ (by norm_num), zpow_natCast, zpow_neg, div_eq_mul_inv, Nat.cast_pow,
          Nat.cast_ofNat]
    _ ≤ i.floor (-400) * 10 ^ (-400 : ℤ) := mul_le_mul_of_nonneg_right hpow (by positivity)
    _ ≤ i.centre * 2 ^ i.scale := hle

end Interval

theorem centre_eq (x : Scalar) :
    (x.interval.centre : ℚ) * 2 ^ x.interval.scale = x.mantissa * 2 ^ x.exponent := by
  simp only [interval, quarter]
  push_cast
  ring

theorem exponent_le {x : Scalar} (h : x.isFinite = true) : x.exponent ≤ 971 := by
  have := exponentField_lt h
  unfold exponent
  omega

theorem two_zpow_lt_ten_zpow {n : Int} (h : n ≤ 1200) : (2 : ℚ) ^ n < 10 ^ (400 : ℤ) := by
  calc (2 : ℚ) ^ n ≤ 2 ^ ((3 : ℤ) * 400) := zpow_le_zpow_right₀ (by norm_num) h
    _ = (2 ^ (3 : ℤ)) ^ (400 : ℤ) := zpow_mul 2 3 400
    _ < 10 ^ (400 : ℤ) := zpow_lt_zpow_left₀ (by norm_num) (by norm_num) (by norm_num)

theorem ten_zpow_lt_two_zpow : (10 : ℚ) ^ (-400 : ℤ) < 2 ^ (-1075 : ℤ) := by
  rw [zpow_neg, zpow_neg, inv_lt_inv₀ (by positivity) (by positivity)]
  exact two_zpow_lt_ten_zpow (by norm_num)

theorem size_spec {m : Nat} (hm : m ≠ 0) (e : Int) : (10 : ℚ) ^ ((Nat.log 10 m : ℤ) + e) ≤ m * 10 ^ e ∧
    (m : ℚ) * 10 ^ e < 10 ^ (((Nat.log 10 m + 1 : Nat) : ℤ) + e) := by
  have hten : (0 : ℚ) < 10 ^ e := by positivity
  rw [zpow_add₀ (by norm_num), zpow_add₀ (by norm_num), zpow_natCast, zpow_natCast]
  constructor
  · apply mul_le_mul_of_nonneg_right _ hten.le
    exact_mod_cast Nat.pow_log_le_self 10 hm
  · apply mul_lt_mul_of_pos_right _ hten
    exact_mod_cast Nat.lt_pow_succ_log_self (by norm_num) m

section Positive

variable {x : Scalar} (hfin : x.isFinite = true) (hm : x.mantissa ≠ 0)

include hm

theorem one_le_mantissa : (1 : ℚ) ≤ x.mantissa := by
  exact_mod_cast Nat.one_le_iff_ne_zero.mpr hm

theorem Interval.Holds.range {r : ℚ} (h : x.interval.Holds r) :
    (2 : ℚ) ^ (-1075 : ℤ) ≤ r ∧ (x.isFinite = true → r < 2 ^ (1024 : ℤ)) := by
  obtain ⟨hnear, _⟩ := h.near hm
  obtain ⟨hlow, hhigh⟩ := abs_le.mp hnear
  have hone := one_le_mantissa hm
  have hpos : (0 : ℚ) < 2 ^ x.exponent := by positivity
  constructor
  · have hhalf : (1 : ℚ) / 2 * 2 ^ x.exponent ≤ r := by
      rw [← le_div_iff₀ hpos]
      linarith
    have hexp : (2 : ℚ) ^ (-1074 : ℤ) ≤ 2 ^ x.exponent :=
      zpow_le_zpow_right₀ (by norm_num) x.exponent_ge
    have hhalves : (2 : ℚ) ^ (-1075 : ℤ) = 1 / 2 * 2 ^ (-1074 : ℤ) := by
      rw [show (-1075 : ℤ) = -1 + -1074 by norm_num, zpow_add₀ (by norm_num)]
      norm_num
    rw [hhalves]
    linarith
  · intro hfin
    have hmlt : (x.mantissa : ℚ) + 1 ≤ 2 ^ 53 := by exact_mod_cast x.mantissa_lt
    have hlt : r < 2 ^ 53 * 2 ^ x.exponent := by
      rw [← div_lt_iff₀ hpos]
      linarith
    have hexp : (2 : ℚ) ^ x.exponent ≤ 2 ^ (971 : ℤ) :=
      zpow_le_zpow_right₀ (by norm_num) (exponent_le hfin)
    calc r < 2 ^ 53 * 2 ^ x.exponent := hlt
      _ ≤ 2 ^ 53 * 2 ^ (971 : ℤ) := mul_le_mul_of_nonneg_left hexp (by positivity)
      _ = 2 ^ (1024 : ℤ) := by
        rw [← zpow_natCast, ← zpow_add₀ (by norm_num)]
        rfl

/-- The shortest decimal of a scalar lies in its interval: with seventeen digits the grid is finer
than the interval. -/
theorem shortest_holds (tie : Tie) :
    x.interval.Holds ((x.shortest tie).coefficient * 10 ^ (x.shortest tie).power) := by
  have hone := one_le_mantissa hm
  have hone' : 1 ≤ x.mantissa := Nat.one_le_iff_ne_zero.mpr hm
  have hlow : x.interval.low < x.interval.centre := by
    simp only [interval]
    split <;> omega
  have hhigh : x.interval.centre < x.interval.high := by
    simp only [interval]
    omega
  have hcentre : (10 : ℚ) ^ (-400 : ℤ) ≤ x.interval.centre * 2 ^ x.interval.scale := by
    have hexp : (2 : ℚ) ^ (-1075 : ℤ) ≤ 2 ^ x.exponent :=
      zpow_le_zpow_right₀ (by norm_num) (by have := x.exponent_ge; omega)
    rw [centre_eq]
    calc (10 : ℚ) ^ (-400 : ℤ) ≤ 2 ^ x.exponent := (ten_zpow_lt_two_zpow.trans_le hexp).le
      _ ≤ x.mantissa * 2 ^ x.exponent := le_mul_of_one_le_left (by positivity) hone
  have hlog := Interval.ten_pow_log10_le hcentre
  apply Interval.search_holds
  refine ⟨16, by norm_num, ?_⟩
  have hfine : (10 : ℚ) ^ (x.interval.log10 - (16 : ℕ)) <
      (x.interval.high - x.interval.low) * 2 ^ x.interval.scale := by
    have hs : (0 : ℚ) < 2 ^ x.interval.scale := by positivity
    have hwidth : (x.interval.centre : ℚ) < 10 ^ 16 * (x.interval.high - x.interval.low) := by
      simp only [interval]
      split
      · next hn =>
        have h52 : x.mantissa = 2 ^ 52 := by
          simp only [Bool.and_eq_true, decide_eq_true_eq] at hn
          exact hn.1
        rw [Nat.cast_sub (by omega), h52]
        norm_num
      · have hmlt : (x.mantissa : ℚ) + 1 ≤ 2 ^ 53 := by exact_mod_cast x.mantissa_lt
        rw [Nat.cast_sub (by omega)]
        push_cast
        norm_num at hmlt ⊢
        linarith
    have hdiv : (10 : ℚ) ^ (x.interval.log10 - (16 : ℕ)) = 10 ^ x.interval.log10 / 10 ^ 16 := by
      rw [zpow_sub₀ (by norm_num), zpow_natCast]
    rw [hdiv, div_lt_iff₀ (by positivity)]
    calc (10 : ℚ) ^ x.interval.log10 ≤ x.interval.centre * 2 ^ x.interval.scale := hlog
      _ < 10 ^ 16 * (x.interval.high - x.interval.low) * 2 ^ x.interval.scale :=
        mul_lt_mul_of_pos_right hwidth hs
      _ = (x.interval.high - x.interval.low) * 2 ^ x.interval.scale * 10 ^ 16 := by ring
  obtain ⟨n, hn, _⟩ := Interval.exists_pick tie hlow hhigh hfine
  exact ⟨n, hn⟩

include hfin

/-- A decimal in the interval of a finite scalar reads back as the scalar. -/
theorem ofDecimal_eq {m : Nat} {e : Int} (h : x.interval.Holds (m * 10 ^ e)) :
    ofDecimal x.negative m e = x := by
  obtain ⟨hlow, hhigh⟩ := h.range hm
  have hhigh := hhigh hfin
  have hpos : (0 : ℚ) < m * 10 ^ e := lt_of_lt_of_le (by positivity) hlow
  have hm0 : m ≠ 0 := by
    rintro rfl
    norm_num at hpos
  have hlen := Numeral.length_digits m
  obtain ⟨hsizeLow, hsizeHigh⟩ := size_spec hm0 e
  have hsmall : ¬ ((Nat.log 10 m + 1 : Nat) : ℤ) + e < -400 := by
    intro hc
    have : (m : ℚ) * 10 ^ e < 10 ^ (-400 : ℤ) :=
      hsizeHigh.trans_le (zpow_le_zpow_right₀ (by norm_num) hc.le)
    linarith [ten_zpow_lt_two_zpow]
  have hlarge : ¬ 400 < ((Nat.log 10 m + 1 : Nat) : ℤ) + e := by
    intro hc
    have : (10 : ℚ) ^ (400 : ℤ) ≤ m * 10 ^ e :=
      (zpow_le_zpow_right₀ (by norm_num) (by push_cast at hc; omega)).trans hsizeLow
    exact absurd (hhigh.trans (two_zpow_lt_ten_zpow (by norm_num))) (not_lt.mpr this)
  unfold ofDecimal
  simp only [hlen, Nat.pow_eq]
  rw [if_neg (by simpa [hm0] using hsmall), if_neg hlarge]
  have hz := zpow_eq_div 10 e
  push_cast at hz
  split
  · next he =>
    have hneg : (-e).toNat = 0 := by omega
    apply ofRatio_eq hfin hm (by positivity) (by norm_num)
    rw [hz, hneg, pow_zero, div_one] at h
    push_cast
    rwa [div_one]
  · next he =>
    have hnat : e.toNat = 0 := by omega
    apply ofRatio_eq hfin hm hm0 (by positivity)
    rw [hz, hnat, pow_zero, mul_one_div] at h
    push_cast
    exact h

end Positive

end Stencil.Scalar
