import Mathlib.Data.Nat.Log
import Mathlib.Tactic.Ring
import Stencil.Token.Lexer

/-! Numerals read back: the digits of a number are digits, and their value is the number. -/

set_option autoImplicit false

namespace Stencil

namespace Numeral

theorem digitValue_digit : ∀ d, d < 10 → digitValue (digit d) = d := by decide

theorem isDigit_digit : ∀ d, d < 10 → Lexer.isDigit (digit d) = true := by decide

theorem value_append (cs ds : List Char) : value (cs ++ ds) = value cs * 10 ^ ds.length + value ds := by
  have hfold : ∀ (ds : List Char) (n : Nat),
      ds.foldl (fun n c => 10 * n + digitValue c) n = n * 10 ^ ds.length + value ds := by
    intro ds
    induction ds with
    | nil => simp [value]
    | cons d ds ih =>
      intro n
      simp only [value, List.foldl_cons, List.length_cons, Nat.mul_zero, Nat.zero_add]
      rw [ih (10 * n + digitValue d), ih (digitValue d)]
      ring
  rw [value, List.foldl_append, hfold]
  rfl

theorem value_singleton (c : Char) : value [c] = digitValue c := by simp [value]

theorem value_replicate_zero (k : Nat) : value (List.replicate k '0') = 0 := by
  induction k with
  | zero => rfl
  | succ k ih => rw [List.replicate_succ', value_append, ih, value_singleton]; rfl

section Base

variable {base : Nat} {symbol : Nat → Char}

theorem digitsOnto_append (fuel n : Nat) (tail : List Char) :
    digitsOnto base symbol fuel n tail = digitsOnto base symbol fuel n [] ++ tail := by
  induction fuel generalizing n tail with
  | zero => rfl
  | succ fuel ih =>
    rw [digitsOnto, digitsOnto]
    split
    · rfl
    · rw [ih _ (_ :: tail), ih _ [_], List.append_assoc, List.singleton_append]

variable (hbase : 1 < base)

include hbase

theorem digitsOnto_of_lt {fuel fuel' n : Nat} (h : n < fuel) (h' : n < fuel') :
    digitsOnto base symbol fuel n [] = digitsOnto base symbol fuel' n [] := by
  induction fuel generalizing fuel' n with
  | zero => omega
  | succ fuel ih =>
    cases fuel' with
    | zero => omega
    | succ fuel' =>
      rw [digitsOnto, digitsOnto]
      split
      · rfl
      · have hless := Nat.div_lt_self (by omega : 0 < n) hbase
        rw [digitsOnto_append fuel, digitsOnto_append fuel',
          ih (by omega : n / base < fuel) (by omega : n / base < fuel')]

theorem inBase_eq (n : Nat) : inBase base symbol n =
    if n < base then [symbol n] else inBase base symbol (n / base) ++ [symbol (n % base)] := by
  rw [inBase, digitsOnto]
  split
  · rfl
  · have hless := Nat.div_lt_self (by omega : 0 < n) hbase
    rw [digitsOnto_append, digitsOnto_of_lt hbase hless (Nat.lt_succ_self _), inBase]

theorem inBase_ne_nil (n : Nat) : inBase base symbol n ≠ [] := by
  rw [inBase_eq hbase]
  split
  · simp
  · simp

theorem exists_of_mem_inBase {n : Nat} {c : Char} (h : c ∈ inBase base symbol n) :
    ∃ d, d < base ∧ c = symbol d := by
  induction n using Nat.strongRecOn with
  | ind n ih =>
    rw [inBase_eq hbase] at h
    split at h
    · next hn => exact ⟨n, hn, List.mem_singleton.mp h⟩
    · rcases List.mem_append.mp h with h | h
      · exact ih (n / base) (Nat.div_lt_self (by omega) hbase) h
      · exact ⟨n % base, Nat.mod_lt _ (by omega), List.mem_singleton.mp h⟩

theorem inBase_injective
    (hsymbol : ∀ d, d < base → ∀ e, e < base → symbol d = symbol e → d = e) {m n : Nat}
    (h : inBase base symbol m = inBase base symbol n) : m = n := by
  induction m using Nat.strongRecOn generalizing n with
  | ind m ih =>
    have hshort : ∀ {c d : Char} {k : Nat}, [c] ≠ inBase base symbol k ++ [d] := by
      intro c d k hk
      have hlength := congrArg List.length hk
      rw [List.length_append, List.length_singleton, List.length_singleton] at hlength
      have hnil : inBase base symbol k = [] := List.eq_nil_of_length_eq_zero (by omega)
      exact inBase_ne_nil hbase k hnil
    rw [inBase_eq hbase m, inBase_eq hbase n] at h
    split at h
    · next hm =>
      split at h
      · next hn => exact hsymbol m hm n hn (List.cons.inj h).1
      · exact absurd h hshort
    · split at h
      · exact absurd h.symm hshort
      · have hdiv := ih (m / base) (Nat.div_lt_self (by omega) hbase) (List.append_inj_left' h rfl)
        have hmod := hsymbol _ (Nat.mod_lt m (by omega)) _ (Nat.mod_lt n (by omega))
          (List.cons.inj (List.append_inj_right' h rfl)).1
        rw [← Nat.div_add_mod m base, ← Nat.div_add_mod n base, hdiv, hmod]

end Base

theorem digits_eq (n : Nat) :
    digits n = if n < 10 then [digit n] else digits (n / 10) ++ [digit (n % 10)] :=
  inBase_eq (by decide) n

theorem digits_ne_nil (n : Nat) : digits n ≠ [] := inBase_ne_nil (by decide) n

theorem value_digits (n : Nat) : value (digits n) = n := by
  induction n using Nat.strongRecOn with
  | ind n ih =>
    rw [digits_eq]
    split
    · next h => rw [value_singleton, digitValue_digit n h]
    · rw [value_append, ih (n / 10) (by omega), value_singleton,
        digitValue_digit _ (Nat.mod_lt _ (by omega))]
      simp only [List.length_singleton, Nat.pow_one]
      omega

theorem isDigit_of_mem_digits {n : Nat} {c : Char} (h : c ∈ digits n) : Lexer.isDigit c = true := by
  obtain ⟨d, hd, rfl⟩ := exists_of_mem_inBase (by decide) h
  exact isDigit_digit d hd

theorem digits_injective {m n : Nat} (h : digits m = digits n) : m = n := by
  rw [← value_digits m, h, value_digits]

theorem length_digits (n : Nat) : (digits n).length = Nat.log 10 n + 1 := by
  induction n using Nat.strongRecOn with
  | ind n ih =>
    rw [digits_eq]
    split
    · next h => rw [Nat.log_of_lt h]; rfl
    · next h =>
      rw [List.length_append, ih (n / 10) (by omega),
        Nat.log_of_one_lt_of_le (by omega) (by omega : 10 ≤ n)]
      rfl

end Numeral

theorem natText_injective {m n : Nat} (h : natText m = natText n) : m = n :=
  Numeral.digits_injective (String.ofList_injective h)

end Stencil
