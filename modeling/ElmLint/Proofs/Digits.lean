import ElmLint.Text.CharClass
import ElmLint.Text.Digit
import ElmLint.Text.Quoted
import Mathlib.Data.List.Basic
import Mathlib.Data.Nat.Digits.Defs

/-!
# Digits

The digits of a number are digits (`of_mem_toDigits`), spell the number that they were made from (`foldl_toDigits`) and do not begin
with a zero unless it is zero (`head?_toDigits`). Zeros that are put before hexadecimal digits change nothing
(`hexNumber_hexPadded`).
-/

namespace ElmLint

/-! ## In any base -/

section Base

variable {base : Nat} {p : Char → Bool}

/-- All digits of a number are in a class that has all digits. -/
theorem of_mem_toDigits (hbase : 1 < base) (hp : ∀ d < base, p d.digitChar = true) (n : Nat) :
    ∀ c ∈ Nat.toDigits base n, p c = true := by
  induction n using Nat.strongRecOn with
  | ind n ih =>
    by_cases hn : n < base
    · rw [Nat.toDigits_of_lt_base hn]
      simpa using hp n hn
    · rw [Nat.toDigits_of_base_le hbase (Nat.le_of_not_lt hn), List.forall_mem_append]
      have hlt : n / base < n := Nat.div_lt_self (by omega) hbase
      exact ⟨ih _ hlt, by simpa using hp _ (Nat.mod_lt n (by omega))⟩

/-- The digits of a number spell it. -/
theorem foldl_toDigits {value : Char → Nat} (hbase : 1 < base) (hvalue : ∀ d < base, value d.digitChar = d) (n : Nat) :
    (Nat.toDigits base n).foldl (fun m c => m * base + value c) 0 = n := by
  induction n using Nat.strongRecOn with
  | ind n ih =>
    by_cases hn : n < base
    · rw [Nat.toDigits_of_lt_base hn]
      simp [hvalue n hn]
    · have hlt : n / base < n := Nat.div_lt_self (by omega) hbase
      rw [Nat.toDigits_of_base_le hbase (Nat.le_of_not_lt hn), List.foldl_append, ih _ hlt, List.foldl_cons, List.foldl_nil,
        hvalue _ (Nat.mod_lt n (by omega)), Nat.mul_comm]
      exact Nat.div_add_mod n base

/-- Only zero is written with a zero in front. -/
theorem head?_toDigits (hbase : 1 < base) (hzero : ∀ d < base, d.digitChar = '0' → d = 0) {n : Nat} (hn : n ≠ 0) :
    (Nat.toDigits base n).head? ≠ some '0' := by
  induction n using Nat.strongRecOn with
  | ind n ih =>
    by_cases hlt : n < base
    · rw [Nat.toDigits_of_lt_base hlt, List.head?_singleton, ne_eq, Option.some.injEq]
      exact fun heq => hn (hzero n hlt heq)
    · have hle := Nat.le_of_not_lt hlt
      rw [Nat.toDigits_of_base_le hbase hle, List.head?_append_of_ne_nil _ Nat.toDigits_ne_nil]
      exact ih _ (Nat.div_lt_self (by omega) hbase) (Nat.div_pos hle (by omega)).ne'

/-- A power of the base is written as a one and zeros. -/
theorem toDigits_pow (hbase : 1 < base) (k : Nat) : Nat.toDigits base (base ^ k) = '1' :: List.replicate k '0' := by
  induction k with
  | zero => exact Nat.toDigits_of_lt_base hbase
  | succ k ih =>
    have hle : base ≤ base ^ (k + 1) := Nat.le_self_pow (Nat.succ_ne_zero k) base
    rw [Nat.toDigits_of_base_le hbase hle, Nat.pow_succ, Nat.mul_div_cancel _ (by omega), Nat.mul_mod_left, ih,
      List.replicate_succ', List.cons_append]
    rfl

end Base

/-! ## Decimal and hexadecimal -/

theorem isAsciiDigit_toDigits (n : Nat) : ∀ c ∈ Nat.toDigits 10 n, isAsciiDigit c = true :=
  of_mem_toDigits (by decide) (by decide) n

/-- A number is written with a first digit, which is a zero only if the number is. -/
theorem exists_toDigits_cons (n : Nat) : ∃ c cs, Nat.toDigits 10 n = c :: cs ∧ isAsciiDigit c = true ∧
    (∀ d ∈ cs, isAsciiDigit d = true) ∧ (n ≠ 0 → c ≠ '0') := by
  have hdigits := isAsciiDigit_toDigits n
  cases hcs : Nat.toDigits 10 n with
  | nil => exact absurd hcs Nat.toDigits_ne_nil
  | cons c cs =>
    rw [hcs, List.forall_mem_cons] at hdigits
    refine ⟨c, cs, rfl, hdigits.1, hdigits.2, fun hn heq => ?_⟩
    have hfirst : (Nat.toDigits 10 n).head? ≠ some '0' := head?_toDigits (by decide) (by decide) hn
    exact hfirst (by rw [hcs, heq]; rfl)

theorem isHexDigit_toDigits (n : Nat) : ∀ c ∈ Nat.toDigits 16 n, isHexDigit c = true :=
  of_mem_toDigits (by decide) (by decide) n

theorem decimalNumber_toDigits (n : Nat) : decimalNumber (Nat.toDigits 10 n) = n :=
  foldl_toDigits (by decide) (by decide +kernel) n

theorem hexNumber_toDigits (n : Nat) : hexNumber (Nat.toDigits 16 n) = n := foldl_toDigits (by decide) (by decide) n

/-! ## Up to a width -/

section Padded

variable {width n : Nat}

theorem length_hexPadded (hwidth : 0 < width) (hn : n < 16 ^ width) : (hexPadded width n).length = width := by
  have hlength := Nat.toDigits_length 16 n width hwidth hn
  rw [hexPadded, List.length_append, List.length_replicate, Nat.sub_add_cancel hlength]

theorem isHexDigit_hexPadded : ∀ c ∈ hexPadded width n, isHexDigit c = true := by
  rw [hexPadded, List.forall_mem_append]
  refine ⟨fun c hc => ?_, isHexDigit_toDigits n⟩
  rw [(List.mem_replicate.1 hc).2]
  rfl

theorem hexNumber_hexPadded : hexNumber (hexPadded width n) = n := by
  have hzeros : ∀ k : Nat, (List.replicate k '0').foldl (fun m c => m * 16 + hexValue c) 0 = 0 := by
    intro k
    induction k with
    | zero => rfl
    | succ k ih => exact ih
  rw [hexNumber, hexPadded, List.foldl_append, hzeros]
  exact hexNumber_toDigits n

end Padded

end ElmLint
