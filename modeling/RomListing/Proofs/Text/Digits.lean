import Mathlib.Algebra.GroupWithZero.Nat
import RomListing.Reassembly

/-! Hexadecimal text reads back as the number it was written from, whatever it was filled up with. -/

namespace RomListing

namespace Reassembly

theorem digitValue?_digitChar {d : Nat} (h : d < 16) : digitValue? d.digitChar = some d := by
  have hall : ∀ e ∈ List.range 16, digitValue? e.digitChar = some e := by decide
  exact hall d (List.mem_range.mpr h)

theorem numberOf?_append_singleton (digits : List Char) (c : Char) :
    numberOf? (digits ++ [c]) =
      (numberOf? digits).bind fun number => (digitValue? c).map (16 * number + ·) := by
  simp only [numberOf?, List.foldlM_append, List.foldlM_cons, List.foldlM_nil, bind_pure]
  rfl

end Reassembly

namespace Hex

open Reassembly

theorem digitCount_spec (n : Nat) : n < 16 ^ digitCount n := by
  have hpow : 16 ^ digitCount n = 2 ^ (4 * digitCount n) := by rw [Nat.pow_mul]
  rw [hpow]
  apply Nat.lt_of_lt_of_le Nat.lt_log2_self
  apply Nat.pow_le_pow_right (by decide)
  simp only [digitCount]
  omega

theorem mem_lastDigits {width n : Nat} {c : Char} (h : c ∈ lastDigits width n) :
    ∃ d < 16, c = d.digitChar := by
  induction width generalizing n with
  | zero => exact absurd h List.not_mem_nil
  | succ width ih =>
      rw [lastDigits, List.mem_append, List.mem_singleton] at h
      rcases h with hinit | hlast
      · exact ih hinit
      · exact ⟨n % 16, Nat.mod_lt n (by decide), hlast⟩

theorem mem_digits {width n : Nat} {c : Char} (h : c ∈ digits width n) :
    ∃ d < 16, c = d.digitChar := mem_lastDigits h

theorem isDigit_of_mem_digits {width n : Nat} {c : Char} (h : c ∈ digits width n) :
    isDigit c = true := by
  obtain ⟨d, hd, rfl⟩ := mem_digits h
  rw [isDigit, digitValue?_digitChar hd]
  rfl

theorem length_digits (width n : Nat) :
    (digits width n).length = max width (digitCount n) := length_lastDigits _ _

/-- A number takes no more digits than it is written with if it is small enough for them. -/
theorem digitCount_le {width n : Nat} (hpos : 1 ≤ width) (h : n < 16 ^ width) :
    digitCount n ≤ width := by
  by_cases hzero : n = 0
  · rw [hzero]
    exact hpos
  · have hlog : n.log2 < 4 * width := by
      apply (Nat.log2_lt hzero).mpr
      rwa [Nat.pow_mul]
    simp only [digitCount]
    omega

theorem length_digits_of_lt {width n : Nat} (hpos : 1 ≤ width) (h : n < 16 ^ width) :
    (digits width n).length = width := by
  rw [length_digits, Nat.max_eq_left (digitCount_le hpos h)]

theorem digits_ne_nil (width n : Nat) : digits width n ≠ [] := by
  have hlength := length_digits width n
  intro hnil
  rw [hnil, List.length_nil] at hlength
  simp only [digitCount] at hlength
  omega

theorem numberOf?_lastDigits (width n : Nat) :
    numberOf? (lastDigits width n) = some (n % 16 ^ width) := by
  induction width generalizing n with
  | zero =>
      rw [Nat.pow_zero, Nat.mod_one]
      rfl
  | succ width ih =>
      rw [lastDigits, numberOf?_append_singleton, ih,
        digitValue?_digitChar (Nat.mod_lt n (by decide)), Nat.pow_succ, Nat.mul_comm,
        Nat.mod_mul, Nat.add_comm]
      rfl

/-- Digits read back as the number, since there are always enough of them. -/
theorem numberOf?_digits (width n : Nat) : numberOf? (digits width n) = some n := by
  have hlt : n < 16 ^ max width (digitCount n) :=
    Nat.lt_of_lt_of_le (digitCount_spec n) (Nat.pow_le_pow_right (by decide) (Nat.le_max_right _ _))
  rw [digits, numberOf?_lastDigits, Nat.mod_eq_of_lt hlt]

theorem digits_inj {width n m : Nat} (h : digits width n = digits width m) : n = m := by
  have hn := numberOf?_digits width n
  rw [h, numberOf?_digits] at hn
  exact (Option.some_inj.mp hn).symm

theorem head?_lastDigits (width n : Nat) :
    (lastDigits (width + 1) n).head? = some (n / 16 ^ width % 16).digitChar := by
  induction width generalizing n with
  | zero => simp [lastDigits]
  | succ width ih =>
      rw [lastDigits, List.head?_append, ih, Nat.div_div_eq_div_mul, Nat.pow_succ, Nat.mul_comm 16]
      rfl

theorem eq_zero_of_digitChar {d : Nat} (h : d < 16) (hzero : d.digitChar = '0') : d = 0 := by
  have hall : ∀ e ∈ List.range 16, e.digitChar = '0' → e = 0 := by decide
  exact hall d (List.mem_range.mpr h) hzero

/-- The first digit of a number that is not filled up is not zero, unless it is the only one. -/
theorem head?_digits {width n : Nat} (hpos : 1 ≤ width) (h : width < (digits width n).length) :
    (digits width n).head? ≠ some '0' := by
  rw [length_digits] at h
  have hdigits : digits width n = lastDigits (n.log2 / 4 + 1) n := by
    rw [digits, Nat.max_eq_right (by omega), digitCount]
  have hcount : width < n.log2 / 4 + 1 := by
    rw [digitCount] at h
    omega
  have hne : n ≠ 0 := by
    rintro rfl
    rw [Nat.log2_zero] at hcount
    omega
  have hlow : 16 ^ (n.log2 / 4) ≤ n := by
    calc 16 ^ (n.log2 / 4) = 2 ^ (4 * (n.log2 / 4)) := by rw [Nat.pow_mul]
      _ ≤ 2 ^ n.log2 := Nat.pow_le_pow_right (by decide) (Nat.mul_div_le _ _)
      _ ≤ n := Nat.log2_self_le hne
  have hhigh : n / 16 ^ (n.log2 / 4) < 16 := by
    rw [Nat.div_lt_iff_lt_mul (Nat.pow_pos (by decide)), ← Nat.pow_succ']
    exact digitCount_spec n
  have hfirst : 1 ≤ n / 16 ^ (n.log2 / 4) := Nat.div_pos hlow (Nat.pow_pos (by decide))
  rw [hdigits, head?_lastDigits, Nat.mod_eq_of_lt hhigh]
  intro hzero
  have := eq_zero_of_digitChar hhigh (Option.some_inj.mp hzero)
  omega

theorem toList_literal (width n : Nat) : (literal width n).toList = '$' :: digits width n := by
  simp [literal, padded]

end Hex

end RomListing
