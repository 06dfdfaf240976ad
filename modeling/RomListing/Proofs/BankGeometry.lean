import Mathlib.Algebra.GroupWithZero.Nat
import RomListing.Proofs.Banks

/-! The geometry of the banks of an image. The program computes it with 64-bit numbers; here every
product, sum and difference of that computation is checked, and none of the checks fails for an image
that fits into memory. The banks cut the image into spans that lie side by side: an offset has one bank,
and what is behind the whole banks is one more span that no bank reaches. -/

namespace RomListing

/-- The result of a product or a sum, if it has no more than 64 bits. -/
def word? (n : Nat) : Option Nat := if n < 2 ^ 64 then some n else none

theorem word?_eq {n : Nat} (h : n < 2 ^ 64) : word? n = some n := if_pos h

/-- The difference of two numbers, if it is not negative. -/
def difference? (n m : Nat) : Option Nat := if m ≤ n then some (n - m) else none

theorem difference?_eq {n m : Nat} (h : m ≤ n) : difference? n m = some (n - m) := if_pos h

theorem bind_of_eq_some {α β : Type} {x : Option α} {a : α} (h : x = some a) (f : α → Option β) :
    (x >>= f) = f a := by
  rw [h]
  rfl

/-- The offsets of a span, in order. -/
def Span.offsets (span : Span) : List Nat := List.range' span.start span.size

namespace Rom

variable (rom : Rom)

/-- The span of a bank, computed with checks. -/
def checkedBankRange (bank : Nat) : Option Span := do
  let product ← word? (bank * bankSize)
  let start := min product rom.size
  let sum ← word? (start + bankSize)
  return ⟨start, min sum rom.size⟩

/-- The number of trailing bytes, computed with checks. -/
def checkedTrailingBytes : Option Nat := do
  let last ← difference? rom.bankCount 1
  let span ← rom.checkedBankRange last
  difference? rom.size span.stop

variable {rom} {bank : Nat}

theorem checkedBankRange_eq (hsize : rom.size < 2 ^ 63) (hbank : bank * 0x4000 < 2 ^ 64) :
    rom.checkedBankRange bank = some (rom.bankRange bank) := by
  have hproduct : bank * bankSize < 2 ^ 64 := by
    simpa only [bankSize] using hbank
  have hsum : min (bank * bankSize) rom.size + bankSize < 2 ^ 64 := by
    simp only [bankSize]
    omega
  rw [checkedBankRange, bind_of_eq_some (word?_eq hproduct)]
  exact bind_of_eq_some (word?_eq hsum) _

variable (rom)

/-- The whole banks take no more than the image, unless the image is smaller than its one bank. -/
theorem bankCount_mul_le : rom.bankCount * 0x4000 ≤ max rom.size 0x4000 := by
  simp only [bankCount, bankSize]
  omega

theorem mul_lt_of_le_bankCount (hsize : rom.size < 2 ^ 63) (hbank : bank ≤ rom.bankCount) :
    bank * 0x4000 < 2 ^ 64 := by
  calc bank * 0x4000 ≤ rom.bankCount * 0x4000 := Nat.mul_le_mul_right _ hbank
    _ ≤ max rom.size 0x4000 := rom.bankCount_mul_le
    _ < 2 ^ 64 := by omega

theorem size_lt_bankCount_succ_mul : rom.size < (rom.bankCount + 1) * 0x4000 := by
  simp only [bankCount, bankSize]
  omega

/-- Side by side, the first banks take the offsets up to the start of the next bank. -/
theorem flatMap_offsets_bankRange (count : Nat) :
    (List.range count).flatMap (fun bank => (rom.bankRange bank).offsets) =
      List.range (rom.bankRange count).start := by
  induction count with
  | zero =>
      rw [bankRange_start, Nat.zero_mul, Nat.zero_min]
      rfl
  | succ count ih =>
      have hsum : (rom.bankRange count).start + (rom.bankRange count).size =
          (rom.bankRange count).stop := Nat.add_sub_of_le (rom.bankRange_start_le_stop count)
      rw [List.range_succ, List.flatMap_append, ih, List.flatMap_singleton, Span.offsets,
        ← bankRange_stop_eq_start, ← hsum, List.range_eq_range', List.range_eq_range',
        ← List.range'_append_1, Nat.zero_add]

theorem trailingBytes_eq :
    rom.trailingBytes = if 0x4000 ≤ rom.size then rom.size % 0x4000 else 0 := by
  rw [trailingBytes, bankRange_stop, Nat.sub_add_cancel rom.bankCount_pos]
  simp only [bankCount, bankSize]
  by_cases hwhole : 0x4000 ≤ rom.size
  · rw [if_pos hwhole]
    omega
  · rw [if_neg hwhole]
    omega

theorem size_bankRange (hsize : 0x4000 ≤ rom.size) (hbank : bank < rom.bankCount) :
    (rom.bankRange bank).size = 0x4000 := by
  rw [Span.size, bankRange_start, bankRange_stop]
  simp only [bankCount, bankSize] at hbank ⊢
  omega

/-- An image that is smaller than a bank is its only bank. -/
theorem bankRange_of_small (hsize : rom.size < 0x4000) :
    rom.bankCount = 1 ∧ rom.bankRange 0 = ⟨0, rom.size⟩ := by
  simp only [bankCount, bankRange, bankSize, Span.mk.injEq]
  omega

theorem contains_bankRange_iff {offset : Nat} (hoffset : offset < rom.size) (bank : Nat) :
    (rom.bankRange bank).contains offset = true ↔ bank = offset / 0x4000 := by
  rw [Span.contains, bankRange_start, bankRange_stop, Bool.and_eq_true, decide_eq_true_eq,
    decide_eq_true_eq]
  simp only [bankSize]
  omega

/-- What follows the whole banks are the trailing bytes. -/
theorem bankRange_bankCount :
    rom.bankRange rom.bankCount = ⟨rom.size - rom.trailingBytes, rom.size⟩ := by
  rw [size_sub_trailingBytes, wholeSize]
  have hstop : (rom.bankRange rom.bankCount).stop = rom.size := by
    have := rom.size_lt_bankCount_succ_mul
    rw [bankRange_stop, bankSize]
    omega
  rw [← hstop]

theorem bankRange_of_bankCount_lt (hbank : rom.bankCount < bank) :
    rom.bankRange bank = ⟨rom.size, rom.size⟩ := by
  simp only [bankCount, bankRange, bankSize, Span.mk.injEq] at hbank ⊢
  omega

theorem checkedTrailingBytes_eq (hsize : rom.size < 2 ^ 63) :
    rom.checkedTrailingBytes = some rom.trailingBytes := by
  have hlast := rom.mul_lt_of_le_bankCount hsize (Nat.sub_le rom.bankCount 1)
  rw [checkedTrailingBytes, bind_of_eq_some (difference?_eq rom.bankCount_pos),
    bind_of_eq_some (checkedBankRange_eq hsize hlast),
    difference?_eq (rom.bankRange_stop_le_size _)]
  rfl

end Rom

/-- **The geometry of banks.** Below `2 ^ 63` bytes the whole banks list the offsets up to the trailing
bytes, each one once and in order, the next span holds the trailing bytes and later ones are empty. No
step leaves the 64-bit numbers. -/
theorem banks_partition_image (rom : Rom) (hsize : rom.size < 2 ^ 63) :
    ((∀ bank < rom.bankCount, rom.checkedBankRange bank = some (rom.bankRange bank)) ∧
      (rom.bankRange 0).start = 0 ∧
      (∀ bank, bank + 1 < rom.bankCount →
        (rom.bankRange bank).stop = (rom.bankRange (bank + 1)).start) ∧
      (0x4000 ≤ rom.size → ∀ bank < rom.bankCount, (rom.bankRange bank).size = 0x4000) ∧
      (rom.size < 0x4000 → rom.bankCount = 1 ∧ rom.bankRange 0 = ⟨0, rom.size⟩) ∧
      (List.range rom.bankCount).flatMap (fun bank => (rom.bankRange bank).offsets) =
        List.range (rom.size - rom.trailingBytes)) ∧
    (rom.checkedTrailingBytes = some rom.trailingBytes ∧
      rom.trailingBytes = if 0x4000 ≤ rom.size then rom.size % 0x4000 else 0) ∧
    (∀ bank, bank * 0x4000 < 2 ^ 64 →
      rom.checkedBankRange bank = some (rom.bankRange bank) ∧
        (rom.bankRange bank).start ≤ (rom.bankRange bank).stop ∧
        (rom.bankRange bank).stop ≤ rom.size ∧
        (∀ offset < rom.size,
          (rom.bankRange bank).contains offset = true ↔ bank = offset / 0x4000) ∧
        (rom.bankCount < bank → rom.bankRange bank = ⟨rom.size, rom.size⟩)) ∧
    (∀ offset < rom.size, offset / 0x4000 * 0x4000 < 2 ^ 64) ∧
    rom.bankCount * 0x4000 < 2 ^ 64 ∧
    rom.bankRange rom.bankCount = ⟨rom.size - rom.trailingBytes, rom.size⟩ := by
  have hchecked : ∀ bank, bank * 0x4000 < 2 ^ 64 →
      rom.checkedBankRange bank = some (rom.bankRange bank) :=
    fun bank => Rom.checkedBankRange_eq hsize
  refine ⟨⟨?_, ?_, ?_, ?_, ?_, ?_⟩, ⟨?_, ?_⟩, ?_, ?_,
    rom.mul_lt_of_le_bankCount hsize (Nat.le_refl _), rom.bankRange_bankCount⟩
  · intro bank hbank
    exact hchecked bank (rom.mul_lt_of_le_bankCount hsize (Nat.le_of_lt hbank))
  · rw [Rom.bankRange_start, Nat.zero_mul, Nat.zero_min]
  · exact fun bank _ => rom.bankRange_stop_eq_start bank
  · exact fun hwhole bank => rom.size_bankRange hwhole
  · exact rom.bankRange_of_small
  · rw [rom.flatMap_offsets_bankRange, rom.size_sub_trailingBytes, Rom.wholeSize]
  · exact rom.checkedTrailingBytes_eq hsize
  · exact rom.trailingBytes_eq
  · intro bank hbank
    exact ⟨hchecked bank hbank, rom.bankRange_start_le_stop bank, rom.bankRange_stop_le_size bank,
      fun offset hoffset => rom.contains_bankRange_iff hoffset bank,
      rom.bankRange_of_bankCount_lt⟩
  · intro offset hoffset
    omega

/-- An image with three bytes behind its two whole banks. -/
def raggedImage : Rom := ⟨Array.replicate 0x8003 0, false⟩

theorem banks_partition_raggedImage :
    raggedImage.size < 2 ^ 63 ∧ raggedImage.checkedBankRange 1 = some ⟨0x4000, 0x8000⟩ ∧
      (raggedImage.bankRange 1).contains 0x7fff = true ∧ raggedImage.trailingBytes = 3 ∧
      raggedImage.bankRange 2 = ⟨0x8000, 0x8003⟩ ∧ raggedImage.bankRange 3 = ⟨0x8003, 0x8003⟩ := by
  have hsize : raggedImage.size = 0x8003 := Array.size_replicate
  have hcount : raggedImage.bankCount = 2 := by
    rw [Rom.bankCount, hsize]
    rfl
  have hsmall : raggedImage.size < 2 ^ 63 := by
    rw [hsize]
    decide
  obtain ⟨_, ⟨_, htrailing⟩, hbanks, _, _, hbehind⟩ := banks_partition_image raggedImage hsmall
  obtain ⟨hchecked, _, _, hcontains, _⟩ := hbanks 1 (by decide)
  obtain ⟨_, _, _, _, hempty⟩ := hbanks 3 (by decide)
  rw [hsize] at htrailing
  rw [hcount, htrailing, hsize] at hbehind
  have hoffset : 0x7fff < raggedImage.size := by
    rw [hsize]
    decide
  have hlater : raggedImage.bankCount < 3 := by
    rw [hcount]
    decide
  refine ⟨hsmall, ?_, (hcontains 0x7fff hoffset).mpr rfl, htrailing, hbehind, ?_⟩
  · rw [hchecked, Rom.bankRange, hsize]
    rfl
  · rw [hempty hlater, hsize]

end RomListing
