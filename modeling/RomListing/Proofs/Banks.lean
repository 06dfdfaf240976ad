import RomListing.Rom

/-! The banks of an image lie side by side. Every bank ends where the next one starts, and the whole
banks together take all bytes but the trailing ones. -/

namespace RomListing.Rom

variable (rom : Rom) (bank : Nat)

theorem bankRange_start : (rom.bankRange bank).start = min (bank * bankSize) rom.size := rfl

theorem bankRange_stop : (rom.bankRange bank).stop = min ((bank + 1) * bankSize) rom.size := by
  simp only [bankRange, bankSize]
  omega

theorem bankRange_stop_eq_start : (rom.bankRange bank).stop = (rom.bankRange (bank + 1)).start := by
  rw [bankRange_stop, bankRange_start]

theorem bankRange_start_le_stop : (rom.bankRange bank).start ≤ (rom.bankRange bank).stop := by
  rw [bankRange_stop, bankRange_start]
  simp only [bankSize]
  omega

theorem bankRange_stop_le_size : (rom.bankRange bank).stop ≤ rom.size := by
  rw [bankRange_stop]
  omega

theorem bankCount_pos : 0 < rom.bankCount := by
  simp only [bankCount]
  omega

/-- The number of bytes in whole banks. -/
def wholeSize : Nat := (rom.bankRange rom.bankCount).start

theorem wholeSize_le_size : rom.wholeSize ≤ rom.size := by
  rw [wholeSize, bankRange_start]
  omega

theorem size_sub_trailingBytes : rom.size - rom.trailingBytes = rom.wholeSize := by
  have hstop : (rom.bankRange (rom.bankCount - 1)).stop = rom.wholeSize := by
    rw [bankRange_stop_eq_start, Nat.sub_add_cancel rom.bankCount_pos, wholeSize]
  have hle := rom.wholeSize_le_size
  rw [trailingBytes, hstop]
  omega

end RomListing.Rom
