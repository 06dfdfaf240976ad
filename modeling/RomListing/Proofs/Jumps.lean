import Mathlib.Algebra.GroupWithZero.Nat
import RomListing.Address

/-! Where relative jumps lead. The processor addresses of image offsets stay so low that no jump passes
`$ffff`, so a jump's target is its distance added to the address behind it, held at `$0000`. -/

namespace RomListing

theorem le_bankSize_iff {offset : UInt32} : offset ≤ bankSize.toUInt32 ↔ offset.toNat ≤ 0x4000 :=
  UInt32.le_iff_toNat_le

theorem one_le_of_not_le_bankSize {offset : UInt32} (h : ¬offset ≤ bankSize.toUInt32) : 1 ≤ offset := by
  rw [le_bankSize_iff] at h
  exact UInt32.le_iff_toNat_le.mpr (Nat.one_le_of_lt (Nat.lt_of_not_le h))

/-- How many bytes of its bank lie before the byte in front of an offset. -/
theorem toNat_placeInBank {offset : UInt32} (hpos : 1 ≤ offset) :
    ((offset - 1) % bankSize.toUInt32).toNat = (offset.toNat - 1) % 0x4000 := by
  rw [UInt32.toNat_mod, UInt32.toNat_sub_of_le offset 1 hpos]
  rfl

theorem toNat_windowAddress (offset : UInt32) :
    (windowAddress offset).toNat =
      if offset.toNat ≤ 0x4000 then offset.toNat else (offset.toNat - 1) % 0x4000 + 0x4001 := by
  have hwindow : switchableWindow.toUInt32.toNat = 0x4000 := rfl
  simp only [← le_bankSize_iff]
  by_cases hfirst : offset ≤ bankSize.toUInt32
  · rw [windowAddress, if_pos hfirst, if_pos hfirst]
  · rw [windowAddress, if_neg hfirst, if_neg hfirst, UInt32.toNat_add, UInt32.toNat_add,
      toNat_placeInBank (one_le_of_not_le_bankSize hfirst), hwindow]
    change ((_ + 1) % 2 ^ 32 + _) % 2 ^ 32 = _
    omega

theorem toNat_windowAddress_le (offset : UInt32) : (windowAddress offset).toNat ≤ 0x8000 := by
  rw [toNat_windowAddress]
  split <;> omega

/-- The processor sees every switchable bank at the same place. The end of a bank is the end of the
window. -/
theorem toNat_windowAddress_switchable {bank offset : Nat} (hbank : 1 ≤ bank) (hpos : 0 < offset)
    (hoffset : offset ≤ bankSize) (hfits : bank * bankSize + offset < 2 ^ 32) :
    (windowAddress (UInt32.ofNat (bank * bankSize + offset))).toNat =
      switchableWindow.toNat + offset := by
  have hpast : ¬bank * bankSize + offset ≤ 0x4000 := by
    simp only [bankSize]
    omega
  have hwindow : switchableWindow.toNat = 0x4000 := rfl
  rw [toNat_windowAddress, UInt32.toNat_ofNat', Nat.mod_eq_of_lt hfits, if_neg hpast, hwindow]
  simp only [bankSize] at hoffset ⊢
  omega

theorem addressAfter_ofNat {offset count : Nat} (h : offset + count < 2 ^ 32) :
    addressAfter (UInt32.ofNat offset) count = UInt32.ofNat (offset + count) := by
  rw [addressAfter, UInt32.toNat_ofNat', Nat.mod_eq_of_lt (by omega), Nat.min_eq_left (by omega)]

theorem rawTarget_lt (stop : UInt32) (offset : Int8) : rawTarget stop offset ≤ 0x807f := by
  have haddress := toNat_windowAddress_le stop
  have hoffset := offset.toInt_lt
  simp only [rawTarget]
  omega

/-- The target of a jump, in integers. -/
theorem toNat_jumpTarget (stop : UInt32) (offset : Int8) :
    (jumpTarget stop offset).toNat = max 0 (rawTarget stop offset) := by
  have htarget := rawTarget_lt stop offset
  unfold jumpTarget
  simp only
  split
  · rename_i hneg
    change ((0 : Nat) : Int) = _
    omega
  · rw [if_neg (by omega), UInt16.toNat_ofNat', Nat.mod_eq_of_lt]
    · omega
    · change _ < 65536
      omega

/-- Only a jump near the start of the image can miss `$0000`. -/
theorem toNat_le_of_rawTarget_neg {stop : UInt32} {offset : Int8} (h : rawTarget stop offset < 0) :
    stop.toNat ≤ 0x7f := by
  have haddress := toNat_windowAddress stop
  have hoffset := offset.le_toInt
  simp only [rawTarget] at h
  split at haddress <;> omega

end RomListing
