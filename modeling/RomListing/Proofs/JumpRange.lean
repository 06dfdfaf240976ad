import Mathlib.Data.Nat.ModEq
import Mathlib.Order.Interval.Set.Defs
import RomListing.Proofs.BankGeometry
import RomListing.Proofs.Jumps

/-! The range of relative jumps. No step of the computation of a processor address leaves the 32-bit
numbers, and the address lies in one of the two windows, which end far below `$ffff`. So no jump passes
`$ffff`, and it makes no difference what would be done with one that does. Targets are in the order of
the distances; only jumps that are held at `$0000` fall together. -/

namespace RomListing

/-- The sum of two addresses, if it has no more than 32 bits. -/
def addressSum? (first second : UInt32) : Option UInt32 :=
  if first.toNat + second.toNat < 2 ^ 32 then some (first + second) else none

theorem addressSum?_eq {first second : UInt32} (h : first.toNat + second.toNat < 2 ^ 32) :
    addressSum? first second = some (first + second) := if_pos h

/-- The difference of two addresses, if it is not negative. -/
def addressDifference? (first second : UInt32) : Option UInt32 :=
  if second ≤ first then some (first - second) else none

theorem addressDifference?_eq {first second : UInt32} (h : second ≤ first) :
    addressDifference? first second = some (first - second) := if_pos h

/-- The processor address of an image offset, computed with checks. -/
def checkedWindowAddress (offset : UInt32) : Option UInt32 :=
  if offset ≤ bankSize.toUInt32 then some offset
  else do
    let last ← addressDifference? offset 1
    let place ← addressSum? (last % bankSize.toUInt32) 1
    addressSum? place switchableWindow.toUInt32

/-- The sum of two signed numbers, if it has no more than 64 bits. -/
def signedSum? (first second : Int64) : Option Int64 :=
  if -2 ^ 63 ≤ first.toInt + second.toInt ∧ first.toInt + second.toInt < 2 ^ 63 then
    some (first + second)
  else none

/-- The target of a relative jump, computed with checks and signed 64-bit numbers, where `past` tells
what becomes of a target past `$ffff`. -/
def checkedJumpTarget (past : Int64 → Option UInt16) (stop : UInt32) (offset : Int8) :
    Option UInt16 := do
  let address ← checkedWindowAddress stop
  let target ← signedSum? (Int64.ofNat address.toNat) offset.toInt64
  if target < 0 then some fixedWindow
  else if 0xffff < target then past target
  else some target.toUInt64.toUInt16

theorem checkedWindowAddress_eq (offset : UInt32) :
    checkedWindowAddress offset = some (windowAddress offset) := by
  by_cases hfirst : offset ≤ bankSize.toUInt32
  · rw [checkedWindowAddress, windowAddress, if_pos hfirst, if_pos hfirst]
  · have hpos := one_le_of_not_le_bankSize hfirst
    have hplace := toNat_placeInBank hpos
    have hbehind : ((offset - 1) % bankSize.toUInt32).toNat + (1 : UInt32).toNat < 2 ^ 32 := by
      change _ + 1 < _
      omega
    have hwindow : ((offset - 1) % bankSize.toUInt32 + 1).toNat + switchableWindow.toUInt32.toNat <
        2 ^ 32 := by
      rw [UInt32.toNat_add]
      change (_ + 1) % 2 ^ 32 + 0x4000 < _
      omega
    rw [checkedWindowAddress, windowAddress, if_neg hfirst, if_neg hfirst,
      bind_of_eq_some (addressDifference?_eq hpos), bind_of_eq_some (addressSum?_eq hbehind),
      addressSum?_eq hwindow]

/-- Behind the first bank, the processor address lies in the window of the other banks or at its end. -/
theorem le_toNat_windowAddress {offset : UInt32} (h : 0x4000 < offset.toNat) :
    0x4001 ≤ (windowAddress offset).toNat := by
  rw [toNat_windowAddress, if_neg (Nat.not_le_of_lt h)]
  exact Nat.le_add_left _ _

/-- An offset and its processor address have the same place in their banks. -/
theorem toNat_windowAddress_modEq (offset : UInt32) :
    (windowAddress offset).toNat ≡ offset.toNat [MOD 0x4000] := by
  rw [toNat_windowAddress, Nat.ModEq]
  split <;> omega

section Targets

variable {stop : UInt32} {first second : Int8}

theorem le_rawTarget (stop : UInt32) (offset : Int8) : -0x80 ≤ rawTarget stop offset := by
  have hoffset := offset.le_toInt
  simp only [rawTarget]
  omega

theorem exists_signedSum? (stop : UInt32) (offset : Int8) :
    ∃ target, signedSum? (Int64.ofNat (windowAddress stop).toNat) offset.toInt64 = some target ∧
      target.toInt = rawTarget stop offset := by
  have hlow := le_rawTarget stop offset
  have hhigh := rawTarget_lt stop offset
  have haddress : (Int64.ofNat (windowAddress stop).toNat).toInt = (windowAddress stop).toNat :=
    Int64.toInt_ofNat_of_lt (by have := toNat_windowAddress_le stop; omega)
  have hsum : (Int64.ofNat (windowAddress stop).toNat).toInt + offset.toInt64.toInt =
      rawTarget stop offset := by
    rw [haddress, Int8.toInt_toInt64, rawTarget]
  refine ⟨_, if_pos (by omega), ?_⟩
  rw [Int64.toInt_add, hsum]
  exact Int.bmod_eq_of_le (by omega) (by omega)

theorem checkedJumpTarget_eq (past : Int64 → Option UInt16) (stop : UInt32) (offset : Int8) :
    checkedJumpTarget past stop offset = some (jumpTarget stop offset) := by
  have hhigh := rawTarget_lt stop offset
  have hraw : ¬0xffff < rawTarget stop offset := by omega
  obtain ⟨target, hsum, htarget⟩ := exists_signedSum? stop offset
  have hpast : ¬0xffff < target := by
    rw [Int64.lt_iff_toInt_lt, htarget]
    exact hraw
  rw [checkedJumpTarget, bind_of_eq_some (checkedWindowAddress_eq stop), bind_of_eq_some hsum]
  by_cases hneg : target < 0
  · have hheld : rawTarget stop offset < 0 := by
      rw [← htarget]
      exact Int64.lt_iff_toInt_lt.mp hneg
    simp only [jumpTarget, if_pos hneg, if_pos hheld]
  · have hnonneg : 0 ≤ target := Int64.not_lt.mp hneg
    have hfree : ¬rawTarget stop offset < 0 := by
      rw [← htarget]
      exact Int.not_lt.mpr (Int64.le_iff_toInt_le.mp hnonneg)
    have hnarrow : target.toUInt64.toUInt16 = UInt16.ofNat (rawTarget stop offset).toNat := by
      apply UInt16.toNat_inj.mp
      rw [UInt64.toNat_toUInt16, Int64.toNat_toUInt64_of_le hnonneg, UInt16.toNat_ofNat', ← htarget]
      rfl
    simp only [jumpTarget, if_neg hneg, if_neg hpast, if_neg hfree, if_neg hraw, hnarrow]

/-- Of two targets, the second lies above exactly if the distance is larger and the target is not held
at `$0000`. -/
theorem jumpTarget_lt_iff :
    jumpTarget stop first < jumpTarget stop second ↔ first < second ∧ 0 < rawTarget stop second := by
  have hfirst := toNat_jumpTarget stop first
  have hsecond := toNat_jumpTarget stop second
  rw [UInt16.lt_iff_toNat_lt, Int8.lt_iff_toInt_lt]
  simp only [rawTarget] at *
  omega

theorem jumpTarget_le_iff :
    jumpTarget stop first ≤ jumpTarget stop second ↔ first ≤ second ∨ rawTarget stop first ≤ 0 := by
  rw [← UInt16.not_lt, jumpTarget_lt_iff, not_and_or, Int8.not_lt, Int.not_lt]

theorem rawTarget_strictMono (h : first < second) : rawTarget stop first < rawTarget stop second :=
  Int.add_lt_add_left (Int8.lt_iff_toInt_lt.mp h) _

end Targets

/-- **No jump passes the largest address.** The target of a jump is the processor address behind it
plus its distance, held at `$0000` and never above `$807f`: nothing is ever done about one past `$ffff`. -/
theorem jumps_never_wrap (stop : UInt32) :
    (checkedWindowAddress stop = some (windowAddress stop) ∧ (windowAddress stop).toNat ≤ 0x8000 ∧
      (0x4000 < stop.toNat → (windowAddress stop).toNat ∈ Set.Icc 0x4001 0x8000) ∧
      (windowAddress stop).toNat ≡ stop.toNat [MOD 0x4000]) ∧
    (∀ offset : Int8,
      ((jumpTarget stop offset).toNat : Int) = max 0 ((windowAddress stop).toNat + offset.toInt) ∧
        (jumpTarget stop offset).toNat ≤ 0x807f ∧ ¬0xffff < rawTarget stop offset ∧
        ∀ past, checkedJumpTarget past stop offset = some (jumpTarget stop offset)) ∧
    (∀ first second : Int8, first ≤ second → jumpTarget stop first ≤ jumpTarget stop second) ∧
    ∀ first second : Int8, first < second → 0 ≤ rawTarget stop first →
      jumpTarget stop first < jumpTarget stop second := by
  have hwindow := toNat_windowAddress_le stop
  refine ⟨⟨checkedWindowAddress_eq stop, hwindow, ?_, toNat_windowAddress_modEq stop⟩, ?_, ?_, ?_⟩
  · exact fun hpast => ⟨le_toNat_windowAddress hpast, hwindow⟩
  · intro offset
    have hhigh := rawTarget_lt stop offset
    have htarget := toNat_jumpTarget stop offset
    exact ⟨htarget, by omega, by omega, fun past => checkedJumpTarget_eq past stop offset⟩
  · exact fun first second h => jumpTarget_le_iff.mpr (.inl h)
  · intro first second h hnonneg
    exact jumpTarget_lt_iff.mpr ⟨h, Int.lt_of_le_of_lt hnonneg (rawTarget_strictMono h)⟩

/-- The farthest jump, behind the last bank that addresses of 32 bits reach. -/
theorem farthest_jump_from_last_bank :
    0x4000 < (0xffffc000 : UInt32).toNat ∧ (windowAddress 0xffffc000).toNat ∈ Set.Icc 0x4001 0x8000 ∧
      (126 : Int8) ≤ 127 ∧ jumpTarget 0xffffc000 126 ≤ jumpTarget 0xffffc000 127 ∧
      0 ≤ rawTarget 0xffffc000 126 ∧ jumpTarget 0xffffc000 126 < jumpTarget 0xffffc000 127 ∧
      checkedJumpTarget (fun _ => none) 0xffffc000 127 = some 0x807f := by
  obtain ⟨⟨_, _, hwindow, _⟩, htargets, hmono, hstrict⟩ := jumps_never_wrap 0xffffc000
  obtain ⟨_, _, _, hchecked⟩ := htargets 127
  exact ⟨by decide, hwindow (by decide), by decide, hmono 126 127 (by decide), by decide,
    hstrict 126 127 (by decide) (by decide), hchecked _⟩

end RomListing
