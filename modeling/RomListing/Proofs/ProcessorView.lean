import RomListing.Proofs.Decoding
import RomListing.Proofs.InstructionTexts
import RomListing.Proofs.Jumps

/-! Relative jumps as the processor sees them. An instruction stands at one processor address, and the
bytes behind it are as far on as it is long, also where it ends its bank. So a jump is printed with the
address that the processor computes for it, and inside a bank that is where its destination stands. -/

namespace RomListing

/-- The processor address of the byte at an image offset. -/
def processorAddress (offset : Nat) : Nat :=
  if offset < bankSize then offset else bankSize + offset % bankSize

/-- The bytes at two image offsets lie in the same bank. -/
def SameBank (first second : Nat) : Prop := first / bankSize = second / bankSize

instance (first second : Nat) : Decidable (SameBank first second) :=
  inferInstanceAs (Decidable (_ = _))

/-- The position behind bytes of one bank is as far behind the processor address of the first of them as
there are bytes. -/
theorem toNat_windowAddress_behind {offset length : Nat} (hpos : 1 ≤ length)
    (hbank : SameBank offset (offset + length - 1)) (hfits : offset + length < 2 ^ 32) :
    (windowAddress (UInt32.ofNat (offset + length))).toNat = processorAddress offset + length := by
  rw [toNat_windowAddress, UInt32.toNat_ofNat', Nat.mod_eq_of_lt hfits]
  unfold SameBank bankSize at hbank
  unfold processorAddress bankSize
  split <;> split <;> omega

/-- In one bank the processor sees two bytes as far apart as they are. -/
theorem processorAddress_of_sameBank {offset place : Nat} (hbank : SameBank offset place) :
    (processorAddress place : Int) = processorAddress offset + ((place : Int) - offset) := by
  unfold SameBank bankSize at hbank
  unfold processorAddress bankSize
  split <;> split <;> omega

section Jump

variable {address : UInt32} (hbank : SameBank address.toNat (address.toNat + 1))
  (hfits : address.toNat + 2 < 2 ^ 32)

include hbank hfits

/-- The target of a jump is counted from the processor address behind it. -/
theorem rawTarget_addressAfter (distance : Int8) :
    rawTarget (addressAfter address 2) distance =
      processorAddress address.toNat + 2 + distance.toInt := by
  have hstop : addressAfter address 2 = UInt32.ofNat (address.toNat + 2) := by
    rw [← addressAfter_ofNat hfits, UInt32.ofNat_toNat]
  rw [rawTarget, hstop, toNat_windowAddress_behind (by decide) hbank hfits]
  push_cast
  rfl

end Jump

/-- **Jumps as the processor sees them.** In its template a relative jump shows the address, in four digits,
that the processor computes for its destination, held at `$0000`. In the bank of the jump that is the
processor address of the destination. -/
theorem jumps_show_processor_addresses :
    (∀ offset length : Nat, 1 ≤ length → SameBank offset (offset + length - 1) →
      offset + length < 2 ^ 32 →
      (windowAddress (UInt32.ofNat (offset + length))).toNat = processorAddress offset + length) ∧
    ∀ (window : Window) (byte value : UInt8) (rest : List UInt8) (before after : String),
      window.bytes = byte :: value :: rest → 2 ≤ window.remaining →
      Opcode.ofByte byte = .withOperand before .distance after →
      SameBank window.address.toNat (window.address.toNat + 1) →
      window.address.toNat + 2 < 2 ^ 32 →
      ∃ digits target, decode window = .ok ⟨before ++ ("$" ++ String.ofList digits) ++ after, 2⟩ ∧
        digits.length = 4 ∧ Reassembly.numberOf? digits = some target ∧
        (target : Int) = max 0 (processorAddress window.address.toNat + 2 + value.toInt8.toInt) ∧
        before ++ ("$" ++ String.ofList digits) ++ after = String.ofList (replaceFirst "e8".toList
          ("$" ++ String.ofList digits).toList (Opcode.ofByte byte).template.toList) ∧
        ∀ place : Nat, (place : Int) = window.address.toNat + 2 + value.toInt8.toInt →
          SameBank window.address.toNat place → target = processorAddress place := by
  refine ⟨fun offset length => toNat_windowAddress_behind, ?_⟩
  intro window byte value rest before after hbytes hremaining hopcode hbank hfits
  obtain ⟨tail, hreadable⟩ := window.readable_of_two hbytes hremaining
  have htarget := toNat_jumpTarget (addressAfter window.address 2) value.toInt8
  rw [rawTarget_addressAfter hbank hfits] at htarget
  refine ⟨Hex.digits 4 (jumpTarget (addressAfter window.address 2) value.toInt8).toNat, _, ?_,
    Hex.length_digits_of_lt (by decide) (UInt16.toNat_lt _), Hex.numberOf?_digits _ _, htarget,
    (Opcode.replaceFirst_template hopcode _).symm, ?_⟩
  · rw [decode_eq_ok_iff, hreadable]
    exact Decodes.jump hopcode window.address value tail
  · intro place hplace hsame
    have hprocessor := processorAddress_of_sameBank hsame
    omega

/-- A jump to itself that ends the third bank. The position behind it counts as the end of the window. -/
theorem jump_to_itself_at_bank_end :
    (windowAddress 0xc000).toNat = processorAddress 0xbffe + 2 ∧
      ∃ digits target, decode ⟨[0x18, 0xfe], 2, 0xbffe⟩ =
          .ok ⟨"jr " ++ ("$" ++ String.ofList digits) ++ "", 2⟩ ∧
        Reassembly.numberOf? digits = some target ∧ target = 0x7ffe := by
  obtain ⟨hbehind, hjump⟩ := jumps_show_processor_addresses
  obtain ⟨digits, target, hdecode, _, hnumber, _, _, hplace⟩ :=
    hjump ⟨[0x18, 0xfe], 2, 0xbffe⟩ 0x18 0xfe [] "jr " "" rfl (by decide) rfl (by decide) (by decide)
  exact ⟨hbehind 0xbffe 2 (by decide) (by decide) (by decide), digits, target, hdecode, hnumber,
    hplace 0xbffe (by decide) (by decide)⟩

end RomListing
