import RomListing.Proofs.Decoding
import RomListing.Proofs.Jumps
import RomListing.Reassembly

/-! Operands read back. An operand is printed as one number, and the number gives back the operand's
bytes. The one exception is a jump that is held at `$0000`: its target hides the distance. -/

namespace RomListing

theorem toNat_wordOf (high low : UInt8) : (wordOf high low).toNat = 256 * high.toNat + low.toNat := by
  have hhigh := high.toNat_lt
  have hshift : (high.toUInt16 <<< 8).toNat = high.toNat <<< 8 := by
    rw [UInt16.toNat_shiftLeft, UInt8.toNat_toUInt16]
    change high.toNat <<< 8 % 65536 = _
    rw [Nat.shiftLeft_eq]
    omega
  rw [wordOf, UInt16.toNat_or, hshift, UInt8.toNat_toUInt16,
    ← Nat.shiftLeft_add_eq_or_of_lt low.toNat_lt, Nat.shiftLeft_eq, Nat.mul_comm]

theorem ofNat_wordOf (high low : UInt8) :
    UInt8.ofNat (wordOf high low).toNat = low ∧ UInt8.ofNat ((wordOf high low).toNat / 256) = high := by
  have hlow := low.toNat_lt
  have hhigh := high.toNat_lt
  rw [toNat_wordOf]
  constructor <;> (apply UInt8.toNat_inj.mp; rw [UInt8.toNat_ofNat']; omega)

/-- The distance of a jump that is not held is its target less the address behind it. -/
theorem toUInt8_distance {stop : UInt32} {value : UInt8} (h : 0 ≤ rawTarget stop value.toInt8) :
    (Int8.ofInt ((jumpTarget stop value.toInt8).toNat - (windowAddress stop).toNat)).toUInt8 =
      value := by
  have hdistance : ((jumpTarget stop value.toInt8).toNat : Int) - (windowAddress stop).toNat =
      value.toInt8.toInt := by
    rw [toNat_jumpTarget]
    simp only [rawTarget] at h ⊢
    omega
  rw [hdistance, Int8.ofInt_toInt, UInt8.toUInt8_toInt8]

/-- Bytes of a relative jump, found at an image offset, whose target would lie below `$0000`. -/
def IsHeldJump (address : UInt32) (bytes : List UInt8) : Prop :=
  ∃ byte value rest before after, bytes = byte :: value :: rest ∧
    Opcode.ofByte byte = .withOperand before .distance after ∧
    rawTarget (UInt32.ofNat (min (address.toNat + 2) 0xffffffff)) value.toInt8 < 0

/-- A held jump lies near the start of the image. -/
theorem IsHeldJump.toNat_le {address : UInt32} {bytes : List UInt8} (h : IsHeldJump address bytes) :
    address.toNat ≤ 0x7d := by
  obtain ⟨_, _, _, _, _, _, _, hneg⟩ := h
  have hstop := toNat_le_of_rawTarget_neg hneg
  have haddress := address.toNat_lt
  rw [UInt32.toNat_ofNat'] at hstop
  omega

namespace Reassembly

theorem length_operandBytes (offset : UInt32) (number : Nat) (operand : Operand) :
    (operandBytes offset number operand).length = operand.size := by
  cases operand <;> rfl

/-- The printed number gives back the operand's bytes, unless the operand is the distance of a held
jump. -/
theorem operandBytes_of_text? {operand : Operand} {offset : UInt32} {rest : List UInt8} {text : String}
    (h : operand.text? offset rest = some text) :
    ∃ width number, text = Hex.literal width number ∧
      (operandBytes offset number operand <+: rest ∨
        ∃ value tail, operand = .distance ∧ rest = value :: tail ∧
          rawTarget (addressAfter offset 2) value.toInt8 < 0) := by
  cases operand with
  | byte =>
      rcases rest with _ | ⟨value, tail⟩
      · contradiction
      cases h
      refine ⟨2, value.toNat, rfl, .inl ⟨tail, ?_⟩⟩
      rw [operandBytes, UInt8.ofNat_toNat]
      rfl
  | highPage =>
      rcases rest with _ | ⟨low, tail⟩
      · contradiction
      cases h
      refine ⟨4, (wordOf 0xff low).toNat, rfl, .inl ⟨tail, ?_⟩⟩
      rw [operandBytes, (ofNat_wordOf 0xff low).1]
      rfl
  | distance =>
      rcases rest with _ | ⟨value, tail⟩
      · contradiction
      cases h
      refine ⟨4, (jumpTarget (addressAfter offset 2) value.toInt8).toNat, rfl, ?_⟩
      by_cases hneg : rawTarget (addressAfter offset 2) value.toInt8 < 0
      · exact .inr ⟨value, tail, rfl, rfl, hneg⟩
      · refine .inl ⟨tail, ?_⟩
        rw [operandBytes, toUInt8_distance (by omega)]
        rfl
  | word | address =>
      rcases rest with _ | ⟨low, _ | ⟨high, tail⟩⟩
      · contradiction
      · contradiction
      cases h
      refine ⟨4, (wordOf high low).toNat, rfl, .inl ⟨tail, ?_⟩⟩
      rw [operandBytes, (ofNat_wordOf high low).1, (ofNat_wordOf high low).2]
      rfl

end Reassembly

end RomListing
