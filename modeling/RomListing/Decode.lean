import RomListing.Instruction
import RomListing.Opcode.Extended

/-! Decoding one instruction. A decoder sees the bytes from an image offset to the end of its bank and
no others, and it never takes more of them than the window lets it read. -/

namespace RomListing

/-- What a decoder may look at: the bytes from an image offset on, how many of them are left in the
bank, and the offset itself. -/
structure Window where
  bytes : List UInt8
  remaining : Nat
  address : UInt32
  deriving DecidableEq, Repr

abbrev Decoder := Window → Except DecodeError Instruction

namespace Window

/-- The bytes an instruction may be made of: no more than are left in the bank, and three at most. -/
def readable (window : Window) : List UInt8 := window.bytes.take (min window.remaining 3)

end Window

/-- The instruction that an opcode byte and the bytes behind it make at an image offset. -/
def decodeOpcode (address : UInt32) (byte : UInt8) (rest : List UInt8) :
    Except DecodeError Instruction :=
  match Opcode.ofByte byte with
  | .undefined => .error ⟨.undefinedOpcode, byte, address⟩
  | .stop => if rest.head? = some 0 then .ok ⟨"stop", 2⟩ else .ok (.data byte Note.corruptedStop)
  | .plain text => .ok ⟨text, 1⟩
  | .extended =>
      match rest with
      | [] => .error ⟨.truncatedInstruction, byte, address⟩
      | selector :: _ => .ok ⟨(Extended.ofByte selector).text, 2⟩
  | .withOperand before operand after =>
      match operand.text? address rest with
      | none => .error ⟨.truncatedInstruction, byte, address⟩
      | some text => .ok ⟨before ++ text ++ after, 1 + operand.size⟩

/-- The decoder of the instruction set. An empty window counts as a truncated `$00`. A stop byte that
no zero follows is kept as data, also when it is the last byte of its bank. -/
def decode : Decoder := fun window =>
  match window.readable with
  | [] => .error ⟨.truncatedInstruction, 0, window.address⟩
  | byte :: rest => decodeOpcode window.address byte rest

end RomListing
