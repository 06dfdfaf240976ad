import RomListing.Text.Hex

/-! Instructions as a listing shows them, and the reasons why bytes are no instruction. Bytes that
cannot be decoded stand in the listing as a `db` line for one byte. -/

namespace RomListing

/-- A line of source and the number of image bytes it covers. -/
structure Instruction where
  text : String
  length : Nat
  deriving DecidableEq, Repr

inductive Fault where
  | undefinedOpcode
  | truncatedInstruction
  deriving DecidableEq, Repr

/-- Bytes that are no instruction: the opcode byte and its image offset. -/
structure DecodeError where
  fault : Fault
  opcode : UInt8
  address : UInt32
  deriving DecidableEq, Repr

namespace Note

/-- The remark behind an opcode that the processor does not define. -/
def unknown : String := " ; unknown instruction"

/-- The remark behind an opcode whose operand bytes are missing. -/
def truncated : String := " ; truncated instruction"

/-- The remark behind a stop opcode that is not followed by a zero. -/
def corruptedStop : String := " ; corrupted stop"

end Note

/-- A byte emitted as data, with a remark. -/
def Instruction.data (byte : UInt8) (note : String) : Instruction :=
  ⟨"db " ++ Hex.literal 2 byte.toNat ++ note, 1⟩

def Fault.note : Fault → String
  | .undefinedOpcode => Note.unknown
  | .truncatedInstruction => Note.truncated

def Fault.description : Fault → String
  | .undefinedOpcode => "undefined opcode "
  | .truncatedInstruction => "truncated instruction "

namespace DecodeError

def message (error : DecodeError) : String :=
  error.fault.description ++ Hex.literal 2 error.opcode.toNat ++ " at address " ++
    Hex.literal 4 error.address.toNat

/-- The data line that stands in for the opcode byte. -/
def placeholder (error : DecodeError) : Instruction :=
  .data error.opcode error.fault.note

end DecodeError

end RomListing
