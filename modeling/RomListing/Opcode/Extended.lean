import RomListing.Opcode

/-! The extended set, reached through a leading byte. It is uniform: the first octal digit of the
second byte selects rotations and shifts, or one of three bit operations, the second digit the
rotation or the bit, the third one the place. -/

namespace RomListing

/-- An instruction of the extended set. Rotations and shifts name no bit. -/
structure Extended where
  operation : String
  bit : Option (Fin 8)
  register : String
  deriving DecidableEq, Repr

namespace Extended

def rotation : Fin 8 → String
  | 0 => "rlc"
  | 1 => "rrc"
  | 2 => "rl"
  | 3 => "rr"
  | 4 => "sla"
  | 5 => "sra"
  | 6 => "swap"
  | 7 => "srl"

/-- The instruction selected by the byte behind the leading byte. -/
def ofByte (byte : UInt8) : Extended :=
  let place := Opcode.register (Opcode.column byte)
  match Opcode.block byte with
  | 0 => ⟨rotation (Opcode.row byte), none, place⟩
  | 1 => ⟨"bit", some (Opcode.row byte), place⟩
  | 2 => ⟨"res", some (Opcode.row byte), place⟩
  | 3 => ⟨"set", some (Opcode.row byte), place⟩

def text (instruction : Extended) : String :=
  match instruction.bit with
  | some bit => instruction.operation ++ " " ++ toString bit.val ++ ", " ++ instruction.register
  | none => instruction.operation ++ " " ++ instruction.register

end Extended

end RomListing
