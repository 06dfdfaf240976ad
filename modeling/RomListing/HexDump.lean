import RomListing.Text.Hex

/-! Hex dumps: a cell for each byte, two uppercase digits and a blank, with a line feed after each
full line. -/

namespace RomListing.HexDump

/-- A byte of the dump. The line ends behind it when it is the last one of its line. -/
def cell (perLine : Nat) (byte : UInt8) (index : Nat) : String :=
  Hex.upperByte byte ++ (if index % perLine = perLine - 1 then " \n" else " ")

/-- The dump of the first `limit` bytes, or of all. A line holds at least one byte. -/
def render (bytes : List UInt8) (perLine : Nat) (limit : Option Nat) : String :=
  let shown := match limit with
    | some count => bytes.take count
    | none => bytes
  String.join (shown.zipIdx.map fun (byte, index) => cell (max perLine 1) byte index)

end RomListing.HexDump
