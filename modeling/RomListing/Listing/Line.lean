import RomListing.Text.Hex

/-! The lines of a listing. Behind the text of an instruction stands a comment with its address, moved
to the right so that it ends at a given column. Widths are counted in bytes of UTF-8. -/

namespace RomListing.Line

def comment (address : UInt32) : String := ";" ++ Hex.literal 4 address.toNat

def defaultWidth : Nat := 40

/-- The blanks between text and comment: as many as the column asks for, none if the two alone reach
it. -/
def padding (width : Nat) (text : String) (address : UInt32) : Nat :=
  width - (text.utf8ByteSize + (comment address).utf8ByteSize)

def blanks (count : Nat) : String := String.ofList (List.replicate count ' ')

/-- The line with its blanks, however many. -/
def render (width : Nat) (text : String) (address : UInt32) : String :=
  text ++ blanks (padding width text address) ++ comment address

/-- The largest number of blanks a line may hold. -/
def maxPadding : Nat := 65535

/-- The line, unless it would take too many blanks. -/
def format? (width : Nat) (text : String) (address : UInt32) : Option String :=
  if padding width text address ≤ maxPadding then some (render width text address) else none

def tooWideMessage : String := "Formatting argument out of range"

/-- The line that opens a bank. The first bank is the fixed one. -/
def sectionMarker (bank : Nat) : String :=
  "SECTION \"rom" ++ toString bank ++ "\", " ++ (if bank = 0 then "ROM0" else "ROMX")

end RomListing.Line
