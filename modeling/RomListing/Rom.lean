import RomListing.Address

/-! A cartridge image: its bytes, the banks they fall into and the header area. Only whole banks
count, but an image smaller than one bank is a bank of its own. -/

namespace RomListing

/-- The offsets from `start` up to, but not including, `stop`. -/
structure Span where
  start : Nat
  stop : Nat
  deriving DecidableEq, Repr

namespace Span

def size (span : Span) : Nat := span.stop - span.start

def contains (span : Span) (offset : Nat) : Bool := span.start ≤ offset && offset < span.stop

end Span

inductive RangeError where
  | indexPastEnd (size index : Nat)
  | startPastEnd (size start : Nat)
  | stopPastEnd (size stop : Nat)
  | reversed (start stop : Nat)
  | offsetOverflow
  deriving DecidableEq, Repr

def RangeError.message : RangeError → String
  | .indexPastEnd size index =>
      "index out of bounds: the len is " ++ toString size ++ " but the index is " ++ toString index
  | .startPastEnd size start =>
      "range start index " ++ toString start ++ " out of range for slice of length " ++ toString size
  | .stopPastEnd size stop =>
      "range end index " ++ toString stop ++ " out of range for slice of length " ++ toString size
  | .reversed start stop =>
      "slice index starts at " ++ toString start ++ " but ends at " ++ toString stop
  | .offsetOverflow => "attempt to multiply with overflow"

/-- A cartridge image. Without a header every byte may be code, as in a snippet that is not a whole
cartridge. -/
structure Rom where
  bytes : Array UInt8
  hasHeader : Bool := true
  deriving DecidableEq, Repr

namespace Header

def logo : Nat := 0x104

def title : Nat := 0x134

def titleStop : Nat := 0x144

def cartridgeType : Nat := 0x147

def destination : Nat := 0x14a

/-- The header area ends right before this offset. -/
def stop : Nat := 0x150

end Header

namespace Rom

def size (rom : Rom) : Nat := rom.bytes.size

def isEmpty (rom : Rom) : Bool := rom.bytes.isEmpty

def withoutHeader (rom : Rom) : Rom := { rom with hasHeader := false }

/-- The number of whole banks, at least one. -/
def bankCount (rom : Rom) : Nat := max (rom.size / bankSize) 1

/-- The offsets of a bank, clipped to the image. -/
def bankRange (rom : Rom) (bank : Nat) : Span :=
  let start := min (bank * bankSize) rom.size
  ⟨start, min (start + bankSize) rom.size⟩

/-- The offsets of a bank, if the bank's first offset fits into 64 bits. -/
def bankSpan (rom : Rom) (bank : Nat) : Except RangeError Span :=
  if bank * bankSize < UInt64.size then .ok (rom.bankRange bank) else .error .offsetOverflow

def trailingBytes (rom : Rom) : Nat := rom.size - (rom.bankRange (rom.bankCount - 1)).stop

/-- The header area, of an image that is long enough to hold one. -/
def headerRange (rom : Rom) : Option Span :=
  if rom.hasHeader ∧ Header.stop ≤ rom.size then some ⟨Header.logo, Header.stop⟩ else none

def isHeaderByte (rom : Rom) (address : UInt32) : Bool :=
  rom.headerRange.any (·.contains address.toNat)

def byteAt (rom : Rom) (index : Nat) : Except RangeError UInt8 :=
  match rom.bytes[index]? with
  | some byte => .ok byte
  | none => .error (.indexPastEnd rom.size index)

/-- The bytes of a span. Of several faults a start past the image is told first, then a stop past the
image, then a stop before the start. -/
def slice (rom : Rom) (span : Span) : Except RangeError (Array UInt8) :=
  if rom.size < span.start then .error (.startPastEnd rom.size span.start)
  else if rom.size < span.stop then .error (.stopPastEnd rom.size span.stop)
  else if span.stop < span.start then .error (.reversed span.start span.stop)
  else .ok (rom.bytes.extract span.start span.stop)

def bankBytes (rom : Rom) (bank : Nat) : List UInt8 :=
  (rom.bytes.extract (rom.bankRange bank).start (rom.bankRange bank).stop).toList

end Rom

end RomListing
