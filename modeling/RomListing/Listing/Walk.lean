import RomListing.Decode
import RomListing.Rom

/-! The walk through a bank. It starts at the bank's first byte and goes from instruction to
instruction. Header bytes are data whatever they look like, so the decoder is not asked about them.
The walk moves on by at least one byte, and it ends at the bank's last byte even if an instruction
claims to be longer. -/

namespace RomListing

inductive Item where
  | header (byte : UInt8)
  | code (instruction : Instruction)
  /-- Bytes that the decoder turned down. -/
  | fault (error : DecodeError)
  deriving DecidableEq, Repr

/-- One stop of the walk: the offset, what the decoder may see from there, and what stands there. -/
structure Visit where
  cursor : Nat
  window : Window
  item : Item
  deriving DecidableEq, Repr

namespace Item

def instruction : Item → Instruction
  | .header byte => .data byte ""
  | .code instruction => instruction
  | .fault error => error.placeholder

def ofResult : Except DecodeError Instruction → Item
  | .ok instruction => .code instruction
  | .error error => .fault error

def isHeader : Item → Bool
  | .header _ => true
  | _ => false

end Item

namespace Visit

/-- The address printed with a visit. It has 32 bits, so offsets of huge images start again. -/
def address (visit : Visit) : UInt32 := visit.window.address

def instruction (visit : Visit) : Instruction := visit.item.instruction

def advance (visit : Visit) : Nat := max visit.instruction.length 1

end Visit

/-- The circumstances of a walk: which addresses are header bytes, who decodes, where the bank ends. -/
structure Walk where
  isHeader : UInt32 → Bool
  decoder : Decoder
  stop : Nat

namespace Walk

def window (walk : Walk) (cursor : Nat) (bytes : List UInt8) : Window :=
  ⟨bytes, walk.stop - cursor, UInt32.ofNat cursor⟩

/-- The visit at an offset where `byte` stands and `rest` follows. -/
def visit (walk : Walk) (cursor : Nat) (byte : UInt8) (rest : List UInt8) : Visit :=
  let window := walk.window cursor (byte :: rest)
  ⟨cursor, window,
    if walk.isHeader window.address then .header byte else .ofResult (walk.decoder window)⟩

/-- The visits from an offset on, after `skip` more bytes of the instruction before it. -/
def visits (walk : Walk) : Nat → Nat → List UInt8 → List Visit
  | _, _, [] => []
  | skip + 1, cursor, _ :: rest => visits walk skip (cursor + 1) rest
  | 0, cursor, byte :: rest =>
      let visit := walk.visit cursor byte rest
      visit :: visits walk (visit.advance - 1) (cursor + 1) rest

end Walk

/-- The visits of a bank. -/
def Rom.visits (rom : Rom) (decoder : Decoder) (bank : Nat) : List Visit :=
  let span := rom.bankRange bank
  Walk.visits ⟨rom.isHeaderByte, decoder, span.stop⟩ 0 span.start (rom.bankBytes bank)

end RomListing
