import RomListing.Address
import RomListing.Text.Hex

/-! The instruction set. An opcode byte is read as three octal digits: the first one selects a block
of the set, the other two select a row and a column in it. Registers, register pairs, conditions and
arithmetic operations are numbered, so most rows are uniform. -/

namespace RomListing

/-- What follows an opcode byte in the image. -/
inductive Operand where
  | byte
  /-- An offset into the page at `$ff00`. -/
  | highPage
  /-- A signed distance from the end of a jump. -/
  | distance
  | word
  | address
  deriving DecidableEq, Repr

namespace Operand

def name : Operand → String
  | .byte => "n8"
  | .highPage => "a8"
  | .distance => "e8"
  | .word => "n16"
  | .address => "a16"

def size : Operand → Nat
  | .byte | .highPage | .distance => 1
  | .word | .address => 2

/-- The operand as source text, read from the bytes behind an opcode at the image offset `offset`.
Words have their lower half first. -/
def text? (offset : UInt32) : Operand → List UInt8 → Option String
  | .byte, value :: _ => some (Hex.literal 2 value.toNat)
  | .highPage, low :: _ => some (Hex.literal 4 (wordOf 0xff low).toNat)
  | .distance, value :: _ =>
      some (Hex.literal 4 (jumpTarget (addressAfter offset 2) value.toInt8).toNat)
  | .word, low :: high :: _ => some (Hex.literal 4 (wordOf high low).toNat)
  | .address, low :: high :: _ => some (Hex.literal 4 (wordOf high low).toNat)
  | _, _ => none

end Operand

inductive Opcode where
  | plain (text : String)
  | withOperand (before : String) (operand : Operand) (after : String)
  /-- The next byte selects an instruction of the extended set. -/
  | extended
  /-- The stop instruction, which is always followed by a zero. -/
  | stop
  | undefined
  deriving DecidableEq, Repr

namespace Opcode

def template : Opcode → String
  | .plain text => text
  | .withOperand before operand after => before ++ operand.name ++ after
  | .stop => "stop"
  | .extended | .undefined => ""

def length : Opcode → Nat
  | .plain _ | .undefined => 1
  | .withOperand _ operand _ => 1 + operand.size
  | .extended | .stop => 2

def stopByte : UInt8 := 0x10

/-- The byte in front of an instruction of the extended set. -/
def extendedByte : UInt8 := 0xcb

/-- The first octal digit of a byte, which has two bits only. -/
def block (byte : UInt8) : Fin 4 := ⟨byte.toNat / 64, by have := byte.toNat_lt; omega⟩

def row (byte : UInt8) : Fin 8 := ⟨byte.toNat / 8 % 8, by omega⟩

def column (byte : UInt8) : Fin 8 := ⟨byte.toNat % 8, by omega⟩

/-- The eight places a byte can be in. -/
def register : Fin 8 → String
  | 0 => "b"
  | 1 => "c"
  | 2 => "d"
  | 3 => "e"
  | 4 => "h"
  | 5 => "l"
  | 6 => "[hl]"
  | 7 => "a"

/-- The four wide registers of loads and arithmetic. -/
def widePair : Fin 4 → String
  | 0 => "bc"
  | 1 => "de"
  | 2 => "hl"
  | 3 => "sp"

/-- The four wide registers that go through the stack. -/
def stackPair : Fin 4 → String
  | 0 => "bc"
  | 1 => "de"
  | 2 => "hl"
  | 3 => "af"

def condition : Fin 4 → String
  | 0 => "nz"
  | 1 => "z"
  | 2 => "nc"
  | 3 => "c"

def arithmetic : Fin 8 → String
  | 0 => "add"
  | 1 => "adc"
  | 2 => "sub"
  | 3 => "sbc"
  | 4 => "and"
  | 5 => "xor"
  | 6 => "or"
  | 7 => "cp"

/-- The wide register that a row of two columns belongs to. -/
def rowPair (y : Fin 8) : Fin 4 := ⟨y.val / 2, by omega⟩

def rowCondition (y : Fin 8) : Fin 4 := ⟨y.val % 4, by omega⟩

/-- Bytes `$00` to `$3f`: jumps over a distance, wide loads, increments and immediate loads. -/
def lowBlock (y : Fin 8) : Fin 8 → Opcode
  | 0 =>
      match y with
      | 0 => .plain "nop"
      | 1 => .withOperand "ld [" .address "], sp"
      | 2 => .stop
      | 3 => .withOperand "jr " .distance ""
      | _ => .withOperand ("jr " ++ condition (rowCondition y) ++ ", ") .distance ""
  | 1 =>
      if y.val % 2 = 0 then .withOperand ("ld " ++ widePair (rowPair y) ++ ", ") .word ""
      else .plain ("add hl, " ++ widePair (rowPair y))
  | 2 =>
      match y with
      | 0 => .plain "ld [bc], a"
      | 1 => .plain "ld a, [bc]"
      | 2 => .plain "ld [de], a"
      | 3 => .plain "ld a, [de]"
      | 4 => .plain "ldi [hl], a"
      | 5 => .plain "ldi a, [hl]"
      | 6 => .plain "ldd [hl], a"
      | 7 => .plain "ldd a, [hl]"
  | 3 => .plain ((if y.val % 2 = 0 then "inc " else "dec ") ++ widePair (rowPair y))
  | 4 => .plain ("inc " ++ register y)
  | 5 => .plain ("dec " ++ register y)
  | 6 => .withOperand ("ld " ++ register y ++ ", ") .byte ""
  | 7 =>
      match y with
      | 0 => .plain "rlca"
      | 1 => .plain "rrca"
      | 2 => .plain "rla"
      | 3 => .plain "rra"
      | 4 => .plain "daa"
      | 5 => .plain "cpl"
      | 6 => .plain "scf"
      | 7 => .plain "ccf"

/-- Bytes `$40` to `$7f`: loads from place to place. A load from memory to the same memory would be
idle, its byte halts the processor. -/
def loadBlock (y z : Fin 8) : Opcode :=
  if y = 6 ∧ z = 6 then .plain "halt" else .plain ("ld " ++ register y ++ ", " ++ register z)

/-- Bytes `$80` to `$bf`: operations on the accumulator. -/
def arithmeticBlock (y z : Fin 8) : Opcode := .plain (arithmetic y ++ " " ++ register z)

/-- Bytes `$c0` to `$ff`: returns, the stack, jumps, calls and operations with an immediate byte. -/
def highBlock (y : Fin 8) : Fin 8 → Opcode
  | 0 =>
      match y with
      | 4 => .withOperand "ldh [" .highPage "], a"
      | 5 => .withOperand "add sp, " .byte ""
      | 6 => .withOperand "ldh a, [" .highPage "]"
      | 7 => .withOperand "ld hl, sp+" .byte ""
      | _ => .plain ("ret " ++ condition (rowCondition y))
  | 1 =>
      match y with
      | 1 => .plain "ret"
      | 3 => .plain "reti"
      | 5 => .plain "jp hl"
      | 7 => .plain "ld sp, hl"
      | _ => .plain ("pop " ++ stackPair (rowPair y))
  | 2 =>
      match y with
      | 4 => .plain "ld [$ff00+c], a"
      | 5 => .withOperand "ld [" .address "], a"
      | 6 => .plain "ld a, [$ff00+c]"
      | 7 => .withOperand "ld a, [" .address "]"
      | _ => .withOperand ("jp " ++ condition (rowCondition y) ++ ", ") .address ""
  | 3 =>
      match y with
      | 0 => .withOperand "jp " .address ""
      | 1 => .extended
      | 6 => .plain "di"
      | 7 => .plain "ei"
      | _ => .undefined
  | 4 =>
      if y.val < 4 then .withOperand ("call " ++ condition (rowCondition y) ++ ", ") .address ""
      else .undefined
  | 5 =>
      if y.val % 2 = 0 then .plain ("push " ++ stackPair (rowPair y))
      else if y = 1 then .withOperand "call " .address ""
      else .undefined
  | 6 => .withOperand (arithmetic y ++ (if y.val < 5 then " a, " else " ")) .byte ""
  | 7 => .plain ("rst " ++ Hex.literal 2 (8 * y.val))

def ofByte (byte : UInt8) : Opcode :=
  match block byte with
  | 0 => lowBlock (row byte) (column byte)
  | 1 => loadBlock (row byte) (column byte)
  | 2 => arithmeticBlock (row byte) (column byte)
  | 3 => highBlock (row byte) (column byte)

@[simp] theorem ofByte_stopByte : ofByte stopByte = .stop := rfl

end Opcode

end RomListing
