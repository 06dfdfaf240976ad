import RomListing.Decode

/-! Reading a listing back. A line tells its address and its instruction, and the instruction's text
tells its bytes, so a listing can be turned into bytes without the image it was made from. Only a
relative jump whose target was held at `$0000` does not tell its distance any more. -/

namespace RomListing.Reassembly

def digitValue? (c : Char) : Option Nat :=
  if '0' ≤ c ∧ c ≤ '9' then some (c.toNat - '0'.toNat)
  else if 'a' ≤ c ∧ c ≤ 'f' then some (c.toNat - 'a'.toNat + 10)
  else none

def isDigit (c : Char) : Bool := (digitValue? c).isSome

/-- The number that lowercase hexadecimal digits spell. -/
def numberOf? (digits : List Char) : Option Nat :=
  digits.foldlM (fun number c => (digitValue? c).map (16 * number + ·)) 0

/-- A line cut at its last `;$`: the part before it and the part behind it. -/
def cutComment? : List Char → Option (List Char × List Char)
  | [] => none
  | c :: cs =>
      match cutComment? cs with
      | some (before, behind) => some (c :: before, behind)
      | none =>
          match c, cs with
          | ';', '$' :: behind => some ([], behind)
          | _, _ => none

def dropBlanks (cs : List Char) : List Char := (cs.reverse.dropWhile (· == ' ')).reverse

/-- The characters in front of a remark. -/
def dropNote : List Char → List Char
  | [] => []
  | ' ' :: ';' :: ' ' :: _ => []
  | c :: cs => c :: dropNote cs

def allBytes : List UInt8 := (List.range 256).map UInt8.ofNat

/-- The instructions that have one text each, with their bytes. -/
def fixedTexts : List (String × List UInt8) :=
  allBytes.filterMap (fun byte =>
    match Opcode.ofByte byte with
    | .plain text => some (text, [byte])
    | .stop => some ("stop", [byte, 0])
    | _ => none) ++
  allBytes.map fun byte => ((Extended.ofByte byte).text, [Opcode.extendedByte, byte])

/-- The instructions with an operand: the texts around it, the opcode byte and the operand. -/
def operandTexts : List ((String × String) × (UInt8 × Operand)) :=
  allBytes.filterMap fun byte =>
    match Opcode.ofByte byte with
    | .withOperand before operand after => some ((before, after), (byte, operand))
    | _ => none

def dataFrame : String × String := ("db ", "")

def numberPart (text : List Char) : List Char :=
  ((text.dropWhile (· != '$')).drop 1).takeWhile isDigit

/-- The texts around the number in a text. -/
def frame (text : List Char) : String × String :=
  (String.ofList (text.takeWhile (· != '$')),
    String.ofList (((text.dropWhile (· != '$')).drop 1).dropWhile isDigit))

/-- The bytes of an operand that is printed as a number, for an opcode at the image offset `offset`. -/
def operandBytes (offset : UInt32) (number : Nat) : Operand → List UInt8
  | .byte | .highPage => [UInt8.ofNat number]
  | .distance =>
      [(Int8.ofInt (number - (windowAddress (addressAfter offset 2)).toNat)).toUInt8]
  | .word | .address => [UInt8.ofNat number, UInt8.ofNat (number / 256)]

/-- The bytes of an instruction's text at an image offset. -/
def textBytes? (offset : UInt32) (text : List Char) : Option (List UInt8) :=
  match fixedTexts.lookup (String.ofList text) with
  | some bytes => some bytes
  | none => do
      let number ← numberOf? (numberPart text)
      if frame text = dataFrame then return [UInt8.ofNat number]
      let (byte, operand) ← operandTexts.lookup (frame text)
      return byte :: operandBytes offset number operand

def lineAddress? (line : List Char) : Option Nat :=
  (cutComment? line).bind fun parts => numberOf? parts.2

def lineBytes? (line : List Char) : Option (Nat × List UInt8) := do
  let (before, behind) ← cutComment? line
  let address ← numberOf? behind
  let bytes ← textBytes? (UInt32.ofNat address) (dropNote (dropBlanks before))
  return (address, bytes)

/-- The fault that a remark tells. -/
def faultOfNote? (note : List Char) : Option Fault :=
  [Fault.undefinedOpcode, Fault.truncatedInstruction].find? (·.note.toList = note)

/-- The error that a line stands in for, if the line shows a data byte with a remark about the error. -/
def lineError? (line : List Char) : Option DecodeError := do
  let (before, behind) ← cutComment? line
  let address ← numberOf? behind
  let text := dropBlanks before
  let source := dropNote text
  let fault ← faultOfNote? (text.drop source.length)
  let opcode ← numberOf? (numberPart source)
  if frame source = dataFrame then return ⟨fault, UInt8.ofNat opcode, UInt32.ofNat address⟩
  else none

def isSection (line : List Char) : Bool := "SECTION ".toList.isPrefixOf line

/-- The lines of a listing that do not open a bank. -/
def codeLines (listing : String) : List (List Char) :=
  (listing.toList.splitOn '\n').filter (!isSection ·)

def addresses? (listing : String) : Option (List Nat) :=
  (codeLines listing).mapM lineAddress?

/-- The lines that show an address. -/
def linesAt (address : Nat) (listing : String) : List (List Char) :=
  (codeLines listing).filter (lineAddress? · = some address)

/-- The lines from the first one that shows an address on, with the lines that open further banks. -/
def linesFrom (address : Nat) (listing : String) : List (List Char) :=
  (listing.toList.splitOn '\n').dropWhile (lineAddress? · ≠ some address)

def pieces? (listing : String) : Option (List (Nat × List UInt8)) :=
  (codeLines listing).mapM lineBytes?

end RomListing.Reassembly

namespace RomListing

/-- The bytes of a listing. -/
def reassemble? (listing : String) : Option (List UInt8) :=
  (Reassembly.pieces? listing).map fun pieces => pieces.flatMap (·.2)

end RomListing
