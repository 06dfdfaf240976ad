/-! Counts on the command line: decimal digits, with or without a plus sign, that fit in 64 bits. -/

namespace RomListing.CommandLine

inductive NumberError where
  | empty
  | invalidDigit
  | tooLarge
  deriving DecidableEq, Repr

def NumberError.message : NumberError → String
  | .empty => "cannot parse integer from empty string"
  | .invalidDigit => "invalid digit found in string"
  | .tooLarge => "number too large to fit in target type"

/-- One digit more. A character that is no digit is told before a number that grows too large. -/
def pushDigit (number : Nat) (c : Char) : Except NumberError Nat :=
  if c.isDigit then
    let next := 10 * number + (c.toNat - '0'.toNat)
    if next < UInt64.size then .ok next else .error .tooLarge
  else .error .invalidDigit

def parseNumber (word : String) : Except NumberError Nat :=
  match word.toList with
  | [] => .error .empty
  | ['+'] => .error .invalidDigit
  | '+' :: digits => digits.foldlM pushDigit 0
  | digits => digits.foldlM pushDigit 0

end RomListing.CommandLine
