/-! Hexadecimal text. A number is written with a least number of digits, filled up with zeros in
front, and is never cut: the width only ever adds digits. -/

namespace RomListing.Hex

/-- The last `width` hexadecimal digits of `n`, the most significant one first. -/
def lastDigits : Nat → Nat → List Char
  | 0, _ => []
  | width + 1, n => lastDigits width (n / 16) ++ [(n % 16).digitChar]

/-- How many digits `n` takes without any filling; zero takes one. -/
def digitCount (n : Nat) : Nat := n.log2 / 4 + 1

/-- The digits of `n`, at least `width` of them. -/
def digits (width n : Nat) : List Char := lastDigits (max width (digitCount n)) n

/-- `n` in lowercase with at least `width` digits. -/
def padded (width n : Nat) : String := String.ofList (digits width n)

/-- A number as assembly source spells it: a dollar sign and the padded digits. -/
def literal (width n : Nat) : String := "$" ++ padded width n

/-- A byte as two uppercase digits. -/
def upperByte (b : UInt8) : String := String.ofList ((lastDigits 2 b.toNat).map Char.toUpper)

@[simp] theorem length_lastDigits (width n : Nat) : (lastDigits width n).length = width := by
  induction width generalizing n with
  | zero => rfl
  | succ width ih => simp [lastDigits, ih]

end RomListing.Hex
