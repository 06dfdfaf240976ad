/-! What a terminal shows of a text. Words of a command line are repeated in messages, and a control
sequence among them must not reach the terminal. A sequence opens with the escape character, and its
form says where it closes. -/

namespace RomListing.Terminal

/-- Where in a text or a control sequence a character stands. -/
inductive Place where
  | text
  | escape
  /-- In a sequence of two parts, in front of its last character. -/
  | escapeIntermediate
  | controlSequence
  | deviceEntry
  | deviceParameter
  | deviceIntermediate
  /-- In a string that ends at the byte `0x9c`. -/
  | string
  | operatingString
  deriving DecidableEq, Repr

def isSpacing (c : Char) : Bool := c == '\t' || c == '\n' || c == '\x0c' || c == '\r'

def isGraphic (c : Char) : Bool := ' ' ≤ c && c != '\x7f'

def within (first last c : Char) : Bool := first ≤ c && c ≤ last

def endsString (c : Char) : Bool := (String.utf8EncodeChar c).contains 0x9c

namespace Place

/-- Whether a character is shown. Spacing is also obeyed inside of a short sequence. -/
def shows (place : Place) (c : Char) : Bool :=
  match place with
  | .text => isGraphic c || isSpacing c
  | .escape | .escapeIntermediate | .controlSequence => isSpacing c
  | _ => false

/-- The place behind a character that is not shown. A character that the place has no use for
changes nothing. -/
def next (place : Place) (c : Char) : Place :=
  if c = '\x1b' then .escape
  else if c = '\x18' ∨ c = '\x1a' then .text
  else
    match place with
    | .text => .text
    | .escape =>
        if c = '[' then .controlSequence
        else if c = ']' then .operatingString
        else if c = 'P' then .deviceEntry
        else if c = 'X' ∨ c = '^' ∨ c = '_' then .string
        else if within ' ' '/' c then .escapeIntermediate
        else if within '0' '~' c then .text
        else .escape
    | .escapeIntermediate => if within '0' '~' c then .text else .escapeIntermediate
    | .controlSequence => if within '@' '~' c then .text else .controlSequence
    | .deviceEntry =>
        if within ' ' '/' c then .deviceIntermediate
        else if within '0' '?' c then .deviceParameter
        else if within '@' '~' c then .string
        else .deviceEntry
    | .deviceParameter =>
        if within ' ' '/' c then .deviceIntermediate
        else if within '<' '~' c then .string
        else .deviceParameter
    | .deviceIntermediate => if within '0' '~' c then .string else .deviceIntermediate
    | .string => if endsString c then .text else .string
    | .operatingString => if c = '\x07' then .text else .operatingString

end Place

/-- The reading of a text. Once a character was shown, all that follows is taken for text up to the
next control character, which then continues the sequence that was open. -/
structure Scanner where
  place : Place := .text
  showing : Bool := false
  deriving DecidableEq, Repr

namespace Scanner

def shows (scanner : Scanner) (c : Char) : Bool :=
  (if scanner.showing then Place.text else scanner.place).shows c

/-- The reading behind a character. A shown character outside of ASCII closes an open sequence. -/
def step (scanner : Scanner) (c : Char) : Scanner :=
  if scanner.shows c then ⟨if c.val < 0x80 then scanner.place else .text, true⟩
  else ⟨scanner.place.next c, false⟩

def shown (scanner : Scanner) : List Char → List Char
  | [] => []
  | c :: cs =>
      if scanner.shows c then c :: (scanner.step c).shown cs else (scanner.step c).shown cs

end Scanner

/-- A text without its control sequences and control characters. -/
def visible (text : String) : String := String.ofList (Scanner.shown {} text.toList)

end RomListing.Terminal
