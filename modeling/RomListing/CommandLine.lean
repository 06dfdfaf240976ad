import RomListing.CommandLine.Number
import RomListing.Listing.Line
import RomListing.Text.Terminal

/-! The command line. Words are read from left to right. A value that stands in a word of its own is
checked when the next option is recognised, so an unknown option behind a bad value is told first; a
value attached to its option is checked at once. The first of help, version and misuse ends the
reading. -/

namespace RomListing.CommandLine

/-- What takes a value. -/
inductive Slot where
  | rom
  | output
  | width
  | hexDump
  deriving DecidableEq, Repr

inductive Switch where
  | strict
  | noHeader
  | help
  | version
  deriving DecidableEq, Repr

def Slot.label : Slot → String
  | .rom => "<ROM>"
  | .output => "--output <OUTPUT>"
  | .width => "--width <WIDTH>"
  | .hexDump => "--hex-dump <BYTES>"

def Switch.label : Switch → String
  | .strict => "--strict"
  | .noHeader => "--no-header"
  | .help => "--help"
  | .version => "--version"

inductive UsageError where
  | invalidNumber (slot : Slot) (value : String) (reason : NumberError)
  | missingValue (slot : Slot)
  | unexpectedArgument (word : String)
  | repeatedSlot (slot : Slot)
  | repeatedSwitch (switch : Switch)
  | unexpectedValue (switch : Switch) (value : String)
  | missingRom
  deriving DecidableEq, Repr

/-- A word of the user is repeated as a terminal shows it. -/
def UsageError.message : UsageError → String
  | .invalidNumber slot value reason =>
      "invalid value '" ++ Terminal.visible value ++ "' for '" ++ slot.label ++ "': " ++
        reason.message
  | .missingValue slot => "a value is required for '" ++ slot.label ++ "' but none was supplied"
  | .unexpectedArgument word =>
      "unexpected argument '" ++ Terminal.visible word ++ "' found"
  | .repeatedSlot slot => "the argument '" ++ slot.label ++ "' cannot be used multiple times"
  | .repeatedSwitch switch => "the argument '" ++ switch.label ++ "' cannot be used multiple times"
  | .unexpectedValue switch value =>
      "unexpected value '" ++ Terminal.visible value ++ "' for '" ++ switch.label ++
        "' found; no more were expected"
  | .missingRom => "the following required arguments were not provided:\n  <ROM>"

inductive Interruption where
  | help
  | version
  | misuse (error : UsageError)
  deriving DecidableEq, Repr

structure Arguments where
  rom : String
  output : Option String
  strict : Bool
  width : Nat
  noHeader : Bool
  hexDump : Option Nat
  deriving DecidableEq, Repr

/-- The part of a command line that is settled. -/
structure Draft where
  rom : Option String := none
  output : Option String := none
  strict : Bool := false
  width : Option Nat := none
  noHeader : Bool := false
  hexDump : Option Nat := none
  deriving DecidableEq, Repr

namespace Draft

def holds (draft : Draft) : Slot → Bool
  | .rom => draft.rom.isSome
  | .output => draft.output.isSome
  | .width => draft.width.isSome
  | .hexDump => draft.hexDump.isSome

def path (slot : Slot) (value : String) : Except UsageError String :=
  if value = "" then .error (.missingValue slot) else .ok value

def number (slot : Slot) (value : String) : Except UsageError Nat :=
  match parseNumber value with
  | .ok number => .ok number
  | .error reason => .error (.invalidNumber slot value reason)

def fill (draft : Draft) (slot : Slot) (value : String) : Except UsageError Draft :=
  match slot with
  | .rom => do return { draft with rom := some (← path slot value) }
  | .output => do return { draft with output := some (← path slot value) }
  | .width => do return { draft with width := some (← number slot value) }
  | .hexDump => do return { draft with hexDump := some (← number slot value) }

/-- Settles a value. That it is missing is told first, then that there is one already, then that it
cannot be read. -/
def assign (draft : Draft) (slot : Slot) : Option String → Except UsageError Draft
  | none => .error (.missingValue slot)
  | some value =>
      if draft.holds slot then .error (.repeatedSlot slot) else draft.fill slot value

def finish (draft : Draft) : Except UsageError Arguments :=
  match draft.rom with
  | none => .error .missingRom
  | some rom =>
      .ok ⟨rom, draft.output, draft.strict, draft.width.getD Line.defaultWidth, draft.noHeader,
        draft.hexDump⟩

end Draft

inductive Word where
  /-- Two dashes: no options follow. -/
  | separator
  /-- Two dashes and a name, perhaps with a value behind an equals sign. -/
  | long (name : String) (value : Option String)
  /-- One dash and a letter; what follows belongs to the letter. -/
  | short (letter : Char) (rest : List Char)
  | plain
  deriving DecidableEq, Repr

def valueBehindEquals (cs : List Char) : Option String :=
  match cs.dropWhile (· != '=') with
  | [] => none
  | _ :: value => some (String.ofList value)

def Word.ofString (word : String) : Word :=
  match word.toList with
  | ['-', '-'] => .separator
  | '-' :: '-' :: cs => .long (String.ofList (cs.takeWhile (· != '='))) (valueBehindEquals cs)
  | '-' :: letter :: rest => .short letter rest
  | _ => .plain

/-- The value attached to a letter, with or without an equals sign. -/
def attachedValue : List Char → Option String
  | [] => none
  | '=' :: value => some (String.ofList value)
  | value => some (String.ofList value)

inductive Key where
  | slot (slot : Slot)
  | switch (switch : Switch)
  deriving DecidableEq, Repr

def Key.ofName? : String → Option Key
  | "output" => some (.slot .output)
  | "width" => some (.slot .width)
  | "hex-dump" => some (.slot .hexDump)
  | "strict" => some (.switch .strict)
  | "no-header" => some (.switch .noHeader)
  | "help" => some (.switch .help)
  | "version" => some (.switch .version)
  | _ => none

def Key.ofLetter? : Char → Option Key
  | 'o' => some (.slot .output)
  | 'w' => some (.slot .width)
  | 'h' => some (.switch .help)
  | 'V' => some (.switch .version)
  | _ => none

/-- Where the reading stands: what is settled, the option or path still to be settled with its value
if that has been seen, and whether options are over. -/
structure Reader where
  draft : Draft := {}
  pending : Option (Slot × Option String) := none
  optionsOver : Bool := false
  deriving DecidableEq, Repr

namespace Reader

def settle (reader : Reader) : Except Interruption Reader :=
  match reader.pending with
  | none => .ok reader
  | some (slot, value) =>
      match reader.draft.assign slot value with
      | .ok draft => .ok { reader with draft := draft, pending := none }
      | .error error => .error (.misuse error)

/-- A value attached to its option is settled at once, any other is waited for. -/
def takeSlot (reader : Reader) (slot : Slot) (value : Option String) :
    Except Interruption Reader := do
  let reader ← reader.settle
  let reader := { reader with pending := some (slot, value) }
  if value.isSome then reader.settle else return reader

/-- Help and version end the reading; the other switches may be given once. -/
def takeSwitch (reader : Reader) (switch : Switch) : Except Interruption Reader := do
  let reader ← reader.settle
  match switch with
  | .help => throw .help
  | .version => throw .version
  | .strict =>
      if reader.draft.strict then throw (.misuse (.repeatedSwitch switch))
      return { reader with draft := { reader.draft with strict := true } }
  | .noHeader =>
      if reader.draft.noHeader then throw (.misuse (.repeatedSwitch switch))
      return { reader with draft := { reader.draft with noHeader := true } }

def romSeen (reader : Reader) : Bool :=
  reader.draft.rom.isSome || reader.pending.any (·.1 = .rom)

/-- The first word that belongs to no option is the path of the image, and there is no second one. -/
def takePath (reader : Reader) (word : String) : Except Interruption Reader :=
  if reader.romSeen then .error (.misuse (.unexpectedArgument word))
  else do
    let reader ← reader.settle
    return { reader with pending := some (.rom, some word) }

def takeLong (reader : Reader) (name : String) (value : Option String) :
    Except Interruption Reader :=
  match Key.ofName? name, value with
  | none, _ => .error (.misuse (.unexpectedArgument ("--" ++ name)))
  | some (.slot slot), _ => reader.takeSlot slot value
  | some (.switch switch), none => reader.takeSwitch switch
  | some (.switch switch), some value => .error (.misuse (.unexpectedValue switch value))

def takeShort (reader : Reader) (letter : Char) (rest : List Char) :
    Except Interruption Reader :=
  match Key.ofLetter? letter with
  | none => .error (.misuse (.unexpectedArgument (String.ofList ['-', letter])))
  | some (.slot slot) => reader.takeSlot slot (attachedValue rest)
  | some (.switch switch) => reader.takeSwitch switch

def takePlain (reader : Reader) (word : String) : Except Interruption Reader :=
  match reader.pending with
  | some (slot, none) => .ok { reader with pending := some (slot, some word) }
  | _ => reader.takePath word

def take (reader : Reader) (word : String) : Except Interruption Reader :=
  if reader.optionsOver then reader.takePath word
  else
    match Word.ofString word with
    | .separator => .ok { reader with optionsOver := true }
    | .long name value => reader.takeLong name value
    | .short letter rest => reader.takeShort letter rest
    | .plain => reader.takePlain word

def finish (reader : Reader) : Except Interruption Arguments := do
  let reader ← reader.settle
  match reader.draft.finish with
  | .ok arguments => return arguments
  | .error error => throw (.misuse error)

end Reader

def parse (words : List String) : Except Interruption Arguments := do
  (← words.foldlM Reader.take {}).finish

end RomListing.CommandLine
