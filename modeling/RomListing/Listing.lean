import RomListing.Listing.Line
import RomListing.Listing.Walk
import RomListing.Log

/-! The listing of an image. An image gives rise to a sequence of events, in order: bytes past the last
whole bank, the start of each bank, the visits of its walk. Options decide which events stop the
listing; up to the first of these every event adds its line and its log entry. -/

namespace RomListing

/-- What to do about opcodes that the processor does not define. -/
inductive Policy where
  | strict
  | lenient
  deriving DecidableEq, Repr

structure Options where
  policy : Policy := .lenient
  /-- The column at which the address comments end. -/
  width : Nat := Line.defaultWidth
  deriving DecidableEq, Repr

inductive Failure where
  | undefined (error : DecodeError)
  | tooWide
  deriving DecidableEq, Repr

def Failure.message : Failure → String
  | .undefined error => error.message
  | .tooWide => Line.tooWideMessage

inductive Event where
  /-- Bytes past the last whole bank, which are left out. -/
  | trailing (count : Nat)
  | bank (index : Nat) (span : Span)
  | visited (visit : Visit)
  deriving DecidableEq, Repr

namespace Policy

def refuses : Policy → DecodeError → Bool
  | .strict, error => error.fault = .undefinedOpcode
  | .lenient, _ => false

end Policy

namespace Visit

/-- The error at a visit that the policy does not put up with. -/
def refusal? (policy : Policy) (visit : Visit) : Option DecodeError :=
  match visit.item with
  | .fault error => if policy.refuses error then some error else none
  | _ => none

/-- Why a visit stops the listing. A refused error is told before the line is made. -/
def failure? (options : Options) (visit : Visit) : Option Failure :=
  match visit.refusal? options.policy with
  | some error => some (.undefined error)
  | none =>
      if Line.padding options.width visit.instruction.text visit.address ≤ Line.maxPadding then none
      else some .tooWide

def line (width : Nat) (visit : Visit) : String :=
  Line.render width visit.instruction.text visit.address

/-- What the log tells about a visit: an error that the policy puts up with. -/
def warning? (policy : Policy) (visit : Visit) : Option String :=
  match visit.item with
  | .fault error => if policy.refuses error then none else some error.message
  | _ => none

def call? (visit : Visit) : Option Window :=
  if visit.item.isHeader then none else some visit.window

end Visit

namespace Event

def failure? (options : Options) : Event → Option Failure
  | .visited visit => visit.failure? options
  | _ => none

def line? (width : Nat) : Event → Option String
  | .trailing _ => none
  | .bank index _ => some (Line.sectionMarker index)
  | .visited visit => some (visit.line width)

/-- The part of the program that log entries about a listing come from. -/
def logSource : String := "gbdasm::disasm"

def entry? (policy : Policy) : Event → Option Log.Entry
  | .trailing count =>
      some ⟨.warn, logSource,
        toString count ++ " bytes past the last whole bank are not disassembled"⟩
  | .bank index span =>
      some ⟨.debug, logSource,
        "bank " ++ Hex.padded 2 index ++ ": " ++ Hex.literal 6 span.start ++ ".." ++
          Hex.literal 6 span.stop⟩
  | .visited visit => (visit.warning? policy).map fun message => ⟨.warn, logSource, message⟩

def call? : Event → Option Window
  | .visited visit => visit.call?
  | _ => none

end Event

namespace Rom

def bankEvents (rom : Rom) (decoder : Decoder) (bank : Nat) : List Event :=
  .bank bank (rom.bankRange bank) :: (rom.visits decoder bank).map .visited

def events (rom : Rom) (decoder : Decoder) : List Event :=
  (if rom.trailingBytes = 0 then [] else [.trailing rom.trailingBytes]) ++
    (List.range rom.bankCount).flatMap (rom.bankEvents decoder)

end Rom

namespace Listing

/-- The events that take place: all up to the first one that stops the listing, and that one. -/
def reached (options : Options) (events : List Event) : List Event :=
  let goesOn := fun event : Event => (event.failure? options).isNone
  events.takeWhile goesOn ++ (events.dropWhile goesOn).take 1

/-- The text of a listing, its lines joined by line feeds, or the first reason against it. -/
def text (options : Options) (events : List Event) : Except Failure String :=
  match events.findSome? (Event.failure? options) with
  | some failure => .error failure
  | none => .ok ("\n".intercalate (events.filterMap (Event.line? options.width)))

def log (options : Options) (events : List Event) : List Log.Entry :=
  (reached options events).filterMap (Event.entry? options.policy)

/-- What the decoder is asked while the listing is made. -/
def calls (options : Options) (events : List Event) : List Window :=
  (reached options events).filterMap Event.call?

end Listing

/-- The listing of an image with a decoder of one's own. -/
def disassembleWith (decoder : Decoder) (options : Options) (rom : Rom) : Except Failure String :=
  Listing.text options (rom.events decoder)

def disassemble (options : Options) (rom : Rom) : Except Failure String :=
  disassembleWith decode options rom

end RomListing
