/-! Log messages. Each has a level and names the part of the program it comes from; how talkative the
log is decides which levels are shown. -/

namespace RomListing.Log

inductive Level where
  | debug
  | info
  | warn
  deriving DecidableEq, Repr

def Level.name : Level → String
  | .debug => "DEBUG"
  | .info => "INFO"
  | .warn => "WARN"

/-- The level as the log shows it, filled up to five characters. -/
def Level.label (level : Level) : String :=
  level.name ++ String.ofList (List.replicate (5 - level.name.length) ' ')

structure Entry where
  level : Level
  source : String
  message : String
  deriving DecidableEq, Repr

/-- A message over several lines is continued with four blanks on each further line. -/
def indentChar (c : Char) : List Char := if c = '\n' then "\n    ".toList else [c]

def Entry.render (entry : Entry) : String :=
  "[" ++ entry.level.label ++ " " ++ entry.source ++ "] " ++
    String.ofList (entry.message.toList.flatMap indentChar) ++ "\n"

inductive Verbosity where
  | off
  | error
  | warn
  | info
  | debug
  | trace
  deriving DecidableEq, Repr

namespace Verbosity

def shows : Verbosity → Level → Bool
  | .off, _ | .error, _ => false
  | .warn, level => level = .warn
  | .info, level => level ≠ .debug
  | .debug, _ | .trace, _ => true

def ofName? : String → Option Verbosity
  | "off" => some .off
  | "error" => some .error
  | "warn" => some .warn
  | "info" => some .info
  | "debug" => some .debug
  | "trace" => some .trace
  | _ => none

end Verbosity

def render (verbosity : Verbosity) (entries : List Entry) : String :=
  String.join ((entries.filter (verbosity.shows ·.level)).map Entry.render)

end RomListing.Log
