import RomListing.CommandLine
import RomListing.Folder
import RomListing.HexDump
import RomListing.Listing
import RomListing.Rom.Header

/-! The command line program: it reads an image, tells about it, and writes the listing to the standard
output or to a file. Files are reached through two operations only, so the same program runs on a
working folder held in memory and on real files. -/

namespace RomListing.Program

structure Outcome where
  code : UInt32
  stdout : String := ""
  stderr : String := ""
  deriving DecidableEq, Repr

structure Files (m : Type → Type) where
  read : String → m (Except FileError (Array UInt8))
  write : String → String → m (Except FileError Unit)

def version : String := "gbdasm 0.1.0\n"

def help : String :=
  "Disassembles a Game Boy ROM into source rgbasm can rebuild byte for byte\n" ++
  "\n" ++
  "Usage: dis [OPTIONS] <ROM>\n" ++
  "\n" ++
  "Arguments:\n" ++
  "  <ROM>  ROM to disassemble\n" ++
  "\n" ++
  "Options:\n" ++
  "  -o, --output <OUTPUT>   Write the listing here instead of stdout\n" ++
  "      --strict            Fail on undefined opcodes instead of emitting them as data\n" ++
  "  -w, --width <WIDTH>     Column the address comments line up to [default: 40]\n" ++
  "      --no-header         Decode the cartridge header area as code too\n" ++
  "      --hex-dump <BYTES>  Hex dump the first N bytes to stderr before disassembling\n" ++
  "  -h, --help              Print help\n" ++
  "  -V, --version           Print version\n"

/-- What stands in a summary for a field that the image does not have. -/
def missingField : String := "???"

def summary (rom : Rom) : Log.Entry :=
  ⟨.info, "dis",
    rom.title?.getD missingField ++ " | size: " ++ toString rom.size ++ " | banks: " ++
      toString rom.bankCount ++ " | type: " ++ rom.cartridgeType?.getD missingField ++
      " | dst: " ++ rom.destination?.getD missingField⟩

def image (arguments : CommandLine.Arguments) (bytes : Array UInt8) : Rom :=
  let rom : Rom := { bytes := bytes }
  if arguments.noHeader then rom.withoutHeader else rom

def options (arguments : CommandLine.Arguments) : Options :=
  { policy := if arguments.strict then .strict else .lenient, width := arguments.width }

def dumpWidth : Nat := 16

/-- What is told on the standard error while the listing is made: the summary, the dump, the log. -/
def diagnostics (verbosity : Log.Verbosity) (arguments : CommandLine.Arguments) (rom : Rom) :
    String :=
  let dump := match arguments.hexDump with
    | some limit => HexDump.render rom.bytes.toList dumpWidth (some limit) ++ "\n"
    | none => ""
  Log.render verbosity [summary rom] ++ dump ++
    Log.render verbosity (Listing.log (options arguments) (rom.events decode))

def fileReport (action path : String) (error : FileError) : String :=
  "Error: failed to " ++ action ++ " " ++ path ++ "\n\nCaused by:\n    " ++ error.message ++ "\n"

/-- Ends the program without a listing. An undefined opcode is an error of the image, a line with too
many blanks is a crash. -/
def failed (diagnostics : String) : Failure → Outcome
  | .undefined error =>
      { code := 1, stderr := diagnostics ++ "Error: " ++ error.message ++ "\n" }
  | .tooWide => { code := 101, stderr := diagnostics ++ Line.tooWideMessage ++ "\n" }

/-- Runs a complete command line. Nothing is written before the whole listing is made. -/
def execute {m : Type → Type} [Monad m] (files : Files m) (verbosity : Log.Verbosity)
    (arguments : CommandLine.Arguments) : m Outcome := do
  match ← files.read arguments.rom with
  | .error error => return { code := 1, stderr := fileReport "read" arguments.rom error }
  | .ok bytes =>
      let rom := image arguments bytes
      let told := diagnostics verbosity arguments rom
      match disassemble (options arguments) rom, arguments.output with
      | .error failure, _ => return failed told failure
      | .ok listing, none => return { code := 0, stdout := listing ++ "\n", stderr := told }
      | .ok listing, some path =>
          match ← files.write path (listing ++ "\n") with
          | .error error => return { code := 1, stderr := told ++ fileReport "write" path error }
          | .ok () => return { code := 0, stderr := told }

def run {m : Type → Type} [Monad m] (files : Files m) (verbosity : Log.Verbosity)
    (words : List String) : m Outcome :=
  match CommandLine.parse words with
  | .error .help => return { code := 0, stdout := help }
  | .error .version => return { code := 0, stdout := version }
  | .error (.misuse error) => return { code := 2, stderr := "error: " ++ error.message ++ "\n" }
  | .ok arguments => execute files verbosity arguments

def folderFiles : Files (StateM Folder) where
  read path := do return (← get).read path
  write path text := do
    match (← get).write path text.toUTF8.data with
    | .error error => return .error error
    | .ok folder =>
        set folder
        return .ok ()

def runIn (folder : Folder) (verbosity : Log.Verbosity) (words : List String) :
    Outcome × Folder :=
  (run folderFiles verbosity words).run folder

end RomListing.Program
