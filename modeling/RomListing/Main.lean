import RomListing.Program

/-! The command line program on real files. An environment variable says how talkative the log is. -/

namespace RomListing.Program

def fileError : IO.Error → FileError
  | .noFileOrDirectory .. => .notFound
  | .inappropriateType _ 20 _ => .notADirectory
  | .inappropriateType _ 21 _ => .isADirectory
  | .invalidArgument _ 36 _ => .nameTooLong
  | error => .other (toString error)

/-- The result of an action on files, its failures told by their causes. -/
def attempt {α : Type} (action : IO α) : IO (Except FileError α) := do
  match ← action.toBaseIO with
  | .ok value => return .ok value
  | .error error => return .error (fileError error)

def realFiles : Files IO where
  read path := attempt do return (← IO.FS.withFile path .read (·.readBinToEnd)).data
  write path text := attempt (IO.FS.writeFile path text)

end RomListing.Program

def main (words : List String) : IO UInt32 := do
  let asked ← IO.getEnv "RUST_LOG"
  let verbosity := (asked.bind RomListing.Log.Verbosity.ofName?).getD .error
  let outcome ← RomListing.Program.run RomListing.Program.realFiles verbosity words
  (← IO.getStdout).putStr outcome.stdout
  (← IO.getStderr).putStr outcome.stderr
  return outcome.code
