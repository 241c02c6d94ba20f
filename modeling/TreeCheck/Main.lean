import Std.Time.Format
import TreeCheck.CommandLine

namespace TreeCheck

/-- Reads a file of the machine. -/
def readFile (path : Text) : IO ReadResult := do
  try
    let bytes ← IO.FS.readBinFile path.toString
    return .content bytes.data.toList
  catch
    | .noFileOrDirectory .. => return .missing
    -- Opening a path below a file fails with the path, reading a directory fails without it.
    | .inappropriateType (some _) .. => return .failed (.notDirectory path)
    | .inappropriateType none .. => return .failed .isDirectory
    | .invalidArgument .. => return .failed (.nameTooLong path)
    | .permissionDenied .. =>
      return .failed (.other "EACCES" ("EACCES: permission denied, open '" ++ path ++ "'"))
    | error => return .failed (.other "EIO" (toString error))

/-- Reads an open file of the machine, such as its input. -/
def readOpen (number : Int) : IO (Except ReadError (List UInt8)) := do
  try
    let bytes ← IO.FS.readBinFile ("/dev/fd/" ++ toString number)
    return .ok bytes.data.toList
  catch
    | .noFileOrDirectory .. => return .error .notOpen
    | .inappropriateType .. => return .error .isDirectory
    | error => return .error (.other "EIO" (toString error))

def environment : IO Environment := do
  return {
    logLevel := ← IO.getEnv Variable.logLevel.name
    debugTypes := ← IO.getEnv Variable.debugTypes.name
    noColor := ← IO.getEnv Variable.noColor.name }

/-- The time of day as log lines show it. -/
def timestamp : IO String := do
  let now := Std.Time.DateTime.ofTimestamp (← Std.Time.Timestamp.now) .UTC
  return now.format "uuuu-MM-dd'T'HH:mm:ss.SSS'Z'"

/-- What is said of a text that is not JSON. -/
def refusal (_ : Text) : Text := "the text is not JSON"

/-- The part of the machine's files that a request reads. -/
def filesFor (request : CommandLine.Request) : IO FileSystem := do
  let nothing : FileSystem := { file := fun _ => .missing, descriptor := fun _ => .error .notOpen }
  match request with
  | .analyze file _ =>
    match Argument.source (some file) with
    | .ok (.path path) =>
      let found ← readFile path
      return { nothing with file := fun _ => found }
    | .ok (.descriptor number) =>
      let found ← readOpen number
      return { nothing with descriptor := fun _ => found }
    | .error _ => return nothing
  | _ => return nothing

/-- Carries out a command line and gives its exit code. It is run once more when its time is known,
for the log tells of it. -/
def runMain (words : List String) : IO UInt32 := do
  let words := words.map Text.ofString
  let environment ← environment
  let settings := Settings.ofEnvironment environment
  let errors ← IO.getStderr
  let colored := (← errors.isTty) && environment.noColor.isNone
  let files ← filesFor (CommandLine.request words)
  let logger := { settings.logger Command.component with timestamp := ← timestamp }
  let run (elapsed : Number) : Except CommandLine.Misuse CommandLine.Outcome :=
    CommandLine.run files refusal settings { logger with elapsed } colored words
  let start ← IO.monoNanosNow
  let _ ← IO.lazyPure fun _ => run (.ofInt 0)
  let stop ← IO.monoNanosNow
  match run (.ofDecimal false (stop - start) (-6)) with
  | .error misuse =>
    errors.putStrLn misuse.message.toString
    return 1
  | .ok outcome =>
    IO.print outcome.output.toString
    errors.putStr outcome.errors.toString
    return outcome.exitCode.toUInt32

end TreeCheck

def main (words : List String) : IO UInt32 := TreeCheck.runMain words
