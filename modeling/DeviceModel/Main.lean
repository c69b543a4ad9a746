import DeviceModel.Book.Sheet
import DeviceModel.Command.Run

/-!
The command line. Results go to the standard output, errors and the log to the error output; of the
log, as much is shown as was asked for. Workbooks are written as text.
-/

namespace DeviceModel

/-- The surroundings of one invocation. -/
abbrev Console := ReaderT Invocation IO

namespace Console

def attempt (act : IO α) : Console (Option α) := do
  try return some (← act)
  catch _ => return none

def isDone (act : IO Unit) : Console Bool := return (← attempt act).isSome

/-- What there is at a path. -/
def kind? (path : String) : Console (Option IO.FS.FileType) :=
  attempt do return (← (← IO.FS.realPath path).metadata).type

def label : LogLevel → String
  | .error => "ERROR"
  | .warn => "WARN"
  | .info => "INFO"
  | .debug => "DEBUG"

def isShown (verbosity : Nat) : LogLevel → Bool
  | .debug => 0 < verbosity
  | _ => true

instance : Host Console where
  read path := attempt (IO.FS.readFile path)
  isFile path := return (← kind? path) == some .file
  isPresent path := return (← kind? path).isSome
  names? directory := attempt do
    return (← (← IO.FS.realPath directory).readDir).toList.map (·.fileName)
  makeDirectory path := if path = "" then return true else isDone (IO.FS.createDirAll path)
  write path text := isDone (IO.FS.writeFile path text)
  writeBook path book := isDone (IO.FS.writeFile path book.render)
  rename path newPath := isDone (IO.FS.rename path newPath)
  log line := do
    if isShown (← read).verbosity line.level then
      IO.eprintln ("[" ++ label line.level ++ "] " ++ line.text)

/-- The message of what a command failed of. -/
def causeText : CommandCause → String
  | .model (.io path) | .smdx (.io path) | .export (.io path) => "no access to " ++ path
  | .model e => e.message?.getD "not a valid document"
  | .smdx e => e.message?.getD "not a valid document"
  | .export e => e.message?.getD "cannot be written"
  | .unreadable => "cannot be read"

def usage : String :=
  "usage: pmc [-v] import --project <file> --smdx <file>\n" ++
  "       pmc [-v] export --project <file> --out <dir> [--template-dir <dir>] [--pmvs-dir <dir>]\n" ++
  "       pmc [-v] validate --project <file>\n" ++
  "       pmc [-v] build --project <file> --out <dir> [--template-dir <dir>] [--pmvs-dir <dir>]"

/-- Runs an invocation and gives the exit code. -/
def run (i : Invocation) : IO UInt32 := do
  let next := Supply.start ((← IO.getRandomBytes 16).toList.map UInt8.toNat)
  let command : Command.Run Console CommandResult := Command.run i.command next
  match ← ReaderT.run command.run i with
  | .ok r =>
    IO.print r.output
    return if r.success then 0 else 1
  | .error e =>
    IO.eprintln ("error: " ++ e.context ++ ": " ++ causeText e.cause)
    return 1

end Console

end DeviceModel

def main (args : List String) : IO UInt32 := do
  match DeviceModel.Invocation.ofArguments? args with
  | some i => DeviceModel.Console.run i
  | none =>
    IO.eprintln DeviceModel.Console.usage
    return 2
