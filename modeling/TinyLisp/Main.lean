import TinyLisp.CommandLine

/-!
The program.  It lends a session the files it opens and the lines of standard input it reads, and
prints and stores what comes out; a session that turns out to lack a file or a line is taken up again
from before it asked, with what it lacked.
-/

namespace TinyLisp

/-- Limits that no run is meant to meet. -/
def generousLimits : Limits := ⟨1000000000000, 1000000000000⟩

/-- The verbosity that a directive asks for by the name of a level, in capitals or not.  For which part
of the program it asks makes no difference here. -/
def directedVerbosity? (directive : String) : Option Verbosity :=
  match ((directive.splitOn "=").getLastD "").trimAscii.toString.toLower with
  | "off" => some .off
  | "error" | "warn" => some .error
  | "info" => some .info
  | "debug" | "trace" => some .debug
  | _ => none

/-- How much the user wants to see: information where nothing is said, and of several directives what
the last one asks for; errors where none asks for anything. -/
def wantedVerbosity : Option String → Verbosity
  | none => .info
  | some filter => ((filter.splitOn ",").filterMap directedVerbosity?).getLastD .error

/-- Takes the bytes of a file over into a session; a path that leads to no file is left alone. -/
def lend (t : Session) (written : String) : IO Session := do
  try
    let content ← IO.FS.readBinFile written
    let files := t.state.files.place (FileSystem.pathOf written) (.file content.data.toList)
    return { t with state := { t.state with files := files } }
  catch
    | .inappropriateType _ _ _ => do
        let files := t.state.files.place (FileSystem.pathOf written) .directory
        return { t with state := { t.state with files := files } }
    | _ => return t

/-- Stores the files a session has written to. -/
def storeFiles (t : Session) : IO Unit := do
  for e in t.opened do
    if let .openingOutput written := e then
      if let .ok (_, .file content) := t.state.files.locate written then
        IO.FS.writeBinFile written ⟨content.toArray⟩

/-- Prints the text a session has put out and takes it away. -/
def printText (t : Session) : IO Session := do
  let stdout ← IO.getStdout
  let stderr ← IO.getStderr
  stderr.putStr t.errors
  stdout.putStr t.state.console
  stdout.flush
  return { t with errors := "", state := { t.state with console := "" } }

/-- Takes an action again and again until it opens no file that it has not been lent. -/
partial def settle (lent : List String) (t : Session) (action : Session → Option (α × Session)) :
    IO (Option (List String × α × Session)) := do
  match action t with
  | none => return none
  | some (result, after) =>
      let asked := after.opened.filterMap Event.path?
      match asked.find? fun path => !lent.contains path with
      | none => return some (lent, result, after)
      | some path => settle (path :: lent) (← lend t path) action

/-- Adds bytes to the end of a session's input. -/
def feed (t : Session) (bytes : List UInt8) : Session :=
  { t with input.stream.unread := t.input.stream.unread.append bytes }

/-- Whether reading the next expression would meet the end of the input lent so far. -/
def meetsEnd (t : Session) : Bool :=
  (t.input.readDatum t.state.files).2.stream.exhausted

/-- The bytes of the next line, its newline included; none at the end. -/
partial def nextLine (stdin : IO.FS.Stream) (taken : ByteArray) : IO ByteArray := do
  let byte ← stdin.read 1
  if byte.isEmpty then return taken
  else if byte.data.contains newlineByte then return taken ++ byte
  else nextLine stdin (taken ++ byte)

/-- Reads lines until the next expression is complete or there are no more. -/
partial def feedLines (t : Session) : IO Session := do
  if meetsEnd t then
    let line ← nextLine (← IO.getStdin) .empty
    if line.isEmpty then return t else feedLines (feed t line.data.toList)
  else
    return t

/-- Prompts, reads and evaluates until the end of standard input. -/
partial def converse (lent : List String) (t : Session) : IO Unit := do
  let t ← feedLines (← printText (t.print prompt))
  match ← settle lent t Session.round with
  | none => return
  | some (lent, goesOn, t) =>
      storeFiles t
      let t ← printText t
      if goesOn then converse lent t

/-- Loads the files and holds a dialogue if one is asked for. -/
def runOptions (o : Options) : IO Unit := do
  let verbosity := wantedVerbosity (← IO.getEnv "RUST_LOG")
  let mut t := Session.start generousLimits verbosity o .empty (.ofBytes [])
  let mut lent := []
  for path in o.files do
    match ← settle lent t (fun t => (t.load path).map fun t => ((), t)) with
    | none => return
    | some (known, _, after) =>
        storeFiles after
        lent := known
        t ← printText after
  if o.repl then converse lent t else let _ ← printText t

end TinyLisp

def main (args : List String) : IO UInt32 := do
  match TinyLisp.Options.parse args with
  | none => IO.print TinyLisp.helpText
  | some o => TinyLisp.runOptions o
  return 0
