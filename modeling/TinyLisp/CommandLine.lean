import TinyLisp.Interpreter

/-!
The command line: loading files and holding a dialogue over standard input, from the arguments to
the text on standard output and standard error.
-/

namespace TinyLisp

/-- What the arguments ask for. -/
structure Options where
  debug : Bool
  repl : Bool
  files : List String
  deriving DecidableEq, Repr

namespace Options

/-- Nothing but a dialogue. -/
def plain : Options := ⟨false, true, []⟩

def isHelp (arg : String) : Bool :=
  arg == "-h" || arg == "--help"

def isDebug (arg : String) : Bool :=
  arg == "-d" || arg == "--debug"

def isNoRepl (arg : String) : Bool :=
  arg == "--no-repl"

/-- Takes one argument into account; an argument that is no flag names a file. -/
def add (o : Options) (arg : String) : Options :=
  if isDebug arg then { o with debug := true }
  else if isNoRepl arg then { o with repl := false }
  else { o with files := o.files ++ [arg] }

/-- What the arguments ask for; `none` when one of them asks for help. -/
def parse (args : List String) : Option Options :=
  if args.any isHelp then none else some (args.foldl add plain)

theorem isNoRepl_eq_false_of_isDebug {arg : String} (h : isDebug arg = true) :
    isNoRepl arg = false := by
  simp only [isDebug, Bool.or_eq_true, beq_iff_eq] at h
  rcases h with rfl | rfl <;> decide

/-- Flags may stand anywhere and be repeated, and the other arguments keep their order. -/
theorem foldl_add (args : List String) (o : Options) :
    args.foldl add o =
      ⟨o.debug || args.any isDebug, o.repl && !args.any isNoRepl,
        o.files ++ args.filter fun arg => !isDebug arg && !isNoRepl arg⟩ := by
  induction args generalizing o with
  | nil => simp
  | cons arg args ih =>
      rw [List.foldl_cons, ih, add]
      by_cases hdebug : isDebug arg = true
      · simp [hdebug, isNoRepl_eq_false_of_isDebug hdebug]
      · by_cases hrepl : isNoRepl arg = true
        · simp [hdebug, hrepl]
        · simp [hdebug, hrepl]

example : parse ["a", "-d", "--no-repl", "b"] = some ⟨true, false, ["a", "b"]⟩ := by decide

example : parse ["a", "--help", "-d"] = none := by decide

end Options

/-- The text that is shown to those who ask for help. -/
def helpText : String :=
  "Usage: vole [OPTIONS] [FILE]...\n\n" ++
  "Loads each FILE in order, then reads expressions from standard input.\n\n" ++
  "Options:\n" ++
  "  -d, --debug     trace every evaluation step\n" ++
  "      --no-repl   exit after loading the files\n" ++
  "  -h, --help      print this message\n"

/-- The text in front of each expression to be read. -/
def prompt : String := "vole> "

/-- A command line at work: the interpreter, how much is shown of the events, the state, what is left
of standard input, and the text on standard error. -/
structure Session where
  interpreter : Interpreter
  verbosity : Verbosity
  state : State
  input : Input
  errors : String
  opened : List Event

namespace Session

/-- Shows the events reported since events were last shown, and keeps those that open a file. -/
def showEvents (t : Session) : Session :=
  let events := t.state.events.reverse
  { t with
    errors := t.errors ++ t.verbosity.render events
    opened := t.opened ++ events.filter fun e => e.path?.isSome
    state := { t.state with events := [] } }

/-- Puts a line on standard error, after the events reported before it. -/
def complain (t : Session) (line : String) : Session :=
  let t := t.showEvents
  { t with errors := t.errors ++ line ++ "\n" }

/-- Puts text on standard output. -/
def print (t : Session) (text : String) : Session :=
  { t with state := t.state.print text }

/-- A session before anything is loaded or read. -/
def start (limits : Limits) (verbosity : Verbosity) (o : Options) (files : FileSystem)
    (input : Input) : Session :=
  let (interpreter, state) := (Interpreter.start limits o.debug).run (.initial files)
  showEvents ⟨interpreter, verbosity, state, input, "", []⟩

/-- Loads a file; a failure is complained about and keeps what was done before it. -/
def load (t : Session) (path : String) : Option Session :=
  match t.interpreter.load path t.state with
  | none => none
  | some (result, state) =>
      let t := { t with state := state }
      match result with
      | .ok _ => some t.showEvents
      | .error e => some (t.complain ("error loading " ++ path ++ ": " ++ e.message))

/-- Reads and evaluates one expression and shows what it came to; whether there was one. -/
def round (t : Session) : Option (Bool × Session) :=
  match t.interpreter.round t.input t.state with
  | none => none
  | some (result, input, state) =>
      let t := { t with input := input, state := state }
      match result with
      | none => some (false, t.print "\n")
      | some (.ok v) => some (true, t.showEvents.print (v.text ++ "\n"))
      | some (.error e) => some (true, t.complain ("error: " ++ e.message))

/-- Prompts and takes rounds until the end of the input. -/
def dialogue : Nat → Session → Option Session
  | 0, _ => none
  | rounds + 1, t =>
      match (t.print prompt).round with
      | none => none
      | some (false, t) => some t
      | some (true, t) => dialogue rounds t

/-- Loads the files in order, then holds a dialogue if one is asked for. -/
def perform (t : Session) (o : Options) : Option Session := do
  let t ← o.files.foldlM load t
  if o.repl then t.dialogue t.interpreter.rounds else return t

end Session

/-- What a command line leaves. -/
structure Outcome where
  exitCode : Nat
  output : String
  errors : String
  files : FileSystem

/-- Runs a command line on its arguments, the files there are, and the bytes of standard input. -/
def runCommandLine (limits : Limits) (verbosity : Verbosity) (args : List String)
    (files : FileSystem) (stdin : List UInt8) : Option Outcome :=
  match Options.parse args with
  | none => some ⟨0, helpText, "", files⟩
  | some o =>
      match (Session.start limits verbosity o files (.ofBytes stdin)).perform o with
      | none => none
      | some t => some ⟨0, t.state.console, t.errors, t.state.files⟩

end TinyLisp
