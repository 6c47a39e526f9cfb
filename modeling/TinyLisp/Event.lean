import TinyLisp.Printer

/-!
What a program reports about its own working, and which reports are shown.  An event keeps the values
it is about, and they are written only when it is shown.
-/

namespace TinyLisp

/-- Something worth reporting while a program runs. -/
inductive Event where
  | evaluating (expr : Value)
  | applying (procedure args : Value)
  | initialEnvironment (size : Nat)
  | loading (path : String)
  | openingInput (path : String)
  | openingOutput (path : String)
  deriving DecidableEq, Repr

inductive Level where
  | info
  | debug
  deriving DecidableEq, Repr

/-- How much is shown: nothing, errors only, information, or details too. -/
inductive Verbosity where
  | off
  | error
  | info
  | debug
  deriving DecidableEq, Repr

namespace Event

/-- The events of tracing: one for each evaluation step and one for each application. -/
def isTrace : Event → Bool
  | evaluating _ => true
  | applying _ _ => true
  | _ => false

def level : Event → Level
  | evaluating _ => .info
  | applying _ _ => .info
  | _ => .debug

/-- The path of a file that is about to be opened. -/
def path? : Event → Option String
  | loading path => some path
  | openingInput path => some path
  | openingOutput path => some path
  | _ => none

/-- The part of the program that reports an event. -/
def target : Event → String
  | evaluating _ => "vole::trace"
  | applying _ _ => "vole::trace"
  | initialEnvironment _ => "vole::builtin"
  | loading _ => "vole"
  | openingInput _ => "vole::port"
  | openingOutput _ => "vole::port"

def message : Event → String
  | evaluating expr => "eval " ++ expr.text
  | applying procedure args => "apply " ++ procedure.text ++ " to " ++ args.text
  | initialEnvironment size => "initial environment has " ++ size.repr ++ " bindings"
  | loading path => "loading " ++ path
  | openingInput path => "opening " ++ path ++ " for reading"
  | openingOutput path => "opening " ++ path ++ " for writing"

end Event

/-- The name of a level. -/
def Level.name : Level → String
  | info => "INFO"
  | debug => "DEBUG"

/-- The name of a level filled up to five columns. -/
def Level.column : Level → String
  | info => "INFO "
  | debug => "DEBUG"

/-- Whether events of a level are shown. -/
def Verbosity.shows : Verbosity → Level → Bool
  | info, .info => true
  | debug, _ => true
  | _, _ => false

/-- A text with the lines after its first one indented. -/
def hanging (text : String) : String :=
  String.ofList (text.toList.flatMap fun c => if c = '\n' then "\n    ".toList else [c])

/-- The line that shows an event; a message of several lines goes on below, indented. -/
def Event.line (e : Event) : String :=
  "[" ++ e.level.column ++ " " ++ e.target ++ "] " ++ hanging e.message ++ "\n"

/-- What is shown of some events. -/
def Verbosity.render (v : Verbosity) (events : List Event) : String :=
  String.join ((events.filter fun e => v.shows e.level).map Event.line)

example : hanging "eval \"a\nb\"" = "eval \"a\n    b\"" := by decide +kernel

end TinyLisp
