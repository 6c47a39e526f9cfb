import TinyLisp.Native

/-!
Why reading, evaluating or calling a procedure fails.  A cause keeps the texts it reports; the
wording of all of them is in the `message` functions.
-/

namespace TinyLisp

/-- Why a text denotes no datum. -/
inductive SyntaxError where
  | unmatchedClose
  | unmatchedOpen
  | badBoolean (c : Char)
  | endAfterHash
  | unterminatedString
  | dotAtStart
  | missingAfterDot
  | extraAfterDot
  | malformedNumber (digits : List Char)
  | emptySymbol
  | unexpectedEnd
  deriving DecidableEq, Repr

/-- Why input could not be had from outside. -/
inductive IoError where
  | invalidText
  | notFound
  | notDirectory
  | isDirectory
  | nameTooLong
  | nulInName
  deriving DecidableEq, Repr

/-- Why an evaluation has no meaning; each cause keeps the offending text. -/
inductive EvalError where
  | improperCombination (text : String)
  | improperOperands (text : String)
  | badForm (text : String)
  | badFormals (text : String)
  | badTarget (text : String)
  deriving DecidableEq, Repr

/-- Why an application has no meaning. -/
inductive ApplyError where
  | notProcedure (text : String)
  | takesNone (args : String)
  | takesOne (args : String)
  deriving DecidableEq, Repr

/-- Why a built-in procedure refuses its arguments. -/
inductive CallError where
  | improperList (args : String)
  | wrongCount (expected got : Nat)
  | notNumber (text : String)
  | notPair (text : String)
  | notList (text : String)
  | notEnvironment (text : String)
  | notFileName (text : String)
  | notPort (text : String)
  | tooFewToCompare
  | noArguments
  | divisionByZero
  | outputOperands
  | newlineOperands
  | notReadable
  | notWritable
  deriving DecidableEq, Repr

/-- Everything that can stop a program. -/
inductive Error where
  | malformed (cause : SyntaxError)
  | unbound (name : String)
  | redefinition (name : String)
  | apply (cause : ApplyError)
  | eval (cause : EvalError)
  | native (procedure : Native) (cause : CallError)
  | io (cause : IoError)
  deriving DecidableEq, Repr

def SyntaxError.message : SyntaxError → String
  | unmatchedClose => "unmatched close paren"
  | unmatchedOpen => "unmatched open paren"
  | badBoolean c => "bad boolean literal #" ++ c.toString
  | endAfterHash => "end of input after #"
  | unterminatedString => "unterminated string"
  | dotAtStart => "dot at the start of a list"
  | missingAfterDot => "missing expression after dot"
  | extraAfterDot => "more than one expression after dot"
  | malformedNumber digits => "malformed number \"" ++ String.ofList digits ++ "\""
  | emptySymbol => "empty symbol"
  | unexpectedEnd => "unexpected end of input"

def IoError.message : IoError → String
  | invalidText => "stream did not contain valid UTF-8"
  | notFound => "No such file or directory (os error 2)"
  | notDirectory => "Not a directory (os error 20)"
  | isDirectory => "Is a directory (os error 21)"
  | nameTooLong => "File name too long (os error 36)"
  | nulInName => "file name contained an unexpected NUL byte"

def EvalError.message : EvalError → String
  | improperCombination text => text
  | improperOperands text => text
  | badForm text => text
  | badFormals text => "lambda parameters " ++ text
  | badTarget text => "define of non-symbol " ++ text

def ApplyError.message : ApplyError → String
  | notProcedure text => text
  | takesNone args => "procedure of no arguments to " ++ args
  | takesOne args => "procedure of one argument to " ++ args

def CallError.message : CallError → String
  | improperList args => "improper argument list " ++ args
  | wrongCount expected got =>
      "expected " ++ expected.repr ++ " argument(s), got " ++ got.repr
  | notNumber text => "expected a number, got " ++ text
  | notPair text => "expected a pair, got " ++ text
  | notList text => "expected a list, got " ++ text
  | notEnvironment text => "expected an environment, got " ++ text
  | notFileName text => "expected a file name, got " ++ text
  | notPort text => "expected a port, got " ++ text
  | tooFewToCompare => "expected at least 2 arguments"
  | noArguments => "expected at least 1 argument"
  | divisionByZero => "division by zero"
  | outputOperands => "expected an expression and an optional port"
  | newlineOperands => "expected an optional port"
  | notReadable => "port is closed or not readable"
  | notWritable => "port is closed or not writable"

/-- The whole report of an error. -/
def Error.message : Error → String
  | malformed cause => "syntax error: " ++ cause.message
  | unbound name => "Symbol " ++ name ++ " is undefined"
  | redefinition name => "Symbol " ++ name ++ " is already defined"
  | apply cause => "cannot apply " ++ cause.message
  | eval cause => "cannot evaluate " ++ cause.message
  | native procedure cause => procedure.name ++ ": " ++ cause.message
  | io cause => "io error: " ++ cause.message

end TinyLisp
