import TinyLisp.Procedures.Arguments

/-!
Input and output through ports.  Whatever writes to a port that cannot be written to fails in the
name of `write`.
-/

namespace TinyLisp.Procedures

/-- A new port as a value. -/
def makePort (p : Port) : Action Value := do
  let id ← State.newPort p
  State.make (Value.port · id)

def openInput (args : Value) : Action Value := do
  let name ← ofExcept (do fileNameArgument .openInput (← one .openInput args))
  modify (State.report (.openingInput name))
  match (← get).files.locate name with
  | .error cause => throw (.io cause)
  | .ok (path, node) => makePort (.ofInput (.ofNode path node))

def openOutput (args : Value) : Action Value := do
  let name ← ofExcept (do fileNameArgument .openOutput (← one .openOutput args))
  modify (State.report (.openingOutput name))
  match (← get).files.create name with
  | .error cause => throw (.io cause)
  | .ok (path, files) =>
      modify fun s => { s with files := files }
      makePort (.ofSink (.file path 0))

def closePort (args : Value) : Action Value := do
  let id ← ofExcept (do portArgument .closePort (← one .closePort args))
  modify (State.closePort id)
  State.make Value.unspecified

def read (args : Value) : Action Value := do
  let id ← ofExcept (do portArgument .read (← one .read args))
  match ← modifyGet (State.readPort id) with
  | none => throw (.native .read .notReadable)
  | some (.error e) => throw e
  | some (.ok none) => State.make Value.eof
  | some (.ok (some d)) => State.makeDatum d

/-- Writes text to a port, or to standard output when no port is given. -/
def output (text : String) : Option PortId → Action Value
  | none => do
      modify (State.print text)
      State.make Value.unspecified
  | some id => do
      if ← modifyGet (State.writePort id text) then State.make Value.unspecified
      else throw (.native .write .notWritable)

/-- Writes a form of the first argument to the port that may follow it.  The form is not worked out
before there is a port to write it to. -/
def outputValue (p : Native) (form : Value → String) (args : Value) : Action Value := do
  match ← ofExcept (arguments p args) with
  | [v] => output (form v) none
  | [v, port] => do
      let id ← ofExcept (portArgument p port)
      output (form v) (some id)
  | _ => throw (.native p .outputOperands)

def newline (args : Value) : Action Value := do
  match ← ofExcept (arguments .newline args) with
  | [] => output "\n" none
  | [port] => do
      let id ← ofExcept (portArgument .newline port)
      output "\n" (some id)
  | _ => throw (.native .newline .newlineOperands)

/-- A port on standard output. -/
def currentOutput (args : Value) : Action Value := do
  let _ ← ofExcept (exactly .currentOutput 0 args)
  makePort (.ofSink .console)

end TinyLisp.Procedures
