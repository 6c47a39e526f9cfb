import TinyLisp.Evaluator

/-!
Running programs: reading expressions from an input and evaluating each in a root environment.  `run`
stops at the first failure; the rounds of a dialogue report failures and go on.
-/

namespace TinyLisp

/-- How much a run may cost: the nesting of evaluations, and the rounds of every loop. -/
structure Limits where
  depth : Nat
  rounds : Nat
  deriving DecidableEq, Repr

/-- A way to evaluate, the environment that programs run in, and how many expressions an input may
hold. -/
structure Interpreter where
  evaluate : Evaluation
  root : EnvId
  rounds : Nat

/-- What a run came to: the value of each expression it evaluated, and the failure that stopped it. -/
structure Report where
  values : List Value
  failure : Option Error

/-- The failure, or the last value; an unspecified one is made where nothing was evaluated. -/
def Report.outcome (r : Report) : Action Value :=
  match r.failure, r.values.getLast? with
  | some e, _ => throw e
  | none, some v => return v
  | none, none => State.make Value.unspecified

namespace Interpreter

/-- An interpreter with a root environment of its own; tracing is set. -/
def start (limits : Limits) (tracing : Bool) : StateM State Interpreter := do
  modify fun s => { s with tracing := tracing }
  let root ← State.initialEnvironment
  return ⟨Evaluator.eval limits.depth limits.rounds, root, limits.rounds⟩

/-- Takes steps until a value comes out. -/
def complete (i : Interpreter) (step : Step) : Run Value :=
  Evaluator.drive i.evaluate i.rounds step

/-- Evaluates what a text denotes in the root environment. -/
def evaluateDatum (i : Interpreter) (d : Datum) : Run Value := do
  i.evaluate (← Evaluator.perform (State.makeDatum d)) i.root

/-- Reads and evaluates within a number of rounds; `seen` holds the values so far, the last one
first. -/
def runFrom (i : Interpreter) : Nat → Input → List Value → State → Option (Report × State)
  | 0, _, _, _ => none
  | rounds + 1, input, seen, s =>
      match input.readDatum s.files with
      | (.error e, _) => some (⟨seen.reverse, some e⟩, s)
      | (.ok none, _) => some (⟨seen.reverse, none⟩, s)
      | (.ok (some d), input) =>
          match i.evaluateDatum d s with
          | none => none
          | some (.error e, s) => some (⟨seen.reverse, some e⟩, s)
          | some (.ok v, s) => runFrom i rounds input (v :: seen) s

/-- Evaluates every expression of an input until its end or the first failure. -/
def run (i : Interpreter) (input : Input) (s : State) : Option (Report × State) :=
  i.runFrom i.rounds input [] s

/-- Evaluates every expression of an input to the last value. -/
def evaluateInput (i : Interpreter) (input : Input) : Run Value := fun s =>
  (i.run input s).map fun (report, s) => report.outcome s

/-- Evaluates every expression of a text to the last value. -/
def evaluateText (i : Interpreter) (text : String) : Run Value :=
  i.evaluateInput (.ofText text)

/-- Evaluates every expression of a file to the last value. -/
def load (i : Interpreter) (path : String) : Run Value := do
  modify (State.report (.loading path))
  match (← get).files.locate path with
  | .error cause => throw (.io cause)
  | .ok (path, node) => i.evaluateInput (.ofNode path node)

/-- One round of a dialogue: reads an expression and evaluates it, or reports that it cannot be read
and drops the line.  There is nothing to report at the end of the input. -/
def round (i : Interpreter) (input : Input) (s : State) :
    Option (Option (Except Error Value) × Input × State) :=
  match input.readDatum s.files with
  | (.error e, input) => some (some (.error e), input.skipLine, s)
  | (.ok none, input) => some (none, input, s)
  | (.ok (some d), input) =>
      (i.evaluateDatum d s).map fun (result, s) => (some result, input, s)

/-- The rounds of a dialogue until the end of the input; `seen` holds the reports so far, the last
one first. -/
def dialogueFrom (i : Interpreter) :
    Nat → Input → List (Except Error Value) → State → Option (List (Except Error Value) × State)
  | 0, _, _, _ => none
  | rounds + 1, input, seen, s =>
      match i.round input s with
      | none => none
      | some (none, _, s) => some (seen.reverse, s)
      | some (some result, input, s) => dialogueFrom i rounds input (result :: seen) s

/-- Reports the value or failure of every expression of an input. -/
def dialogue (i : Interpreter) (input : Input) (s : State) :
    Option (List (Except Error Value) × State) :=
  i.dialogueFrom i.rounds input [] s

end Interpreter

end TinyLisp
