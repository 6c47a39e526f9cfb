import TinyLisp.State

/-!
What built-in procedures ask of their argument list.  A procedure is handed one value that should
be a proper list; every complaint is made in the name of the procedure.
-/

namespace TinyLisp

/-- An action on the state that may fail; a failure keeps what was done before it. -/
abbrev Action := ExceptT Error (StateM State)

namespace Procedures

/-- The elements of an argument list. -/
def arguments (p : Native) (args : Value) : Except Error (List Value) :=
  match args.toList? with
  | some vs => .ok vs
  | none => .error (.native p (.improperList args.text))

/-- The elements of an argument list that must have `n` of them. -/
def exactly (p : Native) (n : Nat) (args : Value) : Except Error (List Value) := do
  let vs ← arguments p args
  if vs.length = n then return vs
  else throw (.native p (.wrongCount n vs.length))

/-- The only argument. -/
def one (p : Native) (args : Value) : Except Error Value := do
  match ← exactly p 1 args with
  | [v] => return v
  | vs => throw (.native p (.wrongCount 1 vs.length))

/-- The two arguments. -/
def two (p : Native) (args : Value) : Except Error (Value × Value) := do
  match ← exactly p 2 args with
  | [v, w] => return (v, w)
  | vs => throw (.native p (.wrongCount 2 vs.length))

def numberArgument (p : Native) (v : Value) : Except Error Int :=
  match v.number? with
  | some n => .ok n
  | none => .error (.native p (.notNumber v.text))

/-- The arguments, all of them numbers; the first that is none is complained about. -/
def numbers (p : Native) (args : Value) : Except Error (List Int) := do
  (← arguments p args).mapM (numberArgument p)

def listArgument (p : Native) (v : Value) : Except Error (List Value) :=
  match v.toList? with
  | some vs => .ok vs
  | none => .error (.native p (.notList v.text))

def pairArgument (p : Native) (v : Value) : Except Error (Value × Value) :=
  match v.pair? with
  | some halves => .ok halves
  | none => .error (.native p (.notPair v.text))

def environmentArgument (p : Native) (v : Value) : Except Error EnvId :=
  match v.environment? with
  | some env => .ok env
  | none => .error (.native p (.notEnvironment v.text))

def fileNameArgument (p : Native) (v : Value) : Except Error String :=
  match v.string? with
  | some name => .ok name
  | none => .error (.native p (.notFileName v.text))

def portArgument (p : Native) (v : Value) : Except Error PortId :=
  match v.port? with
  | some id => .ok id
  | none => .error (.native p (.notPort v.text))

/-- Makes a number of a result. -/
def makeNumber (result : Except Error Int) : Action Value := do
  let n ← ofExcept result
  State.make (Value.number · n)

/-- Makes a boolean of a result. -/
def makeBoolean (result : Except Error Bool) : Action Value := do
  let b ← ofExcept result
  State.make (Value.boolean · b)

/-- Makes the answer of a predicate on one argument. -/
def makeTest (p : Native) (test : Value → Bool) (args : Value) : Action Value :=
  makeBoolean ((one p args).map test)

theorem arguments_eq_ok_iff {p : Native} {args : Value} {vs : List Value} :
    arguments p args = .ok vs ↔ args.toList? = some vs := by
  unfold arguments
  cases args.toList? <;> simp

theorem numberArgument_eq_ok_iff {p : Native} {v : Value} {n : Int} :
    numberArgument p v = .ok n ↔ v.number? = some n := by
  unfold numberArgument
  cases v.number? <;> simp

end Procedures

end TinyLisp
