import TinyLisp.Procedures.Call

/-!
Evaluation.  One step either finishes with a value or leaves an expression and an environment to go
on with; a loop drives steps until a value comes out, so expressions in tail position never nest.

Every function takes the evaluator of the expressions nested in its own, and `eval` ties the knot.
A run has a budget: how deep evaluations may nest and how many rounds each loop may take.  An
exhausted budget is told apart from every result, errors included.
-/

namespace TinyLisp

/-- An action that may also exhaust its budget. -/
abbrev Run := ExceptT Error (StateT State Option)

/-- A way to evaluate an expression in an environment. -/
abbrev Evaluation := Value → EnvId → Run Value

/-- What a step leaves: a value, or a body to go on with in an environment. -/
inductive Step where
  | done (v : Value)
  | pending (body : Value) (env : EnvId)
  deriving DecidableEq, Repr

/-- The special forms. -/
inductive Keyword where
  | quote
  | lambda
  | define
  | ifForm
  | currentEnvironment
  | toggleDebug
  deriving DecidableEq, Repr

namespace Keyword

def name : Keyword → String
  | quote => "quote"
  | lambda => "lambda"
  | define => "define"
  | ifForm => "if"
  | currentEnvironment => "current-environment"
  | toggleDebug => "toggle-debug"

/-- The special form with a given name. -/
def ofName? (x : String) : Option Keyword :=
  [quote, lambda, define, ifForm, currentEnvironment, toggleDebug].find? fun k => k.name == x

theorem ofName?_name (k : Keyword) : ofName? k.name = some k := by
  cases k <;> decide +kernel

end Keyword

namespace Formal

/-- The formal that a parameter list denotes. -/
def ofValue? : Value → Option Formal
  | .nil _ => some nothing
  | .symbol _ x => some (rest x)
  | .pair _ (.symbol _ x) (.nil _) => some (single x)
  | _ => none

/-- What a formal binds to an argument list it accepts. -/
def accept (formal : Formal) (args : Value) : Except ApplyError (Option (String × Value)) :=
  match formal, args with
  | nothing, .nil _ => .ok none
  | nothing, args => .error (.takesNone args.text)
  | single x, .pair _ v (.nil _) => .ok (some (x, v))
  | single _, args => .error (.takesOne args.text)
  | rest x, args => .ok (some (x, args))

end Formal

/-- The bindings a body runs under: those of the caller, under those captured, under the
arguments. -/
def callBindings (caller captured : Bindings) : Option (String × Value) → Bindings
  | none => caller.overlay captured
  | some (x, v) => (caller.overlay captured).insert x v

namespace Evaluator

/-- Stops because the budget is exhausted. -/
def exhausted {α : Type} : Run α :=
  fun _ => none

/-- Carries out an action, which costs no budget. -/
def perform {α : Type} (action : Action α) : Run α :=
  fun s => some (action s)

/-- Reports an event if tracing is on. -/
def trace (e : Event) : Run Unit :=
  perform (modify (State.trace e))

/-- Makes an object. -/
def make (build : Mark → Value) : Run Value :=
  perform (State.make build)

/-- The text of a special form with its operands. -/
def formText (k : Keyword) (operands : Value) : String :=
  String.ofList ('(' :: (k.name.toList ++ operands.writeAt .tail []))

/-- The complaint about a special form with the wrong number of operands. -/
def badForm {α : Type} (k : Keyword) (operands : Value) : Run α :=
  throw (.eval (.badForm (formText k operands)))

/-- Evaluates an expression without tracing, and leaves tracing as it was. -/
def untraced (ev : Evaluation) : Evaluation := fun expr env s =>
  (ev expr env { s with tracing := false }).map fun (result, after) =>
    (result, { after with tracing := s.tracing })

/-- Evaluates the firsts along a chain of pairs from left to right into a chain that ends in the
same object. -/
def evlis (ev : Evaluation) : Value → EnvId → Run Value
  | .pair _ first rest, env => do
      let v ← ev first env
      let vs ← evlis ev rest env
      make (Value.pair · v vs)
  | v, _ => return v

/-- Applies a procedure to an argument list.  The body of a lambda is left for later; a built-in
procedure is called at once. -/
def apply (ev : Evaluation) (procedure args : Value) (env : EnvId) : Run Step := do
  trace (.applying procedure args)
  match procedure with
  | .lambda _ closure formal body =>
      match formal.accept args with
      | .error cause => throw (.apply cause)
      | .ok own =>
          let s ← get
          let inner ← perform (State.newEnvironment
            (callBindings (s.bindings env) (s.bindings closure) own))
          return .pending body inner
  | .native _ p =>
      match ← perform (Procedures.call p args) with
      | .value v => return .done v
      | .evaluation expr inner => return .done (← untraced ev expr inner)
  | v => throw (.apply (.notProcedure v.text))

/-- Binds a name that must be free, both before its value is computed and after. -/
def define (ev : Evaluation) (x : String) (expr : Value) (env : EnvId) : Run Value := do
  if ((← get).bindings env).contains x then throw (.redefinition x)
  let v ← ev expr env
  perform (State.define env x v)
  make Value.unspecified

/-- A lambda captures the bindings there are when it is made. -/
def lambda (formals body : Value) (env : EnvId) : Run Value := do
  match Formal.ofValue? formals with
  | none => throw (.eval (.badFormals formals.text))
  | some formal =>
      let closure ← perform (State.snapshot env)
      make (Value.lambda · closure formal body)

/-- A special form on its operands, which are a proper list. -/
def form (ev : Evaluation) (k : Keyword) (operands : Value) (env : EnvId) : Run Step :=
  match k, operands.elements with
  | .quote, [v] => return .done v
  | .lambda, [formals, body] => do return .done (← lambda formals body env)
  | .define, [target, expr] =>
      match target with
      | .symbol _ x => do return .done (← define ev x expr env)
      | target => throw (.eval (.badTarget target.text))
  | .ifForm, [test, consequent] => do
      if (← ev test env).isTrue then return .pending consequent env
      else return .done (← make Value.unspecified)
  | .ifForm, [test, consequent, alternate] => do
      if (← ev test env).isTrue then return .pending consequent env
      else return .pending alternate env
  | .currentEnvironment, [] => do return .done (← make (Value.environment · env))
  | .toggleDebug, [] => do
      modify fun s => { s with tracing := !s.tracing }
      let on := (← get).tracing
      return .done (← make (Value.boolean · on))
  | k, _ => badForm k operands

/-- A head with operands.  A bound name is applied whatever it is bound to; only a free name can be a
special form, which takes a proper list of operands. -/
def combination (ev : Evaluation) (head operands : Value) (env : EnvId) : Run Step :=
  match head with
  | .symbol _ x => do
      match (← get).lookup env x with
      | some procedure => apply ev procedure (← evlis ev operands env) env
      | none =>
          match Keyword.ofName? x with
          | some k =>
              if operands.isList then form ev k operands env
              else throw (.eval (.improperOperands operands.text))
          | none => throw (.unbound x)
  | head => do
      let procedure ← ev head env
      apply ev procedure (← evlis ev operands env) env

/-- One step. -/
def step (ev : Evaluation) (expr : Value) (env : EnvId) : Run Step := do
  trace (.evaluating expr)
  match expr with
  | .symbol _ x =>
      match (← get).lookup env x with
      | some v => return .done v
      | none => throw (.unbound x)
  | .pair _ head operands =>
      if operands.isList then combination ev head operands env
      else throw (.eval (.improperCombination expr.text))
  | v => return .done v

/-- Takes steps until a value comes out. -/
def drive (ev : Evaluation) : Nat → Step → Run Value
  | _, .done v => return v
  | 0, .pending _ _ => exhausted
  | rounds + 1, .pending body env => do
      drive ev rounds (← step ev body env)

/-- Evaluates an expression; no loop takes more than `rounds` rounds and evaluations nest no deeper
than the first argument. -/
def eval : Nat → Nat → Evaluation
  | 0, _, _, _ => exhausted
  | depth + 1, rounds, expr, env => do
      drive (eval depth rounds) rounds (← step (eval depth rounds) expr env)

end Evaluator

end TinyLisp
