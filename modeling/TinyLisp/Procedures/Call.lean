import TinyLisp.Procedures.Arithmetic
import TinyLisp.Procedures.Lists
import TinyLisp.Procedures.Ports

/-!
Calling a built-in procedure.  A procedure answers with a value or, when it is `eval`, with an
evaluation for its caller to carry out.
-/

namespace TinyLisp

/-- What a call comes to. -/
inductive Answer where
  | value (v : Value)
  | evaluation (expr : Value) (env : EnvId)

namespace Procedures

/-- An action whose value is the answer. -/
def answering (action : Action Value) : Action Answer :=
  Answer.value <$> action

/-- Asks for the evaluation of the first argument in the second. -/
def eval (args : Value) : Action Answer := do
  let (expr, env) ← ofExcept (two .eval args)
  return .evaluation expr (← ofExcept (environmentArgument .eval env))

/-- Calls a procedure on an argument list. -/
def call (p : Native) (args : Value) : Action Answer :=
  match p with
  | .sum => answering (makeNumber (sum args))
  | .difference => answering (makeNumber (difference args))
  | .product => answering (makeNumber (product args))
  | .quotient => answering (makeNumber (quotient args))
  | .remainder => answering (makeNumber (remainder args))
  | .numberEq => answering (makeBoolean (comparison .numberEq (fun n m => n == m) args))
  | .less => answering (makeBoolean (comparison .less (fun n m => decide (n < m)) args))
  | .greater => answering (makeBoolean (comparison .greater (fun n m => decide (n > m)) args))
  | .lessEq => answering (makeBoolean (comparison .lessEq (fun n m => decide (n ≤ m)) args))
  | .greaterEq => answering (makeBoolean (comparison .greaterEq (fun n m => decide (n ≥ m)) args))
  | .isZero => answering (makeBoolean (isZero args))
  | .isNumber => answering (makeTest .isNumber (fun v => v.number?.isSome) args)
  | .maximum => answering (makeNumber (extremum .maximum max args))
  | .minimum => answering (makeNumber (extremum .minimum min args))
  | .cons => answering (cons args)
  | .car => answering (ofExcept (car args))
  | .cdr => answering (ofExcept (cdr args))
  | .list => answering (return args)
  | .length => answering (makeNumber (length args))
  | .reverse => answering (reverse args)
  | .append => answering (append args)
  | .isNull => answering (makeTest .isNull Value.isNil args)
  | .isPair => answering (makeTest .isPair Value.isPair args)
  | .isList => answering (makeTest .isList Value.isList args)
  | .isSymbol => answering (makeTest .isSymbol (fun v => v.symbol?.isSome) args)
  | .isString => answering (makeTest .isString (fun v => v.string?.isSome) args)
  | .isBoolean => answering (makeTest .isBoolean Value.isBoolean args)
  | .isProcedure => answering (makeTest .isProcedure Value.isProcedure args)
  | .isEnvironment => answering (makeTest .isEnvironment (fun v => v.environment?.isSome) args)
  | .not => answering (makeTest .not Value.isFalse args)
  | .isEqv => answering (makeBoolean (compared .isEqv Value.eqv args))
  | .isEqual => answering (makeBoolean (compared .isEqual Value.equal args))
  | .eval => eval args
  | .openInput => answering (openInput args)
  | .openOutput => answering (openOutput args)
  | .closePort => answering (closePort args)
  | .read => answering (read args)
  | .write => answering (outputValue .write Value.text args)
  | .display => answering (outputValue .display Value.displayed args)
  | .newline => answering (newline args)
  | .isEof => answering (makeTest .isEof Value.isEof args)
  | .isPort => answering (makeTest .isPort (fun v => v.port?.isSome) args)
  | .currentOutput => answering (currentOutput args)

end Procedures

end TinyLisp
