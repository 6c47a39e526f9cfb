import TinyLisp.Equality
import TinyLisp.Procedures.Arguments

/-!
Pairs and lists.
-/

namespace TinyLisp.Procedures

def cons (args : Value) : Action Value := do
  let (first, rest) ← ofExcept (two .cons args)
  State.make (Value.pair · first rest)

def car (args : Value) : Except Error Value := do
  return (← pairArgument .car (← one .car args)).1

def cdr (args : Value) : Except Error Value := do
  return (← pairArgument .cdr (← one .cdr args)).2

def length (args : Value) : Except Error Int := do
  return (← listArgument .length (← one .length args)).length

def reverse (args : Value) : Action Value := do
  let vs ← ofExcept (do listArgument .reverse (← one .reverse args))
  State.makeList vs.reverse

/-- The elements of several lists one after another; of several arguments that are no lists the
last is complained about. -/
def concatenated (p : Native) : List Value → Except Error (List Value)
  | [] => return []
  | v :: rest => do
      let after ← concatenated p rest
      return (← listArgument p v) ++ after

/-- The elements of all arguments but the last, ending in the last; nil of no arguments. -/
def append (args : Value) : Action Value := do
  let vs ← ofExcept (arguments .append args)
  let items ← ofExcept (concatenated .append vs.dropLast)
  match vs.getLast? with
  | none => State.make Value.nil
  | some tail => State.makeListWithTail items tail

/-- Compares the two arguments. -/
def compared (p : Native) (relation : Value → Value → Bool) (args : Value) :
    Except Error Bool := do
  let (v, w) ← two p args
  return relation v w

end TinyLisp.Procedures
