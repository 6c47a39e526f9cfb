import TinyLisp.Procedures.Arguments

/-!
Exact integer arithmetic and comparison.
-/

namespace TinyLisp.Procedures

/-- The sum; zero of no numbers. -/
def sum (args : Value) : Except Error Int := do
  return (← numbers .sum args).foldl (· + ·) 0

/-- The product; one of no numbers. -/
def product (args : Value) : Except Error Int := do
  return (← numbers .product args).foldl (· * ·) 1

/-- The negation of one number, or the first number less the others. -/
def difference (args : Value) : Except Error Int := do
  match ← numbers .difference args with
  | [] => throw (.native .difference .noArguments)
  | [n] => return -n
  | n :: rest => return rest.foldl (· - ·) n

/-- A division of two numbers, given what it answers for a divisor that is not zero. -/
def division (p : Native) (op : Int → Int → Int) (args : Value) : Except Error Int := do
  let (v, w) ← two p args
  let n ← numberArgument p v
  let m ← numberArgument p w
  if m = 0 then throw (.native p .divisionByZero)
  else return op n m

/-- The quotient, rounded toward zero. -/
def quotient : Value → Except Error Int :=
  division .quotient Int.tdiv

/-- What the quotient leaves; it has the sign of the dividend. -/
def remainder : Value → Except Error Int :=
  division .remainder Int.tmod

/-- Whether a relation holds between neighbours all along a list. -/
def chain (r : Int → Int → Bool) : List Int → Bool
  | n :: m :: rest => r n m && chain r (m :: rest)
  | _ => true

/-- A comparison of at least two numbers. -/
def comparison (p : Native) (r : Int → Int → Bool) (args : Value) : Except Error Bool := do
  let ns ← numbers p args
  if ns.length < 2 then throw (.native p .tooFewToCompare)
  else return chain r ns

/-- The number that a choice between two numbers, repeated from the first on, ends with. -/
def extremum (p : Native) (pick : Int → Int → Int) (args : Value) : Except Error Int := do
  match ← numbers p args with
  | [] => throw (.native p .noArguments)
  | n :: rest => return rest.foldl pick n

def isZero (args : Value) : Except Error Bool := do
  return (← numberArgument .isZero (← one .isZero args)) == 0

example : chain (fun n m => decide (n < m)) [1, 2, 3] = true ∧
    chain (fun n m => decide (n < m)) [1, 3, 2] = false := by decide

end TinyLisp.Procedures
