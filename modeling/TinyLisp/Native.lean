/-!
The built-in procedures: one constructor each, the name each is bound to, and the packs they come
in.  Main statements: every procedure is in some pack, and names tell procedures apart.
-/

namespace TinyLisp

/-- A built-in procedure. -/
inductive Native where
  | sum
  | difference
  | product
  | quotient
  | remainder
  | numberEq
  | less
  | greater
  | lessEq
  | greaterEq
  | isZero
  | isNumber
  | maximum
  | minimum
  | cons
  | car
  | cdr
  | list
  | length
  | reverse
  | append
  | isNull
  | isPair
  | isList
  | isSymbol
  | isString
  | isBoolean
  | isProcedure
  | isEnvironment
  | not
  | isEqv
  | isEqual
  | eval
  | openInput
  | openOutput
  | closePort
  | read
  | write
  | display
  | newline
  | isEof
  | isPort
  | currentOutput
  deriving DecidableEq, Repr

/-- A group of built-in procedures that are installed together. -/
inductive Pack where
  | arithmetic
  | lists
  | system
  | ports
  deriving DecidableEq, Repr

namespace Native

/-- The name a procedure is bound to and printed with. -/
def name : Native → String
  | sum => "+"
  | difference => "-"
  | product => "*"
  | quotient => "quotient"
  | remainder => "remainder"
  | numberEq => "="
  | less => "<"
  | greater => ">"
  | lessEq => "<="
  | greaterEq => ">="
  | isZero => "zero?"
  | isNumber => "number?"
  | maximum => "max"
  | minimum => "min"
  | cons => "cons"
  | car => "car"
  | cdr => "cdr"
  | list => "list"
  | length => "length"
  | reverse => "reverse"
  | append => "append"
  | isNull => "null?"
  | isPair => "pair?"
  | isList => "list?"
  | isSymbol => "symbol?"
  | isString => "string?"
  | isBoolean => "boolean?"
  | isProcedure => "procedure?"
  | isEnvironment => "environment?"
  | not => "not"
  | isEqv => "eq?"
  | isEqual => "equal?"
  | eval => "eval"
  | openInput => "open-input-file"
  | openOutput => "open-output-file"
  | closePort => "close-port"
  | read => "read"
  | write => "write"
  | display => "display"
  | newline => "newline"
  | isEof => "eof-object?"
  | isPort => "port?"
  | currentOutput => "current-output-port"

end Native

namespace Pack

/-- The procedures of a pack. -/
def members : Pack → List Native
  | arithmetic =>
      [.sum, .difference, .product, .quotient, .remainder, .numberEq, .less, .greater, .lessEq,
        .greaterEq, .isZero, .isNumber, .maximum, .minimum]
  | lists =>
      [.cons, .car, .cdr, .list, .length, .reverse, .append, .isNull, .isPair, .isList, .isSymbol,
        .isString, .isBoolean, .isProcedure, .isEnvironment, .not, .isEqv, .isEqual]
  | system => [.eval]
  | ports =>
      [.openInput, .openOutput, .closePort, .read, .write, .display, .newline, .isEof, .isPort,
        .currentOutput]

end Pack

/-- Every built-in procedure, pack by pack. -/
def Native.all : List Native :=
  Pack.arithmetic.members ++ Pack.lists.members ++ Pack.system.members ++ Pack.ports.members

theorem Native.mem_all (p : Native) : p ∈ Native.all := by
  cases p <;> decide

/-- The procedure with a given name. -/
def Native.ofName? (text : String) : Option Native :=
  Native.all.find? fun p => p.name == text

theorem Native.ofName?_name (p : Native) : Native.ofName? p.name = some p := by
  cases p <;> decide +kernel

/-- Two procedures with one name are the same procedure. -/
theorem Native.name_injective {p q : Native} (h : p.name = q.name) : p = q := by
  have hp := Native.ofName?_name p
  rw [h, Native.ofName?_name q] at hp
  exact (Option.some.inj hp).symm

example : Native.all.length = 43 := by decide

end TinyLisp
