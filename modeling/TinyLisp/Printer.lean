import TinyLisp.Numeral
import TinyLisp.Value

/-!
The written form of values.  Text is produced in front of the text that follows it; the main
statement `write_append` says that what follows never changes what is written.
-/

namespace TinyLisp

/-- Where a value stands: on its own, or as the rest of a pair whose opening parenthesis is
already written. -/
inductive Position where
  | alone
  | tail
  deriving DecidableEq, Repr

/-- An atom as it is written at a position: as the rest of a pair it follows a dot and is
followed by the closing parenthesis. -/
def Position.atom : Position → List Char → List Char → List Char
  | alone, text, k => text ++ k
  | tail, text, k => ' ' :: '.' :: ' ' :: (text ++ ')' :: k)

namespace Value

/-- The text of a value at a position, followed by `k`. -/
def writeAt : Position → Value → List Char → List Char
  | .alone, nil _, k => '(' :: ')' :: k
  | .tail, nil _, k => ')' :: k
  | .alone, pair _ first rest, k => '(' :: writeAt .alone first (writeAt .tail rest k)
  | .tail, pair _ first rest, k => ' ' :: writeAt .alone first (writeAt .tail rest k)
  | p, number _ n, k => p.atom (Numeral.decimal n) k
  | p, string _ text, k => p.atom ('"' :: (text.toList ++ ['"'])) k
  | p, symbol _ name, k => p.atom name.toList k
  | p, boolean _ b, k => p.atom ['#', if b then 't' else 'f'] k
  | p, lambda _ _ _ _, k => p.atom "#<lambda>".toList k
  | p, native _ procedure, k =>
      p.atom ("#<procedure ".toList ++ (procedure.name.toList ++ ['>'])) k
  | p, environment _ _, k => p.atom "#<environment>".toList k
  | p, port _ _, k => p.atom "#<port>".toList k
  | p, unspecified _, k => p.atom "<unspecified>".toList k
  | p, eof _, k => p.atom "#<eof>".toList k

/-- The text of a value, followed by `k`. -/
def write (v : Value) (k : List Char) : List Char :=
  v.writeAt .alone k

/-- The written form of a value. -/
def text (v : Value) : String :=
  String.ofList (v.write [])

/-- The form shown to people: a string without its quotes, all else as it is written. -/
def displayed : Value → String
  | string _ text => text
  | v => v.text

theorem writeAt_append (p : Position) (v : Value) (k rest : List Char) :
    v.writeAt p k ++ rest = v.writeAt p (k ++ rest) := by
  induction v generalizing p k with
  | pair m first tail ihFirst ihTail =>
      cases p <;> simp [writeAt, ihFirst, ihTail]
  | _ => cases p <;> simp [writeAt, Position.atom]

/-- What follows a value does not change how the value is written. -/
theorem write_append (v : Value) (k rest : List Char) : v.write k ++ rest = v.write (k ++ rest) :=
  writeAt_append .alone v k rest

/-- Writing in front of `k` writes the form of the value and then `k`. -/
theorem write_eq (v : Value) (k : List Char) : v.write k = v.text.toList ++ k := by
  simp [text, write_append]

theorem toList_text (v : Value) : v.text.toList = v.write [] := by
  simp [text]

theorem write_pair (m : Mark) (first rest : Value) (k : List Char) :
    (pair m first rest).write k = '(' :: first.write (rest.writeAt .tail k) := rfl

example :
    (pair ⟨0⟩ (number ⟨1⟩ 1) (pair ⟨2⟩ (boolean ⟨3⟩ true) (symbol ⟨4⟩ "x"))).write [] =
      "(1 #t . x)".toList := by
  decide

end Value

/-- The text that stands for a value that is not there. -/
def absentText : String := "<unspecified>"

end TinyLisp
