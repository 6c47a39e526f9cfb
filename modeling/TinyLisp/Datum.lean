import TinyLisp.Value

/-!
Data: what a text denotes.  A datum has contents but no identity, and no datum is a procedure, an
environment or a port.
-/

namespace TinyLisp

/-- What a text denotes. -/
inductive Datum where
  | number (n : Int)
  | string (text : String)
  | symbol (name : String)
  | boolean (b : Bool)
  | nil
  | pair (first rest : Datum)
  deriving DecidableEq, Repr

namespace Datum

/-- The items of a list, the first one outermost, ending in `tail`. -/
def listWithTail (items : List Datum) (tail : Datum) : Datum :=
  items.foldr Datum.pair tail

/-- The items of a list given last one first, ending in `tail`. -/
def ofReversed (reversed : List Datum) (tail : Datum) : Datum :=
  reversed.foldl (fun rest first => Datum.pair first rest) tail

theorem ofReversed_eq_listWithTail (reversed : List Datum) (tail : Datum) :
    ofReversed reversed tail = listWithTail reversed.reverse tail := by
  simp [ofReversed, listWithTail, List.foldr_reverse]

/-- Whether a datum is the symbol with the given name. -/
def isSymbol (name : String) : Datum → Bool
  | symbol text => text == name
  | _ => false

end Datum

/-- The datum with the contents of a value; `none` when some part of it has no written form. -/
def Value.datum? : Value → Option Datum
  | .number _ n => some (.number n)
  | .string _ text => some (.string text)
  | .symbol _ name => some (.symbol name)
  | .boolean _ b => some (.boolean b)
  | .nil _ => some .nil
  | .pair _ first rest => do
      let first ← first.datum?
      let rest ← rest.datum?
      return .pair first rest
  | _ => none

end TinyLisp
