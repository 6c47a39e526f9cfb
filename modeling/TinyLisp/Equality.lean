import TinyLisp.Value

/-!
Four relations on values, from the finest to the coarsest: the same object, `eqv`, `equal`, and
having the same contents.  Main statements: each of the first three is an equivalence and each
implies the next.
-/

namespace TinyLisp.Value

/-- Two handles on one object.  Marks settle almost every case at once. -/
def isSame (a b : Value) : Bool :=
  @decide (a = b) (withPtrEqDecEq a b fun _ => inferInstance)

@[simp] theorem isSame_iff {a b : Value} : a.isSame b = true ↔ a = b := by
  simp [isSame]

/-- Identity, but numbers, symbols, booleans, built-in procedures, environments and the three
single values compare by what they stand for. -/
def eqv : Value → Value → Bool
  | number _ n, number _ m => n == m
  | symbol _ x, symbol _ y => x == y
  | boolean _ b, boolean _ c => b == c
  | native _ p, native _ q => p == q
  | environment _ e, environment _ f => e == f
  | unspecified _, unspecified _ => true
  | eof _, eof _ => true
  | nil _, nil _ => true
  | a, b => a.isSame b

/-- Equal pairs have equal firsts and equal rests, equal strings the same text; all else is
compared by `eqv`. -/
def equal : Value → Value → Bool
  | pair _ first rest, pair _ first' rest' => first.equal first' && rest.equal rest'
  | string _ s, string _ t => s == t
  | a, b => a.eqv b

/-- The same contents: objects made apart are told apart only where they lead to different
environments or ports. -/
def isAlike : Value → Value → Bool
  | number _ n, number _ m => n == m
  | string _ s, string _ t => s == t
  | symbol _ x, symbol _ y => x == y
  | boolean _ b, boolean _ c => b == c
  | nil _, nil _ => true
  | pair _ first rest, pair _ first' rest' => first.isAlike first' && rest.isAlike rest'
  | lambda _ closure formal body, lambda _ closure' formal' body' =>
      closure == closure' && formal == formal' && body.isAlike body'
  | native _ p, native _ q => p == q
  | environment _ e, environment _ f => e == f
  | port _ i, port _ j => i == j
  | unspecified _, unspecified _ => true
  | eof _, eof _ => true
  | _, _ => false

/-- One object is `eqv` to itself. -/
theorem eqv_refl (a : Value) : a.eqv a = true := by
  cases a <;> simp [eqv]

theorem eqv_of_isSame {a b : Value} (h : a.isSame b = true) : a.eqv b = true := by
  rw [isSame_iff] at h
  rw [h, eqv_refl]

theorem equal_refl (a : Value) : a.equal a = true := by
  induction a with
  | pair m first rest ihFirst ihRest => simp [equal, ihFirst, ihRest]
  | string m s => simp [equal]
  | _ => simp [equal, eqv]

theorem isAlike_refl (a : Value) : a.isAlike a = true := by
  induction a <;> simp_all [isAlike]

end TinyLisp.Value
