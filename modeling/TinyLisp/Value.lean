import TinyLisp.Native

/-!
Values.  Every object carries the mark it was given when it was made, so a value is its own
identity: two handles are the same object exactly when the values are equal, marks included.
-/

namespace TinyLisp

/-- What tells an object from every other object. -/
structure Mark where
  index : Nat
  deriving DecidableEq, Repr

/-- The place of an environment in the state. -/
structure EnvId where
  index : Nat
  deriving DecidableEq, Repr

/-- The place of a port in the state. -/
structure PortId where
  index : Nat
  deriving DecidableEq, Repr

/-- How a lambda binds its argument list: not at all, its only argument, or the list itself. -/
inductive Formal where
  | nothing
  | single (name : String)
  | rest (name : String)
  deriving DecidableEq, Repr

/-- A value; environments and ports are places in the state. -/
inductive Value where
  | number (mark : Mark) (n : Int)
  | string (mark : Mark) (text : String)
  | symbol (mark : Mark) (name : String)
  | boolean (mark : Mark) (b : Bool)
  | nil (mark : Mark)
  | pair (mark : Mark) (first rest : Value)
  | lambda (mark : Mark) (closure : EnvId) (formal : Formal) (body : Value)
  | native (mark : Mark) (procedure : Native)
  | environment (mark : Mark) (env : EnvId)
  | port (mark : Mark) (port : PortId)
  | unspecified (mark : Mark)
  | eof (mark : Mark)
  deriving DecidableEq, Repr

namespace Value

/-! ### Kinds -/

def isNil : Value → Bool
  | nil _ => true
  | _ => false

def isPair : Value → Bool
  | pair _ _ _ => true
  | _ => false

/-- An atom is neither a pair nor nil. -/
def isAtom (v : Value) : Bool :=
  !v.isPair && !v.isNil

/-- Only the boolean `#t` is true. -/
def isTrue : Value → Bool
  | boolean _ b => b
  | _ => false

/-- Only the boolean `#f` is false. -/
def isFalse : Value → Bool
  | boolean _ b => !b
  | _ => false

def isBoolean : Value → Bool
  | boolean _ _ => true
  | _ => false

def isProcedure : Value → Bool
  | lambda _ _ _ _ => true
  | native _ _ => true
  | _ => false

def isEof : Value → Bool
  | eof _ => true
  | _ => false

def number? : Value → Option Int
  | number _ n => some n
  | _ => none

def string? : Value → Option String
  | string _ text => some text
  | _ => none

def symbol? : Value → Option String
  | symbol _ name => some name
  | _ => none

def boolean? : Value → Option Bool
  | boolean _ b => some b
  | _ => none

def pair? : Value → Option (Value × Value)
  | pair _ first rest => some (first, rest)
  | _ => none

def environment? : Value → Option EnvId
  | environment _ env => some env
  | _ => none

def port? : Value → Option PortId
  | port _ id => some id
  | _ => none

/-! ### Lists -/

/-- A list is a chain of pairs that ends in nil. -/
def isList : Value → Bool
  | nil _ => true
  | pair _ _ rest => rest.isList
  | _ => false

/-- The firsts along the chain of pairs, whatever ends it. -/
def elements : Value → List Value
  | pair _ first rest => first :: rest.elements
  | _ => []

/-- What ends the chain of pairs. -/
def last : Value → Value
  | pair _ _ rest => rest.last
  | v => v

/-- The elements of a list; `none` for anything else. -/
def toList? (v : Value) : Option (List Value) :=
  if v.isList then some v.elements else none

@[simp] theorem elements_pair (m : Mark) (first rest : Value) :
    (pair m first rest).elements = first :: rest.elements := rfl

@[simp] theorem last_pair (m : Mark) (first rest : Value) :
    (pair m first rest).last = rest.last := rfl

@[simp] theorem isList_pair (m : Mark) (first rest : Value) :
    (pair m first rest).isList = rest.isList := rfl

@[simp] theorem isList_nil (m : Mark) : (nil m).isList = true := rfl

/-- No chain of pairs ends in a pair. -/
theorem isPair_last (v : Value) : v.last.isPair = false := by
  induction v with
  | pair m first rest _ ih => exact ih
  | _ => rfl

/-- A value is a list exactly when nil ends its chain of pairs. -/
theorem isList_eq_isNil_last (v : Value) : v.isList = v.last.isNil := by
  induction v with
  | pair m first rest _ ih => exact ih
  | _ => rfl

/-- A value without pairs ends its own chain. -/
theorem last_of_isPair_eq_false {v : Value} (h : v.isPair = false) : v.last = v := by
  cases v with
  | pair m first rest => simp [isPair] at h
  | _ => rfl

theorem elements_of_isPair_eq_false {v : Value} (h : v.isPair = false) : v.elements = [] := by
  cases v with
  | pair m first rest => simp [isPair] at h
  | _ => rfl

theorem toList?_eq_some_iff {v : Value} {vs : List Value} :
    v.toList? = some vs ↔ v.isList = true ∧ v.elements = vs := by
  unfold toList?
  split <;> simp_all

theorem toList?_eq_none_iff {v : Value} : v.toList? = none ↔ v.isList = false := by
  unfold toList?
  split <;> simp_all

end Value

end TinyLisp
