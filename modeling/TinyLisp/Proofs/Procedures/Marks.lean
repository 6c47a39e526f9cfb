import Mathlib.Tactic.Choose
import TinyLisp.Procedures.Call

/-!
Calls that only make objects.  All procedures but those for ports see nothing of the state but the
next mark and change nothing else.  Main statement: `call_marking`; what the other calls do is said
call by call in equations.
-/

namespace TinyLisp

variable {α β : Type}

namespace Action

/-! ### Answers of the primitive actions -/

@[simp] theorem pure_apply (a : α) (s : State) : (pure a : Action α) s = (.ok a, s) := rfl

@[simp] theorem throw_apply (e : Error) (s : State) : (throw e : Action α) s = (.error e, s) := rfl

@[simp] theorem get_apply (s : State) : (get : Action State) s = (.ok s, s) := rfl

@[simp] theorem modify_apply (f : State → State) (s : State) :
    (modify f : Action PUnit) s = (.ok ⟨⟩, f s) := rfl

@[simp] theorem modifyGet_apply (f : State → α × State) (s : State) :
    (modifyGet f : Action α) s = (.ok (f s).1, (f s).2) := rfl

@[simp] theorem lift_apply (action : StateM State α) (s : State) :
    (liftM action : Action α) s = (.ok (action s).1, (action s).2) := rfl

@[simp] theorem ofExcept_apply (x : Except Error α) (s : State) :
    (ofExcept x : Action α) s = (x, s) := by
  cases x <;> rfl

/-- A sequel sees the value and the state of what it follows, and never starts after an error. -/
@[simp] theorem bind_apply (m : Action α) (f : α → Action β) (s : State) :
    (m >>= f) s =
      match m s with
      | (.error e, t) => (.error e, t)
      | (.ok a, t) => f a t := by
  change ExceptT.bindCont f (m s).1 (m s).2 = _
  cases m s with
  | mk result t => cases result <;> rfl

end Action

/-! ### Actions on marks alone -/

/-- An action that sees nothing of the state but the next mark and changes nothing else. -/
def Marking (action : Action α) : Prop :=
  ∃ f : Nat → Except Error α × Nat,
    ∀ s, action s = ((f s.nextMark).1, { s with nextMark := (f s.nextMark).2 })

namespace Marking

theorem ofExcept (x : Except Error α) : Marking (ofExcept x) :=
  ⟨fun n => (x, n), Action.ofExcept_apply x⟩

theorem pure (a : α) : Marking (Pure.pure a) :=
  ⟨fun n => (.ok a, n), fun _ => rfl⟩

theorem throw (e : Error) : Marking (MonadExcept.throw e : Action α) :=
  ⟨fun n => (.error e, n), fun _ => rfl⟩

theorem make (build : Mark → Value) : Marking (State.make build : Action Value) :=
  ⟨fun n => (.ok (build ⟨n⟩), n + 1), fun _ => rfl⟩

theorem bind {action : Action α} {f : α → Action β} (h : Marking action)
    (hf : ∀ a, Marking (f a)) : Marking (action >>= f) := by
  obtain ⟨g, hg⟩ := h
  choose next hnext using hf
  refine ⟨fun n =>
    match g n with
    | (.error e, n) => (.error e, n)
    | (.ok a, n) => next a n, fun s => ?_⟩
  rw [Action.bind_apply, hg s]
  dsimp only
  cases g s.nextMark with
  | mk result n =>
      cases result with
      | error e => rfl
      | ok a => exact hnext a { s with nextMark := n }

theorem makeListWithTail (vs : List Value) (tail : Value) :
    Marking (State.makeListWithTail vs tail : Action Value) := by
  induction vs with
  | nil => exact pure tail
  | cons v vs ih => exact ih.bind fun rest => make (Value.pair · v rest)

end Marking

namespace Native

/-- The procedures that deal with ports. -/
def dealsWithPorts : Native → Bool
  | openInput => true
  | openOutput => true
  | closePort => true
  | read => true
  | write => true
  | display => true
  | newline => true
  | currentOutput => true
  | _ => false

end Native

namespace Procedures

theorem answering_marking {action : Action Value} (h : Marking action) :
    Marking (answering action) :=
  h.bind fun _ => .pure _

theorem makeNumber_marking (result : Except Error Int) : Marking (makeNumber result) :=
  (Marking.ofExcept result).bind fun _ => .make _

theorem makeBoolean_marking (result : Except Error Bool) : Marking (makeBoolean result) :=
  (Marking.ofExcept result).bind fun _ => .make _

theorem reverse_marking (args : Value) : Marking (reverse args) :=
  (Marking.ofExcept _).bind fun vs =>
    (Marking.make Value.nil).bind fun tail => .makeListWithTail vs.reverse tail

theorem append_marking (args : Value) : Marking (append args) := by
  refine (Marking.ofExcept _).bind fun vs => (Marking.ofExcept _).bind fun items => ?_
  split
  · exact .make _
  · exact .makeListWithTail _ _

/-- Where no port is dealt with, a call only makes objects. -/
theorem call_marking {p : Native} (h : p.dealsWithPorts = false) (args : Value) :
    Marking (call p args) := by
  cases p with
  | cons => exact answering_marking ((Marking.ofExcept _).bind fun _ => .make _)
  | car => exact answering_marking (.ofExcept _)
  | cdr => exact answering_marking (.ofExcept _)
  | list => exact answering_marking (.pure _)
  | reverse => exact answering_marking (reverse_marking args)
  | append => exact answering_marking (append_marking args)
  | eval => exact (Marking.ofExcept _).bind fun _ => (Marking.ofExcept _).bind fun _ => .pure _
  | openInput | openOutput | closePort | read | write | display | newline | currentOutput =>
      cases h
  | sum | difference | product | quotient | remainder | maximum | minimum | length =>
      exact answering_marking (makeNumber_marking _)
  | _ => exact answering_marking (makeBoolean_marking _)

end Procedures

end TinyLisp
