import TinyLisp.Proofs.Procedures.Marks

/-!
Whom a failing call blames.  What a procedure asks of its arguments it asks in its own name, and only
of a list that is none does it complain that it is none.  Main statement: `call_faults`, for all
procedures that do not deal with ports.
-/

namespace TinyLisp

variable {α β : Type} {p : Native} {args : Value}

/-- A complaint that the arguments are no list. -/
def CallError.isImproper : CallError → Bool
  | improperList _ => true
  | _ => false

/-- A complaint that can be made about these arguments: if they are a list, it is not that they are
none. -/
def CallError.Fits (cause : CallError) (args : Value) : Prop :=
  cause.isImproper = true → args.isList = false

theorem CallError.Fits.other {cause : CallError} (h : cause.isImproper = false) :
    cause.Fits args := by
  intro himproper
  rw [h] at himproper
  cases himproper

/-- A computation on arguments that fails only in the name of a procedure, with a complaint that can
be made about them. -/
def Blames (p : Native) (args : Value) (x : Except Error α) : Prop :=
  ∀ e, x = .error e → ∃ cause : CallError, e = .native p cause ∧ cause.Fits args

namespace Blames

theorem pure (a : α) : Blames p args (Pure.pure a) := by
  intro e h
  cases h

theorem throw {cause : CallError} (hcause : cause.Fits args) :
    Blames p args (MonadExcept.throw (.native p cause) : Except Error α) := by
  intro e h
  cases h
  exact ⟨cause, rfl, hcause⟩

theorem bind {x : Except Error α} {f : α → Except Error β} (hx : Blames p args x)
    (hf : ∀ a, Blames p args (f a)) : Blames p args (x >>= f) := by
  intro e h
  cases x with
  | error e' =>
      cases h
      exact hx _ rfl
  | ok a => exact hf a e h

theorem map {x : Except Error α} (hx : Blames p args x) (f : α → β) : Blames p args (x.map f) := by
  intro e h
  cases x with
  | error e' =>
      cases h
      exact hx _ rfl
  | ok a => cases h

theorem mapM {f : α → Except Error β} (hf : ∀ a, Blames p args (f a)) (as : List α) :
    Blames p args (as.mapM f) := by
  induction as with
  | nil => exact pure []
  | cons a as ih =>
      rw [List.mapM_cons]
      exact (hf a).bind fun _ => ih.bind fun _ => pure _

end Blames

namespace Procedures

/-! ### Arguments -/

section Arguments

variable (p : Native) (args v : Value)

theorem arguments_blames : Blames p args (arguments p args) := by
  unfold arguments
  cases hlist : args.toList? with
  | some vs => exact .pure vs
  | none => exact .throw fun _ => Value.toList?_eq_none_iff.mp hlist

theorem exactly_blames (n : Nat) : Blames p args (exactly p n args) := by
  refine (arguments_blames p args).bind fun vs => ?_
  split
  · exact .pure _
  · exact .throw (.other rfl)

theorem one_blames : Blames p args (one p args) := by
  refine (exactly_blames p args 1).bind fun vs => ?_
  split
  · exact .pure _
  · exact .throw (.other rfl)

theorem two_blames : Blames p args (two p args) := by
  refine (exactly_blames p args 2).bind fun vs => ?_
  split
  · exact .pure _
  · exact .throw (.other rfl)

theorem numberArgument_blames : Blames p args (numberArgument p v) := by
  unfold numberArgument
  split
  · exact .pure _
  · exact .throw (.other rfl)

theorem numbers_blames : Blames p args (numbers p args) :=
  (arguments_blames p args).bind fun vs => .mapM (numberArgument_blames p args) vs

theorem listArgument_blames : Blames p args (listArgument p v) := by
  unfold listArgument
  split
  · exact .pure _
  · exact .throw (.other rfl)

theorem pairArgument_blames : Blames p args (pairArgument p v) := by
  unfold pairArgument
  split
  · exact .pure _
  · exact .throw (.other rfl)

theorem environmentArgument_blames : Blames p args (environmentArgument p v) := by
  unfold environmentArgument
  split
  · exact .pure _
  · exact .throw (.other rfl)

theorem fileNameArgument_blames : Blames p args (fileNameArgument p v) := by
  unfold fileNameArgument
  split
  · exact .pure _
  · exact .throw (.other rfl)

theorem portArgument_blames : Blames p args (portArgument p v) := by
  unfold portArgument
  split
  · exact .pure _
  · exact .throw (.other rfl)

end Arguments

/-! ### Results -/

section Results

variable (args : Value)

theorem difference_blames : Blames .difference args (difference args) := by
  refine (numbers_blames .difference args).bind fun ns => ?_
  split
  · exact .throw (.other rfl)
  · exact .pure _
  · exact .pure _

theorem division_blames (p : Native) (op : Int → Int → Int) :
    Blames p args (division p op args) := by
  refine (two_blames p args).bind fun halves => ?_
  refine (numberArgument_blames p args halves.1).bind fun n => ?_
  refine (numberArgument_blames p args halves.2).bind fun m => ?_
  split
  · exact .throw (.other rfl)
  · exact .pure _

theorem comparison_blames (p : Native) (r : Int → Int → Bool) :
    Blames p args (comparison p r args) := by
  refine (numbers_blames p args).bind fun ns => ?_
  split
  · exact .throw (.other rfl)
  · exact .pure _

theorem extremum_blames (p : Native) (pick : Int → Int → Int) :
    Blames p args (extremum p pick args) := by
  refine (numbers_blames p args).bind fun ns => ?_
  split
  · exact .throw (.other rfl)
  · exact .pure _

theorem isZero_blames : Blames .isZero args (isZero args) :=
  (one_blames .isZero args).bind fun v =>
    (numberArgument_blames .isZero args v).bind fun _ => .pure _

theorem car_blames : Blames .car args (car args) :=
  (one_blames .car args).bind fun v => (pairArgument_blames .car args v).bind fun _ => .pure _

theorem cdr_blames : Blames .cdr args (cdr args) :=
  (one_blames .cdr args).bind fun v => (pairArgument_blames .cdr args v).bind fun _ => .pure _

theorem length_blames : Blames .length args (length args) :=
  (one_blames .length args).bind fun v =>
    (listArgument_blames .length args v).bind fun _ => .pure _

theorem concatenated_blames (p : Native) (vs : List Value) : Blames p args (concatenated p vs) := by
  induction vs with
  | nil => exact .pure _
  | cons v vs ih => exact ih.bind fun _ => (listArgument_blames p args v).bind fun _ => .pure _

theorem compared_blames (p : Native) (relation : Value → Value → Bool) :
    Blames p args (compared p relation args) :=
  (two_blames p args).bind fun _ => .pure _

end Results

/-! ### Calls -/

section Calls

variable {p : Native} {args : Value}

/-- An action whose failures are those of a procedure on its arguments. -/
def Faults (p : Native) (args : Value) (action : Action α) : Prop :=
  ∀ s, Blames p args (action s).1

namespace Faults

theorem ofExcept {x : Except Error α} (h : Blames p args x) : Faults p args (ofExcept x) := by
  intro s
  rw [Action.ofExcept_apply]
  exact h

theorem pure (a : α) : Faults p args (Pure.pure a) :=
  fun _ => .pure a

theorem make (build : Mark → Value) : Faults p args (State.make build : Action Value) :=
  fun _ => .pure _

theorem bind {action : Action α} {f : α → Action β} (h : Faults p args action)
    (hf : ∀ a, Faults p args (f a)) : Faults p args (action >>= f) := by
  intro s
  have hs := h s
  rw [Action.bind_apply]
  revert hs
  rcases action s with ⟨_ | a, t⟩
  · intro hs e' h'
    cases h'
    exact hs _ rfl
  · exact fun _ => hf a t

theorem makeListWithTail (vs : List Value) (tail : Value) :
    Faults p args (State.makeListWithTail vs tail : Action Value) :=
  fun _ => .pure _

theorem makeNumber {x : Except Error Int} (h : Blames p args x) : Faults p args (makeNumber x) :=
  (ofExcept h).bind fun _ => make _

theorem makeBoolean {x : Except Error Bool} (h : Blames p args x) : Faults p args (makeBoolean x) :=
  (ofExcept h).bind fun _ => make _

theorem makeTest (test : Value → Bool) : Faults p args (makeTest p test args) :=
  makeBoolean ((one_blames p args).map test)

theorem answering {action : Action Value} (h : Faults p args action) :
    Faults p args (answering action) :=
  h.bind fun _ => pure _

end Faults

theorem reverse_faults (args : Value) : Faults .reverse args (reverse args) := by
  have hlist : Blames .reverse args (do listArgument .reverse (← one .reverse args)) :=
    (one_blames .reverse args).bind (listArgument_blames .reverse args)
  exact (Faults.ofExcept hlist).bind fun vs =>
    (Faults.make Value.nil).bind fun tail => .makeListWithTail vs.reverse tail

theorem append_faults (args : Value) : Faults .append args (append args) := by
  refine (Faults.ofExcept (arguments_blames .append args)).bind fun vs => ?_
  refine (Faults.ofExcept (concatenated_blames args .append vs.dropLast)).bind fun items => ?_
  split
  · exact .make _
  · exact .makeListWithTail _ _

theorem eval_faults (args : Value) : Faults .eval args (eval args) :=
  (Faults.ofExcept (two_blames .eval args)).bind fun _ =>
    (Faults.ofExcept (environmentArgument_blames .eval args _)).bind fun _ => .pure _

theorem cons_faults (args : Value) : Faults .cons args (cons args) :=
  (Faults.ofExcept (two_blames .cons args)).bind fun _ => .make _

/-- Where no port is dealt with, a call that fails blames the procedure that was called. -/
theorem call_faults (h : p.dealsWithPorts = false) (args : Value) : Faults p args (call p args) := by
  cases p with
  | sum => exact .answering (.makeNumber ((numbers_blames .sum args).bind fun _ => .pure _))
  | product => exact .answering (.makeNumber ((numbers_blames .product args).bind fun _ => .pure _))
  | difference => exact .answering (.makeNumber (difference_blames args))
  | quotient => exact .answering (.makeNumber (division_blames args .quotient Int.tdiv))
  | remainder => exact .answering (.makeNumber (division_blames args .remainder Int.tmod))
  | numberEq | less | greater | lessEq | greaterEq =>
      exact .answering (.makeBoolean (comparison_blames args _ _))
  | isZero => exact .answering (.makeBoolean (isZero_blames args))
  | maximum | minimum => exact .answering (.makeNumber (extremum_blames args _ _))
  | cons => exact .answering (cons_faults args)
  | car => exact .answering (.ofExcept (car_blames args))
  | cdr => exact .answering (.ofExcept (cdr_blames args))
  | list => exact .answering (.pure _)
  | length => exact .answering (.makeNumber (length_blames args))
  | reverse => exact .answering (reverse_faults args)
  | append => exact .answering (append_faults args)
  | isEqv | isEqual => exact .answering (.makeBoolean (compared_blames args _ _))
  | eval => exact eval_faults args
  | openInput | openOutput | closePort | read | write | display | newline | currentOutput =>
      cases h
  | _ => exact .answering (.makeTest _)

end Calls

end Procedures

end TinyLisp
