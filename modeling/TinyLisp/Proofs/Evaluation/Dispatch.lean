import Mathlib.Data.List.Basic
import TinyLisp.Proofs.Evaluation.Operands

/-!
What a combination is taken for.  A bound name is applied, whatever it is bound to and whatever it is
called; a free name is a special form or an error; anything else at the head is evaluated first.
Operands are evaluated only where something is applied, and a special form that is given the wrong
operands evaluates none of them.  Main statements: `step_named_iff`, `step_computed_iff` and
`form_misfit_iff`.
-/

namespace TinyLisp

open Evaluator Run

/-- Parameter lists of a lambda: none, a list with one symbol, or a symbol for the whole list. -/
def Value.isFormals : Value → Bool
  | .nil _ => true
  | .symbol _ _ => true
  | .pair _ (.symbol _ _) (.nil _) => true
  | _ => false

/-- Whether a special form can do with these operands. -/
def Keyword.fits : Keyword → List Value → Bool
  | .quote, [_] => true
  | .lambda, [formals, _] => formals.isFormals
  | .define, [.symbol _ _, _] => true
  | .ifForm, [_, _] => true
  | .ifForm, [_, _, _] => true
  | .currentEnvironment, [] => true
  | .toggleDebug, [] => true
  | _, _ => false

theorem Formal.ofValue?_eq_none_iff {v : Value} : ofValue? v = none ↔ v.isFormals = false := by
  unfold ofValue? Value.isFormals
  split <;> simp

theorem Keyword.eq_name_of_ofName? {x : String} {k : Keyword} (h : ofName? x = some k) :
    x = k.name := by
  have hfound := List.find?_some h
  exact (eq_of_beq hfound).symm

/-- What is not the name of a special form. -/
theorem Keyword.ofName?_eq_none {x : String} (h : ∀ k : Keyword, x ≠ k.name) :
    ofName? x = none := by
  cases hk : ofName? x with
  | none => rfl
  | some k => exact absurd (eq_name_of_ofName? hk) (h k)

namespace Evaluator

variable {ev : Evaluation} {env : EnvId} {s t : State} {m m' : Mark} {head operands : Value}
  {r : Except Error Step}

/-- A procedure is applied to operands: one of them fails, or all have had their turn and the
procedure is applied to the list of their values. -/
def AppliesTo (ev : Evaluation) (env : EnvId) (procedure operands : Value) (s : State)
    (r : Except Error Step) (t : State) : Prop :=
  (∃ e, r = .error e ∧ FailsInTurn ev env operands.elements s e t) ∨
    ∃ vs u, InTurn ev env operands.elements s vs u ∧
      apply ev procedure (State.makeListWithTail vs operands.last u).1 env
        (State.makeListWithTail vs operands.last u).2 = some (r, t)

theorem appliesTo_iff {procedure : Value} :
    (evlis ev operands env >>= fun args => apply ev procedure args env) s = some (r, t) ↔
      AppliesTo ev env procedure operands s r t := by
  simp only [bind_eq_some_iff, evlis_eq_some_iff, AppliesTo]
  constructor
  · rintro (⟨e, ⟨_, _, _, hargs, _⟩ | ⟨_, hargs, hfails⟩, rfl⟩ |
      ⟨args, u, ⟨vs, u, hturn, hargs, rfl⟩ | ⟨_, hargs, _⟩, happly⟩)
    · cases hargs
    · cases hargs
      exact .inl ⟨e, rfl, hfails⟩
    · cases hargs
      exact .inr ⟨vs, u, hturn, happly⟩
    · cases hargs
  · rintro (⟨e, rfl, hfails⟩ | ⟨vs, u, hturn, happly⟩)
    · exact .inl ⟨e, .inr ⟨e, rfl, hfails⟩, rfl⟩
    · exact .inr ⟨_, _, .inl ⟨vs, u, hturn, rfl, rfl⟩, happly⟩

/-- A bound name is applied to the operands, which have their turn first. -/
theorem step_named_iff {x : String} {procedure : Value} (hlist : operands.isList = true)
    (h : s.lookup env x = some procedure) :
    step ev (.pair m (.symbol m' x) operands) env s = some (r, t) ↔
      AppliesTo ev env procedure operands
        (s.trace (.evaluating (.pair m (.symbol m' x) operands))) r t := by
  rw [step_named hlist h, appliesTo_iff]

/-- A head that is no symbol has its turn before the operands. -/
theorem step_computed_iff (hlist : operands.isList = true) (hhead : head.symbol? = none) :
    step ev (.pair m head operands) env s = some (r, t) ↔
      (∃ e, r = .error e ∧
        ev head env (s.trace (.evaluating (.pair m head operands))) = some (.error e, t)) ∨
      ∃ procedure u,
        ev head env (s.trace (.evaluating (.pair m head operands))) = some (.ok procedure, u) ∧
          AppliesTo ev env procedure operands u r t := by
  rw [step_computed hlist hhead, bind_eq_some_iff]
  simp only [appliesTo_iff, and_comm]

/-! ### Special forms -/

/-- Operands that do not fit are complained about whatever there is to evaluate with. -/
theorem form_misfit {k : Keyword} (h : k.fits operands.elements = false) (env : EnvId) (s : State) :
    ∃ cause, ∀ ev, form ev k operands env s = some (.error (.eval cause), s) := by
  cases hcount : k.admits operands.elements.length with
  | false =>
      refine ⟨.badForm (formText k operands), fun ev => ?_⟩
      rw [form_malformed hcount]
      rfl
  | true =>
      cases k with
      | quote =>
          obtain ⟨v, hv⟩ := List.length_eq_one_iff.mp (eq_of_beq hcount)
          rw [hv] at h
          cases h
      | lambda =>
          obtain ⟨formals, body, helements⟩ := List.length_eq_two.mp (eq_of_beq hcount)
          rw [helements] at h
          exact ⟨_, fun ev => form_badFormals helements (Formal.ofValue?_eq_none_iff.mpr h)⟩
      | define =>
          obtain ⟨target, expr, helements⟩ := List.length_eq_two.mp (eq_of_beq hcount)
          rw [helements] at h
          cases target with
          | symbol m x => cases h
          | _ => exact ⟨_, fun ev => form_badTarget helements rfl⟩
      | ifForm =>
          have hlength : operands.elements.length = 2 ∨ operands.elements.length = 3 := by
            simpa [Keyword.admits] using hcount
          rcases hlength with hlength | hlength
          · obtain ⟨test, consequent, helements⟩ := List.length_eq_two.mp hlength
            rw [helements] at h
            cases h
          · obtain ⟨test, consequent, alternate, helements⟩ := List.length_eq_three.mp hlength
            rw [helements] at h
            cases h
      | currentEnvironment | toggleDebug =>
          rw [List.length_eq_zero_iff.mp (eq_of_beq hcount)] at h
          cases h

/-- With operands that fit there is no such complaint where nothing can be evaluated. -/
theorem form_fit {k : Keyword} (h : k.fits operands.elements = true) (cause : EvalError) :
    form (fun _ _ => exhausted) k operands env s ≠ some (.error (.eval cause), t) := by
  intro hform
  unfold Keyword.fits at h
  split at h
  case h_1 helements =>
    rw [form_quote helements] at hform
    cases hform
  case h_2 formals _ helements =>
    cases hformal : Formal.ofValue? formals with
    | none =>
        rw [Formal.ofValue?_eq_none_iff.mp hformal] at h
        cases h
    | some formal =>
        rw [form_lambda helements hformal] at hform
        cases hform
  case h_3 x _ helements =>
    cases hbound : (s.bindings env).contains x with
    | true =>
        rw [form_redefinition helements hbound] at hform
        cases hform
    | false =>
        rw [form_define helements hbound] at hform
        cases hform
  case h_4 helements =>
    rw [form_if none helements] at hform
    cases hform
  case h_5 alternate helements =>
    rw [form_if (some alternate) helements] at hform
    cases hform
  case h_6 helements =>
    rw [form_currentEnvironment helements] at hform
    cases hform
  case h_7 helements =>
    rw [form_toggleDebug helements] at hform
    cases hform
  case h_8 => cases h

/-- The operands do not fit exactly when the complaint is the same whatever there is to evaluate
with, and nothing has changed. -/
theorem form_misfit_iff {k : Keyword} :
    k.fits operands.elements = false ↔
      ∃ cause, ∀ ev, form ev k operands env s = some (.error (.eval cause), s) := by
  constructor
  · exact fun h => form_misfit h env s
  · rintro ⟨cause, hcause⟩
    by_contra hfits
    exact form_fit (by simpa using hfits) cause (hcause _)

end Evaluator

/-- What a combination does.  Operands that are no proper list are refused at once.  A bound name is
applied to the values of the operands, even if it has the name of a special form and whatever it is
bound to; that it is no procedure comes out when the operands have had their turn.  A free name is
the special form of that name, or an error before any operand is evaluated; any other head is
evaluated before the operands.  A special form whose operands do not fit changes nothing, and only
the trace tells that it was there. -/
theorem operator_dispatch (m : Mark) (head operands : Value) (env : EnvId) (s : State) :
    let expr : Value := .pair m head operands
    let begun := s.trace (.evaluating expr)
    { begun with events := s.events } = s ∧
    (operands.isList = false → ∀ ev,
      step ev expr env s = some (.error (.eval (.improperCombination expr.text)), begun)) ∧
    (operands.isList = true →
      (∀ m' x procedure, head = .symbol m' x → s.lookup env x = some procedure →
        ∀ ev r t, step ev expr env s = some (r, t) ↔
          AppliesTo ev env procedure operands begun r t) ∧
      (∀ m' x, head = .symbol m' x → s.lookup env x = none → (∀ k : Keyword, x ≠ k.name) →
        ∀ ev, step ev expr env s = some (.error (.unbound x), begun)) ∧
      (∀ m' k, head = .symbol m' (Keyword.name k) → s.lookup env k.name = none →
        (∀ ev, step ev expr env s = form ev k operands env begun) ∧
        (k.fits operands.elements = false ↔
          ∃ cause, ∀ ev, step ev expr env s = some (.error (.eval cause), begun))) ∧
      (head.symbol? = none →
        ∀ ev r t, step ev expr env s = some (r, t) ↔
          (∃ e, r = .error e ∧ ev head env begun = some (.error e, t)) ∨
          ∃ procedure u, ev head env begun = some (.ok procedure, u) ∧
            AppliesTo ev env procedure operands u r t)) ∧
    ∀ procedure, procedure.isProcedure = false → ∀ ev args u,
      apply ev procedure args env u =
        some (.error (.apply (.notProcedure procedure.text)), u.trace (.applying procedure args)) := by
  intro expr begun
  refine ⟨?_, fun himproper ev => step_improper himproper, fun hlist => ⟨?_, ?_, ?_, ?_⟩,
    fun procedure hprocedure ev args u => apply_notProcedure hprocedure⟩
  · dsimp only [begun]
    unfold State.trace
    split <;> rfl
  · rintro m' x procedure rfl hbound ev r t
    exact step_named_iff hlist hbound
  · rintro m' x rfl hfree hname ev
    exact step_unknown hlist hfree (Keyword.ofName?_eq_none hname)
  · rintro m' k rfl hfree
    have hform (ev : Evaluation) : step ev expr env s = form ev k operands env begun :=
      step_keyword hlist hfree k.ofName?_name
    refine ⟨hform, ?_⟩
    simp only [hform]
    exact form_misfit_iff
  · intro hhead ev r t
    exact step_computed_iff hlist hhead

/-- Where `quote` is bound to a number, `(quote 7)` has its operand evaluated before the number turns
out to be no procedure.  `(f . 7)`, the free `(f 7)`, `(define 7 7)` and `((f 7) 7)` fail as well. -/
theorem operator_dispatch_shadowed :
    let s : State := { State.initial .empty with
      environments := #[Bindings.empty.insert "quote" (.number ⟨0⟩ 5)] }
    let seven : Value := .number ⟨1⟩ 7
    let one : Value := .pair ⟨2⟩ seven (.nil ⟨3⟩)
    let two : Value := .pair ⟨4⟩ seven one
    let f : Value := .symbol ⟨5⟩ "f"
    let define : Value := .symbol ⟨5⟩ "define"
    let free : Value := .pair ⟨6⟩ f one
    AppliesTo (eval 1 1) ⟨0⟩ (.number ⟨0⟩ 5) one s (.error (.apply (.notProcedure "5"))) s.marked ∧
      apply (eval 1 1) (.number ⟨0⟩ 5) one ⟨0⟩ s = some (.error (.apply (.notProcedure "5")), s) ∧
      (∀ ev, step ev (.pair ⟨6⟩ f seven) ⟨0⟩ s =
        some (.error (.eval (.improperCombination (Value.pair ⟨6⟩ f seven).text)), s)) ∧
      (∀ ev, step ev free ⟨0⟩ s = some (.error (.unbound "f"), s)) ∧
      (∃ cause, ∀ ev, step ev (.pair ⟨6⟩ define two) ⟨0⟩ s = some (.error (.eval cause), s)) ∧
      step (eval 1 1) (.pair ⟨7⟩ free one) ⟨0⟩ s = some (.error (.unbound "f"), s) := by
  intro s seven one two f define free
  let quote : Value := .symbol ⟨5⟩ "quote"
  have hshadowed : step (eval 1 1) (.pair ⟨6⟩ quote one) ⟨0⟩ s =
      some (.error (.apply (.notProcedure "5")), s.marked) := by rfl
  have hfree (x : String) (hx : x ≠ "quote") : s.lookup ⟨0⟩ x = none := by
    change (Bindings.empty.insert "quote" (Value.number ⟨0⟩ 5)).find? x = none
    rw [Bindings.find?_insert, if_neg hx]
    rfl
  obtain ⟨_, _, hcombination, happly⟩ := operator_dispatch ⟨6⟩ quote one ⟨0⟩ s
  obtain ⟨_, himproper, _⟩ := operator_dispatch ⟨6⟩ f seven ⟨0⟩ s
  obtain ⟨_, _, hunknown, _⟩ := operator_dispatch ⟨6⟩ f one ⟨0⟩ s
  obtain ⟨_, _, hform, _⟩ := operator_dispatch ⟨6⟩ define two ⟨0⟩ s
  obtain ⟨_, _, hcomputed, _⟩ := operator_dispatch ⟨7⟩ free one ⟨0⟩ s
  have hunbound := (hunknown rfl).2.1 _ "f" rfl (hfree "f" (by decide))
    (fun k => by cases k <;> decide)
  refine ⟨((hcombination rfl).1 _ _ _ rfl rfl _ _ _).mp hshadowed, happly _ rfl _ _ _,
    himproper rfl, hunbound, ?_, ?_⟩
  · exact ((hform rfl).2.2.1 _ .define rfl (hfree _ (by decide))).2.mp (by decide)
  · exact ((hcomputed rfl).2.2.2 rfl _ _ _).mpr (.inl ⟨_, rfl, rfl⟩)

end TinyLisp
