import TinyLisp.Proofs.Evaluation.Operands
import TinyLisp.Proofs.Evaluation.Subtasks
import TinyLisp.Proofs.Interpreter.Drivers
import TinyLisp.Proofs.Procedures.Ports

/-!
Argument lists.  Only combinations with a proper list of operands are evaluated, so whatever is
applied in the course of an evaluation is applied to a proper list as long as the operands, and no
complaint that a list is improper ever comes out of one.  Main statements:
`exists_combination_of_application` and `isImproper_of_transitions`.
-/

namespace TinyLisp

open Evaluator
open Relation (ReflTransGen)

/-- A complaint that the arguments of a built-in procedure or the operands of a special form are no
list. -/
def Error.isImproper : Error → Bool
  | .native _ cause => cause.isImproper
  | .eval (.improperOperands _) => true
  | _ => false

variable {expr : Value} {env : EnvId} {s t : State} {e : Error} {frames : List Frame}

/-! ### Applications -/

/-- Whatever is applied in a run is applied by a combination, to a proper list with a value for each
of its operands. -/
theorem exists_combination_of_application {procedure args : Value} {env' : EnvId}
    (h : Transitions (.begin expr env s) ⟨.task (.application procedure args env'), frames, t⟩) :
    ∃ m head operands u u',
      Transitions (.begin expr env s)
        ⟨.task (.expression (.pair m head operands) env'), frames, u⟩ ∧
      Task.Begins.Heads env' head (u.trace (.evaluating (.pair m head operands))) procedure u' ∧
      (∃ n, evlis (eval n n) operands env' u' = some (.ok args, t)) ∧
      operands.isList = true ∧ args.isList = true ∧
      args.elements.length = operands.elements.length := by
  have hline := Moment.begins_of_transitions h
  -- Neither an application nor a call is where a run starts, so each was begun.
  rcases ReflTransGen.cases_tail hline with heq | ⟨_, hline, hlast⟩
  · cases heq
  obtain @⟨_, u', _, pushed, _, frames, hlast⟩ := hlast
  obtain ⟨rfl, operands, rfl, hoperands⟩ := hlast.of_application
  rcases ReflTransGen.cases_tail hline with heq | ⟨_, hline, hlast⟩
  · cases heq
  obtain @⟨_, u, _, pushed, _, frames, hlast⟩ := hlast
  obtain ⟨rfl, m, head, rfl, hlist, hhead⟩ := hlast.of_call
  obtain ⟨n, hn⟩ := (eventually_within hoperands).exists
  obtain ⟨hargs, hlength⟩ := isList_of_evlis hlist hn
  exact ⟨m, head, operands, u, u', Moment.transitions_of_begins hline, hhead, ⟨n, hn⟩, hlist, hargs,
    hlength⟩

/-! ### Complaints -/

/-- Of a proper list of arguments no procedure complains that it is none. -/
theorem Procedures.Failure.isImproper_eq_false {args : Value} (h : Failure args e)
    (hargs : args.isList = true) : e.isImproper = false := by
  cases h with
  | io | malformed => rfl
  | @native p cause hfits =>
      by_contra himproper
      have hnone := hfits (by simpa [Error.isImproper] using himproper)
      rw [hargs] at hnone
      cases hnone

/-- By induction on the run: the complaint of a call is one that can be made about a proper list, and
an error that comes back to what waits for it stays what it is. -/
theorem isImproper_of_transitions
    (h : Transitions (.begin expr env s) ⟨.answer (.error e), frames, t⟩) :
    e.isImproper = false := by
  generalize hm : (⟨.answer (.error e), frames, t⟩ : Moment) = m at h
  induction h generalizing e frames t with
  | refl => cases hm
  | tail hrun hmove ih =>
      subst hm
      cases hmove with
      | ends hends =>
          cases hends with
          | refused hcall =>
              obtain ⟨_, _, _, _, _, _, _, _, _, hargs, _⟩ := exists_combination_of_application hrun
              exact (Procedures.call_failure hcall).isImproper_eq_false hargs
          | _ => rfl
      | resumes hresumes =>
          cases hresumes with
          | definedMeanwhile _ => rfl
          | untraced => exact ih rfl
          | fails _ => exact ih rfl

theorem isImproper_of_eval {depth rounds : Nat}
    (h : eval depth rounds expr env s = some (.error e, t)) : e.isImproper = false :=
  isImproper_of_transitions ((eval_sound depth rounds expr env s _ t h).transitions [])

theorem isImproper_of_step {depth rounds : Nat}
    (h : step (eval depth rounds) expr env s = some (.error e, t)) : e.isImproper = false := by
  have heval : eval (depth + 1) rounds expr env s = some (.error e, t) := by
    rw [eval, Run.bind_apply, h]
  exact isImproper_of_eval heval

/-- An input that is run fails where it cannot be read or where an expression fails. -/
theorem Interpreter.isImproper_of_run {i : Interpreter} {depth rounds : Nat}
    (hi : i.evaluate = eval depth rounds) {input : Input} {vs : List Value}
    (h : i.run input s = some (⟨vs, some e⟩, t)) : e.isImproper = false := by
  obtain ⟨_, ⟨input, u⟩, _, _, _, _, hround⟩ := runFrom_eq_some_iff.mp h
  rw [round] at hround
  split at hround
  · next hread =>
      cases hround
      have hfailure : Procedures.Failure (.nil ⟨0⟩) e :=
        Procedures.scan_failure u.files input (congrArg Prod.fst hread)
      exact hfailure.isImproper_eq_false rfl
  · cases hround
  · next d _ _ =>
      obtain ⟨⟨r, t'⟩, hdatum, heq⟩ := Option.map_eq_some_iff.mp hround
      cases heq
      change i.evaluate _ _ _ = _ at hdatum
      rw [hi] at hdatum
      exact isImproper_of_eval hdatum

/-- Operands are evaluated from left to right up to the first failure, into a list with the same
object at its end.  So whatever a run applies is applied to a proper list as long as the operands of
a combination before it, and none of its errors complains of an improper one: none of an evaluation,
of a step, or of an input that is run. -/
theorem argument_lists_are_proper :
    (∀ (ev : Evaluation) (list : Value) (env : EnvId) (s t : State) (r : Except Error Value),
      evlis ev list env s = some (r, t) ↔
        (∃ vs u, InTurn ev env list.elements s vs u ∧
          r = .ok (State.makeListWithTail vs list.last u).1 ∧
          t = (State.makeListWithTail vs list.last u).2) ∨
        ∃ e, r = .error e ∧ FailsInTurn ev env list.elements s e t) ∧
    (∀ (vs : List Value) (s : State) (list : Value),
      (State.makeListWithTail vs list.last s).1.elements = vs ∧
        (State.makeListWithTail vs list.last s).1.last = list.last) ∧
    (∀ expr env s procedure args env' frames t,
      Transitions (.begin expr env s) ⟨.task (.application procedure args env'), frames, t⟩ →
      ∃ m head operands u u',
        Transitions (.begin expr env s)
          ⟨.task (.expression (.pair m head operands) env'), frames, u⟩ ∧
        Task.Begins.Heads env' head (u.trace (.evaluating (.pair m head operands))) procedure u' ∧
        (∃ n, evlis (eval n n) operands env' u' = some (.ok args, t)) ∧
        operands.isList = true ∧ args.isList = true ∧
        args.elements.length = operands.elements.length) ∧
    (∀ expr env s e frames t, Transitions (.begin expr env s) ⟨.answer (.error e), frames, t⟩ →
      e.isImproper = false) ∧
    (∀ depth rounds expr env s e t, eval depth rounds expr env s = some (.error e, t) →
      e.isImproper = false) ∧
    (∀ depth rounds expr env s e t, step (eval depth rounds) expr env s = some (.error e, t) →
      e.isImproper = false) ∧
    ∀ (i : Interpreter) depth rounds, i.evaluate = eval depth rounds →
      ∀ input s vs e t, i.run input s = some (⟨vs, some e⟩, t) → e.isImproper = false :=
  ⟨fun _ _ _ _ _ _ => evlis_eq_some_iff, State.makeListWithTail_last,
    fun _ _ _ _ _ _ _ _ => exists_combination_of_application,
    fun _ _ _ _ _ _ => isImproper_of_transitions, fun _ _ _ _ _ _ _ => isImproper_of_eval,
    fun _ _ _ _ _ _ _ => isImproper_of_step,
    fun _ _ _ hi _ _ _ _ _ => Interpreter.isImproper_of_run hi⟩

/-- Of `(car (+ 1 2) 4)` the procedure is applied to the list of 3 and 4.  It complains that this is
one argument too many, also where the text is run, and a combination that is no list is complained
about as such. -/
theorem argument_lists_are_proper_complaints :
    let s : State := { State.initial .empty with
      nextMark := 1
      environments := #[.ofList [("car", .native ⟨0⟩ .car), ("+", .native ⟨0⟩ .sum)]] }
    let list : List Value → Value := List.foldr (.pair ⟨0⟩) (.nil ⟨0⟩)
    let sum : Value := list [.symbol ⟨0⟩ "+", .number ⟨0⟩ 1, .number ⟨0⟩ 2]
    let call : Value := list [.symbol ⟨0⟩ "car", sum, .number ⟨0⟩ 4]
    let dotted : Value := .pair ⟨0⟩ (.symbol ⟨0⟩ "car") (.symbol ⟨0⟩ "x")
    let many : Error := .native .car (.wrongCount 1 2)
    let i : Interpreter := ⟨eval 3 2, ⟨0⟩, 2⟩
    ∃ args t u,
      Transitions (.begin call ⟨0⟩ s)
        ⟨.task (.application (.native ⟨0⟩ .car) args ⟨0⟩), [], t⟩ ∧
      args.elements = [.number ⟨3⟩ 3, .number ⟨0⟩ 4] ∧ args.isList = true ∧
      (∃ m head operands v, Transitions (.begin call ⟨0⟩ s)
          ⟨.task (.expression (.pair m head operands) ⟨0⟩), [], v⟩ ∧
        operands.elements.length = 2) ∧
      Transitions (.begin call ⟨0⟩ s) ⟨.answer (.error many), [], t⟩ ∧ many.isImproper = false ∧
      eval 1 1 dotted ⟨0⟩ s = some (.error (.eval (.improperCombination dotted.text)), s) ∧
      (Error.eval (.improperCombination dotted.text)).isImproper = false ∧
      step (eval 2 2) call ⟨0⟩ s = some (.error many, t) ∧ many.isImproper = false ∧
      i.run (.ofText "(car (+ 1 2) 4)") s = some (⟨[], some many⟩, u) ∧
      many.isImproper = false := by
  intro s list sum call dotted many i
  have hbound : s.lookup ⟨0⟩ "car" = some (.native ⟨0⟩ .car) := by rfl
  obtain ⟨args, t, hargs, hstep, hrefused, helements⟩ : ∃ args t,
      evlis (eval 2 2) (list [sum, .number ⟨0⟩ 4]) ⟨0⟩ s = some (.ok args, t) ∧
      step (eval 2 2) call ⟨0⟩ s = some (.error many, t) ∧
      Procedures.call .car args (t.trace (.applying (.native ⟨0⟩ .car) args)) = (.error many, t) ∧
      args.elements = [.number ⟨3⟩ 3, .number ⟨0⟩ 4] := ⟨_, _, rfl, rfl, rfl, rfl⟩
  have hcall : Transitions (.begin call ⟨0⟩ s)
      ⟨.task (.application (.native ⟨0⟩ .car) args ⟨0⟩), [], t⟩ :=
    .head (.enters (.named rfl hbound)) (.head (.enters .call)
      (((evlis_sound (eval_sound 2 2) hargs).transitions _).tail (.resumes .arguments)))
  have hfails : Transitions (.begin call ⟨0⟩ s) ⟨.answer (.error many), [], t⟩ :=
    hcall.tail (.ends (.refused hrefused))
  have heval : eval 1 1 dotted ⟨0⟩ s =
      some (.error (.eval (.improperCombination dotted.text)), s) := by rfl
  have hreport : (i.run (.ofText "(car (+ 1 2) 4)") s).map
      (fun out => (out.1.values, out.1.failure)) = some ([], some many) := by decide +kernel
  obtain ⟨⟨⟨vs, failure⟩, u⟩, hrun, hvs⟩ := Option.map_eq_some_iff.mp hreport
  obtain ⟨rfl, rfl⟩ := (Prod.mk.injEq _ _ _ _).mp hvs
  obtain ⟨-, -, happlication, htransitions, hevals, hsteps, hruns⟩ := argument_lists_are_proper
  obtain ⟨m, head, operands, v, -, hcombination, -, -, -, hlist, hlength⟩ :=
    happlication _ _ _ _ _ _ _ _ hcall
  rw [helements] at hlength
  exact ⟨args, t, u, hcall, helements, hlist, ⟨m, head, operands, v, hcombination, hlength.symm⟩,
    hfails, htransitions _ _ _ _ _ _ hfails, heval, hevals _ _ _ _ _ _ _ heval, hstep,
    hsteps _ _ _ _ _ _ _ hstep, hrun, hruns i 3 2 rfl _ _ _ _ _ hrun⟩

end TinyLisp
