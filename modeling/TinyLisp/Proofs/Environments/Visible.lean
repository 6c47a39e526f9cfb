import TinyLisp.Proofs.Environments.Growth
import TinyLisp.Proofs.Evaluation.Passage
import TinyLisp.Proofs.Evaluation.Situation
import TinyLisp.Proofs.Procedures.Ports

/-!
Names stay in sight.  The environment of a body lies over that of its caller, so whatever is called,
and whenever it was made, it sees the names that its caller sees.  Main statement:
`names_stay_bound`, where an evaluation comes without `eval` no name is lost that was bound at its
start.
-/

namespace TinyLisp

open Evaluator

/-- Every name of a set has a value in an environment. -/
def State.Shows (s : State) (names : Set String) (env : EnvId) : Prop :=
  ∀ x ∈ names, ∃ v, s.lookup env x = some v

/-- Whether a task is a call of the procedure `eval`. -/
def Task.callsEval : Task → Bool
  | .application (.native _ .eval) _ _ => true
  | _ => false

/-- Whether work starts with a call of the procedure `eval`. -/
def Moment.callsEval (m : Moment) : Bool :=
  match m.control with
  | .task task => task.callsEval
  | .answer _ => false

/-- Every environment that code runs in, or will when an answer comes back, has the names, and none
of them is complained about. -/
structure Moment.Shows (names : Set String) (m : Moment) : Prop where
  control : ∀ env, m.control.env? = some env → m.state.Shows names env
  frames : ∀ f ∈ m.frames, ∀ env, f.env? = some env → m.state.Shows names env
  unbound : ∀ x, m.control = .answer (.error (.unbound x)) → x ∉ names

section Steps

variable {names : Set String} {task inner : Task} {pushed : List Frame} {s t : State}
  {r : Except Error Value} {m m' : Moment} {env : EnvId} {x : String}

theorem State.Shows.extends (h : s.Shows names env) (hextends : s.Extends t) :
    t.Shows names env := by
  intro x hx
  obtain ⟨v, hv⟩ := h x hx
  exact ⟨v, hextends.lookup_eq env x v hv⟩

/-- What the caller sees is seen under the arguments and the captured bindings. -/
theorem State.Shows.grown_callBindings (h : s.Shows names env)
    (hsame : t.environments = s.environments)
    (captured : Bindings) (own : Option (String × Value)) :
    (t.grown (callBindings (s.bindings env) captured own)).Shows names ⟨s.environments.size⟩ := by
  intro x hx
  obtain ⟨v, hv⟩ := h x hx
  rw [State.lookup, State.bindings_grown, hsame, if_pos rfl, find?_callBindings]
  rw [State.lookup] at hv
  rw [hv]
  cases own.toList.lookup x with
  | some w => exact ⟨w, rfl⟩
  | none =>
      cases captured.find? x with
      | some w => exact ⟨w, rfl⟩
      | none => exact ⟨v, rfl⟩

/-- Only a name that is free where a task is worked at ends the task as unbound. -/
theorem Task.Ends.lookup_eq_none (h : task.Ends s r t) (hr : r = .error (.unbound x)) :
    s.lookup task.env x = none := by
  cases h with
  | free hfree | unknown _ hfree _ =>
      cases hr
      exact hfree
  | refused hcall =>
      cases hr
      cases Procedures.call_failure hcall
  | _ => cases hr

/-- The task that goes on sees the names, and what waits for it waits where the first task was. -/
theorem Task.Enters.shows (h : task.Enters s inner pushed t) (heval : task.callsEval = false)
    (hshows : s.Shows names task.env) :
    t.Shows names inner.env ∧ ∀ f ∈ pushed, ∀ env, f.env? = some env → env = task.env := by
  have hextends := h.steady State.extends_steady
  cases h with
  | named _ _ | keyword _ _ _ => exact ⟨hshows.extends hextends, by simp⟩
  | computed _ _ | define _ _ | test _ _ | call | operands =>
      refine ⟨hshows.extends hextends, fun f hf env henv => ?_⟩
      obtain rfl := List.mem_singleton.mp hf
      exact (Option.some.inj henv).symm
  | body _ => exact ⟨hshows.grown_callBindings (State.environments_trace _ s) _ _, by simp⟩
  | explicit hcall =>
      obtain rfl := Procedures.eq_eval_of_call hcall
      cases heval

/-- Work goes on where it waited, and no complaint about a name is made up on the way. -/
theorem Frame.Resumes.shows {f : Frame} {control : Control}
    (h : f.Resumes r s control pushed t) :
    (∀ env, control.env? = some env → f.env? = some env) ∧ (∀ g ∈ pushed, g.env? = none) ∧
      ∀ x, control = .answer (.error (.unbound x)) → r = .error (.unbound x) := by
  cases h with
  | operator | arguments | consequent _ | alternate _ => exact ⟨fun _ h => h, by simp, by simp⟩
  | element => exact ⟨fun _ h => h, by simp [Frame.env?], by simp⟩
  | prepend | noAlternate _ | define _ | definedMeanwhile _ =>
      exact ⟨nofun, by simp, by simp⟩
  | untraced | fails _ =>
      refine ⟨nofun, by simp, fun x h => ?_⟩
      exact Control.answer.inj h

/-- One transition loses no name. -/
theorem Transition.shows (h : Transition m m') (heval : m.callsEval = false)
    (hm : m.Shows names) : m'.Shows names := by
  have hextends := h.steady State.extends_steady
  have hframes f (hf : f ∈ m.frames) env (henv : f.env? = some env) :=
    (hm.frames f hf env henv).extends hextends
  cases h with
  | ends h =>
      refine ⟨nofun, hframes, fun x hx hin => ?_⟩
      obtain ⟨v, hv⟩ := hm.control _ rfl x hin
      rw [h.lookup_eq_none (Control.answer.inj hx)] at hv
      cases hv
  | enters h =>
      obtain ⟨hinner, hpushed⟩ := h.shows heval (hm.control _ rfl)
      refine ⟨fun env henv => Option.some.inj henv ▸ hinner, fun f hf env henv => ?_, nofun⟩
      rcases List.mem_append.mp hf with hf | hf
      · rw [hpushed f hf env henv]
        exact (hm.control _ rfl).extends hextends
      · exact hframes f hf env henv
  | resumes h =>
      obtain ⟨hcontrol, hpushed, hunbound⟩ := h.shows
      refine ⟨fun env henv => hframes _ List.mem_cons_self env (hcontrol env henv),
        fun f hf env henv => ?_, fun x hx => hm.unbound x (congrArg _ (hunbound x hx))⟩
      rcases List.mem_append.mp hf with hf | hf
      · rw [hpushed f hf] at henv
        cases henv
      · exact hframes f (List.mem_cons_of_mem _ hf) env henv

/-- No run without `eval` loses a name. -/
theorem Passes.shows {moves : List Move} (h : Passes Transition m moves m')
    (heval : ∀ move ∈ moves, move.before.callsEval = false) (hm : m.Shows names) :
    m'.Shows names := by
  induction h with
  | refl => exact hm
  | tail _ hmove ih =>
      have hbefore := ih fun move hin => heval move (List.mem_cons_of_mem _ hin)
      exact hmove.shows (heval _ List.mem_cons_self) hbefore

end Steps

/-- Wherever a run comes without a call of `eval`: the environment it works in there has every name
that was bound where the run began, and a name it complains about there was not bound.  The
evaluations that return, with values or errors, are the runs that come to their end. -/
theorem names_stay_bound (expr : Value) (env : EnvId) (s : State) :
    (∀ r t, (∃ depth rounds, eval depth rounds expr env s = some (r, t)) ↔
      ∃ moves, Passes Transition (.begin expr env s) moves (.ending r t)) ∧
    ∀ moves m, Passes Transition (.begin expr env s) moves m →
      (∀ move ∈ moves, move.before.callsEval = false) →
      (∀ expr' env', m.control = .task (.expression expr' env') →
        ∀ x v, s.lookup env x = some v → ∃ w, m.state.lookup env' x = some w) ∧
      ∀ x t, m = .ending (.error (.unbound x)) t → s.lookup env x = none := by
  constructor
  · intro r t
    exact ⟨fun ⟨_, _, h⟩ => eval_passes h, fun ⟨_, h⟩ => h.eval⟩
  · intro moves m h heval
    have hbegin : (Moment.begin expr env s).Shows {x | ∃ v, s.lookup env x = some v} := by
      refine ⟨fun env' henv x hx => ?_, nofun, nofun⟩
      obtain rfl := Option.some.inj henv
      exact hx
    have hm := h.shows heval hbegin
    constructor
    · intro expr' env' hcontrol x v hv
      exact hm.control env' (by rw [hcontrol]; rfl) x ⟨v, hv⟩
    · rintro x t rfl
      have hfree := hm.unbound x rfl
      simpa [Option.eq_none_iff_forall_ne_some] using hfree

/-- `(g h)`, where `g` is meant to be the caller's and `h` is nobody's. -/
def callOfG : Value :=
  .pair ⟨0⟩ (.symbol ⟨0⟩ "g") (.pair ⟨0⟩ (.symbol ⟨0⟩ "h") (.nil ⟨0⟩))

/-- `f` is a procedure that was made where nothing was bound; beside it there is `g`. -/
def State.withFAndG : State :=
  { State.initial .empty with
    environments := #[.ofList [("f", .lambda ⟨0⟩ ⟨1⟩ .nothing callOfG), ("g", .nil ⟨0⟩)], ∅] }

/-- `(f)` finds `g` in its body, and comes to complain about `h`. -/
theorem names_stay_bound_in_body :
    let expr : Value := .pair ⟨0⟩ (.symbol ⟨0⟩ "f") (.nil ⟨0⟩)
    ∃ moves m, Passes Transition (.begin expr ⟨0⟩ .withFAndG) moves m ∧
      (∀ move ∈ moves, move.before.callsEval = false) ∧
      m.control = .task (.expression callOfG ⟨2⟩) ∧
      (∃ w, m.state.lookup ⟨2⟩ "g" = some w) ∧
      ∃ moves' t, Passes Transition (.begin expr ⟨0⟩ .withFAndG) moves'
          (.ending (.error (.unbound "h")) t) ∧
        (∀ move ∈ moves', move.before.callsEval = false) ∧
        State.withFAndG.lookup ⟨0⟩ "h" = none := by
  intro expr
  have hbody : Passes Transition (.begin expr ⟨0⟩ .withFAndG) _ _ :=
    Passes.refl
      |>.tail (.enters (.named rfl rfl))
      |>.tail (.enters .call)
      |>.tail (.ends (.noOperands rfl))
      |>.tail (.resumes .arguments)
      |>.tail (.enters (.body rfl))
  have hend : Passes Transition (.begin expr ⟨0⟩ .withFAndG) _ (.ending (.error (.unbound "h")) _) :=
    hbody
      |>.tail (.enters (.named rfl rfl))
      |>.tail (.enters .call)
      |>.tail (.enters .operands)
      |>.tail (.ends (.free rfl))
      |>.tail (.resumes (.fails rfl))
      |>.tail (.resumes (.fails rfl))
  have heval := (names_stay_bound expr ⟨0⟩ .withFAndG).2
  refine ⟨_, _, hbody, by decide, rfl, ?_, _, _, hend, by decide, ?_⟩
  · exact (heval _ _ hbody (by decide)).1 _ _ rfl "g" _ rfl
  · exact (heval _ _ hend (by decide)).2 "h" _ rfl

end TinyLisp
