import TinyLisp.Proofs.Procedures.Aside

/-!
What has been put out.  Nothing sees the text on standard output or the events reported so far;
evaluation only adds to them.  Main statements: `eval_detached` for evaluation, `round_preceded` for
the rounds of a dialogue.
-/

namespace TinyLisp

open Evaluator

variable {α β : Type}

namespace State

/-- The state with text put out and events reported before all that it has. -/
def preceded (console : String) (events : List Event) (s : State) : State :=
  { s with console := console ++ s.console, events := s.events ++ events }

/-- The state without what was put out and reported. -/
def silent (s : State) : State :=
  { s with console := "", events := [] }

variable (console : String) (events : List Event)

theorem preceded_silent (s : State) : s.silent.preceded s.console s.events = s := by
  simp [preceded, silent]

@[simp] theorem silent_preceded (s : State) : (s.preceded console events).silent = s.silent := rfl

@[simp] theorem files_preceded (s : State) : (s.preceded console events).files = s.files := rfl

@[simp] theorem tracing_preceded (s : State) :
    (s.preceded console events).tracing = s.tracing := rfl

@[simp] theorem bindings_preceded (env : EnvId) (s : State) :
    (s.preceded console events).bindings env = s.bindings env := rfl

@[simp] theorem silent_print (text : String) (s : State) : (s.print text).silent = s.silent := rfl

@[simp] theorem silent_report (e : Event) (s : State) : (s.report e).silent = s.silent := rfl

theorem trace_preceded (e : Event) (s : State) :
    (s.preceded console events).trace e = (s.trace e).preceded console events := by
  rw [trace, trace, tracing_preceded]
  split <;> rfl

theorem print_preceded (text : String) (s : State) :
    (s.preceded console events).print text = (s.print text).preceded console events := by
  simp only [print, preceded, String.append_assoc]

theorem preceded_aside : Aside (preceded console events) where
  nextMark _ := rfl
  ports _ := rfl
  files _ := rfl
  withMark _ _ := rfl
  withPorts _ _ := rfl
  withFiles _ _ := rfl
  report _ _ := rfl
  print s text := print_preceded console events text s

end State

/-! ### Calls -/

/-- An action that does the same whatever was put out before it. -/
def Action.Detached (action : Action α) : Prop :=
  ∀ console events s, action (s.preceded console events) =
    ((action s).1, (action s).2.preceded console events)

theorem Marking.detached {action : Action α} (h : Marking action) : action.Detached :=
  fun console events s => (State.preceded_aside console events).marking h s

/-- No call sees what was put out before it. -/
theorem Procedures.call_detached (p : Native) (args : Value) : (call p args).Detached :=
  fun console events s => call_aside (State.preceded_aside console events) p args s

/-! ### Evaluation -/

namespace Run

/-- A run that does the same whatever was put out before it. -/
def Detached (m : Run α) : Prop :=
  ∀ console events s, m (s.preceded console events) =
    (m s).map fun (r, t) => (r, t.preceded console events)

theorem detached_pure (a : α) : Detached (pure a : Run α) :=
  fun _ _ _ => rfl

theorem detached_throw (e : Error) : Detached (throw e : Run α) :=
  fun _ _ _ => rfl

theorem detached_exhausted : Detached (exhausted : Run α) :=
  fun _ _ _ => rfl

theorem detached_perform {action : Action α} (h : action.Detached) : Detached (perform action) := by
  intro console events s
  rw [perform_apply, h]
  rfl

theorem detached_make (build : Mark → Value) : Detached (make build) :=
  fun _ _ _ => rfl

theorem detached_trace (e : Event) : Detached (Evaluator.trace e) := by
  intro console events s
  rw [trace_apply, State.trace_preceded]
  rfl

theorem Detached.bind {m : Run α} {f : α → Run β} (hm : Detached m) (hf : ∀ a, Detached (f a)) :
    Detached (m >>= f) := by
  intro console events s
  rw [bind_apply, bind_apply, hm]
  rcases m s with _ | ⟨_ | a, t⟩
  · rfl
  · rfl
  · exact hf a console events t

/-- A sequel to looking at the state, if it does not look at what was put out. -/
theorem detached_get_bind {f : State → Run α} (hf : ∀ s, Detached (f s))
    (hblind : ∀ console events s, f (s.preceded console events) = f s) :
    Detached (get >>= f) := by
  intro console events s
  rw [bind_apply, bind_apply, get_apply, get_apply]
  dsimp only
  rw [hblind]
  exact hf s console events s

end Run

namespace Evaluator

open Run

/-- A way to evaluate that does the same whatever was put out before. -/
def Detached (ev : Evaluation) : Prop :=
  ∀ expr env, Run.Detached (ev expr env)

section Parts

variable {ev : Evaluation} (h : Detached ev)

include h

theorem untraced_detached : Detached (untraced ev) := by
  intro expr env console events s
  have hinner : ev expr env { s.preceded console events with tracing := false } = _ :=
    h expr env console events { s with tracing := false }
  rw [untraced, untraced, hinner, Option.map_map, Option.map_map]
  rfl

theorem evlis_detached (list : Value) (env : EnvId) : Run.Detached (evlis ev list env) := by
  induction list with
  | pair m first rest _ ih =>
      rw [evlis]
      exact (h first env).bind fun v => ih.bind fun vs => detached_make _
  | _ => exact detached_pure _

theorem apply_detached (procedure args : Value) (env : EnvId) :
    Run.Detached (apply ev procedure args env) := by
  unfold apply
  refine (detached_trace _).bind fun _ => ?_
  cases procedure with
  | lambda m closure formal body =>
      dsimp only
      cases formal.accept args with
      | error cause => exact detached_throw _
      | ok own =>
          refine detached_get_bind (fun s => ?_) fun _ _ _ => rfl
          exact (detached_perform fun _ _ _ => rfl).bind fun inner => detached_pure _
  | native m p =>
      refine (detached_perform (Procedures.call_detached p args)).bind fun answer => ?_
      cases answer with
      | value v => exact detached_pure _
      | evaluation expr inner =>
          exact (untraced_detached h expr inner).bind fun v => detached_pure _
  | _ => exact detached_throw _

theorem define_detached (x : String) (expr : Value) (env : EnvId) :
    Run.Detached (define ev x expr env) := by
  rw [define_eq]
  refine detached_get_bind (fun s => ?_) fun _ _ _ => rfl
  split
  · exact detached_throw _
  · refine (h expr env).bind fun v => (detached_perform ?_).bind fun _ => detached_make _
    intro console events t
    rw [define_apply, define_apply, State.bindings_preceded]
    split <;> rfl

omit h in
theorem lambda_detached (formals body : Value) (env : EnvId) :
    Run.Detached (lambda formals body env) := by
  unfold lambda
  split
  · exact detached_throw _
  · exact (detached_perform fun _ _ _ => rfl).bind fun closure => detached_make _

theorem form_detached (k : Keyword) (operands : Value) (env : EnvId) :
    Run.Detached (form ev k operands env) := by
  unfold form
  split
  · exact detached_pure _
  · exact (lambda_detached _ _ env).bind fun v => detached_pure _
  · split
    · exact (define_detached h _ _ env).bind fun v => detached_pure _
    · exact detached_throw _
  · refine (h _ env).bind fun v => ?_
    split
    · exact detached_pure _
    · exact (detached_make _).bind fun v => detached_pure _
  · refine (h _ env).bind fun v => ?_
    split <;> exact detached_pure _
  · exact (detached_make _).bind fun v => detached_pure _
  · exact fun _ _ _ => rfl
  · exact detached_throw _

theorem combination_detached (head operands : Value) (env : EnvId) :
    Run.Detached (combination ev head operands env) := by
  unfold combination
  split
  · refine detached_get_bind (fun s => ?_) fun _ _ _ => rfl
    split
    · exact (evlis_detached h operands env).bind fun args => apply_detached h _ args env
    · split
      · split
        · exact form_detached h _ operands env
        · exact detached_throw _
      · exact detached_throw _
  · refine (h head env).bind fun procedure => ?_
    exact (evlis_detached h operands env).bind fun args => apply_detached h procedure args env

theorem step_detached (expr : Value) (env : EnvId) : Run.Detached (step ev expr env) := by
  unfold step
  refine (detached_trace _).bind fun _ => ?_
  split
  · refine detached_get_bind (fun s => ?_) fun _ _ _ => rfl
    split
    · exact detached_pure _
    · exact detached_throw _
  · split
    · exact combination_detached h _ _ env
    · exact detached_throw _
  · exact detached_pure _

theorem drive_detached (rounds : Nat) (st : Step) : Run.Detached (drive ev rounds st) := by
  induction rounds generalizing st with
  | zero =>
      cases st with
      | done v => exact detached_pure _
      | pending body env => exact detached_exhausted
  | succ rounds ih =>
      cases st with
      | done v => exact detached_pure _
      | pending body env =>
          rw [drive]
          exact (step_detached h body env).bind ih

end Parts

/-- Evaluation does not see what was put out before it. -/
theorem eval_detached (depth rounds : Nat) : Detached (eval depth rounds) := by
  induction depth with
  | zero => exact fun _ _ => detached_exhausted
  | succ depth ih =>
      intro expr env
      rw [eval]
      exact (step_detached ih expr env).bind fun st => drive_detached ih rounds st

end Evaluator

/-! ### Running programs -/

namespace Interpreter

variable {i : Interpreter} (h : Evaluator.Detached i.evaluate)

include h

theorem evaluateDatum_detached (d : Datum) : Run.Detached (i.evaluateDatum d) := by
  refine (Run.detached_perform ?_).bind fun v => h v i.root
  obtain ⟨f, hf⟩ := State.makeDatum_marks d
  exact Marking.detached ⟨fun n => (.ok (f n).1, (f n).2), fun s => by rw [Action.lift_apply, hf]⟩

/-- What a round of a dialogue reports does not depend on what was put out before. -/
theorem round_preceded (console : String) (events : List Event) (input : Input) (s : State) :
    i.round input (s.preceded console events) =
      (i.round input s).map fun (o, rest, t) => (o, rest, t.preceded console events) := by
  simp only [round, State.files_preceded]
  split
  · rfl
  · rfl
  · rw [evaluateDatum_detached h, Option.map_map, Option.map_map]
    rfl

end Interpreter

end TinyLisp
