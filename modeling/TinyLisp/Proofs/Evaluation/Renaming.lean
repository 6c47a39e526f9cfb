import Mathlib.Data.List.Basic
import TinyLisp.Proofs.Procedures.Renaming

/-!
Evaluation of renamed expressions.  Renamed in a renamed state, an expression is evaluated to the
value it has, renamed, and leaves the state it leaves, renamed.  Main statement: `eval_carries`.
-/

namespace TinyLisp

open Evaluator

variable {α α' β β' : Type}

/-! ### Runs -/

/-- The second run answers in the renamed state what the first one answers in the state, as far as
the marks given out lie in the window of the renaming; results correspond by `f`. -/
def Run.Carries (ρ : Renaming) (f : α → α') (m : Run α) (m' : Run α') : Prop :=
  ∀ s r t, m s = some (r, t) → s.nextMark ≤ t.nextMark ∧
    (ρ.Covers s.nextMark t.nextMark → m' (s.rename ρ) = some (r.map f, t.rename ρ))

namespace Run.Carries

variable {ρ : Renaming} {f : α → α'} {g : β → β'}

theorem perform {a : Action α} {a' : Action α'} (h : Action.Carries ρ f a a') :
    Carries ρ f (perform a) (perform a') := by
  intro s r t hrun
  have hanswer : a s = (r, t) := Option.some.inj hrun
  obtain ⟨hmark, hrenamed⟩ := h s
  rw [hanswer] at hmark hrenamed
  refine ⟨hmark, fun hcovers => ?_⟩
  rw [perform_apply, hrenamed hcovers]

theorem pure (a : α) : Carries ρ f (pure a) (pure (f a)) :=
  perform (.pure a)

theorem throw {e e' : Error} (h : e' = e) : Carries ρ f (throw e) (throw e') := by
  rw [h]
  exact perform (.throw e)

theorem exhausted : Carries ρ f exhausted exhausted := by
  intro s r t hrun
  cases hrun

theorem make {build build' : Mark → Value}
    (h : ∀ m, build' (ρ.map m) = (build m).rename ρ.map) :
    Carries ρ (Value.rename ρ.map) (make build) (make build') :=
  perform (.make h)

theorem trace (e : Event) :
    Carries ρ id (Evaluator.trace e) (Evaluator.trace (e.rename ρ.map)) := by
  intro s r t hrun
  cases Option.some.inj hrun
  refine ⟨Nat.le_of_eq (State.nextMark_trace e s).symm, fun _ => ?_⟩
  rw [trace_apply, State.rename_trace]
  rfl

theorem bind {m : Run α} {m' : Run α'} {k : α → Run β} {l : α' → Run β'}
    (hm : Carries ρ f m m') (hk : ∀ a, Carries ρ g (k a) (l (f a))) :
    Carries ρ g (m >>= k) (m' >>= l) := by
  intro s r t hrun
  rcases bind_eq_some_iff.mp hrun with ⟨e, hfirst, rfl⟩ | ⟨a, u, hfirst, hsecond⟩
  · obtain ⟨hmark, hrenamed⟩ := hm s _ t hfirst
    refine ⟨hmark, fun hcovers => ?_⟩
    rw [bind_apply, hrenamed hcovers]
    rfl
  · obtain ⟨hmark, hrenamed⟩ := hm s _ u hfirst
    obtain ⟨hmark', hrenamed'⟩ := hk a u r t hsecond
    refine ⟨Nat.le_trans hmark hmark', fun hcovers => ?_⟩
    rw [bind_apply, hrenamed (hcovers.left hmark')]
    exact hrenamed' (hcovers.right hmark)

/-- A sequel to a result without marks. -/
theorem bind_same {m m' : Run α} {k : α → Run β} {l : α → Run β'} (hm : Carries ρ id m m')
    (hk : ∀ a, Carries ρ g (k a) (l a)) : Carries ρ g (m >>= k) (m' >>= l) :=
  hm.bind hk

/-- A sequel to looking at the state. -/
theorem get_bind {k : State → Run β} {l : State → Run β'}
    (hk : ∀ s, Carries ρ g (k s) (l (s.rename ρ))) : Carries ρ g (get >>= k) (get >>= l) :=
  fun s => hk s s

end Run.Carries

/-- What a step leaves, with other marks. -/
def Step.rename (f : Mark → Mark) : Step → Step
  | done v => done (v.rename f)
  | pending body env => pending (body.rename f) env

theorem Formal.ofValue?_rename (f : Mark → Mark) (v : Value) :
    Formal.ofValue? (v.rename f) = Formal.ofValue? v := by
  cases v with
  | pair m first rest => cases first <;> cases rest <;> rfl
  | _ => rfl

theorem Formal.accept_rename (f : Mark → Mark) (formal : Formal) (args : Value) :
    formal.accept (args.rename f) =
      (formal.accept args).map (Option.map (Prod.map id (Value.rename f))) := by
  cases formal with
  | nothing =>
      have htext := Value.text_rename (f := f) (v := args)
      cases args <;> first
        | rfl
        | exact congrArg (fun text => Except.error (ApplyError.takesNone text)) htext
  | single x =>
      have htext := Value.text_rename (f := f) (v := args)
      cases args with
      | pair m v rest =>
          cases rest <;> first
            | rfl
            | exact congrArg (fun text => Except.error (ApplyError.takesOne text)) htext
      | _ => exact congrArg (fun text => Except.error (ApplyError.takesOne text)) htext
  | rest x => rfl

namespace Evaluator

open Run

/-- A way to evaluate that does with renamed expressions what it does with expressions. -/
def Carries (ρ : Renaming) (ev : Evaluation) : Prop :=
  ∀ expr env, Run.Carries ρ (Value.rename ρ.map) (ev expr env) (ev (expr.rename ρ.map) env)

theorem formText_rename (f : Mark → Mark) (k : Keyword) (operands : Value) :
    formText k (operands.rename f) = formText k operands := by
  rw [formText, formText, Value.writeAt_rename]

section Parts

variable {ρ : Renaming} {ev : Evaluation} (h : Carries ρ ev)

theorem done_carries (v : Value) :
    Run.Carries ρ (Step.rename ρ.map) (pure (.done v)) (pure (.done (v.rename ρ.map))) :=
  .pure (Step.done v)

theorem pending_carries (body : Value) (env : EnvId) :
    Run.Carries ρ (Step.rename ρ.map) (pure (.pending body env))
      (pure (.pending (body.rename ρ.map) env)) :=
  .pure (Step.pending body env)

theorem newEnvironment_carries (b : Bindings) :
    Action.Carries ρ id (State.newEnvironment b : Action EnvId)
      (State.newEnvironment (b.rename ρ.map)) := by
  refine .of_unmarked (fun _ => rfl) fun s => ?_
  have hsize : (s.rename ρ).environments.size = s.environments.size := Array.size_map
  change (Except.ok (EnvId.mk (s.rename ρ).environments.size), (s.rename ρ).grown _) = _
  rw [hsize, State.rename_grown]
  rfl

theorem snapshot_carries (env : EnvId) :
    Action.Carries ρ id (State.snapshot env : Action EnvId) (State.snapshot env) := by
  intro s
  have hbindings := State.bindings_rename (ρ := ρ) s env
  change _ ∧ (_ → (State.newEnvironment ((s.rename ρ).bindings env) : Action EnvId) _ = _)
  rw [hbindings]
  exact newEnvironment_carries _ s

theorem lambda_carries (formals body : Value) (env : EnvId) :
    Run.Carries ρ (Value.rename ρ.map) (lambda formals body env)
      (lambda (formals.rename ρ.map) (body.rename ρ.map) env) := by
  unfold lambda
  rw [Formal.ofValue?_rename, Value.text_rename]
  cases Formal.ofValue? formals with
  | none => exact .throw rfl
  | some formal =>
      exact (Run.Carries.perform (snapshot_carries env)).bind_same fun closure => .make fun _ => rfl

/-- Tracing is no matter of marks. -/
theorem toggle_carries : Action.Carries ρ id
    (modify fun s => { s with tracing := !s.tracing } : Action PUnit)
    (modify fun s => { s with tracing := !s.tracing }) :=
  .of_unmarked (fun _ => rfl) fun _ => rfl

include h

theorem untraced_carries : Carries ρ (untraced ev) := by
  intro expr env s r t hrun
  simp only [untraced, Option.map_eq_some_iff] at hrun
  obtain ⟨⟨r, u⟩, hinner, hanswer⟩ := hrun
  cases hanswer
  obtain ⟨hmark, hrenamed⟩ := h expr env { s with tracing := false } r u hinner
  refine ⟨hmark, fun hcovers => ?_⟩
  have hinner' : ev (expr.rename ρ.map) env { s.rename ρ with tracing := false } = _ :=
    hrenamed hcovers
  rw [untraced, hinner']
  rfl

theorem evlis_carries (list : Value) (env : EnvId) :
    Run.Carries ρ (Value.rename ρ.map) (evlis ev list env)
      (evlis ev (list.rename ρ.map) env) := by
  induction list with
  | pair m first rest _ ih =>
      rw [Value.rename, evlis, evlis]
      exact (h first env).bind fun v => ih.bind fun vs => .make fun _ => rfl
  | _ => exact .pure _

theorem apply_carries (procedure args : Value) (env : EnvId) :
    Run.Carries ρ (Step.rename ρ.map) (apply ev procedure args env)
      (apply ev (procedure.rename ρ.map) (args.rename ρ.map) env) := by
  have htext := Value.text_rename (f := ρ.map) (v := procedure)
  unfold apply
  refine (Run.Carries.trace (.applying procedure args)).bind_same fun _ => ?_
  cases procedure with
  | lambda m closure formal body =>
      simp only [Value.rename, Formal.accept_rename]
      cases formal.accept args with
      | error cause => exact .throw rfl
      | ok own =>
          refine .get_bind fun s => ?_
          simp only [State.bindings_rename, ← Bindings.rename_callBindings]
          exact (Run.Carries.perform (newEnvironment_carries _)).bind_same fun inner =>
            pending_carries body inner
  | native m p =>
      refine (Run.Carries.perform (Procedures.call_carries p args)).bind fun answer => ?_
      cases answer with
      | value v => exact done_carries v
      | evaluation expr inner => exact (untraced_carries h expr inner).bind fun v => done_carries v
  | _ => exact .throw (congrArg (fun text => Error.apply (.notProcedure text)) htext)

theorem define_carries (x : String) (expr : Value) (env : EnvId) :
    Run.Carries ρ (Value.rename ρ.map) (define ev x expr env)
      (define ev x (expr.rename ρ.map) env) := by
  rw [define_eq, define_eq]
  refine .get_bind fun s => ?_
  rw [State.bindings_rename, Bindings.contains_rename]
  split
  · exact .throw rfl
  · refine (h expr env).bind fun v => ?_
    refine (Run.Carries.perform (.of_unmarked (fun t => ?_) fun t => ?_)).bind_same fun _ =>
      .make fun _ => rfl
    · rw [define_apply]
      split <;> rfl
    · rw [define_apply, define_apply, State.bindings_rename, Bindings.contains_rename,
        State.rename_bind]
      split <;> rfl

theorem form_carries (k : Keyword) (operands : Value) (env : EnvId) :
    Run.Carries ρ (Step.rename ρ.map) (form ev k operands env)
      (form ev k (operands.rename ρ.map) env) := by
  -- A form that complains shows its operands whole, so they are told apart by their number first.
  by_cases hadmits : k.admits operands.elements.length = true
  · unfold form
    rw [Value.elements_rename]
    generalize operands.elements = vs at hadmits
    split
    · exact done_carries _
    · exact (lambda_carries _ _ env).bind fun v => done_carries v
    · next target expr =>
        have htext := Value.text_rename (f := ρ.map) (v := target)
        cases target with
        | symbol m x => exact (define_carries h x expr env).bind fun v => done_carries v
        | _ => exact .throw (congrArg (fun text => Error.eval (.badTarget text)) htext)
    · refine (h _ env).bind fun test => ?_
      rw [Value.isTrue_rename]
      split
      · exact pending_carries _ env
      · exact (Run.Carries.make fun _ => rfl).bind fun v => done_carries v
    · refine (h _ env).bind fun test => ?_
      rw [Value.isTrue_rename]
      split <;> exact pending_carries _ env
    · exact (Run.Carries.make fun _ => rfl).bind fun v => done_carries v
    · refine (Run.Carries.perform toggle_carries).bind_same fun _ => .get_bind fun s => ?_
      exact (Run.Carries.make fun _ => rfl).bind fun v => done_carries v
    · exfalso
      cases k <;> simp_all [Keyword.admits, List.length_eq_one_iff, List.length_eq_two,
        List.length_eq_three]
  · have hlength : (operands.rename ρ.map).elements.length = operands.elements.length := by
      rw [Value.elements_rename, List.length_map]
    rw [form_malformed (by simpa using hadmits), form_malformed (by simpa [hlength] using hadmits)]
    exact .throw (by rw [formText_rename])

theorem combination_carries (head operands : Value) (env : EnvId) :
    Run.Carries ρ (Step.rename ρ.map) (combination ev head operands env)
      (combination ev (head.rename ρ.map) (operands.rename ρ.map) env) := by
  have hcomputed (procedure : Value) : Run.Carries ρ (Step.rename ρ.map)
      (evlis ev operands env >>= fun args => apply ev procedure args env)
      (evlis ev (operands.rename ρ.map) env >>= fun args =>
        apply ev (procedure.rename ρ.map) args env) :=
    (evlis_carries h operands env).bind fun args => apply_carries h procedure args env
  cases head with
  | symbol m x =>
      refine .get_bind fun s => ?_
      rw [State.lookup_rename]
      cases s.lookup env x with
      | some procedure => exact hcomputed procedure
      | none =>
          dsimp only [Option.map]
          cases Keyword.ofName? x with
          | some k =>
              dsimp only
              rw [Value.isList_rename, Value.text_rename]
              split
              · exact form_carries h k operands env
              · exact .throw rfl
          | none => exact .throw rfl
  | _ => exact (h _ env).bind hcomputed

theorem step_carries (expr : Value) (env : EnvId) :
    Run.Carries ρ (Step.rename ρ.map) (step ev expr env)
      (step ev (expr.rename ρ.map) env) := by
  have htext := Value.text_rename (f := ρ.map) (v := expr)
  unfold step
  refine (Run.Carries.trace (.evaluating expr)).bind_same fun _ => ?_
  cases expr with
  | symbol m x =>
      refine .get_bind fun s => ?_
      rw [State.lookup_rename]
      cases s.lookup env x with
      | some v => exact done_carries v
      | none => exact .throw rfl
  | pair m head operands =>
      rw [htext]
      simp only [Value.rename, Value.isList_rename]
      split
      · exact combination_carries h head operands env
      · exact .throw rfl
  | _ => exact done_carries _

theorem drive_carries (rounds : Nat) (st : Step) :
    Run.Carries ρ (Value.rename ρ.map) (drive ev rounds st)
      (drive ev rounds (st.rename ρ.map)) := by
  induction rounds generalizing st with
  | zero =>
      cases st with
      | done v => exact .pure v
      | pending body env => exact .exhausted
  | succ rounds ih =>
      cases st with
      | done v => exact .pure v
      | pending body env => exact (step_carries h body env).bind ih

end Parts

/-- Evaluation does with renamed expressions what it does with expressions. -/
theorem eval_carries (ρ : Renaming) (depth rounds : Nat) : Carries ρ (eval depth rounds) := by
  induction depth with
  | zero => exact fun _ _ => .exhausted
  | succ depth ih =>
      intro expr env
      rw [eval, eval]
      exact (step_carries ih expr env).bind (drive_carries ih rounds)

end Evaluator

end TinyLisp
