import TinyLisp.Proofs.Run

/-!
Relations that evaluation keeps.  A preorder on states that every primitive act of evaluation keeps
is kept by evaluation itself, by each of its parts, and by running whole programs, whether they end
with values or with errors.
-/

namespace TinyLisp

open Evaluator Run

/-- A preorder on states that every primitive act of evaluation keeps. -/
structure State.Steady (R : State → State → Prop) : Prop where
  refl : ∀ s, R s s
  trans : ∀ s t u, R s t → R t u → R s u
  make : ∀ s, R s { s with nextMark := s.nextMark + 1 }
  report : ∀ e s, R s (s.report e)
  switch : ∀ b s, R s { s with tracing := b }
  newEnvironment : ∀ b s, R s (State.newEnvironment b s).2
  bind : ∀ env x v s, (s.bindings env).contains x = false → R s (s.bind env x v)
  call : ∀ p args s, R s (Procedures.call p args s).2

variable {R : State → State → Prop} (hR : State.Steady R)

include hR

namespace Evaluator

/-! ### The parts of evaluation -/

theorem trace_keeps (e : Event) : Keeps R (Evaluator.trace e) := by
  refine keeps_perform fun s => ?_
  change R s (s.trace e)
  unfold State.trace
  split
  · exact hR.report e s
  · exact hR.refl s

theorem pure_keeps {α : Type} (a : α) : Keeps R (pure a : Run α) :=
  keeps_of_apply hR.refl fun _ => ⟨.ok a, rfl⟩

theorem throw_keeps {α : Type} (e : Error) : Keeps R (throw e : Run α) :=
  keeps_of_apply hR.refl fun _ => ⟨.error e, rfl⟩

theorem get_keeps : Keeps R (get : Run State) :=
  keeps_of_apply hR.refl fun s => ⟨.ok s, rfl⟩

theorem make_keeps (build : Mark → Value) : Keeps R (make build) :=
  keeps_perform hR.make

theorem newEnvironment_keeps (b : Bindings) :
    Keeps R (perform (State.newEnvironment b : Action EnvId)) :=
  keeps_perform (hR.newEnvironment b)

theorem snapshot_keeps (env : EnvId) :
    Keeps R (perform (State.snapshot env : Action EnvId)) :=
  keeps_perform fun s => hR.newEnvironment (s.bindings env) s

theorem bind_keeps (env : EnvId) (x : String) (v : Value) :
    Keeps R (perform (State.define env x v)) := by
  refine keeps_perform fun s => ?_
  rw [define_apply]
  split
  · exact hR.refl s
  · next hfree => exact hR.bind env x v s (by simpa using hfree)

section Nested

variable {ev : Evaluation} (hev : ∀ expr env, Keeps R (ev expr env))

include hev

theorem untraced_keeps (expr : Value) (env : EnvId) : Keeps R (untraced ev expr env) := by
  intro s r t hrun
  simp only [untraced, Option.map_eq_some_iff, Prod.mk.injEq] at hrun
  obtain ⟨⟨result, after⟩, hinner, rfl, rfl⟩ := hrun
  have hquiet := hR.switch false s
  have hrest := hR.trans _ _ _ hquiet (hev expr env _ result after hinner)
  exact hR.trans _ _ _ hrest (hR.switch s.tracing after)

theorem evlis_keeps (list : Value) (env : EnvId) : Keeps R (evlis ev list env) := by
  induction list with
  | pair m first rest _ ih =>
      rw [evlis]
      refine (hev first env).bind hR.trans fun v => ?_
      exact ih.bind hR.trans fun vs => make_keeps hR _
  | _ => exact pure_keeps hR _

theorem apply_keeps (procedure args : Value) (env : EnvId) :
    Keeps R (apply ev procedure args env) := by
  unfold apply
  refine (trace_keeps hR _).bind hR.trans fun _ => ?_
  cases procedure with
  | lambda m closure formal body =>
      dsimp only
      split
      · exact throw_keeps hR _
      · refine (get_keeps hR).bind hR.trans fun s => ?_
        exact (newEnvironment_keeps hR _).bind hR.trans fun inner => pure_keeps hR _
  | native m p =>
      refine (keeps_perform (hR.call p args)).bind hR.trans fun answer => ?_
      cases answer with
      | value v => exact pure_keeps hR _
      | evaluation expr inner =>
          exact (untraced_keeps hR hev expr inner).bind hR.trans fun v => pure_keeps hR _
  | _ => exact throw_keeps hR _

theorem define_keeps (x : String) (expr : Value) (env : EnvId) :
    Keeps R (define ev x expr env) := by
  rw [define_eq]
  refine (get_keeps hR).bind hR.trans fun s => ?_
  split
  · exact throw_keeps hR _
  · refine (hev expr env).bind hR.trans fun v => ?_
    exact (bind_keeps hR env x v).bind hR.trans fun _ => make_keeps hR _

omit hev in
theorem lambda_keeps (formals body : Value) (env : EnvId) :
    Keeps R (lambda formals body env) := by
  unfold lambda
  split
  · exact throw_keeps hR _
  · exact (snapshot_keeps hR env).bind hR.trans fun closure => make_keeps hR _

theorem form_keeps (k : Keyword) (operands : Value) (env : EnvId) :
    Keeps R (form ev k operands env) := by
  unfold form
  split
  case h_1 => exact pure_keeps hR _
  case h_2 => exact (lambda_keeps hR _ _ env).bind hR.trans fun v => pure_keeps hR _
  case h_3 =>
    split
    · exact (define_keeps hR hev _ _ env).bind hR.trans fun v => pure_keeps hR _
    · exact throw_keeps hR _
  case h_4 =>
    refine (hev _ env).bind hR.trans fun v => ?_
    split
    · exact pure_keeps hR _
    · exact (make_keeps hR _).bind hR.trans fun v => pure_keeps hR _
  case h_5 =>
    refine (hev _ env).bind hR.trans fun v => ?_
    split <;> exact pure_keeps hR _
  case h_6 => exact (make_keeps hR _).bind hR.trans fun v => pure_keeps hR _
  case h_7 =>
    have hswitch : Keeps R (modify fun s => { s with tracing := !s.tracing } : Run PUnit) := by
      intro s r t hrun
      cases hrun
      exact hR.switch _ s
    refine hswitch.bind hR.trans fun _ => (get_keeps hR).bind hR.trans fun s => ?_
    exact (make_keeps hR _).bind hR.trans fun v => pure_keeps hR _
  case h_8 => exact throw_keeps hR _

theorem combination_keeps (head operands : Value) (env : EnvId) :
    Keeps R (combination ev head operands env) := by
  unfold combination
  split
  · refine (get_keeps hR).bind hR.trans fun s => ?_
    split
    · refine (evlis_keeps hR hev operands env).bind hR.trans fun args => ?_
      exact apply_keeps hR hev _ args env
    · split
      · split
        · exact form_keeps hR hev _ operands env
        · exact throw_keeps hR _
      · exact throw_keeps hR _
  · refine (hev head env).bind hR.trans fun procedure => ?_
    refine (evlis_keeps hR hev operands env).bind hR.trans fun args => ?_
    exact apply_keeps hR hev procedure args env

theorem step_keeps (expr : Value) (env : EnvId) : Keeps R (step ev expr env) := by
  unfold step
  refine (trace_keeps hR _).bind hR.trans fun _ => ?_
  split
  · refine (get_keeps hR).bind hR.trans fun s => ?_
    split
    · exact pure_keeps hR _
    · exact throw_keeps hR _
  · split
    · exact combination_keeps hR hev _ _ env
    · exact throw_keeps hR _
  · exact pure_keeps hR _

theorem drive_keeps (rounds : Nat) (st : Step) : Keeps R (drive ev rounds st) := by
  induction rounds generalizing st with
  | zero =>
      cases st with
      | done v =>
          simp only [drive]
          exact pure_keeps hR v
      | pending body env =>
          rw [drive]
          exact keeps_exhausted
  | succ rounds ih =>
      cases st with
      | done v =>
          simp only [drive]
          exact pure_keeps hR v
      | pending body env =>
          rw [drive]
          exact (step_keeps hR hev body env).bind hR.trans ih

end Nested

theorem eval_keeps (depth rounds : Nat) (expr : Value) (env : EnvId) :
    Keeps R (eval depth rounds expr env) := by
  induction depth generalizing expr env with
  | zero =>
      rw [eval]
      exact keeps_exhausted
  | succ depth ih =>
      rw [eval]
      exact (step_keeps hR ih expr env).bind hR.trans (drive_keeps hR ih rounds)

end Evaluator

namespace Interpreter

/-! ### Programs -/

variable {i : Interpreter} (hi : ∀ expr env, Keeps R (i.evaluate expr env))

theorem makeDatum_keeps (d : Datum) (s : State) :
    R s (State.makeDatum d s).2 := by
  induction d generalizing s with
  | pair first rest ihFirst ihRest =>
      have hparts := hR.trans _ _ _ (ihRest s) (ihFirst (State.makeDatum rest s).2)
      exact hR.trans _ _ _ hparts (hR.make _)
  | _ => exact hR.make s

theorem outcome_keeps (report : Report) (s : State) : R s (report.outcome s).2 := by
  unfold Report.outcome
  cases report.failure with
  | some e => exact hR.refl s
  | none =>
      cases report.values.getLast? with
      | some v => exact hR.refl s
      | none => exact hR.make s

include hi

theorem evaluateDatum_keeps (d : Datum) : Keeps R (i.evaluateDatum d) :=
  (keeps_perform (makeDatum_keeps hR d)).bind hR.trans fun expr => hi expr i.root

theorem runFrom_keeps {rounds : Nat} {input : Input} {seen : List Value} {s t : State}
    {report : Report} (h : i.runFrom rounds input seen s = some (report, t)) : R s t := by
  refine runFrom_preserves (P := fun _ u => R s u) (fun d _ u r w hu hrun => ?_) h (hR.refl s)
  exact hR.trans _ _ _ hu (evaluateDatum_keeps hR hi d u r w hrun)

theorem run_keeps {input : Input} {s t : State} {report : Report}
    (h : i.run input s = some (report, t)) : R s t :=
  runFrom_keeps hR hi h

theorem evaluateInput_keeps (input : Input) : Keeps R (i.evaluateInput input) := by
  intro s r t hrun
  simp only [evaluateInput, Option.map_eq_some_iff] at hrun
  obtain ⟨⟨report, u⟩, hreport, houtcome⟩ := hrun
  have hlast := outcome_keeps hR report u
  rw [houtcome] at hlast
  exact hR.trans _ _ _ (run_keeps hR hi hreport) hlast

theorem load_keeps (path : String) : Keeps R (i.load path) := by
  unfold load
  have hreport : Keeps R (modify (State.report (.loading path)) : Run PUnit) := by
    intro s r t hrun
    cases hrun
    exact hR.report _ s
  refine hreport.bind hR.trans fun _ => (get_keeps hR).bind hR.trans fun s => ?_
  split
  · exact throw_keeps hR _
  · exact evaluateInput_keeps hR hi _

end Interpreter

end TinyLisp
