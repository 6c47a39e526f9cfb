import TinyLisp.Proofs.Run

/-!
What each part of evaluation answers, case by case: a step on every kind of expression, a special form
on operands of every shape, an application of every kind of value.
-/

namespace TinyLisp

open Evaluator Run

namespace State

/-- The state after one more environment was made, at the place `s.environments.size`. -/
def grown (s : State) (b : Bindings) : State :=
  { s with environments := s.environments.push b }

variable (e : Event) (s : State)

@[simp] theorem environments_marked : s.marked.environments = s.environments := rfl

@[simp] theorem bindings_marked (env : EnvId) : s.marked.bindings env = s.bindings env := rfl

@[simp] theorem size_grown (b : Bindings) :
    (s.grown b).environments.size = s.environments.size + 1 :=
  Array.size_push b

/-- The new environment has its bindings, and all others keep theirs. -/
theorem bindings_grown (b : Bindings) (env : EnvId) :
    (s.grown b).bindings env = if env = ⟨s.environments.size⟩ then b else s.bindings env := by
  obtain ⟨i⟩ := env
  simp only [grown, bindings, Array.getD_eq_getD_getElem?, Array.getElem?_push, EnvId.mk.injEq]
  split <;> rfl

@[simp] theorem environments_trace : (s.trace e).environments = s.environments := by
  unfold trace
  split <;> rfl

@[simp] theorem nextMark_trace : (s.trace e).nextMark = s.nextMark := by
  unfold trace
  split <;> rfl

@[simp] theorem tracing_trace : (s.trace e).tracing = s.tracing := by
  unfold trace
  split <;> rfl

@[simp] theorem bindings_trace (env : EnvId) : (s.trace e).bindings env = s.bindings env := by
  simp [bindings]

@[simp] theorem lookup_trace (env : EnvId) (x : String) :
    (s.trace e).lookup env x = s.lookup env x := by
  simp [lookup]

end State

/-- The number of operands that a special form takes. -/
def Keyword.admits : Keyword → Nat → Bool
  | .quote, n => n == 1
  | .lambda, n => n == 2
  | .define, n => n == 2
  | .ifForm, n => n == 2 || n == 3
  | .currentEnvironment, n => n == 0
  | .toggleDebug, n => n == 0

/-- A body sees the argument first, then what its lambda captured, then what the caller sees. -/
theorem find?_callBindings (caller captured : Bindings) (own : Option (String × Value))
    (x : String) :
    (callBindings caller captured own).find? x =
      (own.toList.lookup x).or ((captured.find? x).or (caller.find? x)) := by
  cases own with
  | none => simp [callBindings, Bindings.find?_overlay]
  | some binding =>
      obtain ⟨y, v⟩ := binding
      rw [callBindings, Bindings.find?_insert, Bindings.find?_overlay]
      by_cases h : x = y
      · simp [h]
      · have hne : (x == y) = false := by simpa using h
        simp [List.lookup_cons, h, hne]

namespace Evaluator

variable {ev : Evaluation} {env : EnvId} {s : State}

/-! ### Steps -/

@[simp] theorem drive_done (ev : Evaluation) (n : Nat) (v : Value) :
    drive ev n (.done v) = pure v := by
  cases n <;> rfl

theorem step_bound {m : Mark} {x : String} {v : Value} (h : s.lookup env x = some v) :
    step ev (.symbol m x) env s = some (.ok (.done v), s.trace (.evaluating (.symbol m x))) := by
  simp [step, h]

theorem step_free {m : Mark} {x : String} (h : s.lookup env x = none) :
    step ev (.symbol m x) env s =
      some (.error (.unbound x), s.trace (.evaluating (.symbol m x))) := by
  simp [step, h]

/-- Whatever is neither a symbol nor a pair is its own value. -/
theorem step_constant {v : Value} (hsymbol : v.symbol? = none) (hpair : v.isPair = false) :
    step ev v env s = some (.ok (.done v), s.trace (.evaluating v)) := by
  cases v with
  | symbol m x => simp [Value.symbol?] at hsymbol
  | pair m first rest => simp [Value.isPair] at hpair
  | _ => rfl

section Combination

variable {m m' : Mark} {x : String} {head operands : Value}

theorem step_improper (h : operands.isList = false) :
    step ev (.pair m head operands) env s =
      some (.error (.eval (.improperCombination (Value.pair m head operands).text)),
        s.trace (.evaluating (.pair m head operands))) := by
  simp [step, h]

/-- A bound name is applied to the values of its operands. -/
theorem step_named {procedure : Value} (hlist : operands.isList = true)
    (h : s.lookup env x = some procedure) :
    step ev (.pair m (.symbol m' x) operands) env s =
      (evlis ev operands env >>= fun args => apply ev procedure args env)
        (s.trace (.evaluating (.pair m (.symbol m' x) operands))) := by
  simp [step, combination, hlist, h]

/-- A free name that is a keyword is a special form. -/
theorem step_keyword {k : Keyword} (hlist : operands.isList = true)
    (hfree : s.lookup env x = none) (hk : Keyword.ofName? x = some k) :
    step ev (.pair m (.symbol m' x) operands) env s =
      form ev k operands env (s.trace (.evaluating (.pair m (.symbol m' x) operands))) := by
  simp [step, combination, hlist, hfree, hk]

theorem step_unknown (hlist : operands.isList = true) (hfree : s.lookup env x = none)
    (hk : Keyword.ofName? x = none) :
    step ev (.pair m (.symbol m' x) operands) env s =
      some (.error (.unbound x), s.trace (.evaluating (.pair m (.symbol m' x) operands))) := by
  simp [step, combination, hlist, hfree, hk]

/-- A head that is no symbol is evaluated before the operands. -/
theorem step_computed (hlist : operands.isList = true) (hhead : head.symbol? = none) :
    step ev (.pair m head operands) env s =
      (ev head env >>= fun procedure =>
        evlis ev operands env >>= fun args => apply ev procedure args env)
        (s.trace (.evaluating (.pair m head operands))) := by
  cases head with
  | symbol m' x => simp [Value.symbol?] at hhead
  | _ => simp [step, combination, hlist]

end Combination

/-! ### Special forms -/

section Form

variable {operands : Value}

theorem form_malformed {k : Keyword} (h : k.admits operands.elements.length = false) :
    form ev k operands env = badForm k operands := by
  unfold form
  split
  case h_8 => rfl
  all_goals simp_all [Keyword.admits]

theorem form_quote {v : Value} (h : operands.elements = [v]) :
    form ev .quote operands env s = some (.ok (.done v), s) := by
  unfold form
  simp [h]

/-- A lambda keeps a copy of the bindings there are where it is made. -/
theorem form_lambda {formals body : Value} {formal : Formal}
    (h : operands.elements = [formals, body]) (hformal : Formal.ofValue? formals = some formal) :
    form ev .lambda operands env s =
      some (.ok (.done (.lambda ⟨s.nextMark⟩ ⟨s.environments.size⟩ formal body)),
        (s.grown (s.bindings env)).marked) := by
  unfold form
  simp only [h, lambda, hformal, bind_apply, perform_apply]
  rfl

theorem form_badFormals {formals body : Value} (h : operands.elements = [formals, body])
    (hformal : Formal.ofValue? formals = none) :
    form ev .lambda operands env s = some (.error (.eval (.badFormals formals.text)), s) := by
  unfold form
  simp [h, lambda, hformal]

theorem form_badTarget {target expr : Value} (h : operands.elements = [target, expr])
    (htarget : target.symbol? = none) :
    form ev .define operands env s = some (.error (.eval (.badTarget target.text)), s) := by
  unfold form
  cases target with
  | symbol m x => simp [Value.symbol?] at htarget
  | _ => simp [h]

theorem form_redefinition {m : Mark} {x : String} {expr : Value}
    (h : operands.elements = [.symbol m x, expr]) (hbound : (s.bindings env).contains x = true) :
    form ev .define operands env s = some (.error (.redefinition x), s) := by
  unfold form
  simp [h, define_eq, hbound]

/-- What follows the value of a definition: the name has to be free still. -/
def commit (x : String) (env : EnvId) (v : Value) : Run Step := do
  perform (State.define env x v)
  return .done (← make Value.unspecified)

theorem form_define {m : Mark} {x : String} {expr : Value}
    (h : operands.elements = [.symbol m x, expr]) (hfree : (s.bindings env).contains x = false) :
    form ev .define operands env s = (ev expr env >>= commit x env) s := by
  unfold form
  simp only [h, define_eq, bind_apply, get_apply, hfree, Bool.false_eq_true, if_false, commit]
  cases ev expr env s with
  | none => rfl
  | some answer =>
      obtain ⟨result, t⟩ := answer
      cases result with
      | error e => rfl
      | ok v =>
          simp only [perform_apply, define_apply]
          cases (t.bindings env).contains x <;> rfl

theorem commit_free {x : String} {v : Value} (h : (s.bindings env).contains x = false) :
    commit x env v s =
      some (.ok (.done (.unspecified ⟨s.nextMark⟩)), (s.bind env x v).marked) := by
  simp only [commit, bind_apply, perform_apply, define_apply, h]
  rfl

theorem commit_bound {x : String} {v : Value} (h : (s.bindings env).contains x = true) :
    commit x env v s = some (.error (.redefinition x), s) := by
  simp [commit, define_apply, h]

/-- What follows the test of an `if`. -/
def branch (consequent : Value) (alternate : Option Value) (env : EnvId) (test : Value) :
    Run Step :=
  if test.isTrue then return .pending consequent env
  else
    match alternate with
    | some alternate => return .pending alternate env
    | none => do return .done (← make Value.unspecified)

theorem form_if {test consequent : Value} (alternate : Option Value)
    (h : operands.elements = test :: consequent :: alternate.toList) :
    form ev .ifForm operands env s = (ev test env >>= branch consequent alternate env) s := by
  unfold form
  cases alternate <;> simp [h, branch]

theorem form_currentEnvironment (h : operands.elements = []) :
    form ev .currentEnvironment operands env s =
      some (.ok (.done (.environment ⟨s.nextMark⟩ env)), s.marked) := by
  unfold form
  simp [h]

theorem form_toggleDebug (h : operands.elements = []) :
    form ev .toggleDebug operands env s =
      some (.ok (.done (.boolean ⟨s.nextMark⟩ !s.tracing)),
        { s.marked with tracing := !s.tracing }) := by
  unfold form
  simp only [h]
  rfl

end Form

/-! ### Operands and applications -/

theorem evlis_pair (m : Mark) (first rest : Value) :
    evlis ev (.pair m first rest) env =
      (ev first env >>= fun v => evlis ev rest env >>= fun vs => make (Value.pair · v vs)) := by
  rw [evlis]

theorem evlis_of_isPair_eq_false {v : Value} (h : v.isPair = false) :
    evlis ev v env s = some (.ok v, s) := by
  cases v with
  | pair m first rest => simp [Value.isPair] at h
  | _ => rfl

section Application

variable {m : Mark} {args : Value}

theorem apply_rejected {closure : EnvId} {formal : Formal} {body : Value} {cause : ApplyError}
    (h : formal.accept args = .error cause) :
    apply ev (.lambda m closure formal body) args env s =
      some (.error (.apply cause),
        s.trace (.applying (.lambda m closure formal body) args)) := by
  simp [apply, h]

/-- A body runs in an environment of its own. -/
theorem apply_lambda {closure : EnvId} {formal : Formal} {body : Value}
    {own : Option (String × Value)} (h : formal.accept args = .ok own) :
    apply ev (.lambda m closure formal body) args env s =
      some (.ok (.pending body ⟨s.environments.size⟩),
        (s.trace (.applying (.lambda m closure formal body) args)).grown
          (callBindings (s.bindings env) (s.bindings closure) own)) := by
  simp only [apply, h, bind_apply, trace_apply, get_apply, perform_apply, State.bindings_trace]
  rw [← State.environments_trace (.applying (.lambda m closure formal body) args) s]
  rfl

/-- A built-in procedure answers at once, or asks for an evaluation. -/
theorem apply_native {p : Native} :
    apply ev (.native m p) args env s =
      match Procedures.call p args (s.trace (.applying (.native m p) args)) with
      | (.error e, t) => some (.error e, t)
      | (.ok (.value v), t) => some (.ok (.done v), t)
      | (.ok (.evaluation expr inner), t) =>
          (untraced ev expr inner >>= fun v => pure (.done v)) t := by
  rw [apply, bind_apply, trace_apply]
  simp only [bind_apply (perform _), perform_apply]
  cases Procedures.call p args (s.trace (.applying (.native m p) args)) with
  | mk result t =>
      cases result with
      | error e => rfl
      | ok answer => cases answer <;> rfl

theorem apply_notProcedure {v : Value} (h : v.isProcedure = false) :
    apply ev v args env s =
      some (.error (.apply (.notProcedure v.text)), s.trace (.applying v args)) := by
  cases v with
  | lambda m closure formal body => simp [Value.isProcedure] at h
  | native m p => simp [Value.isProcedure] at h
  | _ => rfl

end Application

end Evaluator

end TinyLisp
