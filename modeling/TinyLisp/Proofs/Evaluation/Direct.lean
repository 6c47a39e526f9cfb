import TinyLisp.Proofs.Evaluation.Equations

/-!
Evaluation in direct style: a relation between tasks, the states they are taken up in, and what
they come to.  The branch of an `if` and the body of an applied lambda are tasks like every other,
evaluated where they are met, so there is no budget and no loop.
-/

namespace TinyLisp

/-- What there is to do: evaluate an expression, a special form or some operands, call a procedure
on operands that are not evaluated yet, or apply it to an argument list. -/
inductive Task where
  | expression (expr : Value) (env : EnvId)
  | form (k : Keyword) (operands : Value) (env : EnvId)
  | call (procedure operands : Value) (env : EnvId)
  | operands (list : Value) (env : EnvId)
  | application (procedure args : Value) (env : EnvId)
  deriving DecidableEq, Repr

namespace Task

/-- Tasks that come to an end without a task of their own. -/
inductive Ends : Task → State → Except Error Value → State → Prop where
  | bound {s m env x v} (h : s.lookup env x = some v) :
      Ends (.expression (.symbol m x) env) s (.ok v) (s.trace (.evaluating (.symbol m x)))
  | free {s m env x} (h : s.lookup env x = none) :
      Ends (.expression (.symbol m x) env) s (.error (.unbound x))
        (s.trace (.evaluating (.symbol m x)))
  | constant {s env expr} (hsymbol : expr.symbol? = none) (hpair : expr.isPair = false) :
      Ends (.expression expr env) s (.ok expr) (s.trace (.evaluating expr))
  | improper {s m env head operands} (h : operands.isList = false) :
      Ends (.expression (.pair m head operands) env) s
        (.error (.eval (.improperCombination (Value.pair m head operands).text)))
        (s.trace (.evaluating (.pair m head operands)))
  | unknown {s m m' env x operands} (hlist : operands.isList = true) (hfree : s.lookup env x = none)
      (hk : Keyword.ofName? x = none) :
      Ends (.expression (.pair m (.symbol m' x) operands) env) s (.error (.unbound x))
        (s.trace (.evaluating (.pair m (.symbol m' x) operands)))
  | malformed {s env operands k} (h : k.admits operands.elements.length = false) :
      Ends (.form k operands env) s (.error (.eval (.badForm (Evaluator.formText k operands)))) s
  | quote {s env v operands}
      (h : operands.elements = [v]) : Ends (.form .quote operands env) s (.ok v) s
  | lambda {s env operands formals body formal} (h : operands.elements = [formals, body])
      (hformal : Formal.ofValue? formals = some formal) :
      Ends (.form .lambda operands env) s
        (.ok (.lambda ⟨s.nextMark⟩ ⟨s.environments.size⟩ formal body))
        (s.grown (s.bindings env)).marked
  | badFormals {s env operands formals body} (h : operands.elements = [formals, body])
      (hformal : Formal.ofValue? formals = none) :
      Ends (.form .lambda operands env) s (.error (.eval (.badFormals formals.text))) s
  | badTarget {s env expr operands target}
      (h : operands.elements = [target, expr]) (htarget : target.symbol? = none) :
      Ends (.form .define operands env) s (.error (.eval (.badTarget target.text))) s
  | redefinition {s m env x expr operands} (h : operands.elements = [.symbol m x, expr])
      (hbound : (s.bindings env).contains x = true) :
      Ends (.form .define operands env) s (.error (.redefinition x)) s
  | currentEnvironment {s env operands} (h : operands.elements = []) :
      Ends (.form .currentEnvironment operands env) s (.ok (.environment ⟨s.nextMark⟩ env))
        s.marked
  | toggleDebug {s env operands} (h : operands.elements = []) :
      Ends (.form .toggleDebug operands env) s (.ok (.boolean ⟨s.nextMark⟩ !s.tracing))
        { s.marked with tracing := !s.tracing }
  | noOperands {s env v} (h : v.isPair = false) : Ends (.operands v env) s (.ok v) s
  | rejected {s m env closure body args formal cause} (h : formal.accept args = .error cause) :
      Ends (.application (.lambda m closure formal body) args env) s (.error (.apply cause))
        (s.trace (.applying (.lambda m closure formal body) args))
  | answered {s t m env v args p}
      (h : Procedures.call p args (s.trace (.applying (.native m p) args)) = (.ok (.value v), t)) :
      Ends (.application (.native m p) args env) s (.ok v) t
  | refused {s t m env args e p}
      (h : Procedures.call p args (s.trace (.applying (.native m p) args)) = (.error e, t)) :
      Ends (.application (.native m p) args env) s (.error e) t
  | notProcedure {s env v args} (h : v.isProcedure = false) :
      Ends (.application v args env) s (.error (.apply (.notProcedure v.text)))
        (s.trace (.applying v args))

/-- `t.Derives s r u`: taken up in `s`, the task comes to `r` and leaves `u`. -/
inductive Derives : Task → State → Except Error Value → State → Prop where
  | ends {s t r} {task : Task} (h : task.Ends s r t) : Derives task s r t
  | named {s t r m m' env x operands procedure}
      (hlist : operands.isList = true) (h : s.lookup env x = some procedure)
      (hcall : Derives (.call procedure operands env)
        (s.trace (.evaluating (.pair m (.symbol m' x) operands))) r t) :
      Derives (.expression (.pair m (.symbol m' x) operands) env) s r t
  | keyword {s t r m m' env x operands k}
      (hlist : operands.isList = true) (hfree : s.lookup env x = none)
      (hk : Keyword.ofName? x = some k)
      (hform : Derives (.form k operands env)
        (s.trace (.evaluating (.pair m (.symbol m' x) operands))) r t) :
      Derives (.expression (.pair m (.symbol m' x) operands) env) s r t
  | computed {s t u r m env head operands procedure}
      (hlist : operands.isList = true) (hsymbol : head.symbol? = none)
      (hhead : Derives (.expression head env) (s.trace (.evaluating (.pair m head operands)))
        (.ok procedure) t)
      (hcall : Derives (.call procedure operands env) t r u) :
      Derives (.expression (.pair m head operands) env) s r u
  | headFails {s t m env head operands e}
      (hlist : operands.isList = true) (hsymbol : head.symbol? = none)
      (hhead : Derives (.expression head env) (s.trace (.evaluating (.pair m head operands)))
        (.error e) t) :
      Derives (.expression (.pair m head operands) env) s (.error e) t
  | define {s t m env x v expr operands} (h : operands.elements = [.symbol m x, expr])
      (hfree : (s.bindings env).contains x = false)
      (hvalue : Derives (.expression expr env) s (.ok v) t)
      (hstill : (t.bindings env).contains x = false) :
      Derives (.form .define operands env) s (.ok (.unspecified ⟨t.nextMark⟩))
        (t.bind env x v).marked
  | definedMeanwhile {s t m env x v expr operands} (h : operands.elements = [.symbol m x, expr])
      (hfree : (s.bindings env).contains x = false)
      (hvalue : Derives (.expression expr env) s (.ok v) t)
      (hbound : (t.bindings env).contains x = true) :
      Derives (.form .define operands env) s (.error (.redefinition x)) t
  | valueFails {s t m env x expr operands e} (h : operands.elements = [.symbol m x, expr])
      (hfree : (s.bindings env).contains x = false)
      (hvalue : Derives (.expression expr env) s (.error e) t) :
      Derives (.form .define operands env) s (.error e) t
  | consequent {s t u r env v operands test consequent} {alternate : Option Value}
      (h : operands.elements = test :: consequent :: alternate.toList)
      (htest : Derives (.expression test env) s (.ok v) t) (htrue : v.isTrue = true)
      (hbranch : Derives (.expression consequent env) t r u) :
      Derives (.form .ifForm operands env) s r u
  | alternate {s t u r env v operands test consequent alternate}
      (h : operands.elements = [test, consequent, alternate])
      (htest : Derives (.expression test env) s (.ok v) t) (hfalse : v.isTrue = false)
      (hbranch : Derives (.expression alternate env) t r u) :
      Derives (.form .ifForm operands env) s r u
  | noAlternate {s t env v operands test consequent} (h : operands.elements = [test, consequent])
      (htest : Derives (.expression test env) s (.ok v) t) (hfalse : v.isTrue = false) :
      Derives (.form .ifForm operands env) s (.ok (.unspecified ⟨t.nextMark⟩)) t.marked
  | testFails {s t env operands test consequent e} {alternate : Option Value}
      (h : operands.elements = test :: consequent :: alternate.toList)
      (htest : Derives (.expression test env) s (.error e) t) :
      Derives (.form .ifForm operands env) s (.error e) t
  | call {s t u r env operands procedure args}
      (hoperands : Derives (.operands operands env) s (.ok args) t)
      (happlication : Derives (.application procedure args env) t r u) :
      Derives (.call procedure operands env) s r u
  | operandsFail {s t env operands procedure e}
      (hoperands : Derives (.operands operands env) s (.error e) t) :
      Derives (.call procedure operands env) s (.error e) t
  | operands {s t u m env v first rest vs} (hfirst : Derives (.expression first env) s (.ok v) t)
      (hrest : Derives (.operands rest env) t (.ok vs) u) :
      Derives (.operands (.pair m first rest) env) s (.ok (.pair ⟨u.nextMark⟩ v vs)) u.marked
  | firstFails {s t m env first rest e} (hfirst : Derives (.expression first env) s (.error e) t) :
      Derives (.operands (.pair m first rest) env) s (.error e) t
  | restFails {s t u m env v first rest e} (hfirst : Derives (.expression first env) s (.ok v) t)
      (hrest : Derives (.operands rest env) t (.error e) u) :
      Derives (.operands (.pair m first rest) env) s (.error e) u
  | body {s t r m env closure body args formal own} (h : formal.accept args = .ok own)
      (hbody : Derives (.expression body ⟨s.environments.size⟩)
        ((s.trace (.applying (.lambda m closure formal body) args)).grown
          (callBindings (s.bindings env) (s.bindings closure) own)) r t) :
      Derives (.application (.lambda m closure formal body) args env) s r t
  | explicit {s t u r m env inner expr args p}
      (h : Procedures.call p args (s.trace (.applying (.native m p) args)) =
        (.ok (.evaluation expr inner), t))
      (hexpr : Derives (.expression expr inner) { t with tracing := false } r u) :
      Derives (.application (.native m p) args env) s r { u with tracing := t.tracing }

end Task

end TinyLisp
